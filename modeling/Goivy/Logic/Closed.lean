import Goivy.Logic.Substitute
import Goivy.Logic.Semantics

/-! The value of an expression depends on its free variables only. -/
namespace Goivy

variable {D : Domain}

/-- The assignments that differ on `vs` only from two assignments which agree on some
other variables can be matched with each other. -/
theorem Env.Off.transfer {vs fv : List Variable} {env env' envA : Env D}
    (agree : ∀ v ∈ fv, v ∉ vs → env v = env' v) (off : env.Off vs envA) :
    ∃ envB, env'.Off vs envB ∧ (∀ v ∈ vs, envB v = envA v) ∧ ∀ v ∈ fv, envB v = envA v := by
  classical
  refine ⟨fun v => if v ∈ vs then envA v else env' v, fun v hv => if_neg hv,
    fun v hv => if_pos hv, fun v hv => ?_⟩
  by_cases h : v ∈ vs
  · exact if_pos h
  · simp only [if_neg h, off v h]
    exact (agree v hv h).symm

open Classical in
theorem Val.pick_congr {x : Variable} {vs : List Variable} {f : Env D → Val D} {env env' : Env D}
    (h : ∀ d, (∃ envA, env.Off vs envA ∧ (f envA).Holds ∧ envA x = d) ↔
      ∃ envA, env'.Off vs envA ∧ (f envA).Holds ∧ envA x = d) :
    Val.pick x vs f env = Val.pick x vs f env' :=
  congrArg (fun P : El D x.sort → Prop => if h : ∃ d, P d then (⟨x.sort, h.choose⟩ : Val D)
    else ⟨x.sort, Classical.arbitrary _⟩) (funext fun d => propext (h d))

open Classical in
theorem Val.pickElse_congr {vs : List Variable} {f a b : Env D → Val D} {env env' : Env D}
    (h : ∀ d, (∃ envA, env.Off vs envA ∧ (f envA).Holds ∧ a envA = d) ↔
      ∃ envA, env'.Off vs envA ∧ (f envA).Holds ∧ a envA = d) (else' : b env = b env') :
    Val.pickElse vs f a b env = Val.pickElse vs f a b env' :=
  congrArg₂ (fun (P : Val D → Prop) (v : Val D) => if h : ∃ d, P d then h.choose else v)
    (funext fun d => propext (h d)) else'

/-- An existential over the changed variables carries over in both directions. -/
theorem Env.exists_off_congr {vs : List Variable} (fv : List Variable) {env env' : Env D} {P : Env D → Prop}
    (agree : ∀ v ∈ fv, v ∉ vs → env v = env' v)
    (hP : ∀ envA envB : Env D, (∀ v ∈ vs, envB v = envA v) → (∀ v ∈ fv, envB v = envA v) →
      (P envA ↔ P envB)) :
    (∃ envA, env.Off vs envA ∧ P envA) ↔ ∃ envA, env'.Off vs envA ∧ P envA := by
  constructor
  · rintro ⟨envA, off, h⟩
    obtain ⟨envB, off', bound, free⟩ := off.transfer agree
    exact ⟨envB, off', (hP envA envB bound free).mp h⟩
  · rintro ⟨envA, off, h⟩
    obtain ⟨envB, off', bound, free⟩ := off.transfer fun v hv hvs => (agree v hv hvs).symm
    exact ⟨envB, off', (hP envA envB bound free).mp h⟩

namespace Expr

theorem eval_freeVariables (M : Structure D) {e : Expr} {env env' : Env D}
    (agree : ∀ v ∈ e.freeVariables, env v = env' v) : e.eval M env = e.eval M env' := by
  induction e generalizing env env' with
  | var v => simp [eval, agree v (by simp [freeVariables])]
  | const c => rfl
  | apply f ts ih | and ts ih | or ts ih =>
    have terms : ts.map (fun t => t.eval M env) = ts.map (fun t => t.eval M env') :=
      List.map_congr_left fun t ht => ih t ht fun v hv => agree v (by
        simp only [freeVariables, freeVariablesList_eq_flatMap]; grind)
    simp only [eval, evalList_eq_map, terms]
  | not a ha => simp only [eval, ha agree]
  | eq a b ha hb | implies a b ha hb | iff a b ha hb =>
    simp only [freeVariables, List.mem_append] at agree
    simp only [eval, ha fun v h => agree v (.inl h), hb fun v h => agree v (.inr h)]
  | ite a b c ha hb hc =>
    simp only [freeVariables, List.mem_append] at agree
    simp only [eval, ha fun v h => agree v (.inl (.inl h)), hb fun v h => agree v (.inl (.inr h)),
      hc fun v h => agree v (.inr h)]
  | «exists» vs a ha =>
    simp only [freeVariables, List.mem_filter, decide_eq_true_eq, and_imp] at agree
    have body := Env.exists_off_congr _ (P := fun env => (a.eval M env).Holds) agree
      fun envA envB _ free => by rw [ha free]
    simp only [eval, body]
  | forAll vs a ha =>
    simp only [freeVariables, List.mem_filter, decide_eq_true_eq, and_imp] at agree
    have body := Env.exists_off_congr _ (P := fun env => ¬ (a.eval M env).Holds) agree
      fun envA envB _ free => by rw [ha free]
    have all : (∀ env₂, env.Off vs env₂ → (a.eval M env₂).Holds) ↔
        ∀ env₂, env'.Off vs env₂ → (a.eval M env₂).Holds := by
      simpa only [not_exists, not_and, not_not] using not_congr body
    simp only [eval, all]
  | some vs a ha =>
    cases vs with
    | nil => rfl
    | cons x vs =>
      simp only [freeVariables, List.mem_append] at agree
      refine Val.pick_congr fun d => Env.exists_off_congr a.freeVariables
        (P := fun env => (a.eval M env).Holds ∧ env x = d)
        (fun v hv _ => agree v (.inr hv)) fun envA envB bound free => ?_
      rw [ha free, bound x List.mem_cons_self]
  | someElse vs a b c ha hb hc =>
    simp only [freeVariables, List.mem_append] at agree
    refine Val.pickElse_congr (fun d => Env.exists_off_congr
      (a.freeVariables ++ b.freeVariables)
      (P := fun env => (a.eval M env).Holds ∧ b.eval M env = d)
      (fun v hv _ => agree v (.inl ?_)) fun envA envB _ free => ?_) (hc fun v hv => agree v (.inr hv))
    · obtain hv | hv := List.mem_append.mp hv
      · exact .inl (.inr hv)
      · exact .inr hv
    · rw [ha fun v hv => free v (List.mem_append_left _ hv),
        hb fun v hv => free v (List.mem_append_right _ hv)]

/-- A closed formula is true under all assignments or under none. -/
theorem valid_of_holds {M : Structure D} {e : Expr} (closed : e.freeVariables = []) {env : Env D}
    (h : e.Holds M env) : e.Valid M := by
  intro env'
  have : e.eval M env' = e.eval M env := eval_freeVariables M (by simp [closed])
  exact (holds_congr M env' this).mpr h

end Expr

end Goivy
