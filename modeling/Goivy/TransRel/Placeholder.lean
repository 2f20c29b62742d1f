import Goivy.TransRel.AtomicUpdate
import Goivy.Logic.Sorting
import Goivy.Logic.Instance

/-! Substitution of placeholders for the variables of an action. -/
namespace Goivy

namespace Expr

mutual
/-- No quantifier captures a substituted variable. -/
def CaptureFree : Expr → List (String × Variable) → Prop
  | .var _, _ | .const _, _ => True
  | .apply _ ts, subs | .and ts, subs | .or ts, subs => CaptureFreeList ts subs
  | .eq a b, subs | .implies a b, subs | .iff a b, subs => a.CaptureFree subs ∧ b.CaptureFree subs
  | .not a, subs | .some _ a, subs => a.CaptureFree subs
  | .ite a b c, subs | .someElse _ a b c, subs =>
    a.CaptureFree subs ∧ b.CaptureFree subs ∧ c.CaptureFree subs
  | .forAll vs a, subs | .exists vs a, subs =>
    (∀ v ∈ a.usedVariables, v.name ∉ vs.map Variable.name → ∀ w, subs.lookup v.name = Option.some w →
      w.name ∉ vs.map Variable.name) ∧ a.CaptureFree (subs.filter (·.1 ∉ vs.map Variable.name))
def CaptureFreeList : List Expr → List (String × Variable) → Prop
  | [], _ => True
  | t :: ts, subs => t.CaptureFree subs ∧ CaptureFreeList ts subs
end

theorem captureFreeList_iff {ts : List Expr} {subs : List (String × Variable)} :
    CaptureFreeList ts subs ↔ ∀ t ∈ ts, t.CaptureFree subs := by
  induction ts with
  | nil => simp [CaptureFreeList]
  | cons t ts ih => simp [CaptureFreeList, ih]

theorem usedVariablesList_eq_flatMap (ts : List Expr) :
    usedVariablesList ts = ts.flatMap usedVariables := by
  induction ts with
  | nil => rfl
  | cons t ts ih => simp [usedVariablesList, ih]

theorem substituteAstListByName_eq_map (ts : List Expr) (subs : List (String × Variable)) :
    substituteAstListByName ts subs = ts.map (·.substituteAst subs) := by
  induction ts with
  | nil => rfl
  | cons t ts ih => simp [substituteAstListByName, ih]

/-- A variable whose name is not bound is free. -/
theorem usedVariables_subset (e : Expr) : ∀ v ∈ e.usedVariables, v ∈ e.freeVariables := by
  induction e with
  | var | const => simp [usedVariables, freeVariables]
  | apply f ts ih | and ts ih | or ts ih =>
    simp only [usedVariables, freeVariables, usedVariablesList_eq_flatMap, freeVariablesList_eq_flatMap,
      List.mem_flatMap]
    rintro v ⟨t, ht, hv⟩
    exact ⟨t, ht, ih t ht v hv⟩
  | not a ha => exact ha
  | forAll vs a ha | «exists» vs a ha =>
    simp only [usedVariables, freeVariables, List.mem_filter, decide_eq_true_eq]
    rintro v ⟨used, free⟩
    exact ⟨ha v used, fun bound => free (List.mem_map_of_mem bound)⟩
  | _ =>
    simp only [usedVariables, freeVariables, List.mem_append]
    grind

theorem substituteAst_nil (e : Expr) : e.substituteAst [] = e := by
  induction e with
  | apply f ts ih | and ts ih | or ts ih =>
    rw [substituteAst, substituteAstListByName_eq_map, List.map_congr_left ih, List.map_id']
  | _ => simp_all [substituteAst]

end Expr

theorem lookup_filter_names (subs : List (String × Variable)) (names : List String) (n : String) :
    (subs.filter (·.1 ∉ names)).lookup n = if n ∈ names then none else subs.lookup n := by
  induction subs with
  | nil => simp
  | cons p subs ih =>
    obtain ⟨m, w⟩ := p
    by_cases bound : m ∈ names
    · rw [List.filter_cons_of_neg (by simpa using bound), ih]
      split
      · rfl
      · rename_i free
        rw [InsMap.lookup_cons, if_neg (by rintro rfl; exact free bound)]
    · rw [List.filter_cons_of_pos (by simpa using bound), InsMap.lookup_cons, InsMap.lookup_cons, ih]
      split
      · rename_i same
        rw [if_neg (same ▸ bound)]
      · rfl

variable {D : Domain} {M : Structure D} {subs : List (String × Variable)} {bound vs : List Variable}

/-- `env'` gives the variables of `e` the values of the variables for them under `env`. -/
def Env.Stands (M : Structure D) (subs : List (String × Variable)) (e : Expr) (env env' : Env D) : Prop :=
  ∀ v ∈ e.usedVariables, (⟨v.sort, env' v⟩ : Val D) =
    (Expr.var ((subs.lookup v.name).getD v)).eval M env

theorem Env.Stands.under {e : Expr} {env env' envA envB : Env D}
    (h : ∀ v ∈ e.usedVariables, v.name ∉ vs.map Variable.name → (⟨v.sort, env' v⟩ : Val D) =
      (Expr.var ((subs.lookup v.name).getD v)).eval M env)
    (binds : ∀ v ∈ e.usedVariables, Binds (vs ++ bound) v)
    (clear : ∀ v ∈ e.usedVariables, v.name ∉ vs.map Variable.name → ∀ w, subs.lookup v.name = some w →
      w.name ∉ vs.map Variable.name)
    (off : env.Off vs envA) (off' : env'.Off vs envB) (inner : ∀ v ∈ vs, envA v = envB v) :
    Env.Stands M (subs.filter (·.1 ∉ vs.map Variable.name)) e envA envB := by
  intro v used
  rw [lookup_filter_names]
  rcases binds_append.mp (binds v used) with here | ⟨free, _⟩
  · rw [if_pos (List.mem_map_of_mem here.mem), Option.getD_none, Expr.eval, inner v here.mem]
  · have outside : ∀ w : Variable, w.name ∉ vs.map Variable.name → w ∉ vs :=
      fun w name mem => name (List.mem_map_of_mem mem)
    rw [if_neg free, off' v (outside v free), h v used free, Expr.eval, Expr.eval, off]
    cases value : subs.lookup v.name with
    | none => exact outside v free
    | some w => exact outside w (clear v used free w value)

/-- The same can be said of the values of the bound variables on both sides. -/
theorem exists_off_iff {env env' : Env D} {P Q : Env D → Prop}
    (same : ∀ envA envB, env.Off vs envA → env'.Off vs envB → (∀ v ∈ vs, envA v = envB v) →
      (P envA ↔ Q envB)) : (∃ envA, env.Off vs envA ∧ P envA) ↔ ∃ envB, env'.Off vs envB ∧ Q envB := by
  constructor
  · rintro ⟨envA, off, holds⟩
    obtain ⟨envB, off', inner⟩ := Env.Instance.exists_off envA env' vs
    exact ⟨envB, off', (same envA envB off off' inner).mp holds⟩
  · rintro ⟨envB, off', holds⟩
    obtain ⟨envA, off, inner⟩ := Env.Instance.exists_off envB env vs
    exact ⟨envA, off, (same envA envB off off' fun v mem => (inner v mem).symm).mpr holds⟩

theorem forall_off_iff {env env' : Env D} {P Q : Env D → Prop}
    (same : ∀ envA envB, env.Off vs envA → env'.Off vs envB → (∀ v ∈ vs, envA v = envB v) →
      (P envA ↔ Q envB)) : (∀ envA, env.Off vs envA → P envA) ↔ ∀ envB, env'.Off vs envB → Q envB := by
  have dual := exists_off_iff fun envA envB off off' inner => not_congr (same envA envB off off' inner)
  grind

namespace Expr

/-- A well-sorted expression after substitution has the value that it has at the substituted values. -/
theorem eval_substituteAst {e : Expr} {s : FSort} (h : e.HasSort bound s) (clear : e.CaptureFree subs)
    {env env' : Env D} (stands : Env.Stands M subs e env env') :
    (e.substituteAst subs).eval M env = e.eval M env' := by
  induction e generalizing subs bound s env env' with
  | var v => exact (stands v (by simp [usedVariables])).symm
  | const c => rfl
  | apply f ts ih =>
    obtain ⟨domain, -, sorts⟩ := h
    rw [substituteAst, eval, eval, substituteAstListByName_eq_map, evalList_eq_map, evalList_eq_map,
      List.map_map]
    refine congrArg (M.value f) (List.map_congr_left fun t ht => ?_)
    obtain ⟨s, hs⟩ := sorts.exists_sort t ht
    refine ih t ht hs (captureFreeList_iff.mp clear t ht) fun v hv => stands v ?_
    rw [usedVariables, usedVariablesList_eq_flatMap]
    exact List.mem_flatMap.mpr ⟨t, ht, hv⟩
  | and ts ih | or ts ih =>
    have terms : ts.map (fun t => (t.substituteAst subs).eval M env) = ts.map (fun t => t.eval M env') := by
      refine List.map_congr_left fun t ht => ih t ht (hasSorts_map.mp h.2 t ht)
        (captureFreeList_iff.mp clear t ht) fun v hv => stands v ?_
      rw [usedVariables, usedVariablesList_eq_flatMap]
      exact List.mem_flatMap.mpr ⟨t, ht, hv⟩
    simp only [substituteAst, eval, substituteAstListByName_eq_map, evalList_eq_map, List.map_map,
      Function.comp_def, terms]
  | not a ha => simp only [substituteAst, eval, ha h.2 clear stands]
  | eq a b ha hb =>
    obtain ⟨-, t, sortA, sortB⟩ := h
    simp only [substituteAst, eval,
      ha sortA clear.1 fun v hv => stands v (List.mem_append_left _ hv),
      hb sortB clear.2 fun v hv => stands v (List.mem_append_right _ hv)]
  | implies a b ha hb | iff a b ha hb =>
    simp only [substituteAst, eval,
      ha h.2.1 clear.1 fun v hv => stands v (List.mem_append_left _ hv),
      hb h.2.2 clear.2 fun v hv => stands v (List.mem_append_right _ hv)]
  | ite a b c ha hb hc =>
    have used : ∀ v, v ∈ (Expr.ite a b c).usedVariables ↔
        (v ∈ a.usedVariables ∨ v ∈ b.usedVariables) ∨ v ∈ c.usedVariables := by
      simp [usedVariables, or_assoc]
    simp only [substituteAst, eval,
      ha h.1 clear.1 fun v hv => stands v ((used v).mpr (.inl (.inl hv))),
      hb h.2.1 clear.2.1 fun v hv => stands v ((used v).mpr (.inl (.inr hv))),
      hc h.2.2 clear.2.2 fun v hv => stands v ((used v).mpr (.inr hv))]
  | forAll vs a ha =>
    have body := forall_off_iff (P := fun envA => ((a.substituteAst
        (subs.filter (·.1 ∉ vs.map Variable.name))).eval M envA).Holds)
      (Q := fun envB => (a.eval M envB).Holds) fun envA envB off off' inner => by
        rw [ha h.2.2 clear.2 (Env.Stands.under (fun v hv free => stands v (by
          simpa [usedVariables] using ⟨hv, by simpa using free⟩))
          (fun v hv => binds_of_mem_freeVariables h.2.2 v (usedVariables_subset a v hv)) clear.1 off off' inner)]
    simp only [substituteAst]
    split
    · rename_i none
      rw [List.isEmpty_iff.mp none] at body
      simp only [substituteAst_nil] at body
      simp only [eval, body]
    · simp only [eval, Env.off_deduplicateAndSortVars, body]
  | «exists» vs a ha =>
    have body := exists_off_iff (P := fun envA => ((a.substituteAst
        (subs.filter (·.1 ∉ vs.map Variable.name))).eval M envA).Holds)
      (Q := fun envB => (a.eval M envB).Holds) fun envA envB off off' inner => by
        rw [ha h.2.2 clear.2 (Env.Stands.under (fun v hv free => stands v (by
          simpa [usedVariables] using ⟨hv, by simpa using free⟩))
          (fun v hv => binds_of_mem_freeVariables h.2.2 v (usedVariables_subset a v hv)) clear.1 off off' inner)]
    simp only [substituteAst]
    split
    · rename_i none
      rw [List.isEmpty_iff.mp none] at body
      simp only [substituteAst_nil] at body
      simp only [eval, body]
    · simp only [eval, Env.off_deduplicateAndSortVars, body]
  | some | someElse => exact h.elim

end Expr

end Goivy
