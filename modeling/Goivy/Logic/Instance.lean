import Goivy.Logic.Closed
import Goivy.Logic.Constraint
import Goivy.Util.InsMap

/-! The value of an instance of an expression. -/
namespace Goivy

variable {D : Domain} {M : Structure D}

/-- `env'` gives every variable the value that its substituted term has under `env`. -/
def Env.Instance (M : Structure D) (subs : List (Variable × Expr)) (env env' : Env D) : Prop :=
  ∀ v, (⟨v.sort, env' v⟩ : Val D) = ((subs.lookup v).getD (.var v)).eval M env

theorem Env.off_deduplicateAndSortVars {vs : List Variable} {env env' : Env D} :
    env.Off (deduplicateAndSortVars vs) env' ↔ env.Off vs env' := by
  simp [Env.Off, deduplicateAndSortVars]

namespace Expr

variable {subs newsubs : List (Variable × Expr)} {vs : List Variable}

/-- A substitution under a binder: no bound variable captures a substituted term. -/
theorem substituteWithoutBoundVariables_spec
    (h : substituteWithoutBoundVariables vs subs = .some newsubs) :
    (∀ v, newsubs.lookup v = if v ∈ vs then none else subs.lookup v) ∧
      ∀ v t, newsubs.lookup v = .some t → ∀ x ∈ t.freeVariables, x ∉ vs := by
  simp only [substituteWithoutBoundVariables] at h
  split at h
  · contradiction
  · rename_i captures
    cases h
    refine ⟨InsMap.lookup_filter_notMem vs subs, fun v t ht x hx bound => captures ?_⟩
    simp only [List.any_eq_true]
    exact ⟨x, bound, (v, t), InsMap.mem_of_lookup ht, decide_eq_true hx⟩

end Expr

namespace Env.Instance

variable {subs newsubs : List (Variable × Expr)} {vs : List Variable} {env env' : Env D}

/-- The assignments of the bound variables on the two sides. -/
theorem under (inst : Env.Instance M subs env env')
    (h : Expr.substituteWithoutBoundVariables vs subs = some newsubs) {envA envB : Env D}
    (off : env.Off vs envA) (off' : env'.Off vs envB) (bound : ∀ v ∈ vs, envA v = envB v) :
    Env.Instance M newsubs envA envB := by
  obtain ⟨inner, free⟩ := Expr.substituteWithoutBoundVariables_spec h
  intro v
  rw [inner]
  split
  · rename_i hv
    simp only [Option.getD_none, Expr.eval, bound v hv]
  · rename_i hv
    rw [off' v hv, inst v]
    cases ht : subs.lookup v with
    | none => simp only [Option.getD_none, Expr.eval, off v hv]
    | some t =>
      exact Expr.eval_freeVariables M fun x hx =>
        (off x (free v t (by rw [inner, if_neg hv, ht]) x hx)).symm

theorem exists_off (env env' : Env D) (vs : List Variable) :
    ∃ envB, env'.Off vs envB ∧ ∀ v ∈ vs, env v = envB v := by
  classical
  exact ⟨fun v => if v ∈ vs then env v else env' v, fun v hv => if_neg hv,
    fun v hv => (if_pos hv).symm⟩

/-- What can be said of some values of the bound variables is the same on both sides. -/
theorem exists_off_iff (inst : Env.Instance M subs env env')
    (h : Expr.substituteWithoutBoundVariables vs subs = some newsubs) {P Q : Env D → Prop}
    (same : ∀ envA envB, Env.Instance M newsubs envA envB → (P envA ↔ Q envB)) :
    (∃ envA, env.Off vs envA ∧ P envA) ↔ ∃ envB, env'.Off vs envB ∧ Q envB := by
  constructor
  · rintro ⟨envA, off, hP⟩
    obtain ⟨envB, off', bound⟩ := exists_off envA env' vs
    exact ⟨envB, off', (same envA envB (inst.under h off off' bound)).mp hP⟩
  · rintro ⟨envB, off', hQ⟩
    obtain ⟨envA, off, bound⟩ := exists_off envB env vs
    exact ⟨envA, off, (same envA envB (inst.under h off off' fun v hv => (bound v hv).symm)).mpr hQ⟩

theorem forall_off_iff (inst : Env.Instance M subs env env')
    (h : Expr.substituteWithoutBoundVariables vs subs = some newsubs) {P Q : Env D → Prop}
    (same : ∀ envA envB, Env.Instance M newsubs envA envB → (P envA ↔ Q envB)) :
    (∀ envA, env.Off vs envA → P envA) ↔ ∀ envB, env'.Off vs envB → Q envB := by
  have dual := inst.exists_off_iff h fun envA envB hi => not_congr (same envA envB hi)
  grind

end Env.Instance

namespace Expr

variable {subs : List (Variable × Expr)}

mutual
/-- No indefinite description occurs. -/
def descriptionFree : Expr → Bool
  | .var _ | .const _ => true
  | .apply _ ts | .and ts | .or ts => descriptionFreeList ts
  | .eq a b | .implies a b | .iff a b => a.descriptionFree && b.descriptionFree
  | .not a | .forAll _ a | .exists _ a => a.descriptionFree
  | .ite a b c => a.descriptionFree && b.descriptionFree && c.descriptionFree
  | .some _ _ | .someElse _ _ _ _ => false
def descriptionFreeList : List Expr → Bool
  | [] => true
  | t :: ts => t.descriptionFree && descriptionFreeList ts
end

theorem descriptionFreeList_iff {ts : List Expr} :
    descriptionFreeList ts = true ↔ ∀ t ∈ ts, t.descriptionFree = true := by
  induction ts with
  | nil => simp [descriptionFreeList]
  | cons t ts ih => simp [descriptionFreeList, ih]

theorem eval_substituteList {env env' : Env D} {ts us : List Expr} (h : substituteList ts subs = .some us)
    (ih : ∀ t ∈ ts, ∀ u, t.substitute subs = .some u → u.eval M env = t.eval M env') :
    evalList M us env = evalList M ts env' := by
  induction ts generalizing us with
  | nil =>
    cases h
    rfl
  | cons t ts tail =>
    simp only [substituteList, Option.bind_eq_some_iff, Option.map_eq_some_iff] at h
    obtain ⟨u, hu, us', hus, rfl⟩ := h
    rw [evalList, evalList, ih t List.mem_cons_self u hu,
      tail hus fun t ht => ih t (List.mem_cons_of_mem _ ht)]

/-- An instance has the value that the expression has at the values of the substituted terms. -/
theorem eval_substitute {e e' : Expr} (plain : e.descriptionFree = true) {env env' : Env D}
    (inst : Env.Instance M subs env env') (h : e.substitute subs = .some e') :
    e'.eval M env = e.eval M env' := by
  induction e generalizing subs e' env env' with
  | var v =>
    cases h
    exact (inst v).symm
  | const c =>
    cases h
    rfl
  | apply f ts ih =>
    rw [descriptionFree, descriptionFreeList_iff] at plain
    simp only [substitute, Option.bind_eq_some_iff] at h
    obtain ⟨us, hus, he⟩ := h
    have terms := eval_substituteList hus fun t ht u hu => ih t ht (plain t ht) inst hu
    cases newApply_eq he
    rw [eval, eval, terms]
  | and ts ih | or ts ih =>
    rw [descriptionFree, descriptionFreeList_iff] at plain
    simp only [substitute, Option.bind_eq_some_iff] at h
    obtain ⟨us, hus, he⟩ := h
    have terms := eval_substituteList hus fun t ht u hu => ih t ht (plain t ht) inst hu
    simp only [newAnd, newOr] at he
    split at he
    · cases he
      rw [eval, eval, terms]
    · contradiction
  | not a ha =>
    simp only [substitute, Option.bind_eq_some_iff, newNot] at h
    obtain ⟨a', sub, he⟩ := h
    have same := ha plain inst sub
    grind [eval]
  | eq a b ha hb | implies a b ha hb | iff a b ha hb =>
    simp only [descriptionFree, Bool.and_eq_true] at plain
    simp only [substitute, Option.bind_eq_some_iff, newEq, newImplies, newIff] at h
    obtain ⟨a', hsa, b', hsb, he⟩ := h
    have sameA := ha plain.1 inst hsa
    have sameB := hb plain.2 inst hsb
    grind [eval]
  | ite a b c ha hb hc =>
    simp only [descriptionFree, Bool.and_eq_true] at plain
    simp only [substitute, Option.bind_eq_some_iff, newIte] at h
    obtain ⟨a', hsa, b', hsb, c', hsc, he⟩ := h
    have sameA := ha plain.1.1 inst hsa
    have sameB := hb plain.1.2 inst hsb
    have sameC := hc plain.2 inst hsc
    grind [eval]
  | forAll vs a ha =>
    simp only [substitute, Option.bind_eq_some_iff, newForAll] at h
    obtain ⟨inner, hin, a', hsa, he⟩ := h
    split at he
    · contradiction
    · cases he
      simp only [eval, Env.off_deduplicateAndSortVars]
      exact congrArg Val.ofProp (propext (inst.forall_off_iff hin fun envA envB hi => by
        rw [ha plain hi hsa]))
  | «exists» vs a ha =>
    simp only [substitute, Option.bind_eq_some_iff, newExists] at h
    obtain ⟨inner, hin, a', hsa, he⟩ := h
    split at he
    · contradiction
    · cases he
      simp only [eval, Env.off_deduplicateAndSortVars]
      exact congrArg Val.ofProp (propext (inst.exists_off_iff hin fun envA envB hi => by
        rw [ha plain hi hsa]))
  | some vs a ha | someElse vs a b c ha hb hc => simp [descriptionFree] at plain

end Expr

end Goivy
