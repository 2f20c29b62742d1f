import Goivy.Module.Negation

/-! The negations that the checkers put to the solver: variables become witness constants. -/
namespace Goivy

/-- The constants that stand for the variables of a negated condition. -/
def Const.Witness (c : Const) : Prop := c.name.toList.head? = some '@'

instance : DecidablePred Const.Witness := fun c => inferInstanceAs (Decidable (c.name.toList.head? = some '@'))

/-- `witness`: `VarToSkolem` with the prefix of the checkers. -/
def witness (v : Variable) : Const := ⟨"@" ++ v.name, .first v.sort⟩

/-- The substitution of `dualWitness`. -/
def witnessSubs (vs : List Variable) : List (Variable × Expr) := vs.map fun v => (v, .const (witness v))

theorem witness_witness (v : Variable) : (witness v).Witness := by
  simp [Const.Witness, witness, String.toList_append]

section Values

variable {D : Domain} {M N : Structure D} {vs : List Variable}

theorem lookup_witnessSubs (vs : List Variable) (v : Variable) :
    (witnessSubs vs).lookup v = if v ∈ vs then some (.const (witness v)) else none := by
  induction vs with
  | nil => rfl
  | cons w vs ih =>
    rw [witnessSubs, List.map_cons, InsMap.lookup_cons, ← witnessSubs, ih]
    simp only [List.mem_cons]
    grind

theorem witnessSubs_constants {p : Variable × Expr} (h : p ∈ witnessSubs vs) : ∃ c, p.2 = .const c := by
  obtain ⟨v, -, rfl⟩ := List.mem_map.mp h
  exact ⟨_, rfl⟩

/-- The witnesses can be given the values of the variables. -/
theorem exists_witnessValues (M : Structure D) (distinct : (vs.map Variable.name).Nodup) (env : Env D) :
    ∃ N : Structure D, AgreeOff Const.Witness M N ∧ ∀ v ∈ vs, N.value (witness v) [] = ⟨v.sort, env v⟩ := by
  have names : ((vs.map fun v => (witness v, (⟨v.sort, env v⟩ : Val D))).map fun p => p.1.name).Nodup := by
    have injective : Function.Injective ("@" ++ ·) := fun _ _ h => (String.append_right_inj "@").mp h
    simpa [Function.comp_def, witness] using distinct.map injective
  obtain ⟨N, agree, values⟩ := exists_values M _ names (List.forall_mem_map.mpr fun v _ => rfl)
  rw [List.forall_mem_map] at values
  refine ⟨N, fun c hc => agree c fun mem => hc ?_, values⟩
  simp only [List.map_map, List.mem_map, Function.comp_apply] at mem
  obtain ⟨v, -, rfl⟩ := mem
  exact witness_witness v

/-- An assignment for a formula with its variables replaced by witnesses. -/
theorem instance_witnessSubs {env₀ : Env D} (values : ∀ v ∈ vs, N.value (witness v) [] = ⟨v.sort, env₀ v⟩)
    (env : Env D) : Env.Instance N (witnessSubs vs) env fun v => if v ∈ vs then env₀ v else env v := by
  intro v
  rw [lookup_witnessSubs]
  by_cases mem : v ∈ vs
  · simpa [mem, Expr.eval] using (values v mem).symm
  · simp [mem, Expr.eval]

end Values

namespace Clauses

variable {D : Domain} {M N : Structure D} {cl : Clauses}

/-- The formula that is negated. -/
def witnessed (cl : Clauses) : Expr :=
  (cl.substituteNodesClauses (witnessSubs cl.usedVariablesOrdered)).clausesToFormula

/-- `DualClauses` with the witnesses of the checkers, without an instantiator. -/
def dualWitness (cl : Clauses) : Clauses := ofFormula cl.witnessed.negate

/-- Conditions that the checkers negate exactly: no definitions, no descriptions, no
witnesses of their own, and no variable that is left over. -/
structure Checkable (cl : Clauses) : Prop where
  noDefs : cl.defs = []
  plain : ∀ f ∈ cl.fmlas, f.descriptionFree = true
  noWitness : ∀ c ∈ cl.symbols, ¬ c.Witness
  closed : cl.witnessed.freeVariables = []

section Exact

variable (checkable : cl.Checkable)
include checkable

theorem sat_checkable : cl.Sat M ↔ ∀ f ∈ cl.fmlas, f.Valid M := by
  rw [Sat, checkable.noDefs]
  simp

theorem nodup_checkable : (cl.usedVariablesOrdered.map Variable.name).Nodup := by
  rw [usedVariablesOrdered, checkable.noDefs, List.foldl_nil,
    Expr.collectVarsOrderedList_eq fun t _ => t.collectVarsOrdered_eq]
  exact nodup_noteName List.nodup_nil

theorem sat_witnessed : (cl.substituteNodesClauses (witnessSubs cl.usedVariablesOrdered)).Sat N ↔
    ∀ f ∈ cl.fmlas, (f.substituteNodes (witnessSubs cl.usedVariablesOrdered)).Valid N := by
  rw [substituteNodesClauses]
  split
  · rename_i noSubs
    rw [List.isEmpty_iff.mp noSubs, sat_checkable checkable]
    refine forall₂_congr fun f hf => forall_congr' fun env => Expr.holds_congr _ _ ?_
    exact (Expr.eval_replace (checkable.plain f hf) (fun _ hp => absurd hp List.not_mem_nil)
      fun v => by simp [Expr.eval]).symm
  · rw [sat_new, checkable.noDefs, List.forall_mem_map]
    simp

theorem sat_dualWitness : cl.dualWitness.Sat N ↔
    ¬ ∀ f ∈ cl.fmlas, (f.substituteNodes (witnessSubs cl.usedVariablesOrdered)).Valid N := by
  rw [dualWitness, sat_ofFormula, Expr.valid_negate, ← sat_witnessed checkable, ← valid_clausesToFormula]
  constructor
  · exact fun never valid => never (Classical.arbitrary _) (valid _)
  · exact fun some_ env holds => some_ (Expr.valid_of_holds checkable.closed holds)

/-- A formula of the condition with witnesses that have the values of the variables. -/
theorem eval_witnessed {f : Expr} (hf : f ∈ cl.fmlas) {env₀ : Env D} (env : Env D)
    (values : ∀ v ∈ cl.usedVariablesOrdered, N.value (witness v) [] = ⟨v.sort, env₀ v⟩) :
    (f.substituteNodes (witnessSubs cl.usedVariablesOrdered)).eval N env =
      f.eval N fun v => if v ∈ cl.usedVariablesOrdered then env₀ v else env v :=
  Expr.eval_replace (checkable.plain f hf) (fun _ hp => witnessSubs_constants hp) (instance_witnessSubs values env)

theorem eval_noWitness (agree : AgreeOff Const.Witness M N) {f : Expr} (hf : f ∈ cl.fmlas) :
    f.eval M = f.eval N := by
  refine Expr.eval_congr fun c hc => agree c (checkable.noWitness c ?_)
  exact List.mem_append_left _ (List.mem_flatMap.mpr ⟨f, hf, hc⟩)

/-- The negation holds for some values of the witnesses exactly where the condition fails. -/
theorem sat_dualWitness_iff :
    (∃ N, AgreeOff Const.Witness M N ∧ cl.dualWitness.Sat N) ↔ ¬ cl.Sat M := by
  simp only [sat_dualWitness checkable]
  constructor
  · rintro ⟨N, agree, false_⟩ sat
    rw [sat_checkable checkable] at sat
    let env₀ : Env D := fun v => (N.value (witness v) []).2
    refine false_ fun f hf env => ?_
    rw [Expr.Holds, eval_witnessed (N := N) checkable hf env fun v _ => rfl,
      ← eval_noWitness checkable agree hf]
    exact sat f hf _
  · intro false_
    rw [sat_checkable checkable] at false_
    simp only [Expr.Valid, not_forall] at false_
    obtain ⟨f, hf, env₀, fails⟩ := false_
    obtain ⟨N, agree, values⟩ := exists_witnessValues M (nodup_checkable checkable) env₀
    refine ⟨N, agree, fun valid => fails ?_⟩
    have holds := valid f hf env₀
    rw [Expr.Holds, eval_witnessed checkable hf env₀ values, ← eval_noWitness checkable agree hf] at holds
    simp only [ite_self] at holds
    exact holds

/-- Among structures that say nothing about witnesses, the negation finds those where the
condition fails. -/
theorem exists_dualWitness {T : Set (Structure D)}
    (ignores : ∀ s ∈ T, ∀ t, AgreeOff Const.Witness s t → t ∈ T) :
    (∃ s ∈ T, cl.dualWitness.Sat s) ↔ ∃ s ∈ T, ¬ cl.Sat s := by
  constructor
  · rintro ⟨s, hs, dual⟩
    exact ⟨s, hs, (sat_dualWitness_iff checkable).mp ⟨s, AgreeOff.refl _ _, dual⟩⟩
  · rintro ⟨s, hs, fails⟩
    obtain ⟨t, agree, dual⟩ := (sat_dualWitness_iff checkable).mpr fails
    exact ⟨t, ignores s hs t agree, dual⟩

end Exact

end Clauses

end Goivy
