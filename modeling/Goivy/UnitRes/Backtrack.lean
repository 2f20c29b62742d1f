import Goivy.UnitRes.Soundness

/-! When `Pop` undoes what happened since its `Push`. -/
namespace Goivy

/-- An operation on an engine. -/
inductive EngineOp where
  | addClause (cl : UnitResClause)
  | propagate (fuel : Nat)
  | push
  | pop

namespace UnitRes

variable (order : IterationOrder)

def apply (ur : UnitRes) : EngineOp → Except Fault UnitRes
  | .addClause cl => ur.addClause order cl
  | .propagate fuel => ur.propagate order fuel
  | .push => .ok ur.push
  | .pop => .ok ur.pop

def run (ops : List EngineOp) (ur : UnitRes) : Except Fault UnitRes :=
  ops.foldlM (fun ur op => ur.apply order op) ur

/-- The operation changes neither the arrays nor the index: an empty clause, a unit clause that
is true or subsumed, or a propagation where no unit is pending. -/
def Quiet (ur : UnitRes) : EngineOp → Prop
  | .addClause [] => True
  | .addClause [l] => (ur.litRep (canonizeLiteral "V" l)).isTautLit = true ∨
      ur.unitSubsumed order (ur.litRep (canonizeLiteral "V" l)) = .ok true
  | .propagate _ => ¬ ur.usedUnits < ur.unitQueue.length
  | _ => False

/-- Operations with nested `Push` and `Pop`, all of them quiet where they happen. -/
inductive Nested : UnitRes → List EngineOp → Prop
  | nil (ur : UnitRes) : Nested ur []
  | step {ur ur' : UnitRes} {op : EngineOp} {ops : List EngineOp} : Quiet order ur op →
      ur.apply order op = .ok ur' → Nested ur' ops → Nested ur (op :: ops)
  | block {ur : UnitRes} {inner ops : List EngineOp} : Nested ur.push inner → Nested ur ops →
      Nested ur (.push :: inner ++ .pop :: ops)

/-- Additions and propagations with properly nested `Push` and `Pop`. -/
inductive Balanced : List EngineOp → Prop
  | nil : Balanced []
  | addClause {cl : UnitResClause} {ops : List EngineOp} : (∀ l ∈ cl, l.Sorted) → Balanced ops →
      Balanced (.addClause cl :: ops)
  | propagate {fuel : Nat} {ops : List EngineOp} : Balanced ops → Balanced (.propagate fuel :: ops)
  | block {inner ops : List EngineOp} : Balanced inner → Balanced ops →
      Balanced (.push :: inner ++ .pop :: ops)

/-- The states of the runs where all that happens between a `Push` and its `Pop` is quiet. -/
inductive Reached : UnitRes → Prop
  | empty : Reached empty
  | addClause {ur ur' : UnitRes} {cl : UnitResClause} : Reached ur → (∀ l ∈ cl, l.Sorted) →
      ur.addClause order cl = .ok ur' → Reached ur'
  | propagate {ur ur' : UnitRes} {fuel : Nat} : Reached ur → ur.propagate order fuel = .ok ur' →
      Reached ur'
  | push {ur : UnitRes} : Reached ur → Reached ur.push
  | block {ur ur' : UnitRes} {inner : List EngineOp} : Reached ur → Nested order ur.push inner →
      run order (.push :: inner ++ [.pop]) ur = .ok ur' → Reached ur'

variable {order}

theorem run_append (ops ops' : List EngineOp) (ur : UnitRes) :
    run order (ops ++ ops') ur = run order ops ur >>= run order ops' := by
  simp [run, List.foldlM_append]
  rfl

/-- A quiet operation changes at most the flag and the number of used units. -/
theorem quiet_apply {ur ur' : UnitRes} {op : EngineOp} (quiet : Quiet order ur op)
    (applied : ur.apply order op = .ok ur') :
    ∃ unsat usedUnits, ur' = { ur with unsat, usedUnits } := by
  match op, quiet with
  | .addClause [], _ =>
    cases applied
    exact ⟨true, ur.unitQueue.length, rfl⟩
  | .addClause [l], quiet =>
    have basic : ur.addClauseBasic order [l] = .ok ur' := by
      simpa [apply, addClause, addedClauses] using applied
    simp only [addClauseBasic] at basic
    obtain taut | subsumed := quiet
    · rw [if_pos taut] at basic
      cases basic
      exact ⟨_, _, rfl⟩
    · rw [subsumed] at basic
      split at basic
      · cases basic
        exact ⟨_, _, rfl⟩
      · cases basic
        exact ⟨_, _, rfl⟩
  | .propagate fuel, quiet =>
    simp only [apply] at applied
    unfold propagate at applied
    rw [if_neg quiet] at applied
    cases applied
    exact ⟨_, _, rfl⟩

/-- `Pop` restores the state before its `Push` when only the flag and the number of used
units are different. -/
theorem pop_push (ur : UnitRes) (unsat : Bool) (usedUnits : Nat) :
    ({ ur.push with unsat, usedUnits } : UnitRes).pop = ur := by
  have theory : ur.equationalTheory.push.pop = ur.equationalTheory := by
    obtain ⟨tab, trail, pushes⟩ := ur.equationalTheory
    cases trail with
    | nil => rfl
    | cons entry rest => exact if_neg (Nat.lt_irrefl _)
  simp only [push, pop, unitRange, Nat.sub_self, List.range_zero, List.map_nil, List.foldl_nil,
    List.take_length, theory]

theorem nested_run {ur : UnitRes} {ops : List EngineOp} (nested : Nested order ur ops) :
    ∃ unsat usedUnits, run order ops ur = .ok { ur with unsat, usedUnits } := by
  induction nested with
  | nil ur => exact ⟨_, _, rfl⟩
  | step quiet applied _ ih =>
    obtain ⟨unsat, usedUnits, rfl⟩ := quiet_apply quiet applied
    obtain ⟨unsat', usedUnits', rest⟩ := ih
    refine ⟨unsat', usedUnits', ?_⟩
    rw [run, List.foldlM_cons, applied]
    exact rest
  | block _ _ ihInner ihOps =>
    obtain ⟨unsat, usedUnits, inner⟩ := ihInner
    obtain ⟨unsat', usedUnits', rest⟩ := ihOps
    refine ⟨unsat', usedUnits', ?_⟩
    rw [List.cons_append, run, List.foldlM_cons]
    change run order (_ ++ .pop :: _) _ = _
    rw [run_append, inner]
    change run order _ (pop _) = _
    rw [pop_push]
    exact rest

/-- The block has no effect. -/
theorem block_run {ur : UnitRes} {inner : List EngineOp} (nested : Nested order ur.push inner)
    (later : List EngineOp) :
    run order (.push :: inner ++ .pop :: later) ur = run order later ur := by
  obtain ⟨unsat, usedUnits, ran⟩ := nested_run nested
  rw [List.cons_append, run, List.foldlM_cons]
  change run order (_ ++ .pop :: _) _ = _
  rw [run_append, ran]
  change run order _ (pop _) = _
  rw [pop_push]

/-- Reached states are in range and well sorted. -/
theorem reached_next {ur : UnitRes} (reached : Reached order ur) :
    ur.InRange ∧ ur.Sound False (Structure.indistinct Domain.unit) := by
  have rules := sound_inferences False (Structure.indistinct Domain.unit) order
  induction reached with
  | empty => exact ⟨⟨fun _ _ h => absurd h List.not_mem_nil, fun _ _ h => absurd h List.not_mem_nil,
      le_rfl⟩, empty_sound⟩
  | addClause _ sorted added ih =>
    have next := addClause_next rules ih.1 ih.2 ⟨sorted, fun h => h.elim⟩
    rw [added] at next
    exact ⟨next.inRange, next.holds⟩
  | @propagate _ _ fuel _ propagated ih =>
    have next := propagate_next_short rules fuel ih.1 ih.2
    rw [propagated] at next
    exact ⟨next.inRange, next.holds⟩
  | push _ ih =>
    exact ⟨⟨ih.1.units, ih.1.terms, ih.1.used⟩, ih.2.units, ih.2.clauses,
      ⟨ih.2.sorts.sound, ih.2.sorts.terms⟩, fun h => h.elim, fun h => h.elim⟩
  | block _ nested ran ih =>
    rw [block_run nested] at ran
    cases ran
    exact ih

/-- An operation that a caller makes after the `Pop`. -/
inductive Later : EngineOp → Prop
  | addClause {cl : UnitResClause} : (∀ l ∈ cl, l.Sorted) → Later (.addClause cl)
  | propagate (fuel : Nat) : Later (.propagate fuel)

theorem later_inRange {ur : UnitRes} (reached : Reached order ur) {later : List EngineOp}
    (ops : ∀ op ∈ later, Later op) : run order later ur ≠ .error .outOfRange := by
  have rules := sound_inferences False (Structure.indistinct Domain.unit) order
  have ran : Outcome True (fun ur' => ur'.InRange ∧ ur'.Sound False (Structure.indistinct Domain.unit))
      (run order later ur) := by
    refine outcome_foldlM (reached_next reached) fun ur' op hop inv => ?_
    cases ops op hop with
    | addClause sorted =>
      exact (addClause_next rules inv.1 inv.2 ⟨sorted, fun h => h.elim⟩).mono fun _ next =>
        ⟨next.inRange, next.holds⟩
    | propagate fuel =>
      exact (propagate_next_short rules fuel inv.1 inv.2).mono fun _ next => ⟨next.inRange, next.holds⟩
  intro fault
  rw [fault] at ran
  exact absurd ran.1 (by decide)

/-- A unit of no arguments. -/
def proposition (name : String) : UnitResClause := [⟨true, ⟨name, []⟩⟩]

theorem proposition_sorted (name : String) (ne : name ≠ "=") : ∀ l ∈ proposition name, l.Sorted := by
  intro l hl
  obtain rfl := List.mem_singleton.mp hl
  exact ⟨fun t ht => absurd ht List.not_mem_nil, fun eq => absurd eq ne⟩

end UnitRes

end Goivy
