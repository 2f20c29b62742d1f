import Goivy.Logic.Syntax

/-! The expansion of a while loop for its transition relation, and the one for the reconstruction
of traces. -/
namespace Goivy

/-- A formula of an action. `RankingWrapper` is an expression as well. -/
inductive LoopFormula where
  | expr (e : Expr)
  | rankingWrapper (args : List Expr)

/-- Actions without line numbers and unique ids. The conditions and the other actions are any `B`. -/
inductive LoopAction (B : Type) where
  | other (b : B)
  | assume (fmla : LoopFormula)
  | assert (fmla : LoopFormula)
  | subgoal (fmla : LoopFormula)
  | ranking (args : List Expr)
  | havoc (target : Const)
  | sequence (elems : List (LoopAction B))
  | ite (cond : B) (thenBody elseBody : LoopAction B)
  | localAction (local_ : Const) (body : LoopAction B)

/-- What stands among the invariants of a loop. -/
inductive LoopInvariant where
  | formula (fmla : LoopFormula)
  | assume (fmla : LoopFormula)
  | assert (fmla : LoopFormula)
  | subgoal (fmla : LoopFormula)
  | ranking (args : List Expr)

/-- A loop with any condition. Its body is an action, or an expression that is none. -/
structure WhileLoop (B : Type) where
  cond : B
  body : LoopAction B
  isAction : Bool
  invariants : List LoopInvariant

/-- What `IntUpdate` of the body says that it modifies. -/
structure ModSet where
  modified : List Const
  modifiedAll : Bool

namespace LoopInvariant

variable {B : Type}

/-- `extractActionFromNode`. -/
def action : LoopInvariant → Option (LoopAction B)
  | formula _ => none
  | assume f => some (.assume f)
  | assert f => some (.assert f)
  | subgoal f => some (.subgoal f)
  | ranking args => some (.ranking args)

end LoopInvariant

namespace LoopAction

variable {B : Type}

/-- `AssertToAssume` of asserts, on the actions among the invariants of a loop. -/
def assertToAssume : LoopAction B → LoopAction B
  | assert f => assume f
  | a => a

def isAssume : LoopAction B → Bool
  | assume _ => true
  | _ => false

def isSubgoal : LoopAction B → Bool
  | subgoal _ => true
  | _ => false

end LoopAction

/-- The measure of a `decreases` clause. -/
def auxConst (rank : Expr) : Const := ⟨"$rank", rank.nodeSort⟩

def rankLess (rank other : Expr) : Expr :=
  .apply ⟨"<", .function [rank.nodeSort.range, rank.nodeSort.range] .boolean⟩ [rank, other]

namespace WhileLoop

variable {B : Type} (w : WhileLoop B) (update : LoopAction B → ModSet)

section Parts

variable (asserts havocs assumes : List (LoopAction B)) (rank : Option Expr)

/-- The sequence that both expansions build from their parts. -/
def assemble : LoopAction B :=
  let entryAsserts := match rank with
    | none => []
    | some r => [.assert (.expr (.not (rankLess r (.const ⟨"0", r.nodeSort⟩))))]
  let exitAsserts := match rank with
    | none => []
    | some r => [.assert (.expr (rankLess r (.const (auxConst r))))]
  let rankAssumes := match rank with
    | none => []
    | some r => [.assume (.expr (.eq (.const (auxConst r)) r))]
  let thenBody := .sequence
    (entryAsserts ++ [w.body] ++ exitAsserts ++ asserts ++ [.assume (.expr .fls)])
  let result := .sequence
    (asserts ++ havocs ++ (assumes ++ rankAssumes) ++ [.ite w.cond thenBody (.sequence [])])
  match rank with
  | none => result
  | some r => .localAction (auxConst r) result

end Parts

/-- The invariants of `Expand`: everything but the rankings. -/
def expandInvariants : List LoopInvariant := w.invariants.filter fun inv => match inv with
  | .ranking _ => false
  | _ => true

/-- The last ranking, with its first argument. -/
def expandRank : Option Expr :=
  (w.invariants.filterMap fun inv => match inv with
    | .ranking args => some args
    | _ => none).getLast?.bind List.head?

/-- `Expand`. -/
def expand : LoopAction B :=
  if w.isAction then
    let asserts := w.expandInvariants.filterMap fun inv => match inv.action with
      | some act => if act.isAssume then none else some act
      | none => match inv with
        | .formula f => some (.assert f)
        | _ => none
    let assumes := w.expandInvariants.filterMap fun inv => match inv.action with
      | some act => if act.isSubgoal then none else some act.assertToAssume
      | none => match inv with
        | .formula f => some (.assume f)
        | _ => none
    w.assemble asserts ((update w.body).modified.map .havoc) assumes w.expandRank
  else .sequence []

/-- The last wrapped ranking, with its first argument. -/
def expandWhileRank : Option Expr :=
  (w.invariants.filterMap fun inv => match inv with
    | .formula (.rankingWrapper args) => some args
    | _ => none).getLast?.bind List.head?

/-- `expandWhile`, for a module with these symbols. -/
def expandWhile (symbols : String → Option LSort) : LoopAction B :=
  let modset := if w.isAction ∧ (update w.body).modifiedAll = false then (update w.body).modified else []
  let asserts := w.invariants.filterMap LoopInvariant.action
  let assumes := (asserts.filter (!·.isSubgoal)).map LoopAction.assertToAssume
  let havocs := modset.filterMap fun c => (symbols c.name).map fun s => .havoc ⟨c.name, s⟩
  w.assemble (asserts.filter (!·.isAssume)) havocs assumes w.expandWhileRank

/-- What an invariant adds to the assertions of `Expand`. -/
def expandAssert : LoopInvariant → Option (LoopAction B)
  | .formula f | .assert f => some (.assert f)
  | .subgoal f => some (.subgoal f)
  | .assume _ | .ranking _ => none

/-- What an invariant adds to the assertions of `expandWhile`. -/
def expandWhileAssert : LoopInvariant → Option (LoopAction B)
  | .assert f => some (.assert f)
  | .subgoal f => some (.subgoal f)
  | .ranking args => some (.ranking args)
  | .formula _ | .assume _ => none

/-- What an invariant adds to the assumptions of `Expand`. -/
def expandAssume : LoopInvariant → Option (LoopAction B)
  | .formula f | .assert f | .assume f => some (.assume f)
  | .subgoal _ | .ranking _ => none

/-- What an invariant adds to the assumptions of `expandWhile`. -/
def expandWhileAssume : LoopInvariant → Option (LoopAction B)
  | .assert f | .assume f => some (.assume f)
  | .ranking args => some (.ranking args)
  | .formula _ | .subgoal _ => none

theorem expand_eq (isAction : w.isAction = true) : w.expand update =
    w.assemble (w.invariants.filterMap expandAssert) ((update w.body).modified.map .havoc)
      (w.invariants.filterMap expandAssume) w.expandRank := by
  rw [expand, if_pos isAction]
  simp only [expandInvariants, List.filterMap_filter]
  congr 1
  · refine List.filterMap_congr fun inv _ => ?_
    cases inv <;> rfl
  · refine List.filterMap_congr fun inv _ => ?_
    cases inv <;> rfl

theorem expandWhile_eq (symbols : String → Option LSort) : w.expandWhile update symbols =
    w.assemble (w.invariants.filterMap expandWhileAssert)
      ((if w.isAction ∧ (update w.body).modifiedAll = false then (update w.body).modified else []).filterMap
        fun c => (symbols c.name).map fun s => .havoc ⟨c.name, s⟩)
      (w.invariants.filterMap expandWhileAssume) w.expandWhileRank := by
  rw [expandWhile]
  congr 1
  · rw [List.filter_filterMap]
    refine List.filterMap_congr fun inv _ => ?_
    cases inv <;> rfl
  · rw [List.filter_filterMap, List.map_filterMap]
    refine List.filterMap_congr fun inv _ => ?_
    cases inv <;> rfl

/-- The parts without the havocs can be read off an expansion. -/
theorem assemble_inj {asserts asserts' havocs havocs' assumes assumes' : List (LoopAction B)}
    {rank rank' : Option Expr} (same : w.assemble asserts havocs assumes rank =
      w.assemble asserts' havocs' assumes' rank') :
    asserts = asserts' ∧ ∃ rest rest', havocs ++ (assumes ++ rest) = havocs' ++ (assumes' ++ rest') ∧
      (rank = none → rest = []) ∧ (rank' = none → rest' = []) ∧ (rank = none ↔ rank' = none) := by
  cases rank with
  | none =>
    cases rank' with
    | none =>
      have whole := LoopAction.sequence.inj same
      obtain ⟨front, last⟩ := List.append_inj' whole rfl
      have body := LoopAction.sequence.inj (LoopAction.ite.inj (List.singleton_inj.mp last)).2.1
      have asserts_eq : asserts = asserts' := by simpa using body
      refine ⟨asserts_eq, [], [], ?_, fun _ => rfl, fun _ => rfl, Iff.rfl⟩
      simpa [asserts_eq] using front
    | some r' => cases same
  | some r =>
    cases rank' with
    | none => cases same
    | some r' =>
      have whole := LoopAction.sequence.inj (LoopAction.localAction.inj same).2
      obtain ⟨front, last⟩ := List.append_inj' whole rfl
      have body := LoopAction.sequence.inj (LoopAction.ite.inj (List.singleton_inj.mp last)).2.1
      have asserts_eq : asserts = asserts' := by
        simp only [List.singleton_append, List.append_assoc, List.cons_append, List.nil_append,
          List.cons.injEq] at body
        exact (List.append_inj' body.2.2.2 rfl).1
      rw [asserts_eq, List.append_assoc, List.append_assoc] at front
      exact ⟨asserts_eq, _, _, List.append_cancel_left front, by simp, by simp, by simp⟩

/-- An invariant that both expansions take for the same action. -/
def SameAction : LoopInvariant → Prop
  | .assume _ | .assert _ | .subgoal _ => True
  | .formula _ | .ranking _ => False

def isFormula : LoopInvariant → Bool
  | .formula _ => true
  | _ => false

/-- A bare formula adds an assertion to one of the expansions only. -/
theorem length_asserts {invs : List LoopInvariant} (ranked : ∀ args, .ranking args ∉ invs) :
    (invs.filterMap (expandAssert (B := B))).length =
      (invs.filterMap (expandWhileAssert (B := B))).length + invs.countP isFormula := by
  induction invs with
  | nil => rfl
  | cons inv invs ih =>
    have rest := ih fun args mem => ranked args (List.mem_cons_of_mem _ mem)
    cases inv with
    | formula f =>
      simp only [List.filterMap_cons, expandAssert, expandWhileAssert, List.length_cons, rest,
        List.countP_cons, isFormula, if_true, Nat.add_assoc]
    | assume f =>
      simp only [List.filterMap_cons, expandAssert, expandWhileAssert, rest]
      rfl
    | assert f | subgoal f =>
      simp only [List.filterMap_cons, expandAssert, expandWhileAssert, List.length_cons, rest]
      exact Nat.add_right_comm _ _ 1
    | ranking args => exact absurd List.mem_cons_self (ranked args)

/-- The assertions are equal only where no invariant is a formula or a ranking. -/
theorem sameAction_of_asserts {invs : List LoopInvariant}
    (same : invs.filterMap (expandAssert (B := B)) = invs.filterMap expandWhileAssert) :
    ∀ inv ∈ invs, SameAction inv := by
  have ranked : ∀ args, .ranking args ∉ invs := by
    intro args mem
    have there : .ranking args ∈ invs.filterMap (expandAssert (B := B)) :=
      same ▸ List.mem_filterMap.mpr ⟨_, mem, rfl⟩
    obtain ⟨inv, -, eq⟩ := List.mem_filterMap.mp there
    cases inv <;> cases eq
  have count := length_asserts (B := B) ranked
  rw [same, Nat.left_eq_add, List.countP_eq_zero] at count
  intro inv mem
  cases inv with
  | formula f => exact absurd rfl (count _ mem)
  | ranking args => exact absurd mem (ranked args)
  | _ => trivial

variable {w} in
theorem parts_of_sameAction (plain : ∀ inv ∈ w.invariants, SameAction inv) :
    w.invariants.filterMap (expandAssert (B := B)) = w.invariants.filterMap expandWhileAssert ∧
      w.invariants.filterMap (expandAssume (B := B)) = w.invariants.filterMap expandWhileAssume ∧
      w.expandRank = none ∧ w.expandWhileRank = none := by
  refine ⟨List.filterMap_congr fun inv mem => ?_, List.filterMap_congr fun inv mem => ?_, ?_, ?_⟩
  · have := plain inv mem
    cases inv <;> first | rfl | exact this.elim
  · have := plain inv mem
    cases inv <;> first | rfl | exact this.elim
  · have none : w.invariants.filterMap (fun inv => match inv with
      | .ranking args => some args
      | _ => none) = [] := List.filterMap_eq_nil_iff.mpr fun inv mem => by
        have := plain inv mem
        cases inv <;> first | rfl | exact this.elim
    rw [expandRank, none]
    rfl
  · have none : w.invariants.filterMap (fun inv => match inv with
      | .formula (.rankingWrapper args) => some args
      | _ => none) = [] := List.filterMap_eq_nil_iff.mpr fun inv mem => by
        have := plain inv mem
        cases inv <;> first | rfl | exact this.elim
    rw [expandWhileRank, none]
    rfl

/-- The module knows exactly the symbols that the other list has, with their sorts. -/
theorem havocs_eq_iff (symbols : String → Option LSort) (mods : List Const) :
    (mods.map .havoc : List (LoopAction B)) =
        mods.filterMap (fun c => (symbols c.name).map fun s => .havoc ⟨c.name, s⟩) ↔
      ∀ c ∈ mods, symbols c.name = some c.sort := by
  induction mods with
  | nil => simp
  | cons c mods ih =>
    rw [List.map_cons, List.filterMap_cons, List.forall_mem_cons]
    cases known : symbols c.name with
    | none =>
      refine iff_of_false (fun same => ?_) (by simp)
      have length := congrArg List.length same
      have le := List.length_filterMap_le (fun c : Const => (symbols c.name).map fun s =>
        (LoopAction.havoc ⟨c.name, s⟩ : LoopAction B)) mods
      simp only [Option.map_none, List.length_cons, List.length_map] at length
      omega
    | some s =>
      obtain ⟨name, sort⟩ := c
      simp [ih, eq_comm]

/-- The expansions are equal exactly where every invariant is an assertion, an assumption or a subgoal,
and the module declares every symbol that the body modifies with its sort. -/
theorem expanders_agree_iff (symbols : String → Option LSort) :
    w.expand update = w.expandWhile update symbols ↔ w.isAction = true ∧
      (∀ inv ∈ w.invariants, SameAction inv) ∧
      ((update w.body).modifiedAll = true → (update w.body).modified = []) ∧
      ∀ c ∈ (update w.body).modified, symbols c.name = some c.sort := by
  cases isAction : w.isAction with
  | false =>
    refine iff_of_false (fun same => ?_) (by simp)
    rw [expand, if_neg (by simp [isAction]), expandWhile_eq] at same
    unfold assemble at same
    cases rank : w.expandWhileRank <;> simp [rank] at same
  | true =>
    rw [expand_eq w update isAction, expandWhile_eq]
    constructor
    · intro same
      obtain ⟨asserts, rest, rest', parts, noRest, noRest', -⟩ := w.assemble_inj same
      have plain := sameAction_of_asserts asserts
      obtain ⟨-, assumes, noRank, noRank'⟩ := parts_of_sameAction plain
      rw [noRest noRank, noRest' noRank', List.append_nil, List.append_nil, assumes] at parts
      have havocs := List.append_cancel_right parts
      cases all : (update w.body).modifiedAll with
      | false =>
        rw [if_pos ⟨isAction, all⟩] at havocs
        exact ⟨rfl, plain, by simp, (havocs_eq_iff symbols _).mp havocs⟩
      | true =>
        rw [if_neg (by simp [all])] at havocs
        have none : (update w.body).modified = [] := List.map_eq_nil_iff.mp havocs
        exact ⟨rfl, plain, fun _ => none, by simp [none]⟩
    · rintro ⟨-, plain, notAll, known⟩
      obtain ⟨asserts, assumes, noRank, noRank'⟩ := parts_of_sameAction plain
      have modset : (if w.isAction ∧ (update w.body).modifiedAll = false then (update w.body).modified else []) =
          (update w.body).modified := by
        cases all : (update w.body).modifiedAll with
        | false => exact if_pos ⟨isAction, rfl⟩
        | true => rw [if_neg (by simp), notAll all]
      rw [asserts, assumes, noRank, noRank', modset, (havocs_eq_iff symbols _).mpr known]

/-- A loop with a `decreases` clause for the measure n. -/
def countdown : WhileLoop String where
  cond := "n > 0"
  body := .other "n := n - 1"
  isAction := true
  invariants := [.ranking [.const ⟨"n", .first (.uninterpreted "nat")⟩]]

/-- One expansion checks that the measure decreases, the other one asserts the clause itself. -/
theorem countdown_expanders : countdown.expand (fun _ => ⟨[], false⟩) ≠
    countdown.expandWhile (fun _ => ⟨[], false⟩) (fun _ => none) := by
  intro same
  cases same

end WhileLoop

end Goivy
