import Goivy.Art.State
import Goivy.TransRel.Join

/-! Bounded model checking: the steps of the environment from the initial states, with the
conjectures and the assertions checked at every depth. -/
namespace Goivy

open Reachability

/-- What `BMCCheckIsolate` reads of a module: the background theory, the initial condition,
the updates of the initializers, of the action `initialize` and of the environment's action,
and the conjectures. -/
structure BmcModule where
  background : Clauses
  initCond : Clauses
  initializers : Option Update
  initAction : Option Update
  stepAction : Update
  labeledConjs : List Expr

/-- The messages of `BMCResult`. -/
inductive BmcResult where
  | initializeFailed
  | counterExample (depth : Nat)
  | stepFailed (depth : Nat)
  | assertionFailure (depth : Nat)
  | noCounterExample
deriving DecidableEq

section Check

variable (solver : Solver) (m : BmcModule)

/-- `BuildConjecture`. -/
def buildConjecture : Clauses := .new m.labeledConjs []

/-- `CheckFinalCond`: the theory is left out when it has definitions only. -/
def checkFinalCond (post : State) (finalCond : Clauses) : Bool :=
  let history := post.getHistory m.background none
  let clauses := if m.background.fmlas.isEmpty then history.post
    else .and [history.post, m.background]
  solver.check [.and [clauses, finalCond]]

def BmcModule.initialState : State := addInitialState solver m.background m.initCond m.initializers

/-- `bmcFailStateFromPost`: the failed action follows the state before the last one. -/
def bmcFailState (pred : State) : State := .post pred (actionFailure m.stepAction) .tru

/-- One round of the loop, up to the next state. -/
def bmcRound (n : Nat) (post : State) : Except BmcResult State :=
  if checkFinalCond solver m post (buildConjecture m).dualWitness then .error (.counterExample n)
  else match post.execute solver m.background false m.stepAction with
    | .error _ => .error (.stepFailed n)
    | .ok next =>
      if checkFinalCond solver m (bmcFailState m post) .tru then .error (.assertionFailure n)
      else .ok next

/-- The loop from depth `n`, with `steps` more rounds after this one. -/
def bmcLoop : Nat → Nat → State → BmcResult
  | 0, n, post =>
    match bmcRound solver m n post with
    | .error result => result
    | .ok _ => .noCounterExample
  | steps + 1, n, post =>
    match bmcRound solver m n post with
    | .error result => result
    | .ok next => bmcLoop steps (n + 1) next

/-- `BMCCheckIsolate`. -/
def bmcCheckIsolate (nSteps : Nat) : BmcResult :=
  let post := m.initialState solver
  match m.initAction with
  | none => bmcLoop solver m nSteps 0 post
  | some act =>
    match post.execute solver m.background true act with
    | .error _ => .initializeFailed
    | .ok post => bmcLoop solver m nSteps 0 post

end Check

namespace BmcModule

variable (solver : Solver) (m : BmcModule)

/-- The updates before the first round. -/
def initialPath : List Update := m.initializers.toList ++ m.initAction.toList

/-- The updates before the round at a depth. -/
def pathTo (n : Nat) : List Update := m.initialPath ++ List.replicate n m.stepAction

/-- The states after a path from the initial ones. -/
def statesAfter (D : Domain) (path : List Update) : Set (Structure D) :=
  after (Update.StepIn m.background) (m.initCond.states D) path

/-- The states after `n` steps of the environment. -/
def depthStates (D : Domain) (n : Nat) : Set (Structure D) := m.statesAfter D (m.pathTo n)

/-- The structures that the checks range over. -/
def Intended {D : Domain} (M : Structure D) : Prop :=
  M ∈ solver.theory D ∧ (m.background.fmlas ≠ [] → m.background.Sat M)

/-- Some state after `n` steps violates a conjecture. -/
def Violated (n : Nat) : Prop :=
  ∃ D, ∃ s ∈ m.depthStates D n, m.Intended solver s ∧ ¬ (buildConjecture m).Sat s

/-- An assertion fails in the step after `n` steps. -/
def StepFails (n : Nat) : Prop :=
  ∃ D, ∃ s ∈ image ((actionFailure m.stepAction).StepIn m.background) (m.depthStates D n),
    m.Intended solver s

/-- The action `initialize` fails in some initial state. -/
def InitializeFails : Prop :=
  ∃ act ∈ m.initAction, ∃ D, ∃ s ∈ m.statesAfter D m.initializers.toList,
    s ∈ solver.theory D ∧ m.background.Sat s ∧ act.Fails s

/-- Nothing goes wrong up to the depth `n`. -/
def SafeBefore (n : Nat) : Prop := ∀ k < n, ¬ m.Violated solver k ∧ ¬ m.StepFails solver k

/-- What a result says about the runs of at most `nSteps` steps. -/
def Explains (nSteps : Nat) : BmcResult → Prop
  | .initializeFailed => m.InitializeFails solver
  | .counterExample n => n ≤ nSteps ∧ m.SafeBefore solver n ∧ m.Violated solver n
  | .stepFailed _ => False
  | .assertionFailure n =>
    n ≤ nSteps ∧ m.SafeBefore solver n ∧ ¬ m.Violated solver n ∧ m.StepFails solver n
  | .noCounterExample => m.SafeBefore solver (nSteps + 1)

/-- The updates that may be taken, also for a failure. -/
def updates : List Update := actionFailure m.stepAction :: m.stepAction :: m.initialPath

/-- The updates are of transition style, nothing in the module mentions witnesses, and the
conjectures can be negated. -/
structure WellFormed : Prop where
  background : Background m.background
  initCond : m.initCond.StateOnly
  initWitness : ∀ c ∈ m.initCond.symbols, ¬ c.Witness
  runs : ∀ u ∈ m.updates, u.Runs
  ignores : ∀ u ∈ m.updates, u.Ignores Const.Witness m.background
  conj : (buildConjecture m).Checkable
  dualSkolem : ∀ c ∈ (buildConjecture m).dualWitness.symbols, isSkolem c.name = false

/-- A state of the search: it comes from the initial condition along a path. -/
def Along (path : List Update) (s : State) : Prop := s.origin none = m.initCond ∧ s.path none = path

end BmcModule

section Exact

variable {solver : Solver} {m : BmcModule} {n : Nat} {s next : State} {path : List Update}

namespace BmcModule

theorem Along.post (along : m.Along path s) (u : Update) (clauses : Clauses) :
    m.Along (path ++ [u]) (.post s u clauses) :=
  ⟨along.1, congrArg (· ++ [u]) along.2⟩

theorem safeBefore_succ (before : m.SafeBefore solver n) (holds : ¬ m.Violated solver n)
    (passes : ¬ m.StepFails solver n) : m.SafeBefore solver (n + 1) :=
  Nat.forall_lt_succ_right.mpr ⟨before, holds, passes⟩

theorem pathTo_succ (m : BmcModule) (n : Nat) : m.pathTo n ++ [m.stepAction] = m.pathTo (n + 1) := by
  rw [pathTo, pathTo, List.append_assoc, List.replicate_succ']

theorem pathTo_updates : ∀ u ∈ m.pathTo n, u ∈ m.updates := by
  intro u hu
  simp only [pathTo, List.mem_append, List.mem_replicate] at hu
  simp only [updates, List.mem_cons]
  tauto

/-- The intended states of a path say nothing about witnesses. -/
theorem WellFormed.congr (wf : m.WellFormed) {D : Domain} {s t : Structure D}
    (updates : ∀ u ∈ path, u ∈ m.updates) (agree : AgreeOff Const.Witness s t)
    (hs : s ∈ m.statesAfter D path ∧ m.Intended solver s) :
    t ∈ m.statesAfter D path ∧ m.Intended solver t := by
  have background := (wf.ignores _ (List.mem_cons_self : _ ∈ m.updates)).axioms
  refine ⟨Update.mem_after_congr wf.initWitness (fun u hu => ?_) agree hs.1, ?_, fun some_ => ?_⟩
  · exact ⟨(wf.runs u (updates u hu)).toTransitionStyle, wf.ignores u (updates u hu)⟩
  · exact solver.theory_congr (fun c hc => agree c fun h => hc (.inr h)) hs.2.1
  · exact (Clauses.sat_congr fun c hc => agree c (background c hc)).mp (hs.2.2 some_)

end BmcModule

variable (wf : m.WellFormed)

include wf in
theorem states_along (along : m.Along path s) (updates : ∀ u ∈ path, u ∈ m.updates) (D : Domain) :
    (s.getHistory m.background none).post.states D = m.statesAfter D path := by
  have origin : (s.origin none).StateOnly := along.1 ▸ wf.initCond
  rw [State.states_getHistory wf.background origin fun u hu => wf.runs u (updates u (along.2 ▸ hu)),
    along.1, along.2]
  rfl

include wf in
/-- The final check finds the intended states of the path that satisfy the condition. -/
theorem checkFinalCond_iff {finalCond : Clauses} (along : m.Along path s)
    (updates : ∀ u ∈ path, u ∈ m.updates) (plain : ∀ c ∈ finalCond.symbols, isSkolem c.name = false) :
    checkFinalCond solver m s finalCond = true ↔
      ∃ D, ∃ t ∈ m.statesAfter D path, m.Intended solver t ∧ finalCond.Sat t := by
  rw [checkFinalCond, Solver.check_states (s.getHistory m.background none).post
    fun M => (m.background.fmlas ≠ [] → m.background.Sat M) ∧ finalCond.Sat M]
  · simp only [states_along wf along updates, BmcModule.Intended, and_assoc]
  · intro D M N agree holds
    refine ⟨fun some_ => (Clauses.sat_congr fun c hc => ?_).mp (holds.1 some_),
      (Clauses.sat_congr fun c hc => ?_).mp holds.2⟩
    · exact agree c (by simp [Const.Skolem, (wf.background c hc).notSkolem])
    · exact agree c (by simp [Const.Skolem, plain c hc])
  · intro D M
    by_cases empty : m.background.fmlas = []
    · simp [empty, Clauses.sat_and]
    · simp [empty, Clauses.sat_and, and_assoc]

include wf in
theorem violated_iff (along : m.Along (m.pathTo n) s) :
    checkFinalCond solver m s (buildConjecture m).dualWitness = true ↔ m.Violated solver n := by
  rw [checkFinalCond_iff wf along BmcModule.pathTo_updates wf.dualSkolem]
  refine exists_congr fun D => ?_
  have closed : ∀ t ∈ {t | t ∈ m.depthStates D n ∧ m.Intended solver t}, ∀ t',
      AgreeOff Const.Witness t t' → t' ∈ {t | t ∈ m.depthStates D n ∧ m.Intended solver t} :=
    fun t ht t' agree => wf.congr BmcModule.pathTo_updates agree ht
  have exact_ := Clauses.exists_dualWitness wf.conj closed
  simp only [Set.mem_ofPred_eq, and_assoc] at exact_
  exact exact_

include wf in
theorem stepFails_iff (along : m.Along (m.pathTo n) s) :
    checkFinalCond solver m (bmcFailState m s) .tru = true ↔ m.StepFails solver n := by
  have updates : ∀ u ∈ m.pathTo n ++ [actionFailure m.stepAction], u ∈ m.updates := by
    rw [List.forall_mem_append, List.forall_mem_singleton]
    exact ⟨BmcModule.pathTo_updates, List.mem_cons_self⟩
  have failed : m.Along _ (bmcFailState m s) := along.post (actionFailure m.stepAction) .tru
  rw [checkFinalCond_iff wf failed updates (by simp [Clauses.tru])]
  simp only [BmcModule.statesAfter, after_snoc, Clauses.sat_tru, and_true]
  rfl

include wf in
/-- A round ends with the first problem of its depth, or with a state at the next depth. -/
theorem bmcRound_spec (along : m.Along (m.pathTo n) s) :
    (bmcRound solver m n s = .error (.counterExample n) ∧ m.Violated solver n) ∨
    (bmcRound solver m n s = .error (.assertionFailure n) ∧ ¬ m.Violated solver n ∧
      m.StepFails solver n) ∨
    ∃ next, bmcRound solver m n s = .ok next ∧ m.Along (m.pathTo (n + 1)) next ∧
      ¬ m.Violated solver n ∧ ¬ m.StepFails solver n := by
  rw [← violated_iff wf along, ← stepFails_iff wf along, bmcRound, State.execute_unchecked,
    ← BmcModule.pathTo_succ]
  cases checkFinalCond solver m s (buildConjecture m).dualWitness with
  | true => simp
  | false =>
    cases checkFinalCond solver m (bmcFailState m s) .tru with
    | true => simp
    | false => simpa using along.post m.stepAction _

include wf in
/-- The loop at a depth before which nothing goes wrong. -/
theorem bmcLoop_explains (steps : Nat) (along : m.Along (m.pathTo n) s)
    (before : m.SafeBefore solver n) :
    m.Explains solver (n + steps) (bmcLoop solver m steps n s) := by
  induction steps generalizing n s with
  | zero =>
    obtain ⟨round, violated⟩ | ⟨round, holds, fails⟩ | ⟨next, round, -, holds, passes⟩ :=
      bmcRound_spec wf along
    · rw [bmcLoop, round]
      exact ⟨Nat.le_refl n, before, violated⟩
    · rw [bmcLoop, round]
      exact ⟨Nat.le_refl n, before, holds, fails⟩
    · rw [bmcLoop, round]
      exact BmcModule.safeBefore_succ before holds passes
  | succ steps ih =>
    obtain ⟨round, violated⟩ | ⟨round, holds, fails⟩ | ⟨next, round, further, holds, passes⟩ :=
      bmcRound_spec wf along
    · rw [bmcLoop, round]
      exact ⟨Nat.le_add_right n _, before, violated⟩
    · rw [bmcLoop, round]
      exact ⟨Nat.le_add_right n _, before, holds, fails⟩
    · rw [bmcLoop, round, show n + (steps + 1) = n + 1 + steps by omega]
      exact ih further (BmcModule.safeBefore_succ before holds passes)

theorem along_initial : m.Along m.initializers.toList (m.initialState solver) :=
  have initial := addInitialState_spec solver m.background m.initCond m.initializers
  ⟨initial.1, initial.2.1⟩

include wf in
/-- Where the check before `initialize` fails, the action fails in an initial state. -/
theorem initializeFails_of_check {act : Update} (init : act ∈ m.initAction)
    (fails : solver.check [.and [(m.initialState solver).clauses, act.pre, m.background]] = true) :
    m.InitializeFails solver := by
  have along := @along_initial solver m
  have clauses : ((m.initialState solver).getHistory m.background none).post = (m.initialState solver).clauses :=
    (addInitialState_spec solver m.background m.initCond m.initializers).2.2
  obtain ⟨D, M, theory, sat⟩ := solver.check_iff _ |>.mp fails
  simp only [List.mem_singleton, forall_eq, Clauses.sat_and, List.forall_mem_cons] at sat
  have updates : ∀ u ∈ m.initializers.toList, u ∈ m.updates := by
    intro u hu
    simp only [BmcModule.updates, BmcModule.initialPath, List.mem_cons, List.mem_append]
    exact .inr (.inr (.inl hu))
  refine ⟨act, init, D, M, ?_, theory, sat.2.2, fun n srt => M (actionNewName n) srt, M, ?_, sat.2.1⟩
  · rw [← states_along wf along updates, clauses]
    exact ⟨M, AgreeOff.refl _ _, sat.1⟩
  · rw [Structure.joint_self]
    exact AgreeOff.refl _ _

end Exact

section Examples

/-- `x := a` initially, then `x := x` again and again, which fails where `x` is true. -/
def assignSystem : BmcModule where
  background := .tru
  initCond := .new [.not (.const (boolConst "x"))] []
  initializers := some Update.setX
  initAction := some Update.setY
  stepAction := Update.assignX
  labeledConjs := [Clauses.relationOf "p" "s"]

theorem assignSystem_wellFormed : assignSystem.WellFormed where
  background := by simp [Background, assignSystem, Clauses.tru]
  initCond := by unfold Clauses.StateOnly; decide
  initWitness := by decide
  runs := by
    have setX : Update.setX.Runs := ⟨Update.setX_style.toTransitionStyle, by unfold Clauses.NoGlobal; decide⟩
    have setY : Update.setY.Runs := ⟨Update.setY_style.toTransitionStyle, by unfold Clauses.NoGlobal; decide⟩
    have assignX : Update.assignX.Runs :=
      ⟨Update.assignX_style.toTransitionStyle, by unfold Clauses.NoGlobal; decide⟩
    have failure : (actionFailure Update.assignX).Runs :=
      ⟨⟨assignX.state, assignX.newState, Update.assignX_style.pre⟩, by unfold Clauses.NoGlobal; decide⟩
    simp only [BmcModule.updates, BmcModule.initialPath, assignSystem, Option.toList_some,
      List.singleton_append, List.forall_mem_cons]
    exact ⟨failure, assignX, setX, setY, fun _ h => absurd h List.not_mem_nil⟩
  ignores := by
    simp only [BmcModule.updates, BmcModule.initialPath, assignSystem, Option.toList_some,
      List.singleton_append, List.forall_mem_cons]
    exact ⟨⟨by decide, by decide, by decide⟩, ⟨by decide, by decide, by decide⟩,
      ⟨by decide, by decide, by decide⟩, ⟨by decide, by decide, by decide⟩,
      fun _ h => absurd h List.not_mem_nil⟩
  conj := ⟨by decide, by decide, by decide, by decide⟩
  dualSkolem := by decide

end Examples

end Goivy
