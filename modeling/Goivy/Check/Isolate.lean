import Goivy.Check.Conditions
import Goivy.Util.Worklist

/-! The checks of an isolate: properties, the invariant initially and under each exported action,
and the guarantees of the actions. -/
namespace Goivy.Check

open Reachability

/-- An assertion or ranking of an action. -/
structure Guarantee where
  lineno : String
  unprovable : Bool

/-- What the checks read of an action: its guarantees, and the actions that it calls. -/
structure NamedAction where
  name : String
  guarantees : List Guarantee
  calls : List String

/-- What `CheckIsolate` reads of a module. The updates of the initializers and of the exported
actions are given for the line of the assertion that is checked; `theory` has the formulas of
the background theory that are no axioms. -/
structure IsolateModule where
  labeledAxioms : List LabeledFormula
  theory : List Expr
  definitions : List Definition
  labeledProps : List LabeledFormula
  subgoals : List Nat
  labeledConjs : List LabeledFormula
  conjSubgoals : Option (List LabeledFormula)
  assumedInvs : List LabeledFormula
  initCond : Clauses
  initializers : List NamedAction
  initUpdate : String → Update
  publicActions : List String
  actions : List NamedAction
  envUpdate : String → String → Update

/-- The failures that are reported. -/
inductive Report where
  | property (lf : Option LabeledFormula)
  | initialization (lf : Option LabeledFormula)
  | initializer
  | preservation (action : String) (lf : Option LabeledFormula)
  | guarantee (action lineno : String)

namespace CheckConfig

variable (cfg : CheckConfig)

/-- `IsCheckModUnprovable` and `IsGuaranteeModUnprovable`. -/
def modUnprovable (unprovable : Bool) : Bool := unprovable == cfg.onlyCheckUnprovable

/-- The filter by the line of the assertion that is checked. -/
def onLine (lineno : String) : Bool := cfg.checkLineno = "" || lineno = cfg.checkLineno

/-- The guarantees of an action that are checked. -/
def guarantees (action : NamedAction) : List Guarantee :=
  (action.guarantees.filter fun sub => cfg.onLine sub.lineno).filter fun sub => cfg.modUnprovable sub.unprovable

/-- Everything is checked. -/
structure Full : Prop where
  onlyCheckUnprovable : cfg.onlyCheckUnprovable = false
  optSummary : cfg.optSummary = false
  noCheckGuarantees : cfg.noCheckGuarantees = false
  checkLineno : cfg.checkLineno = ""
  checkedAction : cfg.checkedAction = ""

end CheckConfig

/-- Sorted names without duplicates: what a map's keys become. -/
def sortedNames (names : List String) : List String := names.dedup.insertionSort (· ≤ ·)

/-- `sortedUnion`. -/
def sortedUnion (priority all : List String) : List String :=
  sortedNames priority ++ sortedNames (all.filter (· ∉ priority))

namespace IsolateModule

variable (m : IsolateModule)

/-- `GetConjs`: what the pre-states of the inductive checks satisfy. -/
def getConjs : Clauses :=
  .new (((m.labeledConjs ++ m.assumedInvs).filter fun lf => !lf.explicit && !lf.unprovable).map (·.formula)) []

/-- The background theory with some axioms. -/
def backgroundTheory (axioms : List LabeledFormula) : Clauses :=
  .new ((axioms.filter fun lf => !lf.temporal).map (·.formula) ++ m.theory) m.definitions

def nonTemporalProps : List LabeledFormula := m.labeledProps.filter fun lf => !lf.temporal

/-- The background theory once the properties are axioms. -/
def provedTheory : Clauses := m.backgroundTheory (m.labeledAxioms ++ m.nonTemporalProps)

/-- The properties that are not checked: assumed ones, and subgoals. -/
def trusted (lf : LabeledFormula) : Bool := lf.assumed || lf.id ∈ m.subgoals

/-- `filterExplicitSubgoals`. -/
def filterExplicitSubgoals (props : List LabeledFormula) : List LabeledFormula :=
  props.filter fun p => !(p.id ∈ m.subgoals && p.explicit)

/-- `GetCheckedActions`. -/
def getCheckedActions (cfg : CheckConfig) : List String :=
  let cact := if cfg.checkedAction ≠ "" ∧ "ext:" ++ cfg.checkedAction ∈ m.publicActions then
    "ext:" ++ cfg.checkedAction else cfg.checkedAction
  if cact = "" then m.publicActions
  else if cact ∈ m.publicActions then [cact]
  else []

/-- `GetPrioritizedActions`. -/
def getPrioritizedActions (cfg : CheckConfig) : List String :=
  (cfg.priorityActions.getD []).map ("ext:" ++ ·)

def actionOrder (cfg : CheckConfig) : List String :=
  let checkedActions := m.getCheckedActions cfg
  sortedUnion ((getPrioritizedActions cfg).filter (· ∈ checkedActions)) checkedActions

/-- The actions that call an action. -/
def callgraph (actname : String) : List String :=
  m.actions.flatMap fun a => (a.calls.filter (· = actname)).map fun _ => a.name

/-- `reachable` in the call graph: the actions from which a call may lead to the action. -/
def roots (actname : String) : List String :=
  Worklist.search m.callgraph (1 + m.actions.length) ([actname], [actname])

/-- `initializerGuaranteesForCheckIsolate`: those of the last initializer by name, once for each
initializer. -/
def initializerGuarantees (cfg : CheckConfig) : List Guarantee :=
  match (m.initializers.mergeSort fun a b => a.name ≤ b.name).getLast? with
  | none => []
  | some action =>
    ((action.guarantees.flatMap fun sub => m.initializers.map fun _ => sub).filter
      fun sub => cfg.onLine sub.lineno).filter fun sub => cfg.modUnprovable sub.unprovable

end IsolateModule

section Checks

variable (solver : Solver) (cfg : CheckConfig) (m : IsolateModule)

/-- `CheckConjsInState`, without postconditions. -/
def checkConjsInState (background : Clauses) (post : State) : List Checker :=
  let conjs := m.conjSubgoals.getD m.labeledConjs
  let checkable := (conjs.filter fun lf => cfg.modUnprovable lf.unprovable).filter fun lf => cfg.onLine lf.lineno
  checkFcsInState solver cfg background post (checkable.map newConjChecker)

/-- `CheckSafetyInState`. -/
def checkSafetyInState (background : Clauses) (post : State) : List Checker :=
  checkFcsInState solver cfg background post [safetyChecker]

def initialState (solver : Solver) (cfg : CheckConfig) (m : IsolateModule) : State :=
  addInitialState solver m.provedTheory m.initCond
    (if m.initializers.isEmpty then none else some (m.initUpdate cfg.checkLineno))

/-- The properties, in a state without constraints. -/
def checkProperties : List Report :=
  let schemaInstances := m.labeledAxioms.filter (·.id ∈ m.subgoals)
  if (m.labeledProps ≠ [] ∨ schemaInstances ≠ []) ∧ cfg.checkedAction = "" ∧ !cfg.onlyCheckUnprovable ∧
      !cfg.optSummary then
    (checkFcsInState solver cfg (m.backgroundTheory m.labeledAxioms) (.root .tru)
      (checkersOf m.trusted (m.filterExplicitSubgoals m.nonTemporalProps))).map (.property ·.lf)
  else []

/-- The invariant after initialization. -/
def checkInitialization : List Report :=
  if m.labeledConjs.any (cfg.modUnprovable ·.unprovable) ∧ cfg.checkedAction = "" ∧
      !cfg.onlyCheckUnprovable ∧ !cfg.optSummary then
    (checkConjsInState solver cfg m m.provedTheory (initialState solver cfg m)).map (.initialization ·.lf)
  else []

/-- The assertions of the initializers. -/
def checkInitializers : List Report :=
  if m.initializers ≠ [] ∧ m.initializerGuarantees cfg ≠ [] ∧ !cfg.onlyCheckUnprovable ∧ !cfg.optSummary then
    (checkSafetyInState solver cfg m.provedTheory
      (.post (.root m.initCond) (actionFailure (m.initUpdate cfg.checkLineno)) .tru)).map fun _ => .initializer
  else []

/-- The invariant after an exported action. -/
def checkPreservation (actname : String) : List Report :=
  match (State.root m.getConjs).execute solver m.provedTheory false (m.envUpdate cfg.checkLineno actname) with
  | .error _ => []
  | .ok post => (checkConjsInState solver cfg m m.provedTheory post).map (.preservation actname ·.lf)

/-- One guarantee, in the executions that start with an exported action. -/
def checkGuarantee (lineno root : String) : List Report :=
  match (State.root m.getConjs).execute solver m.provedTheory false (m.envUpdate lineno root) with
  | .error _ => []
  | .ok _ => (checkSafetyInState solver { cfg with checkLineno := lineno } m.provedTheory
      (.post (.root m.getConjs) (actionFailure (m.envUpdate lineno root)) .tru)).map fun _ => .guarantee root lineno

/-- The loop over the exported actions for one guarantee, which ends with the first failure.
What is tried is remembered under the name and the line. -/
def guaranteeLoop (lineno : String) : List String → List String → List String × List Report
  | tried, [] => (tried, [])
  | tried, root :: rest =>
    let tried := (root ++ ":" ++ lineno) :: tried
    match checkGuarantee solver cfg m lineno root with
    | [] => guaranteeLoop lineno tried rest
    | failed => (tried, failed)

/-- A guarantee is checked unless all its exported actions have been tried. -/
def checkGuarantees (tried : List String) (actname : String) (sub : Guarantee) : List String × List Report :=
  let roots := (m.actionOrder cfg).filter (· ∈ m.roots actname)
  if roots.any (fun root => root ++ ":" ++ sub.lineno ∉ tried) && !cfg.optSummary then
    guaranteeLoop solver cfg m sub.lineno tried roots
  else (tried, [])

/-- The guarantees of all actions. -/
def guaranteePhase : List (String × Guarantee) → List String → List Report
  | [], _ => []
  | (actname, sub) :: rest, tried =>
    let (tried, failed) := checkGuarantees solver cfg m tried actname sub
    failed ++ guaranteePhase rest tried

/-- `CheckIsolate`: the failures, where no proof is given for the isolate. -/
def checkIsolate : List Report :=
  checkProperties solver cfg m ++ checkInitialization solver cfg m ++ checkInitializers solver cfg m ++
    (if m.labeledConjs.any (cfg.modUnprovable ·.unprovable) && !cfg.optSummary then
      (m.actionOrder cfg).flatMap (checkPreservation solver cfg m) else []) ++
    (if cfg.noCheckGuarantees then []
     else guaranteePhase solver cfg m
      (m.actions.flatMap fun a => (cfg.guarantees a).map (a.name, ·)) [])

end Checks

/-- Updates that symbolic execution follows exactly, also where they fail, and that say nothing
about witnesses. -/
def Regular (background : Clauses) (u : Update) : Prop :=
  ∀ v ∈ [u, actionFailure u], v.Runs ∧ v.Ignores Const.Witness background

namespace IsolateModule

variable (solver : Solver) (cfg : CheckConfig) (m : IsolateModule) {D : Domain}

/-- The formulas of the module can be checked, and its updates followed. -/
structure WellFormed : Prop where
  theory : Background m.provedTheory
  theoryWitness : ∀ c ∈ m.provedTheory.symbols, ¬ c.Witness
  props : ∀ p ∈ m.labeledProps, p.Checkable
  conjs : ∀ lf ∈ m.conjSubgoals.getD m.labeledConjs, lf.Checkable
  getConjs : ∀ c ∈ m.getConjs.symbols, c.State ∧ ¬ c.Witness
  initCond : m.initCond.StateOnly
  initWitness : ∀ c ∈ m.initCond.symbols, ¬ c.Witness
  initUpdate : ∀ lineno, Regular m.provedTheory (m.initUpdate lineno)
  envUpdate : ∀ lineno action, Regular m.provedTheory (m.envUpdate lineno action)

/-- The formulas that are checked in a state. -/
def checkable : List LabeledFormula :=
  ((m.conjSubgoals.getD m.labeledConjs).filter fun lf => cfg.modUnprovable lf.unprovable).filter
    fun lf => cfg.onLine lf.lineno

/-- A structure of the theory in which the axioms and the properties hold. -/
def Proved (s : Structure D) : Prop := s ∈ solver.theory D ∧ m.provedTheory.Sat s

/-- A structure of the theory in which the axioms and the trusted properties hold. -/
def Base (s : Structure D) : Prop :=
  s ∈ solver.theory D ∧ (m.backgroundTheory m.labeledAxioms).Sat s ∧ ∀ p ∈ m.nonTemporalProps, m.trusted p → p.Holds s

/-- The states after initialization. -/
def initStates (D : Domain) : Set (Structure D) :=
  after (Update.StepIn m.provedTheory) (m.initCond.states D)
    (if m.initializers.isEmpty then none else some (m.initUpdate cfg.checkLineno)).toList

/-- An assertion on a line fails in an execution of an exported action. -/
def Fails (lineno root : String) (s : Structure D) : Prop :=
  ∃ s', (actionFailure (m.envUpdate lineno root)).StepIn m.provedTheory s s' ∧ m.Proved solver s'

/-- An assertion fails in the initializers. -/
def InitializersFail : Prop :=
  ∃ D, ∃ s ∈ m.initCond.states D, ∃ s', (actionFailure (m.initUpdate cfg.checkLineno)).StepIn m.provedTheory s s' ∧
    m.Proved solver s'

/-- What a report says: there is a counterexample to the inductive step that it is about. -/
def Real : Report → Prop
  | .property lf => ∃ p ∈ lf, Refuted solver .tru (m.backgroundTheory m.labeledAxioms) m.trusted
      (m.filterExplicitSubgoals m.nonTemporalProps) p
  | .initialization lf => ∃ c ∈ lf, c ∈ m.checkable cfg ∧ ∃ D, ∃ s ∈ m.initStates cfg D, m.Proved solver s ∧ ¬ c.Holds s
  | .initializer => m.InitializersFail solver cfg
  | .preservation a lf => ∃ c ∈ lf, c ∈ m.checkable cfg ∧ ∃ D, ∃ s ∈ m.getConjs.states D, ∃ s',
      (m.envUpdate cfg.checkLineno a).StepIn m.provedTheory s s' ∧ m.Proved solver s' ∧ ¬ c.Holds s'
  | .guarantee root lineno => ∃ D, ∃ s ∈ m.getConjs.states D, m.Fails solver lineno root s

end IsolateModule

end Goivy.Check
