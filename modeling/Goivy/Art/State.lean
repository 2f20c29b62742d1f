import Goivy.Check.Dual
import Goivy.TransRel.Execution

/-! States of the symbolic interpreter: clauses, and how they came about. Post-states and
histories are computed from updates and the background theory. -/
namespace Goivy

open Reachability

/-- The symbols that are no part of a state: skolems, and the witnesses of the checkers. -/
def Const.Auxiliary (c : Const) : Prop := c.Skolem ∨ c.Witness

/-- A decision procedure for clauses over the structures of a theory, which leaves the
auxiliary symbols open. -/
structure Solver where
  theory : (D : Domain) → Set (Structure D)
  theory_congr : ∀ {D : Domain} {M N : Structure D}, AgreeOff Const.Auxiliary M N →
    M ∈ theory D → N ∈ theory D
  check : List Clauses → Bool
  check_iff : ∀ asserted, check asserted = true ↔
    ∃ D, ∃ M ∈ theory D, ∀ cl ∈ asserted, cl.Sat M

/-- `PureStateClauses`. -/
def pureState (clauses : Clauses) : Update := ⟨[], true, clauses, .fls⟩

/-- `ActionFailed`: the state and the failed precondition, without the symbols of the post-state. -/
structure ActionFailed where
  preTest : Clauses

/-- `OldConst`. -/
def oldConst (c : Const) : Const := ⟨"old_" ++ c.name, c.sort⟩

/-- `ComposeStateAction`. -/
def composeStateAction (solver : Solver) (state : Update) (axioms : Clauses) (action : Update)
    (check : Bool) : Except ActionFailed Update :=
  let preTest := Clauses.and [state.tr, action.pre, axioms]
  if check && !action.pre.isFalse && solver.check [preTest] then
    .error ⟨(preTest.existQuant (action.modified.map newActionConst)).2⟩
  else if state.modifiedAll then
    .ok ⟨state.modified, true, (Update.forwardImageMap state.tr axioms action).2, state.pre⟩
  else
    let rn := (action.modified.filter (· ∉ state.modified)).map (fun x => (x, (oldConst x).name))
    let sc := if rn.isEmpty then state.tr else state.tr.rename rn
    .ok ⟨updatedJoin state.modified action.modified, false,
      (Update.forwardImageMap sc axioms action).2, state.pre⟩

/-- `ConcretePost`, for a state in which all symbols count as modified. -/
def concretePost (solver : Solver) (background : Clauses) (check : Bool) (update : Update)
    (clauses : Clauses) : Except ActionFailed Clauses :=
  (composeStateAction solver (pureState clauses) background update check).map Update.tr

/-- `ActionFailure`. -/
def actionFailure (u : Update) : Update := ⟨u.modified, false, u.pre, .tru⟩

/-- `State`, with the predecessor and the update, or the joined states, that it came from. -/
inductive State where
  | root (clauses : Clauses)
  | post (pred : State) (update : Update) (clauses : Clauses)
  | join (left right : State) (clauses : Clauses)

namespace State

def clauses : State → Clauses
  | root clauses | post _ _ clauses | join _ _ clauses => clauses

/-- `PostState`: the state after an action with this update. -/
def execute (solver : Solver) (background : Clauses) (check : Bool) (update : Update)
    (prestate : State) : Except ActionFailed State :=
  (concretePost solver background check update prestate.clauses).map (.post prestate update)

/-- `GetHistory`: the predecessors are followed for `bound` steps at most. -/
def getHistory (background : Clauses) : State → Option Nat → History
  | post pred update clauses, bound =>
    if bound = some 0 then ⟨clauses, []⟩
    else (pred.getHistory background (bound.map (· - 1))).forwardStep background update
  | s, _ => ⟨s.clauses, []⟩

/-- The clauses that the history for a bound starts from. -/
def origin : State → Option Nat → Clauses
  | post pred _ clauses, bound => if bound = some 0 then clauses else pred.origin (bound.map (· - 1))
  | s, _ => s.clauses

/-- The updates since then, the first one first. -/
def path : State → Option Nat → List Update
  | post pred update _, bound =>
    if bound = some 0 then [] else pred.path (bound.map (· - 1)) ++ [update]
  | _, _ => []

end State

section Post

variable {solver : Solver} {background clauses : Clauses} {update : Update} {check : Bool} {D : Domain}

/-- The state is refused exactly when the precondition test has a model. -/
theorem concretePost_eq : concretePost solver background check update clauses =
    if check && !update.pre.isFalse && solver.check [.and [clauses, update.pre, background]] then
      .error ⟨((Clauses.and [clauses, update.pre, background]).existQuant
        (update.modified.map newActionConst)).2⟩
    else .ok (Update.forwardImage clauses background update) := by
  simp only [concretePost, composeStateAction, pureState, ↓reduceIte]
  split <;> rfl

/-- An execution without a check does not fail. -/
theorem State.execute_unchecked (background : Clauses) (u : Update) (s : State) :
    s.execute solver background false u =
      .ok (.post s u (Update.forwardImage s.clauses background u)) := by
  rw [State.execute, concretePost_eq]
  rfl

/-- An execution fails where the precondition can be met, and otherwise goes on along the path. -/
theorem State.execute_checked (background : Clauses) (u : Update) (s : State) :
    (∃ failed, s.execute solver background true u = .error failed ∧
      solver.check [.and [s.clauses, u.pre, background]] = true) ∨
    ∃ clauses, s.execute solver background true u = .ok (.post s u clauses) := by
  rw [State.execute, concretePost_eq]
  split
  · rename_i fails
    simp only [Bool.and_eq_true] at fails
    exact .inl ⟨_, rfl, fails.2⟩
  · exact .inr ⟨_, rfl⟩

end Post

section Initial

variable {solver : Solver} {background initCond : Clauses} {initializers : Option Update}

/-- `AddInitialState`. -/
def addInitialState (solver : Solver) (background initCond : Clauses) (initializers : Option Update) : State :=
  match initializers with
  | none => .root initCond
  | some env =>
    match (State.root initCond).execute solver background false env with
    | .ok s₂ => s₂
    | .error _ => .root initCond

/-- The initial state comes from the initializers, and its clauses are those of its history. -/
theorem addInitialState_spec (solver : Solver) (background initCond : Clauses) (initializers : Option Update) :
    (addInitialState solver background initCond initializers).origin none = initCond ∧
    (addInitialState solver background initCond initializers).path none = initializers.toList ∧
    ((addInitialState solver background initCond initializers).getHistory background none).post =
      (addInitialState solver background initCond initializers).clauses := by
  cases initializers with
  | none => exact ⟨rfl, rfl, rfl⟩
  | some env =>
    simp only [addInitialState, State.execute_unchecked]
    exact ⟨rfl, rfl, rfl⟩

end Initial

/-- A background theory: clauses over the symbols of a state. -/
def Background (axioms : Clauses) : Prop := ∀ c ∈ axioms.symbols, c.State

theorem Background.stateOnly {axioms : Clauses} (h : Background axioms) : axioms.StateOnly :=
  fun c hc _ => (h c hc).notNew

theorem Background.noGlobal {axioms : Clauses} (h : Background axioms) : axioms.NoGlobal := by
  intro c hc
  by_contra global
  have := isSkolem_of_isGlobalSkolem (by simpa using global)
  rw [(h c hc).notSkolem] at this
  contradiction

namespace State

variable {background : Clauses} {D : Domain}

/-- The history of a state is the run of the updates on its path. -/
theorem getHistory_eq (s : State) (bound : Option Nat) : s.getHistory background bound =
    History.run ⟨s.origin bound, []⟩ ((s.path bound).map (.forwardStep background)) := by
  induction s generalizing bound with
  | root clauses => rfl
  | join left right clauses => rfl
  | post pred update clauses ih =>
    unfold getHistory origin path
    split
    · rfl
    · rw [ih, List.map_append, List.map_singleton, History.run_append]
      rfl

/-- The history of a state describes the states that its path leads to. -/
theorem states_getHistory {s : State} {bound : Option Nat} (theory : Background background)
    (origin : (s.origin bound).StateOnly) (runs : ∀ u ∈ s.path bound, u.Runs) :
    (s.getHistory background bound).post.states D =
      after (Update.StepIn background) ((s.origin bound).states D) (s.path bound) := by
  have exact : ∀ op ∈ (s.path bound).map (History.Operation.forwardStep background), op.Exact := by
    simp only [List.forall_mem_map]
    exact fun u hu => ⟨runs u hu, theory.stateOnly, theory.noGlobal⟩
  rw [getHistory_eq, History.states_run origin exact, after_map]
  rfl

end State

namespace Solver

variable {solver : Solver} {asserted : List Clauses}

/-- The solver finds a state with a property that the asserted clauses say next to `cl`. -/
theorem check_states (cl : Clauses) (P : ∀ {D : Domain}, Structure D → Prop)
    (congr : ∀ {D : Domain} {M N : Structure D}, AgreeOff Const.Skolem M N → P M → P N)
    (means : ∀ {D : Domain} (M : Structure D), (∀ c ∈ asserted, c.Sat M) ↔ cl.Sat M ∧ P M) :
    solver.check asserted = true ↔ ∃ D, ∃ s ∈ cl.states D, s ∈ solver.theory D ∧ P s := by
  simp only [solver.check_iff, means]
  refine exists_congr fun D => ?_
  constructor
  · rintro ⟨M, theory, sat, property⟩
    exact ⟨M, ⟨M, AgreeOff.refl _ _, sat⟩, theory, property⟩
  · rintro ⟨s, ⟨M, agree, sat⟩, theory, property⟩
    exact ⟨M, solver.theory_congr (fun c hc => agree c fun h => hc (.inl h)) theory, sat,
      congr agree property⟩

open Classical in
/-- A solver that is never wrong, for a theory without interpreted symbols. -/
noncomputable def ideal : Solver where
  theory _ := Set.univ
  theory_congr _ _ := trivial
  check asserted := decide (∃ D, ∃ M ∈ (Set.univ : Set (Structure D)), ∀ cl ∈ asserted, cl.Sat M)
  check_iff _ := decide_eq_true_iff

end Solver

end Goivy
