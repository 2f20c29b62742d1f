import Goivy.Check.Isolate

/-! What each check of an isolate says about the states of its history. -/
namespace Goivy.Check

open Reachability

section Histories

variable {background cl : Clauses} {s : State} {D : Domain}

/-- The history of a state describes what its path leads to, and says nothing about witnesses. -/
theorem ignoring_history (theory : Background background) (noWitness : ∀ c ∈ background.symbols, ¬ c.Witness)
    (only : cl.StateOnly) (clWitness : ∀ c ∈ cl.symbols, ¬ c.Witness) (origin : s.origin none = cl)
    (regular : ∀ u ∈ s.path none, u.Runs ∧ u.Ignores Const.Witness background) :
    Ignoring (s.getHistory background none).post background ∧
    ∀ D, (s.getHistory background none).post.states D =
      after (Update.StepIn background) (cl.states D) (s.path none) := by
  have states : ∀ D, (s.getHistory background none).post.states D =
      after (Update.StepIn background) (cl.states D) (s.path none) := by
    intro D
    have start : (s.origin none).StateOnly := origin ▸ only
    rw [State.states_getHistory theory start fun u hu => (regular u hu).1, origin]
  refine ⟨⟨theory, noWitness, fun {D s t} agree hs => ?_⟩, states⟩
  rw [states D] at hs ⊢
  exact Update.mem_after_congr clWitness (fun u hu => ⟨(regular u hu).1.toTransitionStyle, (regular u hu).2⟩) agree hs

end Histories

theorem LabeledFormula.holds_iff {lf : LabeledFormula} {D : Domain} {s : Structure D} :
    lf.Holds s ↔ lf.formula.Valid s := Clauses.sat_ofFormula _

namespace IsolateModule

variable {m : IsolateModule} {axioms more : List LabeledFormula} {D : Domain} {s : Structure D}

theorem sat_backgroundTheory_append : (m.backgroundTheory (axioms ++ more)).Sat s ↔
    (m.backgroundTheory axioms).Sat s ∧ ∀ p ∈ more, p.temporal = false → p.Holds s := by
  simp only [backgroundTheory, Clauses.sat_new, List.filter_append, List.map_append, List.mem_append,
    LabeledFormula.holds_iff]
  grind

theorem mem_symbols_backgroundTheory {c : Const} (h : c ∈ (m.backgroundTheory axioms).symbols) :
    c ∈ (m.backgroundTheory (axioms ++ more)).symbols := by
  simp only [backgroundTheory, Clauses.symbols_new, List.filter_append, List.map_append, List.flatMap_append,
    List.mem_append] at h ⊢
  tauto

/-- What the pre-states of the inductive checks satisfy. -/
theorem mem_getConjs_states (state : ∀ c ∈ m.getConjs.symbols, c.State) : s ∈ m.getConjs.states D ↔
    ∀ lf ∈ m.labeledConjs ++ m.assumedInvs, lf.explicit = false → lf.unprovable = false → lf.Holds s := by
  have plain : m.getConjs.SatSkolem s ↔ m.getConjs.Sat s := by
    constructor
    · rintro ⟨N, agree, sat⟩
      exact (Clauses.sat_congr fun c hc => agree c (by simp [Const.Skolem, (state c hc).notSkolem])).mpr sat
    · exact fun sat => ⟨s, AgreeOff.refl _ _, sat⟩
  rw [Clauses.mem_states, plain, getConjs, Clauses.sat_new]
  simp only [LabeledFormula.holds_iff]
  grind

end IsolateModule

section Phases

variable {solver : Solver} {cfg : CheckConfig} {m : IsolateModule} {D : Domain} {s s' : Structure D}
  {lf : LabeledFormula} {report : Report}

theorem checkConjsInState_eq {background : Clauses} (post : State) :
    checkConjsInState solver cfg m background post =
      runCheckers solver cfg (.and [(post.getHistory background none).post, background]) []
        (checkersOf (fun _ => false) (m.checkable cfg)) := by
  rw [checkConjsInState, checkFcsInState]
  refine congrArg _ ?_
  have none_ (lfs : List LabeledFormula) : lfs.map newConjChecker = checkersOf (fun _ => false) lfs := by
    simp [checkersOf]
  rw [none_, filterCheckers_checkersOf, IsolateModule.checkable, List.filter_filter]
  refine congrArg _ (List.filter_congr fun lf _ => ?_)
  simp only [CheckConfig.onLine, Bool.or_false]
  cases h : decide (cfg.checkLineno = "") <;> simp

variable (normal : cfg.onlyCheckUnprovable = false)
include normal

/-- The check of the assertions finds whether there is a state at all. -/
theorem checkSafetyInState_eq_nil {background : Clauses} {post : State}
    (ignoring : Ignoring (post.getHistory background none).post background) :
    checkSafetyInState solver cfg background post = [] ↔
      ∀ D, ∀ s ∈ (post.getHistory background none).post.states D, s ∈ solver.theory D → ¬ background.Sat s := by
  have filter (lineno : String) : filterCheckers lineno [safetyChecker] = [safetyChecker] := by
    simp [filterCheckers, safetyChecker]
  rw [checkSafetyInState, checkFcsInState, filter, ← not_iff_not, ← ne_eq, runCheckers_safety normal ignoring]
  push Not
  rfl

variable (wf : m.WellFormed)
include wf

/-- What the check of the conjectures in a state finds. -/
theorem checkConjsInState_spec {background : Clauses} {post : State}
    (ignoring : Ignoring (post.getHistory background none).post background) :
    (∀ c ∈ checkConjsInState solver cfg m background post, ∃ lf, c.lf = some lf ∧ lf ∈ m.checkable cfg ∧ ∃ D,
      ∃ s ∈ (post.getHistory background none).post.states D, s ∈ solver.theory D ∧ background.Sat s ∧ ¬ lf.Holds s) ∧
    (checkConjsInState solver cfg m background post = [] → ∀ D, ∀ s ∈ (post.getHistory background none).post.states D,
      s ∈ solver.theory D → background.Sat s → ∀ lf ∈ m.checkable cfg, lf.Holds s) := by
  have checkable : ∀ lf ∈ m.checkable cfg, lf.Checkable := fun lf hlf =>
    wf.conjs lf (List.mem_filter.mp (List.mem_filter.mp hlf).1).1
  rw [checkConjsInState_eq]
  refine ⟨fun c hc => ?_, fun none_ D s hs theory sat => ?_⟩
  · obtain ⟨lf, rfl, _, _, split, _, D, s, hs, theory, sat, -, fails⟩ := refuted_of_mem normal ignoring checkable hc
    exact ⟨lf, rfl, split ▸ List.mem_append_right _ List.mem_cons_self, D, s, hs, theory, sat, fails⟩
  · exact holds_of_none normal ignoring checkable none_ hs theory sat fun _ _ trust => absurd trust Bool.false_ne_true

omit normal in
/-- The histories of the pre-states of the inductive checks. -/
theorem preState_history {u : Update} (clauses : Clauses) (regular : u.Runs ∧ u.Ignores Const.Witness m.provedTheory) :
    Ignoring ((State.post (.root m.getConjs) u clauses).getHistory m.provedTheory none).post m.provedTheory ∧
    ∀ D, ((State.post (.root m.getConjs) u clauses).getHistory m.provedTheory none).post.states D =
      image (u.StepIn m.provedTheory) (m.getConjs.states D) :=
  ignoring_history wf.theory wf.theoryWitness (fun c hc _ => (wf.getConjs c hc).1.notNew)
    (fun c hc => (wf.getConjs c hc).2) rfl (List.forall_mem_singleton.mpr regular)

/-- What the check of the invariant after an exported action finds. -/
theorem checkPreservation_spec (actname : String) :
    (∀ report ∈ checkPreservation solver cfg m actname, m.Real solver cfg report) ∧
    (checkPreservation solver cfg m actname = [] → ∀ D, ∀ s ∈ m.getConjs.states D, ∀ s',
      (m.envUpdate cfg.checkLineno actname).StepIn m.provedTheory s s' → m.Proved solver s' →
      ∀ lf ∈ m.checkable cfg, lf.Holds s') := by
  rw [checkPreservation, State.execute_unchecked]
  have regular := wf.envUpdate cfg.checkLineno actname _ List.mem_cons_self
  obtain ⟨ignoring, states⟩ := preState_history wf
    (Update.forwardImage m.getConjs m.provedTheory (m.envUpdate cfg.checkLineno actname)) regular
  obtain ⟨real, none_⟩ := checkConjsInState_spec normal wf ignoring
  simp only [states] at real none_
  constructor
  · intro report hr
    obtain ⟨c, hc, rfl⟩ := List.mem_map.mp hr
    obtain ⟨lf, eq, mem, D, s', ⟨s, hs, step⟩, theory, sat, fails⟩ := real c hc
    exact ⟨lf, eq, mem, D, s, hs, s', step, ⟨theory, sat⟩, fails⟩
  · intro empty D s hs s' step proved
    exact none_ (List.map_eq_nil_iff.mp empty) D s' ⟨s, hs, step⟩ proved.1 proved.2

/-- What the check of one guarantee finds. -/
theorem checkGuarantee_spec (lineno root : String) :
    (∀ report ∈ checkGuarantee solver cfg m lineno root, m.Real solver cfg report) ∧
    (checkGuarantee solver cfg m lineno root = [] → ∀ D, ∀ s ∈ m.getConjs.states D,
      ¬ m.Fails solver lineno root s) := by
  rw [checkGuarantee, State.execute_unchecked]
  have regular := wf.envUpdate lineno root _ (List.mem_cons_of_mem _ List.mem_cons_self)
  obtain ⟨ignoring, states⟩ := preState_history wf .tru regular
  have safety := @checkSafetyInState_eq_nil solver { cfg with checkLineno := lineno } normal _ _ ignoring
  simp only [states] at safety
  constructor
  · intro report hr
    obtain ⟨c, hc, rfl⟩ := List.mem_map.mp hr
    have fails := mt safety.mpr (List.ne_nil_of_mem hc)
    push Not at fails
    obtain ⟨D, s', ⟨s, hs, step⟩, theory, sat⟩ := fails
    exact ⟨D, s, hs, s', step, theory, sat⟩
  · rintro empty D s hs ⟨s', step, proved⟩
    exact safety.mp (List.map_eq_nil_iff.mp empty) D s' ⟨s, hs, step⟩ proved.1 proved.2

/-- What the check of the properties finds. -/
theorem checkProperties_spec :
    (∀ report ∈ checkProperties solver cfg m, m.Real solver cfg report) ∧
    (cfg.Full → checkProperties solver cfg m = [] → ∀ (D : Domain) (s : Structure D), m.Base solver s → m.Proved solver s) := by
  have theory : Background (m.backgroundTheory m.labeledAxioms) :=
    fun c hc => wf.theory c (IsolateModule.mem_symbols_backgroundTheory hc)
  have noWitness : ∀ c ∈ (m.backgroundTheory m.labeledAxioms).symbols, ¬ c.Witness :=
    fun c hc => wf.theoryWitness c (IsolateModule.mem_symbols_backgroundTheory hc)
  have ignoring : Ignoring .tru (m.backgroundTheory m.labeledAxioms) :=
    ⟨theory, noWitness, fun {_ _ t} _ _ => ⟨t, AgreeOff.refl _ _, Clauses.sat_tru t⟩⟩
  have sub : ∀ p ∈ m.filterExplicitSubgoals m.nonTemporalProps, p ∈ m.labeledProps :=
    fun p hp => (List.mem_filter.mp (List.mem_filter.mp hp).1).1
  rw [checkProperties, checkFcsInState, filterCheckers_checkersOf]
  constructor
  · intro report hr
    split at hr
    · obtain ⟨c, hc, rfl⟩ := List.mem_map.mp hr
      obtain ⟨p, rfl, refuted⟩ := refuted_of_mem normal ignoring
        (fun lf hlf => wf.props lf (sub lf (List.mem_filter.mp hlf).1)) hc
      exact ⟨p, rfl, refuted.of_filter fun a _ trust => by simp [trust]⟩
    · contradiction
  · intro full none_ D s base
    refine ⟨base.1, IsolateModule.sat_backgroundTheory_append.mpr ⟨base.2.1, fun p hp _ => ?_⟩⟩
    by_cases dropped : p ∈ m.filterExplicitSubgoals m.nonTemporalProps
    · rw [if_pos, List.map_eq_nil_iff] at none_
      · refine holds_of_none normal ignoring (fun lf hlf => wf.props lf (sub lf (List.mem_filter.mp hlf).1)) none_
          ⟨s, AgreeOff.refl _ _, Clauses.sat_tru s⟩ base.1 base.2.1 (fun a ha trust => ?_) p ?_
        · exact base.2.2 a (List.mem_filter.mp (List.mem_filter.mp ha).1).1 trust
        · exact List.mem_filter.mpr ⟨dropped, by simp [full.checkLineno]⟩
      · refine ⟨.inl (List.ne_nil_of_mem (sub p dropped)), full.checkedAction, by simp [normal], by simp [full.optSummary]⟩
    · refine base.2.2 p hp ?_
      simp only [IsolateModule.filterExplicitSubgoals, List.mem_filter, hp, true_and] at dropped
      simp only [IsolateModule.trusted]
      grind

omit normal in
/-- The history of the initial state. -/
theorem initialState_history : Ignoring ((initialState solver cfg m).getHistory m.provedTheory none).post m.provedTheory ∧
    ∀ D, ((initialState solver cfg m).getHistory m.provedTheory none).post.states D = m.initStates cfg D := by
  have initial := addInitialState_spec solver m.provedTheory m.initCond
    (if m.initializers.isEmpty then none else some (m.initUpdate cfg.checkLineno))
  have history := @ignoring_history _ _ (initialState solver cfg m) wf.theory wf.theoryWitness wf.initCond wf.initWitness
    initial.1 (fun u hu => ?_)
  · refine ⟨history.1, fun D => (history.2 D).trans ?_⟩
    rw [IsolateModule.initStates, ← initial.2.1]
    rfl
  · rw [initialState, initial.2.1] at hu
    split at hu
    · contradiction
    · rw [Option.toList_some, List.mem_singleton] at hu
      exact hu ▸ wf.initUpdate cfg.checkLineno _ List.mem_cons_self

/-- What the check of the invariant after initialization finds. -/
theorem checkInitialization_spec :
    (∀ report ∈ checkInitialization solver cfg m, m.Real solver cfg report) ∧
    (cfg.Full → checkInitialization solver cfg m = [] → m.conjSubgoals = none → ∀ D, ∀ s ∈ m.initStates cfg D,
      m.Proved solver s → ∀ lf ∈ m.labeledConjs, lf.unprovable = false → lf.Holds s) := by
  obtain ⟨ignoring, states⟩ := @initialState_history solver cfg m wf
  obtain ⟨real, none_⟩ := @checkConjsInState_spec solver cfg m normal wf _ _ ignoring
  simp only [states] at real none_
  rw [checkInitialization]
  constructor
  · intro report hr
    split at hr
    · obtain ⟨c, hc, rfl⟩ := List.mem_map.mp hr
      obtain ⟨lf, eq, mem, D, s, hs, theory, sat, fails⟩ := real c hc
      exact ⟨lf, eq, mem, D, s, hs, ⟨theory, sat⟩, fails⟩
    · contradiction
  · intro full empty proofs D s hs proved lf mem provable
    have mod : cfg.modUnprovable lf.unprovable = true := by simp [CheckConfig.modUnprovable, provable, normal]
    rw [if_pos, List.map_eq_nil_iff] at empty
    · refine none_ empty D s hs proved.1 proved.2 lf ?_
      simp [IsolateModule.checkable, proofs, mem, mod, CheckConfig.onLine, full.checkLineno]
    · exact ⟨List.any_eq_true.mpr ⟨lf, mem, mod⟩, full.checkedAction, by simp [normal], by simp [full.optSummary]⟩

/-- What the check of the assertions of the initializers finds. -/
theorem checkInitializers_spec :
    (∀ report ∈ checkInitializers solver cfg m, m.Real solver cfg report) ∧
    (cfg.Full → checkInitializers solver cfg m = [] → m.initializerGuarantees cfg ≠ [] →
      ¬ m.InitializersFail solver cfg) := by
  have regular := wf.initUpdate cfg.checkLineno _ (List.mem_cons_of_mem _ List.mem_cons_self)
  obtain ⟨ignoring, states⟩ := @ignoring_history _ _
    (.post (.root m.initCond) (actionFailure (m.initUpdate cfg.checkLineno)) .tru) wf.theory wf.theoryWitness
    wf.initCond wf.initWitness rfl (List.forall_mem_singleton.mpr regular)
  have safety := @checkSafetyInState_eq_nil solver cfg normal _ _ ignoring
  simp only [states] at safety
  rw [checkInitializers]
  constructor
  · intro report hr
    split at hr
    · obtain ⟨c, hc, rfl⟩ := List.mem_map.mp hr
      have fails := mt safety.mpr (List.ne_nil_of_mem hc)
      push Not at fails
      obtain ⟨D, s', ⟨s, hs, step⟩, theory, sat⟩ := fails
      exact ⟨D, s, hs, s', step, theory, sat⟩
    · contradiction
  · rintro full empty some_ ⟨D, s, hs, s', step, proved⟩
    rw [if_pos, List.map_eq_nil_iff] at empty
    · exact safety.mp empty D s' ⟨s, hs, step⟩ proved.1 proved.2
    · refine ⟨?_, some_, by simp [normal], by simp [full.optSummary]⟩
      rintro none_
      simp [IsolateModule.initializerGuarantees, none_] at some_

end Phases

end Goivy.Check
