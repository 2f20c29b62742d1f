import Goivy.Check.Phases
import Goivy.TransRel.Join

/-! An isolate that passes its checks is safe: the invariant and the guarantees hold in all runs. -/
namespace Goivy.Check

open Reachability

section Guarantees

variable {solver : Solver} {cfg : CheckConfig} {m : IsolateModule}

/-- What is tried has been checked without a failure. -/
def Tried (solver : Solver) (cfg : CheckConfig) (m : IsolateModule) (tried : List String) : Prop :=
  ∀ key ∈ tried, ∃ root ∈ m.publicActions, ∃ a ∈ m.actions, ∃ sub ∈ a.guarantees,
    key = root ++ ":" ++ sub.lineno ∧ checkGuarantee solver cfg m sub.lineno root = []

variable {tried : List String} {lineno : String} {roots : List String}

/-- The loop reports what the check of a guarantee reports. -/
theorem mem_guaranteeLoop {report : Report} (h : report ∈ (guaranteeLoop solver cfg m lineno tried roots).2) :
    ∃ root, report ∈ checkGuarantee solver cfg m lineno root := by
  induction roots generalizing tried with
  | nil => contradiction
  | cons root rest ih =>
    unfold guaranteeLoop at h
    cases check : checkGuarantee solver cfg m lineno root with
    | nil =>
      rw [check] at h
      exact ih h
    | cons r failed =>
      rw [check] at h
      exact ⟨root, check ▸ h⟩

/-- Where the loop reports nothing, all its exported actions are tried without a failure. -/
theorem guaranteeLoop_eq_nil (h : (guaranteeLoop solver cfg m lineno tried roots).2 = []) :
    (∀ root ∈ roots, checkGuarantee solver cfg m lineno root = []) ∧
    ∀ key ∈ (guaranteeLoop solver cfg m lineno tried roots).1, key ∈ tried ∨
      ∃ root ∈ roots, key = root ++ ":" ++ lineno := by
  induction roots generalizing tried with
  | nil => exact ⟨fun _ h => absurd h List.not_mem_nil, fun _ h => .inl h⟩
  | cons root rest ih =>
    unfold guaranteeLoop at h ⊢
    cases check : checkGuarantee solver cfg m lineno root with
    | nil =>
      simp only [check] at h ⊢
      obtain ⟨passes, keys⟩ := ih h
      refine ⟨List.forall_mem_cons.mpr ⟨check, passes⟩, fun key hkey => ?_⟩
      obtain old | ⟨root', mem, eq⟩ := keys key hkey
      · obtain eq | old := List.mem_cons.mp old
        · exact .inr ⟨root, List.mem_cons_self, eq⟩
        · exact .inl old
      · exact .inr ⟨root', List.mem_cons_of_mem _ mem, eq⟩
    | cons r failed =>
      simp only [check] at h
      contradiction

/-- No two exported actions and lines are remembered as the same. -/
def IsolateModule.KeysDistinct (m : IsolateModule) : Prop :=
  ∀ root ∈ m.publicActions, ∀ root' ∈ m.publicActions, ∀ a ∈ m.actions, ∀ sub ∈ a.guarantees,
    ∀ a' ∈ m.actions, ∀ sub' ∈ a'.guarantees,
      root ++ ":" ++ sub.lineno = root' ++ ":" ++ sub'.lineno → root = root' ∧ sub.lineno = sub'.lineno

theorem mem_sortedUnion {priority all : List String} {name : String} (sub : priority ⊆ all) :
    name ∈ sortedUnion priority all ↔ name ∈ all := by
  simp only [sortedUnion, sortedNames, List.mem_append, List.mem_insertionSort, List.mem_dedup, List.mem_filter,
    decide_eq_true_eq]
  grind

/-- All exported actions are checked. -/
theorem mem_order (full : cfg.Full) {root : String} : root ∈ m.actionOrder cfg ↔ root ∈ m.publicActions := by
  rw [IsolateModule.actionOrder, mem_sortedUnion fun _ h => of_decide_eq_true (List.mem_filter.mp h).2,
    IsolateModule.getCheckedActions, full.checkedAction]
  simp

/-- One guarantee, where nothing is reported. -/
theorem checkGuarantees_eq_nil (full : cfg.Full) (keys : m.KeysDistinct) {a : NamedAction} (ha : a ∈ m.actions)
    {sub : Guarantee} (hsub : sub ∈ a.guarantees) (sofar : Tried solver cfg m tried)
    (h : (checkGuarantees solver cfg m tried a.name sub).2 = []) :
    Tried solver cfg m (checkGuarantees solver cfg m tried a.name sub).1 ∧
    ∀ root ∈ m.publicActions, root ∈ m.roots a.name → checkGuarantee solver cfg m sub.lineno root = [] := by
  unfold checkGuarantees at h ⊢
  by_cases some_ : ((m.actionOrder cfg).filter (· ∈ m.roots a.name)).any
      (fun root => root ++ ":" ++ sub.lineno ∉ tried) && !cfg.optSummary
  · simp only [if_pos some_] at h ⊢
    obtain ⟨passes, tried'⟩ := guaranteeLoop_eq_nil h
    constructor
    · intro key hkey
      obtain old | ⟨root, mem, eq⟩ := tried' key hkey
      · exact sofar key old
      · exact ⟨root, (mem_order full).mp (List.mem_filter.mp mem).1, a, ha, sub, hsub, eq, passes root mem⟩
    · exact fun root hroot reaches => passes root (List.mem_filter.mpr ⟨(mem_order full).mpr hroot, by simpa using reaches⟩)
  · simp only [if_neg some_] at h ⊢
    refine ⟨sofar, fun root hroot reaches => ?_⟩
    have old : root ++ ":" ++ sub.lineno ∈ tried := by
      simp only [full.optSummary, Bool.not_false, Bool.and_true, List.any_eq_true, List.mem_filter,
        decide_eq_true_eq, not_exists, not_and, not_not] at some_
      exact some_ root ⟨(mem_order full).mpr hroot, reaches⟩
    obtain ⟨root', hroot', a', ha', sub', hsub', eq, passes⟩ := sofar _ old
    obtain ⟨rfl, same⟩ := keys root hroot root' hroot' a ha sub hsub a' ha' sub' hsub' eq
    exact same ▸ passes

theorem mem_checkGuarantees {report : Report} {actname : String} {sub : Guarantee}
    (h : report ∈ (checkGuarantees solver cfg m tried actname sub).2) :
    ∃ root, report ∈ checkGuarantee solver cfg m sub.lineno root := by
  simp only [checkGuarantees] at h
  split at h
  · exact mem_guaranteeLoop h
  · contradiction

variable {subs : List (String × Guarantee)}

theorem mem_guaranteePhase {report : Report} (h : report ∈ guaranteePhase solver cfg m subs tried) :
    ∃ lineno root, report ∈ checkGuarantee solver cfg m lineno root := by
  induction subs generalizing tried with
  | nil => contradiction
  | cons p rest ih =>
    obtain ⟨actname, sub⟩ := p
    obtain h | h := List.mem_append.mp h
    · exact ⟨_, mem_checkGuarantees h⟩
    · exact ih h

theorem guaranteePhase_eq_nil (full : cfg.Full) (keys : m.KeysDistinct)
    (known : ∀ p ∈ subs, ∃ a ∈ m.actions, p.1 = a.name ∧ p.2 ∈ a.guarantees) (sofar : Tried solver cfg m tried)
    (h : guaranteePhase solver cfg m subs tried = []) : ∀ p ∈ subs, ∀ root ∈ m.publicActions, root ∈ m.roots p.1 →
      checkGuarantee solver cfg m p.2.lineno root = [] := by
  induction subs generalizing tried with
  | nil => exact fun _ h => absurd h List.not_mem_nil
  | cons p rest ih =>
    obtain ⟨actname, sub⟩ := p
    rw [List.forall_mem_cons] at known ⊢
    obtain ⟨⟨a, ha, rfl, hsub⟩, known⟩ := known
    obtain ⟨first, later⟩ := List.append_eq_nil_iff.mp h
    obtain ⟨sofar, passes⟩ := checkGuarantees_eq_nil full keys ha hsub sofar first
    exact ⟨passes, ih known sofar later⟩

/-- The roots of an action are the actions from which calls lead to it. -/
theorem mem_roots {root actname : String} :
    root ∈ m.roots actname ↔ Worklist.Reaches m.callgraph [actname] root := by
  have edges : ∀ x, m.callgraph x ⊆ m.actions.map (·.name) := by
    intro x y hy
    obtain ⟨a, ha, hy⟩ := List.mem_flatMap.mp hy
    obtain ⟨_, -, rfl⟩ := List.mem_map.mp hy
    exact List.mem_map_of_mem ha
  have fewer : (Worklist.unvisited (m.actions.map (·.name)) [actname]).length ≤ m.actions.length :=
    (List.length_filter_le _ _).trans (List.length_map _).le
  refine Worklist.mem_search edges _ Worklist.searching_start ?_
  simp only [List.length_singleton]
  omega

end Guarantees

namespace IsolateModule

variable (solver : Solver) (cfg : CheckConfig) (m : IsolateModule) {D : Domain}

/-- A structure in which everything that is trusted holds. -/
def Intended (s : Structure D) : Prop := m.Base solver s ∧
  ∀ inv ∈ m.assumedInvs, inv.explicit = false → inv.unprovable = false → inv.Holds s

/-- The states of the runs of the exported actions after initialization. -/
def reachable (D : Domain) : Set (Structure D) :=
  reached (fun a s s' => a ∈ m.publicActions ∧ (m.envUpdate cfg.checkLineno a).Step s s' ∧ m.Intended solver s')
    {s | s ∈ m.initStates cfg D ∧ m.Intended solver s}

/-- A state in which the properties and the conjectures hold, and from which no exported action
fails at a guarantee of an action that it may call. -/
structure Safe (s : Structure D) : Prop where
  properties : ∀ p ∈ m.labeledProps, p.temporal = false → p.Holds s
  conjectures : ∀ lf ∈ m.labeledConjs, lf.unprovable = false → lf.Holds s
  guarantees : ∀ a ∈ m.actions, ∀ sub ∈ a.guarantees, sub.unprovable = false → ∀ root ∈ m.publicActions,
    Worklist.Reaches m.callgraph [a.name] root → ¬ m.Fails solver sub.lineno root s

end IsolateModule

section System

variable {solver : Solver} {cfg : CheckConfig} {m : IsolateModule} {D : Domain}

/-- Each failure that is reported is one. -/
theorem real_of_mem_checkIsolate (normal : cfg.onlyCheckUnprovable = false) (wf : m.WellFormed) :
    ∀ report ∈ checkIsolate solver cfg m, m.Real solver cfg report := by
  intro report h
  simp only [checkIsolate, List.mem_append] at h
  obtain (((h | h) | h) | h) | h := h
  · exact (checkProperties_spec normal wf).1 report h
  · exact (checkInitialization_spec normal wf).1 report h
  · exact (checkInitializers_spec normal wf).1 report h
  · split at h
    · obtain ⟨a, -, h⟩ := List.mem_flatMap.mp h
      exact (checkPreservation_spec normal wf a).1 report h
    · contradiction
  · split at h
    · contradiction
    · obtain ⟨lineno, root, h⟩ := mem_guaranteePhase h
      exact (checkGuarantee_spec normal wf lineno root).1 report h

/-- Where nothing is reported, all states of all runs are safe. -/
theorem safe_of_checkIsolate (full : cfg.Full) (wf : m.WellFormed) (keys : m.KeysDistinct)
    (proofs : m.conjSubgoals = none) (none_ : checkIsolate solver cfg m = []) :
    (m.initializerGuarantees cfg ≠ [] → ¬ m.InitializersFail solver cfg) ∧
    ∀ D, ∀ s ∈ m.reachable solver cfg D, m.Safe solver s := by
  have normal := full.onlyCheckUnprovable
  simp only [checkIsolate, List.append_eq_nil_iff] at none_
  obtain ⟨⟨⟨⟨properties, initialization⟩, initializers⟩, preservation⟩, guarantees⟩ := none_
  refine ⟨(checkInitializers_spec normal wf).2 full initializers, fun D => ?_⟩
  have proved : ∀ s : Structure D, m.Base solver s → m.Proved solver s :=
    (checkProperties_spec normal wf).2 full properties D
  -- the invariant of the runs: what is trusted holds, and the conjectures do
  let I : Set (Structure D) :=
    {s | m.Intended solver s ∧ ∀ lf ∈ m.labeledConjs, lf.unprovable = false → lf.Holds s}
  have pre : ∀ s ∈ I, s ∈ m.getConjs.states D := by
    rintro s ⟨intended, holds⟩
    refine (IsolateModule.mem_getConjs_states fun c hc => (wf.getConjs c hc).1).mpr fun lf hlf explicit provable => ?_
    obtain hlf | hlf := List.mem_append.mp hlf
    · exact holds lf hlf provable
    · exact intended.2 lf hlf explicit provable
  have invariant : m.reachable solver cfg D ⊆ I := by
    refine reached_subset ?_ ?_
    · rintro s ⟨initial, intended⟩
      exact ⟨intended, (checkInitialization_spec normal wf).2 full initialization proofs D s initial
        (proved s intended.1)⟩
    · rintro a s s' hs ⟨exported, step, intended⟩
      refine ⟨intended, fun lf hlf provable => ?_⟩
      have mod : cfg.modUnprovable lf.unprovable = true := by simp [CheckConfig.modUnprovable, provable, normal]
      rw [if_pos, List.flatMap_eq_nil_iff] at preservation
      · refine (checkPreservation_spec normal wf a).2 (preservation a ((mem_order full).mpr exported)) D s (pre s hs) s'
          ⟨(Clauses.sat_usingSymbols (proved s hs.1.1).2).satSkolem, step⟩ (proved s' intended.1) lf ?_
        simp [IsolateModule.checkable, proofs, hlf, mod, CheckConfig.onLine, full.checkLineno]
      · simp only [Bool.and_eq_true, List.any_eq_true]
        exact ⟨⟨lf, hlf, mod⟩, by simp [full.optSummary]⟩
  intro s hs
  have now := invariant hs
  have theory := (IsolateModule.sat_backgroundTheory_append.mp (proved s now.1.1).2).2
  refine ⟨fun p hp plain => theory p ?_ plain, now.2, fun a ha sub hsub provable root hroot reaches => ?_⟩
  · exact List.mem_filter.mpr ⟨hp, by simp [plain]⟩
  · rw [if_neg (by simp [full.noCheckGuarantees])] at guarantees
    have passes := guaranteePhase_eq_nil full keys (fun p hp => ?_) (fun _ h => absurd h List.not_mem_nil) guarantees
      (a.name, sub) ?_ root hroot (mem_roots.mpr reaches)
    · exact (checkGuarantee_spec normal wf sub.lineno root).2 passes D s (pre s now)
    · obtain ⟨b, hb, hp⟩ := List.mem_flatMap.mp hp
      obtain ⟨sub', hsub', rfl⟩ := List.mem_map.mp hp
      exact ⟨b, hb, rfl, (List.mem_filter.mp (List.mem_filter.mp hsub').1).1⟩
    · refine List.mem_flatMap.mpr ⟨a, ha, List.mem_map_of_mem ?_⟩
      simp [CheckConfig.guarantees, hsub, CheckConfig.onLine, full.checkLineno, CheckConfig.modUnprovable, provable, normal]

end System

section Examples

def everything : CheckConfig := ⟨false, false, false, false, false, "", "", none⟩

/-- `~x`. -/
def notX : LabeledFormula := ⟨0, .not (.const (boolConst "x")), false, false, false, false, "f:2"⟩

/-- The exported action calls one with a guarantee, and assigns to `y` only. -/
def keepsX : IsolateModule where
  labeledAxioms := []
  theory := []
  definitions := []
  labeledProps := []
  subgoals := []
  labeledConjs := [notX]
  conjSubgoals := none
  assumedInvs := []
  initCond := .new [.not (.const (boolConst "x"))] []
  initializers := []
  initUpdate _ := Update.setY
  publicActions := ["ext:act"]
  actions := [⟨"act", [⟨"f:1", false⟩], []⟩, ⟨"ext:act", [], ["act"]⟩]
  envUpdate _ _ := Update.setY

theorem setY_regular : Regular keepsX.provedTheory Update.setY := by
  simp only [Regular, List.forall_mem_cons]
  have style := Update.setY_style
  refine ⟨⟨⟨style.toTransitionStyle, by unfold Clauses.NoGlobal; decide⟩, ⟨by decide, by decide, by decide⟩⟩,
    ⟨⟨⟨style.state, style.newState, style.pre⟩, by unfold Clauses.NoGlobal; decide⟩,
      ⟨by decide, by decide, by decide⟩⟩, fun _ h => absurd h List.not_mem_nil⟩

theorem state_x : (boolConst "x").State := ⟨by decide, by decide⟩

theorem keepsX_wellFormed : keepsX.WellFormed where
  theory := by
    have none_ : keepsX.provedTheory.symbols = [] := by decide
    exact fun c hc => absurd (none_ ▸ hc) List.not_mem_nil
  theoryWitness := by decide
  props := fun _ h => absurd h List.not_mem_nil
  conjs := List.forall_mem_singleton.mpr
    ⟨⟨by decide, by decide, by decide, by decide⟩, List.forall_mem_singleton.mpr state_x, by decide⟩
  getConjs := List.forall_mem_singleton.mpr ⟨state_x, by decide⟩
  initCond := by unfold Clauses.StateOnly; decide
  initWitness := by decide
  initUpdate _ := setY_regular
  envUpdate _ _ := setY_regular

theorem notX_congr {D : Domain} {s t : Structure D} (same : SameAt s t (boolConst "x")) (h : notX.Holds s) :
    notX.Holds t := by
  have symbols : notX.clauses.symbols = [boolConst "x"] := by decide
  refine (Clauses.sat_congr fun c hc => ?_).mp h
  rw [symbols, List.mem_singleton] at hc
  exact hc ▸ same

/-- The precondition of the assignment is never violated. -/
theorem setY_passes {D : Domain} {s s' : Structure D} :
    ¬ (actionFailure Update.setY).StepIn keepsX.provedTheory s s' := by
  rintro ⟨-, -, N, -, sat⟩
  exact Clauses.not_sat_of_isFalse (by decide) sat

/-- Nothing is reported: none of the reports could be real. -/
theorem keepsX_passes : checkIsolate .ideal everything keepsX = [] := by
  refine List.eq_nil_iff_forall_not_mem.mpr fun report h => ?_
  have real := real_of_mem_checkIsolate rfl keepsX_wellFormed report h
  have pre {D : Domain} {s : Structure D} (hs : s ∈ keepsX.getConjs.states D) : notX.Holds s :=
    (IsolateModule.mem_getConjs_states fun c hc => (keepsX_wellFormed.getConjs c hc).1).mp hs _ List.mem_cons_self rfl rfl
  have only : ∀ c ∈ keepsX.checkable everything, c = notX := fun c hc => by
    simpa [IsolateModule.checkable, keepsX] using (List.mem_filter.mp (List.mem_filter.mp hc).1).1
  cases report with
  | property lf =>
    obtain ⟨p, -, before, after, split, -⟩ := real
    exact absurd split (by simp [IsolateModule.filterExplicitSubgoals, IsolateModule.nonTemporalProps, keepsX])
  | initialization lf =>
    obtain ⟨c, -, checked, D, s, hs, -, fails⟩ := real
    obtain rfl := only c checked
    exact fails (pre hs)
  | initializer =>
    obtain ⟨D, s, -, s', step, -⟩ := real
    exact setY_passes step
  | preservation a lf =>
    obtain ⟨c, -, checked, D, s, hs, s', ⟨-, frame, -⟩, -, fails⟩ := real
    obtain rfl := only c checked
    have unmodified : boolConst "x" ∉ Update.setY.modified := by decide
    exact fails (notX_congr (frame _ state_x unmodified) (pre hs))
  | guarantee root lineno =>
    obtain ⟨D, s, -, s', step, -⟩ := real
    exact setY_passes step

end Examples

end Goivy.Check
