import Goivy.Art.State

/-! Final conditions: the conditions that a check puts to the solver one after the other, and
what the failed ones say about the states of a history. -/
namespace Goivy.Check

open Reachability

/-- What the checks read of the configuration. -/
structure CheckConfig where
  onlyCheckUnprovable : Bool
  diagnose : Bool
  optTrace : Bool
  optSummary : Bool
  noCheckGuarantees : Bool
  checkLineno : String
  checkedAction : String
  priorityActions : Option (List String)

/-- A labeled formula, as the checks read it. -/
structure LabeledFormula where
  id : Nat
  formula : Expr
  explicit : Bool
  unprovable : Bool
  assumed : Bool
  temporal : Bool
  lineno : String

structure Checker where
  cond : Clauses
  assume : Bool
  lf : Option LabeledFormula

def LabeledFormula.clauses (lf : LabeledFormula) : Clauses := .ofFormula lf.formula

/-- `NewConjChecker`. -/
def newConjChecker (lf : LabeledFormula) : Checker := ⟨lf.clauses.dualWitness, false, some lf⟩

/-- `NewConjAssumer`. -/
def newConjAssumer (lf : LabeledFormula) : Checker := ⟨lf.clauses, true, some lf⟩

/-- The checker of `CheckSafetyInState`. -/
def safetyChecker : Checker := ⟨(Clauses.ofFormula (.or [])).dualWitness, false, none⟩

/-- `FilterCheckers`: only conjecture checkers of other lines are left out. -/
def filterCheckers (checkLineno : String) (checkers : List Checker) : List Checker :=
  if checkLineno = "" then checkers
  else checkers.filter fun c => c.assume || c.lf.all (·.lineno = checkLineno)

section Run

variable (solver : Solver) (cfg : CheckConfig) (clauses : Clauses)

/-- The loop of `GetSmallModelWithCond` over the final conditions, with the conditions assumed
so far: the checkers that fail. -/
def runCheckers : List Clauses → List Checker → List Checker
  | _, [] => []
  | assumes, c :: rest =>
    if c.assume then runCheckers (assumes ++ [c.cond]) rest
    else if solver.check (clauses :: (assumes ++ [c.cond])) then
      if cfg.onlyCheckUnprovable then runCheckers assumes rest
      else if cfg.diagnose || cfg.optTrace then [c]
      else c :: runCheckers assumes rest
    else if cfg.onlyCheckUnprovable then c :: runCheckers assumes rest
    else runCheckers assumes rest

/-- `CheckFcsInState`: the checkers that fail in the states of a history. -/
def checkFcsInState (background : Clauses) (post : State) (checkers : List Checker) : List Checker :=
  runCheckers solver cfg (.and [(post.getHistory background none).post, background]) []
    (filterCheckers cfg.checkLineno checkers)

/-- The conditions that checkers assume. -/
def assumptions (checkers : List Checker) : List Clauses :=
  (checkers.filter (·.assume)).map (·.cond)

variable {solver cfg clauses} {assumes : List Clauses} {checkers before after : List Checker} {c : Checker}

theorem assumptions_cons : assumptions (c :: checkers) =
    if c.assume then c.cond :: assumptions checkers else assumptions checkers := by
  unfold assumptions
  cases h : c.assume <;> simp [h]

/-- A checker that fails is tried under what the checkers before it assume. -/
theorem of_mem_runCheckers (h : c ∈ runCheckers solver cfg clauses assumes checkers) :
    ∃ before after, checkers = before ++ c :: after ∧ c.assume = false ∧
      solver.check (clauses :: (assumes ++ assumptions before ++ [c.cond])) =
        !cfg.onlyCheckUnprovable := by
  induction checkers generalizing assumes with
  | nil => simp [runCheckers] at h
  | cons d rest ih =>
    -- a checker of the rest is tried after `d`
    have later {assumes' : List Clauses} (eq : assumes' = assumes ++ assumptions [d])
        (mem : c ∈ runCheckers solver cfg clauses assumes' rest) :
        ∃ before after, d :: rest = before ++ c :: after ∧ c.assume = false ∧
          solver.check (clauses :: (assumes ++ assumptions before ++ [c.cond])) =
            !cfg.onlyCheckUnprovable := by
      obtain ⟨before, after, rfl, checked, check⟩ := ih mem
      refine ⟨d :: before, after, rfl, checked, ?_⟩
      have split : assumptions (d :: before) = assumptions [d] ++ assumptions before := by
        rw [assumptions_cons, assumptions_cons]
        split <;> rfl
      rw [split, ← List.append_assoc, ← eq]
      exact check
    unfold runCheckers at h
    split at h
    · rename_i assume
      exact later (by simp [assumptions, assume]) h
    · rename_i checked
      have none_ : assumes = assumes ++ assumptions [d] := by simp [assumptions, checked]
      have here (eq : c = d) (check : solver.check (clauses :: (assumes ++ [d.cond])) =
          !cfg.onlyCheckUnprovable) : ∃ before after, d :: rest = before ++ c :: after ∧
          c.assume = false ∧ solver.check (clauses :: (assumes ++ assumptions before ++ [c.cond])) =
            !cfg.onlyCheckUnprovable := by
        refine ⟨[], rest, by rw [eq]; rfl, by simpa [eq] using checked, ?_⟩
        rw [eq]
        simpa [assumptions] using check
      split at h
      · rename_i sat
        split at h
        · exact later none_ h
        · rename_i provable
          split at h
          · exact here (List.mem_singleton.mp h) (by simp [sat, provable])
          · obtain eq | h := List.mem_cons.mp h
            · exact here eq (by simp [sat, provable])
            · exact later none_ h
      · rename_i unsat
        split at h
        · rename_i unprovable
          obtain eq | h := List.mem_cons.mp h
          · exact here eq (by simp [unsat, unprovable])
          · exact later none_ h
        · exact later none_ h

/-- Where no checker fails, all of them pass under what the ones before assume. -/
theorem check_of_runCheckers (none_ : runCheckers solver cfg clauses assumes (before ++ c :: after) = [])
    (checked : c.assume = false) :
    solver.check (clauses :: (assumes ++ assumptions before ++ [c.cond])) =
      cfg.onlyCheckUnprovable := by
  induction before generalizing assumes with
  | nil =>
    rw [List.nil_append] at none_
    unfold runCheckers at none_
    simp only [checked, Bool.false_eq_true, if_false] at none_
    rw [show assumptions [] = [] from rfl, List.append_nil]
    cases sat : solver.check (clauses :: (assumes ++ [c.cond])) <;>
      cases unprovable : cfg.onlyCheckUnprovable <;> simp [sat, unprovable] at none_ ⊢
    split at none_ <;> contradiction
  | cons d before ih =>
    rw [List.cons_append] at none_
    unfold runCheckers at none_
    rw [assumptions_cons]
    split at none_
    · rename_i assume
      have later := ih none_
      rw [List.append_assoc assumes [d.cond], List.singleton_append] at later
      rwa [if_pos assume]
    · rename_i assume
      rw [if_neg assume]
      split at none_
      · split at none_
        · exact ih none_
        · split at none_ <;> contradiction
      · split at none_
        · contradiction
        · exact ih none_

end Run

section Meaning

variable {D : Domain} {solver : Solver} {cfg : CheckConfig} {cl background : Clauses}
  {lfs before after : List LabeledFormula} {lf : LabeledFormula}

/-- All instances of the formula are true. -/
def LabeledFormula.Holds (lf : LabeledFormula) (s : Structure D) : Prop := lf.clauses.Sat s

/-- Formulas that can be assumed and negated: over the symbols of states, and closed once its
variables are replaced. -/
structure LabeledFormula.Checkable (lf : LabeledFormula) : Prop where
  checkable : lf.clauses.Checkable
  state : ∀ c ∈ lf.clauses.symbols, c.State
  dual : ∀ c ∈ lf.clauses.dualWitness.symbols, isSkolem c.name = false

/-- Clauses that say nothing about witnesses, next to a background theory that does not. -/
structure Ignoring (cl background : Clauses) : Prop where
  theory : Background background
  noWitness : ∀ c ∈ background.symbols, ¬ c.Witness
  congr : ∀ {D : Domain} {s t : Structure D}, AgreeOff Const.Witness s t → s ∈ cl.states D → t ∈ cl.states D

/-- The solver finds the states of some clauses where what is assumed holds and a formula fails. -/
theorem check_iff (ignoring : Ignoring cl background) (assumed : ∀ a ∈ lfs, a.Checkable)
    (checkable : lf.Checkable) :
    solver.check (.and [cl, background] :: (lfs.map (·.clauses) ++ [lf.clauses.dualWitness])) = true ↔
      ∃ D, ∃ s ∈ cl.states D, s ∈ solver.theory D ∧ background.Sat s ∧ (∀ a ∈ lfs, a.Holds s) ∧
        ¬ lf.Holds s := by
  rw [Solver.check_states cl fun M => background.Sat M ∧ (∀ a ∈ lfs, a.Holds M) ∧ lf.clauses.dualWitness.Sat M]
  · refine exists_congr fun D => ?_
    have closed : ∀ s ∈ {s | s ∈ cl.states D ∧ s ∈ solver.theory D ∧ background.Sat s ∧ ∀ a ∈ lfs, a.Holds s},
        ∀ t, AgreeOff Const.Witness s t →
          t ∈ {s | s ∈ cl.states D ∧ s ∈ solver.theory D ∧ background.Sat s ∧ ∀ a ∈ lfs, a.Holds s} := by
      rintro s ⟨state, theory, sat, holds⟩ t agree
      refine ⟨ignoring.congr agree state, ?_, ?_, fun a ha => ?_⟩
      · exact solver.theory_congr (fun c hc => agree c fun h => hc (.inr h)) theory
      · exact (Clauses.sat_congr fun c hc => agree c (ignoring.noWitness c hc)).mp sat
      · exact (Clauses.sat_congr fun c hc => agree c ((assumed a ha).checkable.noWitness c hc)).mp (holds a ha)
    have exact_ := Clauses.exists_dualWitness checkable.checkable closed
    simp only [Set.mem_ofPred_eq, and_assoc] at exact_
    exact exact_
  · rintro D M N agree ⟨sat, holds, dual⟩
    refine ⟨(Clauses.sat_congr fun c hc => ?_).mp sat, fun a ha =>
      (Clauses.sat_congr fun c hc => ?_).mp (holds a ha), (Clauses.sat_congr fun c hc => ?_).mp dual⟩
    · exact agree c (by simp [Const.Skolem, (ignoring.theory c hc).notSkolem])
    · exact agree c (by simp [Const.Skolem, ((assumed a ha).state c hc).notSkolem])
    · exact agree c (by simp [Const.Skolem, checkable.dual c hc])
  · intro D M
    simp [Clauses.sat_and, LabeledFormula.Holds, or_imp, forall_and, and_assoc]

theorem safetyChecker_cond : safetyChecker.cond = ⟨[.not (.or [])], []⟩ := by decide

/-- The safety checker fails where there is a state at all. -/
theorem runCheckers_safety (normal : cfg.onlyCheckUnprovable = false) (ignoring : Ignoring cl background) :
    runCheckers solver cfg (.and [cl, background]) [] [safetyChecker] ≠ [] ↔
      ∃ D, ∃ s ∈ cl.states D, s ∈ solver.theory D ∧ background.Sat s := by
  have check : solver.check [.and [cl, background], safetyChecker.cond] = true ↔
      ∃ D, ∃ s ∈ cl.states D, s ∈ solver.theory D ∧ background.Sat s := by
    refine Solver.check_states cl (fun M => background.Sat M) ?_ ?_
    · intro D M N agree sat
      refine (Clauses.sat_congr fun c hc => ?_).mp sat
      exact agree c (by simp [Const.Skolem, (ignoring.theory c hc).notSkolem])
    · intro D M
      have true_ : safetyChecker.cond.Sat M := by
        rw [safetyChecker_cond]
        simp [Clauses.Sat, Expr.Valid]
      simp [Clauses.sat_and, true_]
  rw [← check]
  unfold runCheckers
  rw [if_neg (by simp [safetyChecker]), normal, List.nil_append]
  split
  · rename_i sat
    simp only [Bool.false_eq_true, if_false, sat, iff_true]
    split <;> exact List.cons_ne_nil _ _
  · rename_i unsat
    simp [runCheckers, unsat]

/-- The checkers of labeled formulas, some of which are trusted. -/
def checkersOf (trusted : LabeledFormula → Bool) (lfs : List LabeledFormula) : List Checker :=
  lfs.map fun lf => if trusted lf then newConjAssumer lf else newConjChecker lf

variable {trusted : LabeledFormula → Bool}

theorem assumptions_checkersOf : assumptions (checkersOf trusted lfs) =
    (lfs.filter trusted).map (·.clauses) := by
  induction lfs with
  | nil => rfl
  | cons lf lfs ih =>
    rw [checkersOf, List.map_cons, assumptions_cons, ← checkersOf, ih]
    cases h : trusted lf <;> simp [h, newConjAssumer, newConjChecker]

theorem filterCheckers_checkersOf (lineno : String) : filterCheckers lineno (checkersOf trusted lfs) =
    checkersOf trusted (lfs.filter fun lf => lineno = "" || trusted lf || lf.lineno = lineno) := by
  unfold filterCheckers
  split
  · rename_i all
    simp [all]
  · rename_i some_
    rw [checkersOf, checkersOf, List.filter_map]
    refine congrArg _ (List.filter_congr fun lf _ => ?_)
    cases h : trusted lf <;> simp [h, some_, newConjAssumer, newConjChecker]

/-- A formula refuted by the states of some clauses, where the trusted formulas before it hold. -/
def Refuted (solver : Solver) (cl background : Clauses) (trusted : LabeledFormula → Bool)
    (lfs : List LabeledFormula) (lf : LabeledFormula) : Prop :=
  ∃ before after, lfs = before ++ lf :: after ∧ trusted lf = false ∧ ∃ D, ∃ s ∈ cl.states D,
    s ∈ solver.theory D ∧ background.Sat s ∧ (∀ a ∈ before, trusted a → a.Holds s) ∧ ¬ lf.Holds s

/-- Formulas that no trusted one is among do not matter. -/
theorem Refuted.of_filter {p : LabeledFormula → Bool} (h : Refuted solver cl background trusted (lfs.filter p) lf)
    (keeps : ∀ a ∈ lfs, trusted a → p a) : Refuted solver cl background trusted lfs lf := by
  obtain ⟨before, after, split, trust, D, s, hs, theory, sat, holds, fails⟩ := h
  obtain ⟨first, second, rfl, rfl, later⟩ := List.filter_eq_append_iff.mp split
  obtain ⟨skipped, rest, rfl, none_, -, -⟩ := List.filter_eq_cons_iff.mp later
  refine ⟨first ++ skipped, rest, by simp, trust, D, s, hs, theory, sat, fun a ha trusts => ?_, fails⟩
  have mem : p a = true := keeps a (by simp only [List.mem_append, List.mem_cons] at ha ⊢; tauto) trusts
  obtain ha | ha := List.mem_append.mp ha
  · exact holds a (List.mem_filter.mpr ⟨ha, mem⟩) trusts
  · exact absurd mem (none_ a ha)

variable (normal : cfg.onlyCheckUnprovable = false) (ignoring : Ignoring cl background)
  (checkable : ∀ lf ∈ lfs, lf.Checkable)
include normal ignoring checkable

/-- A checker that fails is that of a refuted formula. -/
theorem refuted_of_mem {c : Checker}
    (h : c ∈ runCheckers solver cfg (.and [cl, background]) [] (checkersOf trusted lfs)) :
    ∃ lf, c = newConjChecker lf ∧ Refuted solver cl background trusted lfs lf := by
  obtain ⟨before, after, split, checked, check⟩ := of_mem_runCheckers h
  obtain ⟨earlier, rest, rfl, rfl, later⟩ := List.map_eq_append_iff.mp split
  obtain ⟨lf, rest, rfl, rfl, -⟩ := List.map_eq_cons_iff.mp later
  cases trust : trusted lf with
  | true => simp [trust, newConjAssumer] at checked
  | false =>
    rw [List.forall_mem_append, List.forall_mem_cons] at checkable
    rw [List.nil_append, ← checkersOf, assumptions_checkersOf, normal, Bool.not_false] at check
    simp only [trust, Bool.false_eq_true, if_false] at check ⊢
    obtain ⟨D, s, hs, theory, sat, holds, fails⟩ := (check_iff ignoring
      (fun a ha => checkable.1 a (List.mem_filter.mp ha).1) checkable.2.1).mp check
    refine ⟨lf, rfl, earlier, rest, rfl, trust, D, s, hs, theory, sat, fun a ha trust => ?_, fails⟩
    exact holds a (List.mem_filter.mpr ⟨ha, trust⟩)

/-- Where no checker fails, the trusted formulas imply the others. -/
theorem holds_of_none {s : Structure D}
    (none_ : runCheckers solver cfg (.and [cl, background]) [] (checkersOf trusted lfs) = [])
    (hs : s ∈ cl.states D) (theory : s ∈ solver.theory D) (sat : background.Sat s)
    (assumed : ∀ a ∈ lfs, trusted a → a.Holds s) : ∀ lf ∈ lfs, lf.Holds s := by
  intro lf mem
  cases trust : trusted lf with
  | true => exact assumed lf mem trust
  | false =>
    obtain ⟨before, after, rfl⟩ := List.append_of_mem mem
    rw [List.forall_mem_append, List.forall_mem_cons] at checkable assumed
    rw [checkersOf, List.map_append, List.map_cons] at none_
    have check := check_of_runCheckers none_ (by simp [trust, newConjChecker])
    rw [List.nil_append, ← checkersOf, assumptions_checkersOf, normal] at check
    simp only [trust, Bool.false_eq_true, if_false] at check
    by_contra fails
    refine absurd ((check_iff ignoring (fun a ha => checkable.1 a (List.mem_filter.mp ha).1)
      checkable.2.1).mpr ⟨D, s, hs, theory, sat, fun a ha => ?_, fails⟩) (by simpa [newConjChecker] using check)
    obtain ⟨ha, trust⟩ := List.mem_filter.mp ha
    exact assumed.1 a ha trust

end Meaning

end Goivy.Check
