import Goivy.Logic.Conservative
import Goivy.Proof.Checker

/-! Runs of the proof checker: the admitted definitions extend the context conservatively. -/
namespace Goivy

open ProofChecker

theorem mem_constNames {n : String} {cs : List Const} : n ∈ constNames cs ↔ ∃ c ∈ cs, c.name = n := by
  simp [constNames]

namespace LabeledFormula

/-- The definition, where it does not mention the symbol it defines. -/
def nonRecursive? (g : LabeledFormula) : Option Definition :=
  g.definition?.filter fun d =>
    match d.defines with
    | .const c => c.name ∉ constNames d.rhs.symbols
    | _ => false

variable {g : LabeledFormula} {d : Definition} {c : Const}

theorem definition_of_nonRecursive (h : g.nonRecursive? = some d) : g.definition? = some d :=
  (Option.filter_eq_some_iff.mp h).1

theorem not_mem_of_nonRecursive (h : g.nonRecursive? = some d) (hc : d.defines = .const c) :
    c.name ∉ constNames d.rhs.symbols := by
  have fresh := (Option.filter_eq_some_iff.mp h).2
  rw [hc] at fresh
  simpa using fresh

theorem uses_definition (h : g.definition? = some d) {n : String} :
    g.Uses n ↔ n ∈ constNames d.symbols := by
  obtain ⟨label, prems, conc⟩ := g
  unfold definition? at h
  split at h
  · rename_i noPrems isDef
    cases h
    cases noPrems
    cases isDef
    simp [Uses, usedSymbols, Premise.usedSymbolsList, Conclusion.symbols, constNames]
  · contradiction

end LabeledFormula

/-- No definition of the log is for a symbol that is used earlier, in the context or in the
log, and no symbol is defined twice. -/
structure Conservative (context log : List LabeledFormula) : Prop where
  context : ∀ g ∈ log, ∀ d c, g.nonRecursive? = some d → d.defines = .const c →
    ∀ h ∈ context, ¬ h.Uses c.name
  ordered : log.Pairwise fun h g => ∀ d c, g.nonRecursive? = some d → d.defines = .const c →
    ¬ h.Uses c.name
  once : log.Pairwise fun h g => ∀ n, h.Defines n → ¬ g.Defines n

theorem Conservative.append {context log : List LabeledFormula} (h : Conservative context log)
    {g : LabeledFormula}
    (unused : ∀ d c, g.nonRecursive? = some d → d.defines = .const c →
      ∀ h ∈ context ++ log, ¬ h.Uses c.name)
    (fresh : ∀ n, g.Defines n → ∀ h ∈ log, ¬ h.Defines n) : Conservative context (log ++ [g]) where
  context := by
    intro g' hg' d c hd hc h' hh'
    rw [List.mem_append, List.mem_singleton] at hg'
    obtain hg' | rfl := hg'
    · exact h.context g' hg' d c hd hc h' hh'
    · exact unused d c hd hc h' (List.mem_append_left _ hh')
  ordered := by
    refine List.pairwise_append.mpr ⟨h.ordered, List.pairwise_singleton _ _, ?_⟩
    intro h' hh' g' hg' d c hd hc
    rw [List.mem_singleton.mp hg'] at hd
    exact unused d c hd hc h' (List.mem_append_right _ hh')
  once := by
    refine List.pairwise_append.mpr ⟨h.once, List.pairwise_singleton _ _, ?_⟩
    intro h' hh' g' hg' n defined defined'
    rw [List.mem_singleton.mp hg'] at defined'
    exact fresh n defined' h' hh' defined

/-- The definitions of a conservative log have a common expansion of every structure. -/
theorem Conservative.exists_expansion {context log : List LabeledFormula}
    (h : Conservative context log)
    (explicit : ∀ g ∈ log, ∀ d, g.nonRecursive? = some d → ∃ c vs, d.Explicit c vs)
    {D : Domain} (M : Structure D) :
    ∃ N : Structure D,
      AgreeOff (fun c => ∃ g ∈ log, ∃ d, g.nonRecursive? = some d ∧ d.defines = .const c) M N ∧
      ∀ g ∈ log, ∀ d, g.nonRecursive? = some d → d.toConstraint.Valid N := by
  have ordered : (log.filterMap LabeledFormula.nonRecursive?).Pairwise
      fun d e => ∀ c, e.defines = .const c → c ∉ d.symbols := by
    refine List.pairwise_filterMap.mpr (h.ordered.imp ?_)
    intro h' g unused d hd e he c hc mem
    refine unused e c he hc ?_
    rw [LabeledFormula.uses_definition (LabeledFormula.definition_of_nonRecursive hd)]
    exact mem_constNames.mpr ⟨c, mem, rfl⟩
  have mem : ∀ d, d ∈ log.filterMap LabeledFormula.nonRecursive? ↔
      ∃ g ∈ log, g.nonRecursive? = some d := fun d => List.mem_filterMap
  have fits : ∀ d ∈ log.filterMap LabeledFormula.nonRecursive?,
      ∃ c vs, d.Explicit c vs ∧ c ∉ d.rhs.symbols := by
    intro d hd
    obtain ⟨g, hg, hd⟩ := (mem d).mp hd
    obtain ⟨c, vs, he⟩ := explicit g hg d hd
    exact ⟨c, vs, he, fun hc => LabeledFormula.not_mem_of_nonRecursive hd he.defines
      (mem_constNames.mpr ⟨c, hc, rfl⟩)⟩
  obtain ⟨N, off, valid⟩ := Goivy.exists_expansion fits ordered M
  refine ⟨N, fun c hc => off c ?_, fun g hg d hd => valid d ((mem d).mpr ⟨g, hg, hd⟩)⟩
  rintro ⟨d, hd, defined⟩
  obtain ⟨g, hg, hd⟩ := (mem d).mp hd
  exact hc ⟨g, hg, d, hd, defined⟩

section Run

variable {Proof : Type} (prover : Prover Proof)

/-- A definition that passes the checks has no other symbol on its left-hand side. A proof is
accepted where it is recursive, else no admitted proposition uses its symbol. -/
def DefinitionReady (pc : ProofChecker) (g : LabeledFormula) (proof : Option Proof) : Prop :=
  ∀ d c, g.definition? = some d → d.defines = .const c → pc.definitions.get c.name = none →
    c.name ∉ pc.stale → (∀ x ∈ d.lhs.symbols, x.name = c.name) ∧
      (c.name ∉ constNames d.rhs.symbols → ∀ h ∈ pc.axioms, ¬ h.Uses c.name) ∧
      (c.name ∈ constNames d.rhs.symbols →
        ∃ p subgoals, proof = some p ∧ prover (pc.mark d.rhs.symbols) [g] p = .ok subgoals)

def Ready (pc : ProofChecker) : Call Proof → Prop
  | .admitDefinition defn proof => DefinitionReady prover pc defn.normalize proof
  | .admitProposition prop proof _ =>
    prop.normalize.definition?.isSome → DefinitionReady prover pc prop.normalize.normalize proof
  | .applyProof _ _ => True

/-- Every call of a run is ready in the state it is made in. -/
def AllReady : ProofChecker → List (Call Proof) → Prop
  | _, [] => True
  | pc, call :: calls => Ready prover pc call ∧ AllReady (pc.step prover call).1 calls

variable {prover} {pc : ProofChecker}

variable (prover pc) in
/-- What a call that admits a definition does: nothing, or it marks the right-hand side and
then fails or adds the definition. -/
theorem admitDefinition_cases (defn : LabeledFormula) (proof : Option Proof) :
    (∃ e, pc.admitDefinition prover defn proof = (pc, .error e)) ∨
    ∃ d c, defn.normalize.definition? = some d ∧ d.defines = .const c ∧
      pc.definitions.get c.name = none ∧ c.name ∉ pc.stale ∧
      ((∃ e, pc.admitDefinition prover defn proof = (pc.mark d.rhs.symbols, .error e) ∧
        c.name ∈ constNames d.rhs.symbols ∧
        ∀ p, proof = some p → ∃ e, prover (pc.mark d.rhs.symbols) [defn.normalize] p = .error e) ∨
      ∃ subgoals, pc.admitDefinition prover defn proof =
        ({ pc.mark d.rhs.symbols with
            definitions := pc.definitions.set c.name defn.normalize }, .ok subgoals)) := by
  unfold admitDefinition
  dsimp only
  split
  · exact .inl ⟨_, rfl⟩
  · rename_i d hd
    split
    · rename_i c hc
      split
      · exact .inl ⟨_, rfl⟩
      · rename_i undefined
        split
        · exact .inl ⟨_, rfl⟩
        · rename_i fresh
          refine .inr ⟨d, c, hd, hc, Option.not_isSome_iff_eq_none.mp undefined, fresh, ?_⟩
          by_cases recursive : c.name ∈ constNames d.rhs.symbols
          · cases proof with
            | none =>
              simp only [if_pos recursive, Option.isNone_none, if_true]
              exact .inl ⟨_, rfl, recursive, by simp⟩
            | some p =>
              simp only [if_pos recursive, Option.isNone_some, Bool.false_eq_true, if_false, applyProof]
              cases result : prover (pc.mark d.rhs.symbols) [defn.normalize] p with
              | error e => exact .inl ⟨e, rfl, recursive, fun q hq => ⟨e, by cases hq; exact result⟩⟩
              | ok subgoals => exact .inr ⟨subgoals, rfl⟩
          · simp only [if_neg recursive]
            exact .inr ⟨[], rfl⟩
    · exact .inl ⟨_, rfl⟩

variable (prover pc) in
/-- The call for a proposition that is no definition. -/
theorem admitProposition_cases {prop : LabeledFormula} (isProp : prop.normalize.definition? = none)
    (proof : Option Proof) (existing : List LabeledFormula) :
    (∃ e, pc.admitProposition prover prop proof existing = (pc, .error e)) ∨
    ∃ subgoals schemata, pc.admitProposition prover prop proof existing =
      ({ pc with axioms := pc.axioms ++ [prop.normalize], schemata := schemata
                 stale := pc.stale ∪ constNames prop.normalize.vocabSymbols }, .ok subgoals) := by
  unfold admitProposition
  simp only [isProp, Option.isSome_none, Bool.false_eq_true, if_false]
  split
  · exact .inl ⟨_, rfl⟩
  · split
    · exact .inl ⟨_, rfl⟩
    · exact .inr ⟨_, _, rfl⟩

/-- What the tables say about the context and the log. -/
structure Recorded (context log : List LabeledFormula) (pc : ProofChecker) : Prop where
  context : ∀ g ∈ context, ∀ n, g.Uses n → n ∈ pc.stale
  symbols : ∀ g ∈ log, ∀ d, g.definition? = some d → ∀ n ∈ constNames d.symbols,
    n ∈ pc.stale ∨ (pc.definitions.get n).isSome
  defined : ∀ g ∈ log, ∀ n, g.Defines n → (pc.definitions.get n).isSome
  propositions : ∀ g ∈ log, g.definition? = none → g ∈ pc.axioms

theorem Recorded.unused {context log : List LabeledFormula} (h : Recorded context log pc) {n : String}
    (undefined : pc.definitions.get n = none) (fresh : n ∉ pc.stale)
    (props : ∀ h ∈ pc.axioms, ¬ h.Uses n) : ∀ g ∈ context ++ log, ¬ g.Uses n := by
  intro g hg uses
  rw [List.mem_append] at hg
  obtain hg | hg := hg
  · exact fresh (h.context g hg n uses)
  · cases hd : g.definition? with
    | none => exact props g (h.propositions g hg hd) uses
    | some d =>
      obtain stale | defined := h.symbols g hg d hd n ((LabeledFormula.uses_definition hd).mp uses)
      · exact fresh stale
      · simp [undefined] at defined

variable {context log : List LabeledFormula}

theorem definition_error {defn : LabeledFormula} {proof : Option Proof}
    (ready : DefinitionReady prover pc defn.normalize proof) {e : ProofErr}
    (failed : (pc.admitDefinition prover defn proof).2 = .error e) :
    (pc.admitDefinition prover defn proof).1 = pc := by
  obtain ⟨e', unchanged⟩ | ⟨d, c, hd, hc, undefined, fresh, ⟨e', marked, recursive, rejected⟩ |
    ⟨subgoals, added⟩⟩ := admitDefinition_cases prover pc defn proof
  · rw [unchanged]
  · obtain ⟨-, -, proved⟩ := ready d c hd hc undefined fresh
    obtain ⟨p, subgoals, hp, accepted⟩ := proved recursive
    obtain ⟨e'', rejected⟩ := rejected p hp
    simp [accepted] at rejected
  · simp [added] at failed

theorem definition_ok (recorded : Recorded context log pc) (conservative : Conservative context log)
    {defn : LabeledFormula} {proof : Option Proof}
    (ready : DefinitionReady prover pc defn.normalize proof) {subgoals : List LabeledFormula}
    (ok : (pc.admitDefinition prover defn proof).2 = .ok subgoals) :
    Recorded context (log ++ [defn.normalize]) (pc.admitDefinition prover defn proof).1 ∧
      Conservative context (log ++ [defn.normalize]) := by
  obtain ⟨e', unchanged⟩ | ⟨d, c, hd, hc, undefined, fresh, ⟨e', marked, -⟩ | ⟨_, added⟩⟩ :=
    admitDefinition_cases prover pc defn proof
  · simp [unchanged] at ok
  · simp [marked] at ok
  obtain ⟨lhs, props, -⟩ := ready d c hd hc undefined fresh
  have only : ∀ n, defn.normalize.Defines n → n = c.name := by
    rintro n ⟨d', c', hd', hc', rfl⟩
    rw [hd, Option.some.injEq] at hd'
    subst hd'
    rw [hc, Expr.const.injEq] at hc'
    rw [hc']
  have isSome : ∀ n, (pc.definitions.get n).isSome →
      ((pc.definitions.set c.name defn.normalize).get n).isSome := by
    intro n hn
    rw [InsMap.get_set]
    split
    · rfl
    · exact hn
  rw [added]
  constructor
  · constructor
    · exact fun g hg n uses => Finset.mem_union_left _ (recorded.context g hg n uses)
    · intro g hg d' hd' n hn
      rw [List.mem_append, List.mem_singleton] at hg
      obtain hg | rfl := hg
      · exact (recorded.symbols g hg d' hd' n hn).imp (Finset.mem_union_left _) (isSome n)
      · rw [hd, Option.some.injEq] at hd'
        subst hd'
        obtain ⟨x, hx, rfl⟩ := mem_constNames.mp hn
        obtain hx | hx := List.mem_append.mp hx
        · right
          rw [InsMap.get_set, if_pos (lhs x hx)]
          rfl
        · exact .inl (Finset.mem_union_right _ (mem_constNames.mpr ⟨x, hx, rfl⟩))
    · intro g hg n defines
      rw [List.mem_append, List.mem_singleton] at hg
      obtain hg | rfl := hg
      · exact isSome n (recorded.defined g hg n defines)
      · rw [only n defines, InsMap.get_set, if_pos rfl]
        rfl
    · intro g hg isProp
      rw [List.mem_append, List.mem_singleton] at hg
      obtain hg | rfl := hg
      · exact recorded.propositions g hg isProp
      · simp [hd] at isProp
  · refine conservative.append (fun d' c' hd' hc' => ?_) fun n defines g hg defines' => ?_
    · have isDef := LabeledFormula.definition_of_nonRecursive hd'
      have eq : c'.name = c.name := only c'.name ⟨d', c', isDef, hc', rfl⟩
      have nonRecursive := LabeledFormula.not_mem_of_nonRecursive hd' hc'
      rw [hd, Option.some.injEq] at isDef
      rw [← isDef, eq] at nonRecursive
      rw [eq]
      exact recorded.unused undefined fresh (props nonRecursive)
    · have twice := recorded.defined g hg n defines'
      rw [only n defines, undefined] at twice
      contradiction

theorem proposition_ok (recorded : Recorded context log pc) (conservative : Conservative context log)
    {prop : LabeledFormula} (isProp : prop.normalize.definition? = none) {proof : Option Proof}
    {existing subgoals : List LabeledFormula}
    (ok : (pc.admitProposition prover prop proof existing).2 = .ok subgoals) :
    Recorded context (log ++ [prop.normalize]) (pc.admitProposition prover prop proof existing).1 ∧
      Conservative context (log ++ [prop.normalize]) := by
  obtain ⟨e, unchanged⟩ | ⟨_, schemata, added⟩ :=
    admitProposition_cases prover pc isProp proof existing
  · simp [unchanged] at ok
  have noDef : ∀ n, ¬ prop.normalize.Defines n := fun n ⟨d, c, hd, _⟩ => by simp [isProp] at hd
  rw [added]
  constructor
  · constructor
    · exact fun g hg n uses => Finset.mem_union_left _ (recorded.context g hg n uses)
    · intro g hg d hd n hn
      rw [List.mem_append, List.mem_singleton] at hg
      obtain hg | rfl := hg
      · exact (recorded.symbols g hg d hd n hn).imp (Finset.mem_union_left _) id
      · simp [isProp] at hd
    · intro g hg n defines
      rw [List.mem_append, List.mem_singleton] at hg
      obtain hg | rfl := hg
      · exact recorded.defined g hg n defines
      · exact absurd defines (noDef n)
    · intro g hg isProp'
      rw [List.mem_append, List.mem_singleton] at hg
      obtain hg | rfl := hg
      · exact List.mem_append_left _ (recorded.propositions g hg isProp')
      · exact List.mem_append_right _ List.mem_cons_self
  · refine conservative.append (fun d c hd hc => ?_) fun n defines => absurd defines (noDef n)
    have := LabeledFormula.definition_of_nonRecursive hd
    simp [isProp] at this

theorem admitProposition_definition {prop : LabeledFormula} (isDef : prop.normalize.definition?.isSome)
    (proof : Option Proof) (existing : List LabeledFormula) :
    pc.admitProposition prover prop proof existing = pc.admitDefinition prover prop.normalize proof :=
  if_pos isDef

/-- A call that fails leaves the tables as they were. -/
theorem step_error {call : Call Proof} (ready : Ready prover pc call) {e : ProofErr}
    (failed : (pc.step prover call).2 = .error e) : (pc.step prover call).1 = pc := by
  cases call with
  | admitDefinition defn proof => exact definition_error ready failed
  | admitProposition prop proof existing =>
    simp only [step] at failed ⊢
    cases isDef : prop.normalize.definition?.isSome with
    | true =>
      rw [admitProposition_definition isDef] at failed ⊢
      exact definition_error (ready isDef) failed
    | false =>
      rw [Option.isSome_eq_false_iff, Option.isNone_iff_eq_none] at isDef
      obtain ⟨e', unchanged⟩ | ⟨_, _, added⟩ :=
        admitProposition_cases prover pc isDef proof existing
      · rw [unchanged]
      · simp [added] at failed
  | applyProof goals proof => rfl

theorem step_ok (recorded : Recorded context log pc) (conservative : Conservative context log)
    {call : Call Proof} (ready : Ready prover pc call) :
    Recorded context (log ++ (pc.admits prover call).toList) (pc.step prover call).1 ∧
      Conservative context (log ++ (pc.admits prover call).toList) := by
  cases result : (pc.step prover call).2 with
  | error e =>
    rw [step_error ready result, admits, result]
    simpa using ⟨recorded, conservative⟩
  | ok subgoals =>
    rw [admits, result]
    cases call with
    | admitDefinition defn proof => exact definition_ok recorded conservative ready result
    | admitProposition prop proof existing =>
      simp only [step, subject] at result ⊢
      cases isDef : prop.normalize.definition?.isSome with
      | true =>
        rw [admitProposition_definition isDef] at result ⊢
        exact definition_ok recorded conservative (ready isDef) result
      | false =>
        rw [Option.isSome_eq_false_iff, Option.isNone_iff_eq_none] at isDef
        exact proposition_ok recorded conservative isDef result
    | applyProof goals proof => simpa [step, subject] using ⟨recorded, conservative⟩

theorem run_ok {calls : List (Call Proof)} (recorded : Recorded context log pc)
    (conservative : Conservative context log) (ready : AllReady prover pc calls) :
    Conservative context (log ++ history prover pc calls) := by
  induction calls generalizing log pc with
  | nil => simpa [history] using conservative
  | cons call calls ih =>
    obtain ⟨recorded', conservative'⟩ := step_ok recorded conservative ready.1
    rw [history, ← List.append_assoc]
    exact ih recorded' conservative' ready.2

theorem allReady_append {before after : List (Call Proof)} :
    AllReady prover pc (before ++ after) ↔
      AllReady prover pc before ∧ AllReady prover (pc.run prover before) after := by
  induction before generalizing pc with
  | nil => simp [AllReady, run]
  | cons call before ih => simp [AllReady, ih, run, and_assoc]

theorem recorded_new (axioms definitions : List LabeledFormula)
    (schemata : List (String × LabeledFormula)) :
    Recorded (axioms ++ definitions) [] (newProofChecker axioms definitions schemata) where
  context := by
    intro g hg n uses
    obtain ⟨c, hc, rfl⟩ := List.mem_map.mp uses
    refine Finset.mem_union_left _ (mem_constNames.mpr ⟨c, ?_, rfl⟩)
    exact List.mem_flatMap.mpr ⟨g, hg, g.usedSymbols_subset c hc⟩
  symbols := by simp
  defined := by simp
  propositions := by simp

end Run

/-- What a run on a new checker should give: an order of the admitted definitions, a common
expansion of every structure, and failures without effect. -/
structure Admission {Proof : Type} (prover : Prover Proof) (axioms definitions : List LabeledFormula)
    (schemata : List (String × LabeledFormula)) (calls : List (Call Proof)) : Prop where
  conservative : Conservative (axioms ++ definitions)
    (history prover (newProofChecker axioms definitions schemata) calls)
  expansion : (∀ g ∈ history prover (newProofChecker axioms definitions schemata) calls, ∀ d,
      g.nonRecursive? = some d → ∃ c vs, d.Explicit c vs) →
    ∀ (D : Domain) (M : Structure D), ∃ N : Structure D,
      AgreeOff (fun c => ∃ g ∈ history prover (newProofChecker axioms definitions schemata) calls,
        ∃ d, g.nonRecursive? = some d ∧ d.defines = .const c) M N ∧
      ∀ g ∈ history prover (newProofChecker axioms definitions schemata) calls, ∀ d,
        g.nonRecursive? = some d → d.toConstraint.Valid N
  atomic : ∀ before call after, calls = before ++ call :: after → ∀ e,
    (((newProofChecker axioms definitions schemata).run prover before).step prover call).2 = .error e →
      (((newProofChecker axioms definitions schemata).run prover before).step prover call).1 =
        (newProofChecker axioms definitions schemata).run prover before

/-- Admission is right in every run whose calls are ready. -/
theorem admission {Proof : Type} (prover : Prover Proof) (axioms definitions : List LabeledFormula)
    (schemata : List (String × LabeledFormula)) (calls : List (Call Proof))
    (ready : AllReady prover (newProofChecker axioms definitions schemata) calls) :
    Admission prover axioms definitions schemata calls := by
  have conservative : Conservative (axioms ++ definitions)
      (history prover (newProofChecker axioms definitions schemata) calls) := by
    have empty : Conservative (axioms ++ definitions) [] := ⟨by simp, .nil, .nil⟩
    simpa using run_ok (recorded_new axioms definitions schemata) empty ready
  refine ⟨conservative, fun explicit _ M => conservative.exists_expansion explicit M, ?_⟩
  rintro before call after rfl e failed
  exact step_error (allReady_append.mp ready).2.1 failed

section Boundary

/-- A composition of no tactics keeps the goals. -/
def noTactics : Prover Unit := fun _ goals _ => .ok goals

def propositionCall (name : String) : Call Unit :=
  .admitProposition ⟨some "p", [], .formula (.const (boolConst name))⟩ (some ()) []

def definitionCall (lhs rhs : String) : Call Unit :=
  .admitDefinition ⟨some "d", [], .definition (boolDef lhs rhs)⟩ none

/-- A definition goes before a proposition that uses its symbol. -/
theorem admission_definition_first :
    Admission noTactics [] [] [] [definitionCall "f" "g", propositionCall "f"] := by
  refine admission noTactics [] [] [] _ ⟨?_, ?_, trivial⟩
  · rintro d c hd hc - -
    cases hd
    cases hc
    exact ⟨by decide, fun _ _ h => absurd h List.not_mem_nil,
      fun recursive => absurd recursive (by decide)⟩
  · intro isDef
    contradiction

/-- A definition is admitted after a proposition that uses its symbol, and a definition that
is rejected for want of a proof leaves its symbols marked. -/
theorem not_admission : ¬ Admission noTactics [] [] [] [propositionCall "f", definitionCall "f" "g"] ∧
    ¬ Admission noTactics [] [] [] [definitionCall "f" "f"] := by
  constructor
  · intro h
    have ordered := h.conservative.ordered
    have log : history noTactics (newProofChecker [] [] []) [propositionCall "f", definitionCall "f" "g"] =
        [⟨some "p", [], .formula (.const (boolConst "f"))⟩,
          ⟨some "d", [], .definition (boolDef "f" "g")⟩] := rfl
    rw [log, List.pairwise_cons] at ordered
    exact ordered.1 _ List.mem_cons_self (boolDef "f" "g") (boolConst "f") rfl rfl List.mem_cons_self
  · intro h
    have unchanged := h.atomic [] (definitionCall "f" "f") [] rfl _ rfl
    have marked : "f" ∈ ((newProofChecker [] [] []).step noTactics (definitionCall "f" "f")).1.stale := by
      decide
    exact absurd (unchanged ▸ marked) (by decide)

end Boundary

end Goivy
