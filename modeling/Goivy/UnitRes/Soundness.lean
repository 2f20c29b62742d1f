import Goivy.UnitRes.Inference

/-! The inferences of the engine are consequences of the clauses it is given. -/
namespace Goivy

variable {D : Domain} {M : Structure D}

/-- A well-sorted clause that is true in the structure wherever the `given` is. -/
structure UnitResClause.Follows (given : Prop) (M : Structure D) (cl : UnitResClause) : Prop where
  sorted : ∀ l ∈ cl, l.Sorted
  valid : given → cl.Valid M

/-- Constants of one sort are equal here, so its theories are the ones that keep sorts. -/
noncomputable def Structure.indistinct (D : Domain) : Structure D :=
  fun _ _ _ => Classical.arbitrary _

/-- Everything the engine has stored follows from what it was given. -/
structure UnitRes.Sound (given : Prop) (M : Structure D) (ur : UnitRes) : Prop where
  units : ∀ l ∈ ur.unitQueue, UnitResClause.Follows given M [l]
  clauses : ∀ cl ∈ ur.clauses, cl.Follows given M
  sorts : ur.equationalTheory.Theory (Structure.indistinct D)
  theory : given → ur.equationalTheory.Theory M
  satisfiable : given → ur.unsat = false

namespace UnitResClause

variable {given : Prop}

theorem follows_unit {l : UnitResLiteral} :
    Follows given M [l] ↔ l.Sorted ∧ (given → ∀ env : Env D, l.Holds M env) :=
  ⟨fun h => ⟨h.sorted l (List.mem_singleton_self l), fun g => valid_unit.mp (h.valid g)⟩,
    fun h => ⟨fun _ hk => List.mem_singleton.mp hk ▸ h.1, fun g => valid_unit.mpr (h.2 g)⟩⟩

theorem not_valid_empty : ¬ Valid M [] := by
  intro h
  obtain ⟨env⟩ : Nonempty (Env D) := inferInstance
  obtain ⟨l, hl, -⟩ := h env
  exact absurd hl List.not_mem_nil

theorem Follows.swapArgs {l : UnitResLiteral} (h : Follows given M [l]) (eq : l.atom.relName = "=") :
    Follows given M [l.swapArgs] := by
  obtain ⟨sorted, holds⟩ := follows_unit.mp h
  obtain ⟨p, r, as⟩ := l
  obtain rfl : r = "=" := eq
  obtain ⟨a, b, args, sort⟩ := sorted.equality rfl
  obtain rfl : as = [a, b] := args
  refine follows_unit.mpr ⟨⟨fun t ht => sorted.terms t ?_, fun _ => ⟨b, a, rfl, sort.symm⟩⟩,
    fun g env => ?_⟩
  · exact (List.Perm.swap a b []).mem_iff.mp ht
  · exact holds_equality.mpr ((holds_equality.mp (holds g env)).trans eq_comm)

/-- The sides of an equality are terms of one sort. -/
theorem Follows.sides {a b : Expr} (eq : Follows given M [⟨true, equalityAtom a b⟩]) :
    a.IsTerm ∧ b.IsTerm ∧ a.nodeSort = b.nodeSort := by
  have sorted := (follows_unit.mp eq).1
  obtain ⟨_, _, args, sort⟩ := sorted.equality rfl
  cases args
  exact ⟨sorted.terms a List.mem_cons_self,
    sorted.terms b (List.mem_cons_of_mem _ List.mem_cons_self), sort⟩

/-- Equal constants can be exchanged in a unit. -/
theorem Follows.rewrite {a b : Expr} {l : UnitResLiteral}
    (eq : Follows given M [⟨true, equalityAtom a b⟩]) (h : Follows given M [l]) :
    Follows given M [l.substituteConstants [(a, b)]] ∧
      Follows given M [l.substituteConstants [(b, a)]] := by
  obtain ⟨-, holdsEq⟩ := follows_unit.mp eq
  obtain ⟨sorted, holds⟩ := follows_unit.mp h
  obtain ⟨termA, termB, sort⟩ := eq.sides
  have same : given → ∀ env : Env D, a.eval M env = b.eval M env := fun g env =>
    (holds_equality.mp (holdsEq g env)).mp rfl
  constructor
  · exact follows_unit.mpr ⟨sorted.substituteConstants termB sort.symm, fun g env =>
      (UnitResLiteral.holds_substituteConstants (same g env)).mpr (holds g env)⟩
  · exact follows_unit.mpr ⟨sorted.substituteConstants termA sort, fun g env =>
      (UnitResLiteral.holds_substituteConstants (same g env).symm).mpr (holds g env)⟩

/-- Where the disequality fails, its sides can be exchanged in the equality. -/
theorem Follows.transitivity {lhs rhs : UnitResLiteral} (h : Follows given M [lhs, rhs])
    {cl : UnitResClause} (added : cl ∈ transitivityClauses lhs rhs) : Follows given M cl := by
  have sortedL := h.sorted lhs List.mem_cons_self
  have sortedR := h.sorted rhs (List.mem_cons_of_mem _ List.mem_cons_self)
  unfold transitivityClauses at added
  split at added
  · rename_i a b args
    split at added
    · rename_i kinds
      simp only [UnitResLiteral.isDisequalityLit, Bool.and_eq_true, decide_eq_true_eq,
        Bool.not_eq_true'] at kinds
      obtain ⟨negative, isEq⟩ := kinds.1
      have sort : a.nodeSort = b.nodeSort := by
        obtain ⟨a', b', args', sort⟩ := sortedL.equality isEq
        rw [args] at args'
        cases args'
        exact sort
      have atom : lhs = ⟨false, equalityAtom a b⟩ := by
        rw [← negative, equalityAtom, ← isEq, ← args]
      have terms : a.IsTerm ∧ b.IsTerm :=
        ⟨sortedL.terms a (by simp [args]), sortedL.terms b (by simp [args])⟩
      obtain ⟨newRHS, hnew, rfl⟩ := List.mem_map.mp added
      have new : newRHS.Sorted ∧ ∀ env : Env D, a.eval M env = b.eval M env →
          (newRHS.Holds M env ↔ rhs.Holds M env) := by
        obtain rfl | rfl := List.mem_pair.mp (List.mem_of_mem_filter hnew)
        · exact ⟨sortedR.substituteConstants terms.2 sort.symm, fun env same =>
            UnitResLiteral.holds_substituteConstants same⟩
        · exact ⟨sortedR.substituteConstants terms.1 sort, fun env same =>
            UnitResLiteral.holds_substituteConstants same.symm⟩
      constructor
      · intro l hl
        obtain rfl | rfl := List.mem_pair.mp hl
        · exact sortedL
        · exact new.1
      · intro g env
        by_cases disequal : lhs.Holds M env
        · exact ⟨lhs, List.mem_cons_self, disequal⟩
        · have same : a.eval M env = b.eval M env := by
            rw [atom, holds_equality] at disequal
            simpa using disequal
          obtain ⟨l, hl, holds⟩ := h.valid g env
          obtain rfl | rfl := List.mem_pair.mp hl
          · exact absurd holds disequal
          · exact ⟨newRHS, List.mem_cons_of_mem _ List.mem_cons_self, (new.2 env same).mpr holds⟩
    · exact absurd added List.not_mem_nil
  · exact absurd added List.not_mem_nil

theorem Follows.added {cl cl' : UnitResClause} (h : Follows given M cl)
    (hcl' : cl' ∈ addedClauses cl) : Follows given M cl' := by
  obtain rfl | hcl' := List.mem_cons.mp hcl'
  · exact h
  · split at hcl'
    · rename_i l1 l2 _
      split at hcl'
      · obtain fwd | bwd := List.mem_append.mp hcl'
        · exact h.transitivity fwd
        · have swapped : Follows given M [l2, l1] := by
            have perm : ∀ l, l ∈ [l2, l1] ↔ l ∈ [l1, l2] := fun l => (List.Perm.swap l1 l2 []).mem_iff
            refine ⟨fun l hl => h.sorted l ((perm l).mp hl), fun g env => ?_⟩
            obtain ⟨l, hl, holds⟩ := h.valid g env
            exact ⟨l, (perm l).mpr hl, holds⟩
          exact swapped.transitivity bwd
      · exact absurd hcl' List.not_mem_nil
    · exact absurd hcl' List.not_mem_nil

/-- The resolvent of two clauses on literals that a unifier makes opposite where the
collected equalities hold. -/
theorem Follows.resolvent {lit l : UnitResLiteral} {cl : UnitResClause} {j : Nat}
    {subs : ResolutionEnv} {eqs : List ResolutionAtom} (hlit : Follows given M [lit])
    (hcl : Follows given M cl) (hl : cl[j]? = some l) {rep : UnitResLiteral} (sortedRep : rep.Sorted)
    (same : given → ∀ env : Env D, rep.Holds M env ↔ l.Holds M env)
    (opposite : rep.polarity ≠ lit.polarity) (unified : mguEq lit.atom rep.atom = some (subs, eqs)) :
    Follows given M ((cl.eraseIdx j).map (·.substitute subs) ++ disequalities eqs) := by
  obtain ⟨sortedLit, holdsLit⟩ := follows_unit.mp hlit
  have names : lit.atom.relName = rep.atom.relName := by
    by_contra ne
    rw [mguEq, if_pos ne] at unified
    cases unified
  rw [mguEq, if_neg (not_not_intro names)] at unified
  obtain ⟨preserving, ground, meets⟩ := termsMGUEq_spec sortedLit.terms sortedRep.terms unified
  constructor
  · intro k hk
    obtain hk | hk := List.mem_append.mp hk
    · obtain ⟨k', hk', rfl⟩ := List.mem_map.mp hk
      exact (hcl.sorted k' (List.mem_of_mem_eraseIdx hk')).substitute preserving
    · obtain ⟨a, ha, rfl⟩ := List.mem_map.mp hk
      exact UnitResLiteral.disequality_sorted (ground a ha) false
  · intro g env
    by_cases hold : EqualitiesHold M env eqs
    · -- the literals are opposite under the unifier, so another literal of the clause is true
      have args := meets M env hold
      have notRep : ¬ rep.Holds M (env.bind M subs) := by
        have hold := holdsLit g (env.bind M subs)
        rw [UnitResLiteral.Holds, names, args] at hold
        rw [UnitResLiteral.Holds, ← hold]
        cases h : rep.polarity <;> cases h' : lit.polarity <;> simp_all
      obtain ⟨k, hk, holds⟩ := hcl.valid g (env.bind M subs)
      have ne : k ≠ l := by
        rintro rfl
        exact notRep ((same g _).mpr holds)
      have stays : k ∈ cl.eraseIdx j := by
        rw [List.mem_eraseIdx_iff_getElem?]
        obtain ⟨i, hi⟩ := List.mem_iff_getElem?.mp hk
        refine ⟨i, ?_, hi⟩
        rintro rfl
        exact ne (Option.some.inj (hi.symm.trans hl))
      exact ⟨k.substitute subs, List.mem_append_left _ (List.mem_map_of_mem stays),
        (UnitResLiteral.holds_substitute (hcl.sorted k hk) preserving).mpr holds⟩
    · simp only [EqualitiesHold, not_forall] at hold
      obtain ⟨x, y, mem, differ⟩ := hold
      refine ⟨⟨false, equalityAtom x y⟩, List.mem_append_right _ (List.mem_map_of_mem mem), ?_⟩
      rw [holds_equality]
      simpa using differ

end UnitResClause

namespace UnitRes

variable {given : Prop}

/-- Representatives have the same sorts and values. -/
theorem litRep_spec {ur : UnitRes} (sound : ur.Sound given M) {l : UnitResLiteral}
    (sorted : l.Sorted) :
    (ur.litRep l).Sorted ∧ (given → ∀ env : Env D, (ur.litRep l).Holds M env ↔ l.Holds M env) := by
  constructor
  · refine sorted.withArgs_map fun t term => ?_
    split
    · exact ⟨term, rfl⟩
    · obtain ⟨-, value, term'⟩ := CongClos.getRepNode_spec sound.sorts t
      obtain ⟨env⟩ : Nonempty (Env D) := inferInstance
      refine ⟨term' term, ?_⟩
      rw [term.nodeSort_eval (M := Structure.indistinct D) env, value env, findTerm,
        (term' term).nodeSort_eval (M := Structure.indistinct D) env]
  · intro g env
    refine holds_withArgs (UnitResLiteral.evalList_map fun t _ => ?_)
    split
    · rfl
    · exact ((CongClos.getRepNode_spec (sound.theory g) t).2.1 env).symm

theorem indistinct_consts {a b : Expr} (termA : a.IsTerm) (termB : b.IsTerm)
    (sort : a.nodeSort = b.nodeSort) (constA : isConst a = true) (constB : isConst b = true)
    (env : Env D) : a.eval (Structure.indistinct D) env = b.eval (Structure.indistinct D) env := by
  cases termA with
  | var v => cases constA
  | const n s =>
    cases termB with
    | var v => cases constB
    | const m s' =>
      cases sort
      rw [Expr.eval, Expr.eval, Structure.value_eq _ rfl, Structure.value_eq _ rfl]
      rfl

/-- The inferences of the engine are sound. -/
theorem sound_inferences (given : Prop) (M : Structure D) (order : IterationOrder) :
    Inferences order True (UnitResClause.Follows given M) (Sound given M) (fun _ => 0) where
  unit _ sound := sound.units
  clause _ sound := sound.clauses
  setUnsat _ sound h := ⟨sound.units, sound.clauses, sound.sorts, sound.theory, fun g =>
    absurd (h.valid g) UnitResClause.not_valid_empty⟩
  appendUnit ur sound l h _ := by
    have canonical := canonizeLiteral_spec (M := M) "V" (UnitResClause.follows_unit.mp h).1
    have rep := litRep_spec sound canonical.1
    refine ⟨fun k hk => ?_, sound.clauses, sound.sorts, sound.theory, sound.satisfiable⟩
    obtain hk | hk := List.mem_append.mp hk
    · exact sound.units k hk
    · rw [List.mem_singleton.mp hk]
      exact UnitResClause.follows_unit.mpr ⟨rep.1, fun g env =>
        (rep.2 g env).mpr (UnitResClause.valid_unit.mp (canonical.2.mpr (h.valid g)) env)⟩
  appendClause ur sound cl h := by
    refine ⟨sound.units, fun k hk => ?_, sound.sorts, sound.theory, sound.satisfiable⟩
    obtain hk | hk := List.mem_append.mp hk
    · exact sound.clauses k hk
    · exact List.mem_singleton.mp hk ▸ h
  deindex _ sound _ _ _ :=
    ⟨sound.units, sound.clauses, sound.sorts, sound.theory, sound.satisfiable⟩
  bookkeeping _ sound _ _ _ :=
    ⟨sound.units, sound.clauses, sound.sorts, sound.theory, sound.satisfiable⟩
  union ur sound a b h constA constB := by
    obtain ⟨termA, termB, sort⟩ := h.sides
    have sorts := sound.sorts.union (indistinct_consts termA termB sort constA constB) termA termB
    have theory := fun g => (sound.theory g).union
      (fun env => (holds_equality.mp ((UnitResClause.follows_unit.mp h).2 g env)).mp rfl) termA termB
    exact ⟨⟨sound.units, sound.clauses, sorts, theory, sound.satisfiable⟩, le_rfl,
      fun _ => .inl trivial⟩
  binary cl h l hl eq := by
    obtain ⟨a, b, args, -⟩ := (h.sorted l hl).equality eq
    rw [args]
    rfl
  canonize base l h := by
    have canonical := canonizeLiteral_spec (M := M) base (UnitResClause.follows_unit.mp h).1
    exact UnitResClause.follows_unit.mpr
      ⟨canonical.1, fun g => UnitResClause.valid_unit.mp (canonical.2.mpr (h.valid g))⟩
  litRep ur sound l h := by
    obtain ⟨sorted, holds⟩ := UnitResClause.follows_unit.mp h
    have rep := litRep_spec sound sorted
    exact UnitResClause.follows_unit.mpr ⟨rep.1, fun g env => (rep.2 g env).mpr (holds g env)⟩
  swap _ h eq := h.swapArgs eq
  added _ h _ hcl' := h.added hcl'
  rewrite _ _ _ eq h := eq.rewrite h
  resolve ur sound lit cl j l subs eqs hlit hcl hl opposite unified := by
    have rep := litRep_spec sound (hcl.sorted l (List.mem_of_getElem? hl))
    have resolvent := hlit.resolvent hcl hl rep.1 rep.2 opposite unified
    have simplified := simplifyClause_spec (M := M) resolvent.sorted
    exact ⟨simplified.1, fun g => simplified.2 (resolvent.valid g)⟩
  resolveUnits ur sound lit l subs eqs hlit hl opposite unified := by
    have rep := litRep_spec sound (hl.sorted l (List.mem_singleton_self l))
    exact hlit.resolvent (j := 0) hl rfl rep.1 rep.2 opposite unified

theorem empty_sound : (empty : UnitRes).Sound given M :=
  ⟨fun _ h => absurd h List.not_mem_nil, fun _ h => absurd h List.not_mem_nil, CongClos.new_theory,
    fun _ => CongClos.new_theory, fun _ => rfl⟩

end UnitRes

end Goivy
