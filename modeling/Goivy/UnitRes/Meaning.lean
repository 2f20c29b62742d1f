import Goivy.UnitRes.Soundness

/-! Nothing that the engine is given is lost, so its units and clauses mean the same. -/
namespace Goivy

/-- The first unit clause matches the second one when variables are read without sorts. -/
def Matches (l l' : UnitResLiteral) : Prop :=
  litSubsume (canonizeLiteral "V" l) (canonizeLiteral "V" l') = true ∨
    l'.isDisequalityLit = true ∧
      litSubsume (canonizeLiteral "V" l) (canonizeLiteral "V" l').swapArgs = true

/-- Unit clauses match only unit clauses of the same argument sorts. -/
def SortsAgree (clauses : List UnitResClause) : Prop :=
  ∀ l l', [l] ∈ clauses → [l'] ∈ clauses → Matches l l' →
    l.atom.args.map Expr.nodeSort = l'.atom.args.map Expr.nodeSort

namespace UnitRes

/-- `NewUnitRes` and then `Propagate`. -/
def newAndPropagate (order : IterationOrder) (fuel : Nat) (clauses : List UnitResClause) :
    Except Fault UnitRes := do
  let ur ← new order clauses
  ur.propagate order fuel

/-- The universal closures of all units and clauses are true. -/
def Meaning {D : Domain} (M : Structure D) (ur : UnitRes) : Prop :=
  (∀ l ∈ ur.unitQueue, UnitResClause.Valid M [l]) ∧ ∀ cl ∈ ur.clauses, cl.Valid M

variable {D : Domain} {M : Structure D}

theorem canonizeLiteral_sorts (base : String) (l : UnitResLiteral) :
    (canonizeLiteral base l).atom.args.map Expr.nodeSort = l.atom.args.map Expr.nodeSort := by
  obtain ⟨σ, names, -, -, result⟩ := canonizeTerms_spec base 0 [] l.atom.args
    ⟨fun _ _ h => absurd h List.not_mem_nil, fun _ _ _ h => absurd h List.not_mem_nil⟩
  rw [canonizeLiteral, result, UnitResLiteral.withArgs, List.map_map]
  refine List.map_congr_left fun t _ => ?_
  rw [Function.comp, substTerm]
  split
  · rename_i var
    cases found : σ.lookup t with
    | none => rfl
    | some u =>
      cases t with
      | var v => exact (names.sortPreserving v u found).2
      | _ => cases var
  · rfl

theorem find_new (t : Expr) : CongClos.new.find t = t := by
  simp [CongClos.find, CongClos.getRepNode, CongClos.new, CongClos.getRepRec, CongClos.pointer,
    List.lookup]

theorem litRep_new {ur : UnitRes} (theory : ur.equationalTheory = .new) (l : UnitResLiteral) :
    ur.litRep l = l := by
  have same : ∀ a ∈ l.atom.args, (if isVar a then a else ur.findTerm a) = a := by
    intro a _
    rw [findTerm, theory, find_new, ite_self]
  rw [litRep, List.map_congr_left same, List.map_id']
  rfl

theorem anySubsumes_true {ur : UnitRes} {l : UnitResLiteral} {is : List Nat}
    (h : ur.anySubsumes l is = .ok true) :
    ∃ u ∈ ur.unitQueue, litSubsume (ur.litRep u) (ur.litRep l) = true := by
  induction is with
  | nil => cases h
  | cons i is ih =>
    unfold anySubsumes at h
    split at h
    · cases h
    · rename_i u hu
      split at h
      · rename_i subsumes
        exact ⟨u, List.mem_of_getElem? hu, subsumes⟩
      · exact ih h

theorem unitSubsumed_true {order : IterationOrder} {ur : UnitRes} {l : UnitResLiteral}
    (h : ur.unitSubsumed order l = .ok true) :
    ∃ u ∈ ur.unitQueue, litSubsume (ur.litRep u) (ur.litRep l) = true ∨
      l.isDisequalityLit = true ∧ litSubsume (ur.litRep u) (ur.litRep l.swapArgs) = true := by
  unfold unitSubsumed unitSubsumedBasic at h
  cases first : ur.anySubsumes l ((ur.findSubsuming order l).flatMap ur.index.units) with
  | error e =>
    rw [first] at h
    cases h
  | ok found =>
    rw [first] at h
    cases found with
    | true =>
      obtain ⟨u, hu, subsumes⟩ := anySubsumes_true first
      exact ⟨u, hu, .inl subsumes⟩
    | false =>
      simp only [bind, Except.bind, Bool.false_eq_true, if_false] at h
      split at h
      · rename_i kind
        simp only [Bool.and_eq_true] at kind
        obtain ⟨u, hu, subsumes⟩ := anySubsumes_true h
        exact ⟨u, hu, .inr ⟨kind.1, subsumes⟩⟩
      · cases h

/-- The clause is stored, or follows from what is. -/
structure Kept (M : Structure D) (ur : UnitRes) (cl : UnitResClause) : Prop where
  empty : cl = [] → ur.unsat = true
  nonempty : cl ≠ [] → ur.Meaning M → cl.Valid M

theorem Kept.mono {I : UnitRes → Prop} {room : CongClos → Nat} {ur ur' : UnitRes}
    (next : Next I room ur ur') {cl : UnitResClause} (h : Kept M ur cl) : Kept M ur' cl :=
  ⟨fun eq => next.unsat (h.empty eq), fun ne meaning => h.nonempty ne
    ⟨fun l hl => meaning.1 l (next.units.subset hl), fun cl hcl => meaning.2 cl (next.clauses.subset hcl)⟩⟩

/-- While clauses are added to a new engine, its units are unit clauses it was given. -/
structure Fresh (clauses : List UnitResClause) (ur : UnitRes) : Prop where
  theory : ur.equationalTheory = .new
  units : ∀ u ∈ ur.unitQueue, ∃ l, [l] ∈ clauses ∧ u = canonizeLiteral "V" l

section Add

variable {clauses : List UnitResClause} (sorted : ∀ cl ∈ clauses, ∀ l ∈ cl, l.Sorted)

include sorted

/-- A unit clause that is dropped follows from the unit that subsumes it. -/
theorem valid_of_subsumed {order : IterationOrder} (agree : SortsAgree clauses) {ur : UnitRes}
    (fresh : Fresh clauses ur) {l : UnitResLiteral} (hl : [l] ∈ clauses)
    (subsumed : ur.unitSubsumed order (canonizeLiteral "V" l) = .ok true) (meaning : ur.Meaning M) :
    UnitResClause.Valid M [l] := by
  have sortedL := sorted _ hl l (List.mem_singleton_self l)
  have canonical := canonizeLiteral_spec (M := M) "V" sortedL
  obtain ⟨u, hu, subsumes⟩ := unitSubsumed_true subsumed
  simp only [litRep_new fresh.theory] at subsumes
  have validU := meaning.1 u hu
  obtain ⟨k, hk, rfl⟩ := fresh.units u hu
  have sortedK := (canonizeLiteral_spec (M := M) "V" (sorted _ hk k (List.mem_singleton_self k))).1
  have sorts := agree k l hk hl subsumes
  rw [← canonizeLiteral_sorts "V" k, ← canonizeLiteral_sorts "V" l] at sorts
  rw [← canonical.2]
  obtain subsumes | ⟨kind, subsumes⟩ := subsumes
  · exact valid_of_litSubsume sortedK canonical.1 sorts subsumes validU
  · -- the sides of a disequality have one sort, so they can be exchanged
    simp only [UnitResLiteral.isDisequalityLit, Bool.and_eq_true, decide_eq_true_eq] at kind
    generalize canonizeLiteral "V" l = c at canonical sorts subsumes kind ⊢
    obtain ⟨a, b, args, sort⟩ := canonical.1.equality kind.2
    have swapped : UnitResClause.Follows True M [c] → UnitResClause.Follows True M [c.swapArgs] :=
      fun h => h.swapArgs kind.2
    have back : c.swapArgs.swapArgs = c := by
      obtain ⟨p, r, as⟩ := c
      obtain rfl : as = [a, b] := args
      rfl
    have sortedSwap : c.swapArgs.Sorted := by
      have : UnitResClause.Follows False M [c] :=
        UnitResClause.follows_unit.mpr ⟨canonical.1, fun h => h.elim⟩
      exact (UnitResClause.follows_unit.mp (this.swapArgs kind.2)).1
    have sameSorts : c.swapArgs.atom.args.map Expr.nodeSort = c.atom.args.map Expr.nodeSort := by
      simp [UnitResLiteral.swapArgs, args, UnitResLiteral.withArgs, sort]
    have valid := valid_of_litSubsume sortedK sortedSwap (sorts.trans sameSorts.symm) subsumes validU
    have follows : UnitResClause.Follows True M [c.swapArgs] :=
      ⟨fun _ h => List.mem_singleton.mp h ▸ sortedSwap, fun _ => valid⟩
    have name : c.swapArgs.atom.relName = "=" := by
      simp [UnitResLiteral.swapArgs, args, UnitResLiteral.withArgs, kind.2]
    exact back ▸ (follows.swapArgs name).valid trivial

omit sorted in
theorem transitivity_length {lhs rhs : UnitResLiteral} {cl : UnitResClause}
    (h : cl ∈ transitivityClauses lhs rhs) : ∃ k, cl = [lhs, k] := by
  unfold transitivityClauses at h
  split at h
  · split at h
    · obtain ⟨k, -, rfl⟩ := List.mem_map.mp h
      exact ⟨k, rfl⟩
    · exact absurd h List.not_mem_nil
  · exact absurd h List.not_mem_nil

omit sorted in
/-- The clauses that transitivity adds have two literals. -/
theorem added_length (cl : UnitResClause) : ∃ more : List UnitResClause, addedClauses cl = cl :: more ∧
    ∀ c ∈ more, ∃ l k, c = [l, k] := by
  refine ⟨_, rfl, fun c hc => ?_⟩
  split at hc
  · split at hc
    · obtain h | h := List.mem_append.mp hc
      · obtain ⟨k, rfl⟩ := transitivity_length h
        exact ⟨_, k, rfl⟩
      · obtain ⟨k, rfl⟩ := transitivity_length h
        exact ⟨_, k, rfl⟩
    · exact absurd hc List.not_mem_nil
  · exact absurd hc List.not_mem_nil

theorem addClauseBasic_kept {order : IterationOrder} (agree : SortsAgree clauses) {ur ur' : UnitRes}
    (fresh : Fresh clauses ur) {cl : UnitResClause} (hcl : cl ∈ clauses)
    (added : ur.addClauseBasic order cl = .ok ur') : Fresh clauses ur' ∧ Kept M ur' cl := by
  match cl, hcl, added with
  | [], _, added =>
    cases added
    exact ⟨⟨fresh.theory, fresh.units⟩, fun _ => rfl, fun ne => absurd rfl ne⟩
  | [l], hl, added =>
    have canonical := canonizeLiteral_spec (M := M) "V" (sorted _ hl l (List.mem_singleton_self l))
    simp only [addClauseBasic, litRep_new fresh.theory] at added
    split at added
    · rename_i taut
      cases added
      refine ⟨fresh, fun h => absurd h (List.cons_ne_nil _ _), fun _ _ => ?_⟩
      rw [← canonical.2, UnitResClause.valid_unit]
      exact fun env => UnitResLiteral.holds_of_isTautLit canonical.1 taut
    · cases answer : ur.unitSubsumed order (canonizeLiteral "V" l) with
      | error e =>
        rw [answer] at added
        cases added
      | ok subsumed =>
        rw [answer] at added
        cases subsumed with
        | true =>
          cases added
          exact ⟨fresh, fun h => absurd h (List.cons_ne_nil _ _), fun _ =>
            valid_of_subsumed sorted agree fresh hl answer⟩
        | false =>
          cases added
          refine ⟨⟨fresh.theory, fun u hu => ?_⟩, fun h => absurd h (List.cons_ne_nil _ _), fun _ meaning => ?_⟩
          · obtain hu | hu := List.mem_append.mp hu
            · exact fresh.units u hu
            · exact ⟨l, hl, List.mem_singleton.mp hu⟩
          · rw [← canonical.2]
            exact meaning.1 _ (List.mem_append_right _ (List.mem_singleton_self _))
  | l :: k :: ls, _, added =>
    cases added
    exact ⟨⟨fresh.theory, fresh.units⟩, fun h => absurd h (List.cons_ne_nil _ _), fun _ meaning =>
      meaning.2 _ (List.mem_append_right _ (List.mem_singleton_self _))⟩

theorem addClause_kept {order : IterationOrder} (agree : SortsAgree clauses) {ur ur' : UnitRes}
    (sound : ur.Sound False M) (inRange : ur.InRange) (fresh : Fresh clauses ur) {cl : UnitResClause}
    (hcl : cl ∈ clauses) (added : ur.addClause order cl = .ok ur') :
    Fresh clauses ur' ∧ Kept M ur' cl := by
  have rules := sound_inferences False M order
  have follows : cl.Follows False M := ⟨sorted cl hcl, fun h => h.elim⟩
  obtain ⟨more, list, long⟩ := added_length cl
  rw [addClause, list, List.foldlM_cons] at added
  have first := addClauseBasic_next rules inRange sound follows
  cases basic : ur.addClauseBasic order cl with
  | error e =>
    rw [basic] at added
    cases added
  | ok ur₁ =>
    rw [basic] at added first
    obtain ⟨fresh₁, kept₁⟩ := addClauseBasic_kept (M := M) sorted agree fresh hcl basic
    -- the other clauses are stored as clauses
    have rest : Outcome True (fun ur₂ => Fresh clauses ur₂ ∧ Next (Sound False M) (fun _ => 0) ur₁ ur₂)
        (more.foldlM (fun ur cl => ur.addClauseBasic order cl) ur₁) := by
      refine outcome_foldlM ⟨fresh₁, .refl first.inRange first.holds⟩ fun ur₂ c hc next => ?_
      have followsC := rules.added cl follows c (by rw [list]; exact List.mem_cons_of_mem _ hc)
      have step := addClauseBasic_next rules next.2.inRange next.2.holds followsC
      obtain ⟨l, k, rfl⟩ := long c hc
      exact ⟨⟨next.1.theory, next.1.units⟩, next.2.trans step⟩
    change more.foldlM (fun ur cl => ur.addClauseBasic order cl) ur₁ = _ at added
    rw [added] at rest
    exact ⟨rest.1, kept₁.mono rest.2⟩

/-- A new engine keeps every clause it is given. -/
theorem new_kept (order : IterationOrder) (agree : SortsAgree clauses) :
    Outcome True (fun ur => ∀ cl ∈ clauses, Kept M ur cl) (new order clauses) := by
  have rules := sound_inferences False M order
  have fold : ∀ (given : List UnitResClause) (ur : UnitRes), (∀ cl ∈ given, cl ∈ clauses) →
      ur.Sound False M → ur.InRange → Fresh clauses ur →
      Outcome True (fun ur' => (∀ cl ∈ given, Kept M ur' cl) ∧ Next (Sound False M) (fun _ => 0) ur ur')
        (given.foldlM (fun ur cl => ur.addClause order cl) ur) := by
    intro given
    induction given with
    | nil => exact fun ur _ sound inRange _ => ⟨fun cl h => absurd h List.not_mem_nil,
        .refl inRange sound⟩
    | cons cl given ih =>
      intro ur sub sound inRange fresh
      rw [List.forall_mem_cons] at sub
      have follows : cl.Follows False M := ⟨sorted cl sub.1, fun h => h.elim⟩
      rw [List.foldlM_cons]
      refine (addClause_next rules inRange sound follows).with_result.bind ?_
      rintro ur₁ ⟨added, next⟩
      obtain ⟨fresh₁, kept⟩ := addClause_kept sorted agree sound inRange fresh sub.1 added
      refine (ih ur₁ sub.2 next.holds next.inRange fresh₁).mono ?_
      rintro ur₂ ⟨keptRest, next₂⟩
      exact ⟨List.forall_mem_cons.mpr ⟨kept.mono next₂, keptRest⟩, next.trans next₂⟩
  exact (fold clauses UnitRes.empty (fun _ h => h) empty_sound
    ⟨fun _ _ h => absurd h List.not_mem_nil, fun _ _ h => absurd h List.not_mem_nil, le_rfl⟩
    ⟨rfl, fun _ h => absurd h List.not_mem_nil⟩).mono fun _ h => h.1

end Add

/-- The state after a run, related to the clauses that were given. -/
structure PreservesMeaning (M : Structure D) (clauses : List UnitResClause) (ur : UnitRes) : Prop where
  unsat : ur.unsat = true → ¬ ∀ cl ∈ clauses, cl.Valid M
  consequences : (∀ cl ∈ clauses, cl.Valid M) → ur.Meaning M
  equivalent : SortsAgree clauses →
    ((∀ cl ∈ clauses, cl.Valid M) ↔ ur.unsat = false ∧ ur.Meaning M)
  nonempty : SortsAgree clauses → [] ∉ clauses →
    ((∀ cl ∈ clauses, cl.Valid M) ↔ ur.Meaning M)

/-- The properties that every run of the engine on the clauses keeps. -/
theorem newAndPropagate_next (given : Prop) {clauses : List UnitResClause}
    (sorted : ∀ cl ∈ clauses, ∀ l ∈ cl, l.Sorted)
    (valid : given → ∀ cl ∈ clauses, cl.Valid M) (order : IterationOrder) (fuel : Nat) :
    Outcome True (fun ur => ∃ start, new order clauses = .ok start ∧
      Next (Sound given M) (fun _ => 0) start ur) (newAndPropagate order fuel clauses) := by
  have rules := sound_inferences given M order
  refine (new_next rules empty_sound fun cl hcl => ⟨sorted cl hcl, fun g => valid g cl hcl⟩).with_result.bind ?_
  rintro start ⟨made, next⟩
  exact (propagate_next_short rules fuel next.inRange next.holds).mono fun ur later => ⟨start, made, later⟩

theorem preservesMeaning {clauses : List UnitResClause} (sorted : ∀ cl ∈ clauses, ∀ l ∈ cl, l.Sorted)
    {order : IterationOrder} {fuel : Nat} {ur : UnitRes}
    (run : newAndPropagate order fuel clauses = .ok ur) (M : Structure D) :
    PreservesMeaning M clauses ur := by
  have forwards := newAndPropagate_next (∀ cl ∈ clauses, cl.Valid M) sorted (fun g => g) order fuel
  rw [run] at forwards
  obtain ⟨start, made, next⟩ := forwards
  have consequences : (∀ cl ∈ clauses, cl.Valid M) → ur.Meaning M := fun valid =>
    ⟨fun l hl => (next.holds.units l hl).valid valid, fun cl hcl => (next.holds.clauses cl hcl).valid valid⟩
  -- what a new engine keeps stays kept
  have kept : SortsAgree clauses → ∀ cl ∈ clauses, Kept M ur cl := by
    intro agree cl hcl
    have start_kept := new_kept (M := M) sorted order agree
    rw [made] at start_kept
    exact (start_kept cl hcl).mono next
  have satisfiable : (∀ cl ∈ clauses, cl.Valid M) → ur.unsat = false := next.holds.satisfiable
  refine ⟨fun unsat valid => ?_, consequences, fun agree => ⟨fun valid => ⟨satisfiable valid,
    consequences valid⟩, ?_⟩, fun agree nonempty => ⟨consequences, fun meaning cl hcl => ?_⟩⟩
  · rw [satisfiable valid] at unsat
    cases unsat
  · rintro ⟨sat, meaning⟩ cl hcl
    refine (kept agree cl hcl).nonempty (fun empty => ?_) meaning
    rw [(kept agree cl hcl).empty empty] at sat
    cases sat
  · exact (kept agree cl hcl).nonempty (fun empty => nonempty (empty ▸ hcl)) meaning

end UnitRes

end Goivy
