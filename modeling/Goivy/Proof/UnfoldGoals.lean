import Goivy.Proof.UnfoldTruth
import Goivy.TransRel.AtomicActions
import Goivy.Util.OptionList

/-! Goals before and after unfolding. The premises of a premise range over all meanings of what it declares. -/
namespace Goivy

/-- What a premise declares is none of what a definition is about. -/
def Conclusion.Untouched (names : List String) (cs : List Const) : Conclusion → Prop
  | .formula e => e.Untouched names cs
  | .definition _ | .definitionSchema _ => True

/-- Whether the definitions can be unfolded one group after the other where the names are declared and the last list has
the symbols that occur. A group matters when its symbol occurs, from the start or in a right-hand side before it. -/
def ScopeClear (names : List String) (cs : List Const) : List (List LabeledFormula) → List Const → Prop
  | [], _ => True
  | rdefs :: rest, used =>
    match matchFromDefns rdefs with
    | none => ScopeClear names cs rest used
    | some (key, lams) =>
      (key ∈ used → ∀ d ∈ rdefs, d.conc.Untouched names cs) ∧
        ScopeClear names cs rest (if key ∈ used then used ++ lams.flatMap (·.body.symbols) else used)

namespace Premise

mutual
def WellSorted : Premise → Prop
  | .sort _ | .constantDecl _ _ => True
  | .goal _ prems conc => AllWellSorted prems ∧ conc.WellSorted
def AllWellSorted : List Premise → Prop
  | [] => True
  | p :: ps => p.WellSorted ∧ AllWellSorted ps
end

mutual
/-- Wherever an unfolded symbol occurs in the premise or in a goal inside it, neither the symbol nor anything in its
definition is declared there. -/
def Clear (defns : List (List LabeledFormula)) : Premise → Prop
  | .sort _ | .constantDecl _ _ => True
  | .goal _ prems conc =>
    ScopeClear (declaredSorts prems) (declaredSymbols prems) defns (usedSymbolsList prems ++ conc.symbols) ∧
      AllClear defns prems
def AllClear (defns : List (List LabeledFormula)) : List Premise → Prop
  | [] => True
  | p :: ps => p.Clear defns ∧ AllClear defns ps
end

mutual
/-- The same for one group. -/
def LeavesAlone (key : Const) (rdefs : List LabeledFormula) : Premise → Prop
  | .sort _ | .constantDecl _ _ => True
  | .goal _ prems conc =>
    (key ∈ usedSymbolsList prems ++ conc.symbols →
      ∀ d ∈ rdefs, d.conc.Untouched (declaredSorts prems) (declaredSymbols prems)) ∧ AllLeaveAlone key rdefs prems
def AllLeaveAlone (key : Const) (rdefs : List LabeledFormula) : List Premise → Prop
  | [] => True
  | p :: ps => p.LeavesAlone key rdefs ∧ AllLeaveAlone key rdefs ps
end

theorem allWellSorted_iff {ps : List Premise} : AllWellSorted ps ↔ ∀ p ∈ ps, p.WellSorted := by
  induction ps with
  | nil => simp [AllWellSorted]
  | cons p ps ih => rw [AllWellSorted, ih, List.forall_mem_cons]

theorem allClear_iff {defns : List (List LabeledFormula)} {ps : List Premise} :
    AllClear defns ps ↔ ∀ p ∈ ps, p.Clear defns := by
  induction ps with
  | nil => simp [AllClear]
  | cons p ps ih => rw [AllClear, ih, List.forall_mem_cons]

end Premise

namespace Unfolding

variable (u : Unfolding)

/-- The premises that stay. -/
def undeclared (ps : List Premise) : List Premise := ps.filter fun p => !u.declares p

theorem premises_declare (ps : List Premise) (lams : List Lambda) :
    Premise.declaredSorts (u.premises ps lams).1 = Premise.declaredSorts ps ∧
      Premise.declaredSymbols (u.premises ps lams).1 = Premise.declaredSymbols ps := by
  induction ps generalizing lams with
  | nil => exact ⟨rfl, rfl⟩
  | cons p ps ih =>
    obtain ⟨sorts, symbols⟩ := ih (u.premise p lams).2
    cases p with
    | sort n => exact ⟨congrArg (n :: ·) sorts, symbols⟩
    | constantDecl compiled c => exact ⟨sorts, congrArg (c :: ·) symbols⟩
    | goal label prems conc => exact ⟨sorts, symbols⟩

theorem declaredSorts_undeclared (ps : List Premise) :
    Premise.declaredSorts (u.undeclared ps) = Premise.declaredSorts ps := by
  induction ps with
  | nil => rfl
  | cons p ps ih =>
    cases p with
    | sort n => exact congrArg (n :: ·) ih
    | constantDecl compiled c =>
      rw [undeclared, List.filter_cons]
      split <;> exact ih
    | goal label prems conc => exact ih

/-- Only declarations of the unfolded symbol are dropped. -/
theorem mem_declaredSymbols_undeclared {ps : List Premise} {c : Const} (other : c ≠ u.key)
    (h : c ∈ Premise.declaredSymbols ps) : c ∈ Premise.declaredSymbols (u.undeclared ps) := by
  obtain ⟨p, hp, declared⟩ := List.mem_filterMap.mp h
  refine List.mem_filterMap.mpr ⟨p, List.mem_filter.mpr ⟨hp, ?_⟩, declared⟩
  cases p with
  | constantDecl compiled d =>
    cases declared
    cases compiled <;> simp [declares, other]
  | _ => contradiction

theorem declaredSymbols_undeclared_subset (ps : List Premise) :
    Premise.declaredSymbols (u.undeclared ps) ⊆ Premise.declaredSymbols ps :=
  fun _ h => List.filterMap_subset _ (List.filter_subset_self _) h

theorem usedSymbols_undeclared (ps : List Premise) :
    Premise.usedSymbolsList (u.undeclared ps) = Premise.usedSymbolsList ps := by
  induction ps with
  | nil => rfl
  | cons p ps ih =>
    rw [undeclared, List.filter_cons]
    split
    · exact congrArg (p.usedSymbols ++ ·) ih
    · rename_i dropped
      cases p with
      | constantDecl compiled c => exact ih
      | _ => simp [declares] at dropped

theorem holdAll_undeclared {D : Domain} {M : Structure D} {ps : List Premise} :
    Premise.HoldAll (u.undeclared ps) M ↔ Premise.HoldAll ps M := by
  simp only [Premise.holdAll_iff, undeclared, List.mem_filter]
  refine ⟨fun h p hp => ?_, fun h p hp => h p hp.1⟩
  cases p with
  | sort n | constantDecl compiled c => trivial
  | goal label prems conc => exact h _ ⟨hp, rfl⟩

mutual
theorem premise_symbols : ∀ (p : Premise) (lams : List Lambda),
    UnfoldedSymbols u.key p.usedSymbols lams (u.premise p lams).1.usedSymbols (u.premise p lams).2
  | .sort _, _ | .constantDecl _ _, _ => ⟨fun _ => .inl, List.Subset.refl _⟩
  | .goal _ prems conc, lams => by
    have result := (premises_symbols prems lams).append (u.conclusion_symbols conc (u.premises prems lams).2)
    rw [← u.usedSymbols_undeclared (u.premises prems lams).1] at result
    exact result
theorem premises_symbols : ∀ (ps : List Premise) (lams : List Lambda),
    UnfoldedSymbols u.key (Premise.usedSymbolsList ps) lams (Premise.usedSymbolsList (u.premises ps lams).1)
      (u.premises ps lams).2
  | [], _ => ⟨fun _ => .inl, List.Subset.refl _⟩
  | p :: ps, lams => (premise_symbols p lams).append (premises_symbols ps _)
end

end Unfolding

/-- The definitions that are unfolded are well-sorted and true. -/
def TrueDefinitions {D : Domain} (M : Structure D) (key : Const) (rdefs : List LabeledFormula) : Prop :=
  ∀ d ∈ rdefs, ∀ lam, matchFromDefn d = some (key, lam) → d.conc.WellSorted ∧ d.conc.Holds M

/-- The lambdas are those of some definitions. -/
def LambdasOf (key : Const) (rdefs : List LabeledFormula) (lams : List Lambda) : Prop :=
  ∀ lam ∈ lams, ∃ d ∈ rdefs, matchFromDefn d = some (key, lam)

theorem TrueDefinitions.unfolds {D : Domain} {M : Structure D} {key : Const} {rdefs : List LabeledFormula}
    {lams : List Lambda} (h : TrueDefinitions M key rdefs) (matched : LambdasOf key rdefs lams) :
    ∀ lam ∈ lams, lam.Unfolds M key := by
  intro lam hl
  obtain ⟨d, hd, same⟩ := matched lam hl
  obtain ⟨sorted, holds⟩ := h d hd lam same
  exact unfolds_of_matchFromDefn same sorted holds

theorem TrueDefinitions.of_reinterprets {D D' : Domain} {M : Structure D} {M' : Structure D'} {key : Const}
    {rdefs : List LabeledFormula} {names : List String} {cs : List Const} (h : TrueDefinitions M key rdefs)
    (untouched : ∀ d ∈ rdefs, d.conc.Untouched names cs) (r : Reinterprets names cs M M') :
    TrueDefinitions M' key rdefs := by
  intro d hd lam same
  obtain ⟨sorted, holds⟩ := h d hd lam same
  refine ⟨sorted, ?_⟩
  obtain ⟨e, ts, conc, -⟩ := matchFromDefn_eq same
  have clear := untouched d hd
  rw [conc] at holds clear ⊢
  exact Expr.valid_of_reinterprets r clear holds

theorem Expr.symbols_dropForAlls (e : Expr) : e.dropForAlls.symbols = e.symbols := by
  induction e with
  | forAll vs a ih => exact ih
  | _ => rfl

/-- The symbol of a definition is one of those it is about. -/
theorem Conclusion.Untouched.key {d : LabeledFormula} {key : Const} {lam : Lambda} {names : List String}
    {cs : List Const} (h : d.conc.Untouched names cs) (same : matchFromDefn d = some (key, lam)) : key ∉ cs := by
  obtain ⟨e, ts, conc, sides, -⟩ := matchFromDefn_eq same
  rw [conc] at h
  have mem : key ∈ e.symbols := by
    rw [← e.symbols_dropForAlls]
    rcases sides with sides | sides <;> rw [sides] <;> exact List.mem_cons_self
  exact (h.symbols key mem).1

theorem Reinterprets.mono {D D' : Domain} {M : Structure D} {M' : Structure D'} {names : List String}
    {cs cs' : List Const} (h : Reinterprets names cs M M') (sub : cs ⊆ cs') : Reinterprets names cs' M M' :=
  ⟨h.carriers, fun c undeclared => h.symbols c fun mem => undeclared (sub mem)⟩

/-- A premise keeps its truth. -/
structure PremiseUnfolded {D : Domain} (M : Structure D) (p p' : Premise) : Prop where
  sorted : p'.WellSorted
  holds : p'.Holds M ↔ p.Holds M

structure PremisesUnfolded {D : Domain} (M : Structure D) (ps ps' : List Premise) : Prop where
  sorted : Premise.AllWellSorted ps'
  holds : Premise.HoldAll ps' M ↔ Premise.HoldAll ps M

namespace Unfolding

variable (u : Unfolding) {rdefs : List LabeledFormula} {d₀ : LabeledFormula} {lam₀ : Lambda}

theorem allWellSorted_undeclared {ps : List Premise} (h : Premise.AllWellSorted ps) :
    Premise.AllWellSorted (u.undeclared ps) := by
  rw [Premise.allWellSorted_iff] at h ⊢
  exact fun p hp => h p (List.mem_of_mem_filter hp)

theorem allClear_undeclared {defns : List (List LabeledFormula)} {ps : List Premise} (h : Premise.AllClear defns ps) :
    Premise.AllClear defns (u.undeclared ps) := by
  rw [Premise.allClear_iff] at h ⊢
  exact fun p hp => h p (List.mem_of_mem_filter hp)

/-- The truth of a goal inside, from what happens to its premises and its conclusion in every structure. -/
theorem goal_holds {D : Domain} {M : Structure D} {label : Option String} {prems prems' : List Premise}
    {conc conc' : Conclusion} (sorts : Premise.declaredSorts prems' = Premise.declaredSorts prems)
    (symbols : Premise.declaredSymbols prems' = Premise.declaredSymbols prems)
    (clear : u.key ∈ Premise.usedSymbolsList prems ++ conc.symbols → u.key ∉ Premise.declaredSymbols prems)
    (inner : ∀ {D' : Domain} (M' : Structure D'),
      Reinterprets (Premise.declaredSorts prems) (Premise.declaredSymbols prems) M M' →
      (Premise.HoldAll prems' M' ↔ Premise.HoldAll prems M') ∧ (conc'.Holds M' ↔ conc.Holds M')) :
    (Premise.goal label (u.undeclared prems') conc').Holds M ↔ (Premise.goal label prems conc).Holds M := by
  have sorts := (u.declaredSorts_undeclared prems').trans sorts
  have sub : Premise.declaredSymbols (u.undeclared prems') ⊆ Premise.declaredSymbols prems :=
    symbols ▸ u.declaredSymbols_undeclared_subset prems'
  constructor
  · intro holds D' M' r all
    -- the symbol is one of those declared only where nothing uses it, and then its meaning can be kept
    have keep : ∀ c ∈ Premise.declaredSymbols prems, c ∈ Premise.usedSymbolsList prems ++ conc.symbols →
        c ∈ Premise.declaredSymbols (u.undeclared prems') := by
      intro c declared used
      refine u.mem_declaredSymbols_undeclared (fun same => ?_) (symbols ▸ declared)
      subst same
      exact clear used declared
    obtain ⟨N', r', agree⟩ := Premise.exists_agree r _ (fun c _ => rfl) keep
    rw [List.forall_mem_append] at agree
    obtain ⟨premises, conclusion⟩ := inner N' (r'.mono sub)
    have all' := Premise.holdAll_of_same prems agree.1 all
    have result := holds N' (sorts.symm ▸ r') (u.holdAll_undeclared.mpr (premises.mpr all'))
    exact (Conclusion.holds_congr conc agree.2).mpr (conclusion.mp result)
  · intro holds D' M' r all
    rw [sorts] at r
    obtain ⟨premises, conclusion⟩ := inner M' (r.mono sub)
    exact conclusion.mpr (holds M' (r.mono sub) (premises.mp (u.holdAll_undeclared.mp all)))

section

variable (mem₀ : d₀ ∈ rdefs) (match₀ : matchFromDefn d₀ = some (u.key, lam₀))
include mem₀ match₀

mutual
theorem premise_spec : ∀ (p : Premise) {D : Domain} {M : Structure D} {lams : List Lambda},
    LambdasOf u.key rdefs lams → p.WellSorted → p.LeavesAlone u.key rdefs →
    (u.key ∈ p.usedSymbols → TrueDefinitions M u.key rdefs) → PremiseUnfolded M p (u.premise p lams).1
  | .sort _, _, _, _, _, _, _, _ | .constantDecl _ _, _, _, _, _, _, _, _ => ⟨trivial, .rfl⟩
  | .goal label prems conc, D, M, lams, matched, sorted, alone, true' => by
    have rest := (u.premises_symbols prems lams).rest
    have inner : ∀ {D' : Domain} (M' : Structure D'),
        (u.key ∈ Premise.usedSymbolsList prems ++ conc.symbols → TrueDefinitions M' u.key rdefs) →
        PremisesUnfolded M' prems (u.premises prems lams).1 ∧
          (u.conclusion conc (u.premises prems lams).2).1.WellSorted ∧
          ((u.conclusion conc (u.premises prems lams).2).1.Holds M' ↔ conc.Holds M') := by
      intro D' M' true''
      have premises := premises_spec prems matched sorted.1 alone.2 fun mem => true'' (List.mem_append_left _ mem)
      have unfolds := fun mem => (true'' (List.mem_append_right _ mem)).unfolds fun lam hl => matched lam (rest hl)
      exact ⟨premises, u.conclusion_spec sorted.2 unfolds⟩
    obtain ⟨premises, conclusion, -⟩ := inner M true'
    refine ⟨⟨u.allWellSorted_undeclared premises.sorted, conclusion⟩, ?_⟩
    obtain ⟨sorts, symbols⟩ := u.premises_declare prems lams
    refine u.goal_holds sorts symbols (fun used declared => ?_) fun M' r => ?_
    · exact (alone.1 used d₀ mem₀).key match₀ declared
    · obtain ⟨premises, -, conclusion⟩ := inner M' fun used => (true' used).of_reinterprets (alone.1 used) r
      exact ⟨premises.holds, conclusion⟩
theorem premises_spec : ∀ (ps : List Premise) {D : Domain} {M : Structure D} {lams : List Lambda},
    LambdasOf u.key rdefs lams → Premise.AllWellSorted ps → Premise.AllLeaveAlone u.key rdefs ps →
    (u.key ∈ Premise.usedSymbolsList ps → TrueDefinitions M u.key rdefs) →
    PremisesUnfolded M ps (u.premises ps lams).1
  | [], _, _, _, _, _, _, _ => ⟨trivial, .rfl⟩
  | p :: ps, _, _, lams, matched, sorted, alone, true' => by
    have head := premise_spec p matched sorted.1 alone.1 fun mem => true' (List.mem_append_left _ mem)
    have later : LambdasOf u.key rdefs (u.premise p lams).2 := fun lam hl =>
      matched lam ((u.premise_symbols p lams).rest hl)
    have rest := premises_spec ps later sorted.2 alone.2 fun mem => true' (List.mem_append_right _ mem)
    exact ⟨⟨head.sorted, rest.sorted⟩, and_congr head.holds rest.holds⟩
end

end

end Unfolding

theorem matchFromDefns_spec {rdefs : List LabeledFormula} {key : Const} {lams : List Lambda}
    (h : matchFromDefns rdefs = some (key, lams)) :
    LambdasOf key rdefs lams ∧ ∃ d ∈ rdefs, ∃ lam, matchFromDefn d = some (key, lam) := by
  simp only [matchFromDefns] at h
  split at h
  · rename_i f lam rest matched
    split at h
    · rename_i same
      cases h
      have all := mem_of_mapM matched
      rw [List.forall_mem_cons] at all
      obtain ⟨⟨d, hd, first⟩, all⟩ := all
      refine ⟨?_, d, hd, lam, first⟩
      rw [LambdasOf, List.forall_mem_cons, List.forall_mem_map]
      refine ⟨⟨d, hd, first⟩, fun m hm => ?_⟩
      obtain ⟨d', hd', found⟩ := all m hm
      have symbol : m.1 = key := of_decide_eq_true (List.all_eq_true.mp same m hm)
      exact ⟨d', hd', symbol ▸ found⟩
    · contradiction
  · contradiction

theorem Conclusion.Untouched.mono {conc : Conclusion} {names : List String} {cs cs' : List Const} (sub : cs' ⊆ cs)
    (h : conc.Untouched names cs) : conc.Untouched names cs' := by
  cases conc with
  | formula e => exact ⟨h.vars, fun c hc => ⟨fun mem => (h.symbols c hc).1 (sub mem), (h.symbols c hc).2⟩, h.descriptionFree⟩
  | definition d | definitionSchema d => trivial

/-- Fewer declarations and fewer occurrences are clear as well. -/
theorem ScopeClear.mono {names : List String} {cs cs' : List Const} (sub : cs' ⊆ cs)
    {defns : List (List LabeledFormula)} {used used' : List Const} (fewer : used' ⊆ used)
    (h : ScopeClear names cs defns used) : ScopeClear names cs' defns used' := by
  induction defns generalizing used used' with
  | nil => trivial
  | cons rdefs rest ih =>
    simp only [ScopeClear] at h ⊢
    cases hm : matchFromDefns rdefs with
    | none =>
      rw [hm] at h
      exact ih fewer h
    | some m =>
      rw [hm] at h
      refine ⟨fun mem d hd => (h.1 (fewer mem) d hd).mono sub, ih ?_ h.2⟩
      by_cases mem : m.1 ∈ used'
      · rw [if_pos mem, if_pos (fewer mem)]
        exact List.append_subset.mpr ⟨List.Subset.trans fewer (List.subset_append_left _ _), List.subset_append_right _ _⟩
      · rw [if_neg mem]
        split
        · exact List.Subset.trans fewer (List.subset_append_left _ _)
        · exact fewer

namespace Unfolding

variable (u : Unfolding) {rdefs : List LabeledFormula} {rest : List (List LabeledFormula)} {group : List Lambda}
  (same : matchFromDefns rdefs = some (u.key, group))
include same

mutual
/-- What is left to be unfolded after a group is clear as well. -/
theorem premise_clear : ∀ (p : Premise) {lams : List Lambda}, lams ⊆ group → p.Clear (rdefs :: rest) →
    p.LeavesAlone u.key rdefs ∧ (u.premise p lams).1.Clear rest
  | .sort _, _, _, _ | .constantDecl _ _, _, _, _ => ⟨trivial, trivial⟩
  | .goal label prems conc, lams, sub, clear => by
    have symbols := (u.premises_symbols prems lams).append (u.conclusion_symbols conc (u.premises prems lams).2)
    obtain ⟨alone, later⟩ := premises_clear prems sub clear.2
    obtain ⟨sorts, declared⟩ := u.premises_declare prems lams
    obtain ⟨here, scope⟩ := clear
    simp only [ScopeClear, same] at here
    refine ⟨⟨here.1, alone⟩, ?_, ?_⟩
    · rw [← undeclared, u.declaredSorts_undeclared, sorts]
      refine here.2.mono (declared ▸ u.declaredSymbols_undeclared_subset _) fun c hc => ?_
      rw [u.usedSymbols_undeclared] at hc
      rcases symbols.symbols c hc with old | ⟨mem, lam, hl, hc⟩
      · split
        · exact List.mem_append_left _ old
        · exact old
      · rw [if_pos mem]
        exact List.mem_append_right _ (List.mem_flatMap.mpr ⟨lam, sub hl, hc⟩)
    · exact u.allClear_undeclared later
theorem premises_clear : ∀ (ps : List Premise) {lams : List Lambda}, lams ⊆ group →
    Premise.AllClear (rdefs :: rest) ps →
    Premise.AllLeaveAlone u.key rdefs ps ∧ Premise.AllClear rest (u.premises ps lams).1
  | [], _, _, _ => ⟨trivial, trivial⟩
  | p :: ps, lams, sub, clear => by
    have head := premise_clear p sub clear.1
    have tail := premises_clear ps (List.Subset.trans (u.premise_symbols p lams).rest sub) clear.2
    exact ⟨⟨head.1, tail.1⟩, head.2, tail.2⟩
end

end Unfolding

mutual
/-- A group that is left out changes nothing. -/
theorem Premise.clear_of_none {rdefs : List LabeledFormula} {rest : List (List LabeledFormula)}
    (same : matchFromDefns rdefs = none) : ∀ p : Premise, p.Clear (rdefs :: rest) → p.Clear rest
  | .sort _, _ | .constantDecl _ _, _ => trivial
  | .goal _ prems _, clear => by
    obtain ⟨here, scope⟩ := clear
    simp only [ScopeClear, same] at here
    exact ⟨here, allClear_of_none same prems scope⟩
theorem Premise.allClear_of_none {rdefs : List LabeledFormula} {rest : List (List LabeledFormula)}
    (same : matchFromDefns rdefs = none) : ∀ ps : List Premise, AllClear (rdefs :: rest) ps → AllClear rest ps
  | [], _ => trivial
  | p :: ps, clear => ⟨clear_of_none same p clear.1, allClear_of_none same ps clear.2⟩
end

namespace LabeledFormula

/-- Truth of a goal in a structure that interprets what the goal itself declares. -/
def TrueIn {D : Domain} (g : LabeledFormula) (M : Structure D) : Prop := Premise.HoldAll g.prems M → g.conc.Holds M

/-- The formulas of the goal are well-sorted, and no description occurs. -/
def WellSorted (g : LabeledFormula) : Prop := Premise.AllWellSorted g.prems ∧ g.conc.WellSorted

end LabeledFormula

/-- One group of definitions that are true in the structure keeps the truth of a goal. -/
theorem Unfolding.goal_spec (u : Unfolding) {D : Domain} {M : Structure D} {rdefs : List LabeledFormula}
    {rest : List (List LabeledFormula)} {lams : List Lambda} (same : matchFromDefns rdefs = some (u.key, lams))
    (true' : TrueDefinitions M u.key rdefs) {g : LabeledFormula} (sorted : g.WellSorted)
    (clear : Premise.AllClear (rdefs :: rest) g.prems) :
    (u.goal g lams).WellSorted ∧ Premise.AllClear rest (u.goal g lams).prems ∧
      ((u.goal g lams).TrueIn M ↔ g.TrueIn M) := by
  obtain ⟨matched, d, hd, lam, found⟩ := matchFromDefns_spec same
  obtain ⟨alone, later⟩ := u.premises_clear same g.prems (List.Subset.refl _) clear
  have premises := u.premises_spec hd found g.prems matched sorted.1 alone fun _ => true'
  have left : LambdasOf u.key rdefs (u.premises g.prems lams).2 := fun lam hl =>
    matched lam ((u.premises_symbols g.prems lams).rest hl)
  obtain ⟨conclusion, holds⟩ := u.conclusion_spec sorted.2 fun _ => true'.unfolds left
  refine ⟨⟨u.allWellSorted_undeclared premises.sorted, conclusion⟩, u.allClear_undeclared later, ?_⟩
  exact imp_congr (u.holdAll_undeclared.trans premises.holds) holds

/-- Unfolding keeps the truth of a goal in every structure in which the definitions are true, where no premise that
declares the symbol or something in its definition uses the symbol. -/
theorem unfoldGoal_trueIn_iff (visit : Expr → List String → List String) (g : LabeledFormula)
    (defns : List (List LabeledFormula)) (sorted : g.WellSorted) (clear : Premise.AllClear defns g.prems)
    (sortedDefns : ∀ rdefs ∈ defns, ∀ d ∈ rdefs, d.conc.WellSorted) {D : Domain} (M : Structure D)
    (holds : ∀ rdefs ∈ defns, ∀ d ∈ rdefs, d.conc.Holds M) : (unfoldGoal visit g defns).TrueIn M ↔ g.TrueIn M := by
  induction defns generalizing g with
  | nil => exact .rfl
  | cons rdefs rest ih =>
    rw [List.forall_mem_cons] at sortedDefns holds
    rw [unfoldGoal, List.foldl_cons, ← unfoldGoal]
    cases same : matchFromDefns rdefs with
    | none => exact ih g sorted (Premise.allClear_of_none same g.prems clear) sortedDefns.2 holds.2
    | some m =>
      obtain ⟨key, lams⟩ := m
      have true' : TrueDefinitions M key rdefs := fun d hd _ _ => ⟨sortedDefns.1 d hd, holds.1 d hd⟩
      obtain ⟨sorted', clear', truth⟩ :=
        Unfolding.goal_spec ⟨key, fun e => visit e (unfoldRhsNames lams)⟩ same true' sorted clear
      exact (ih _ sorted' clear' sortedDefns.2 holds.2).trans truth

def elementConst (n : String) : Const := ⟨n, .first (.uninterpreted "t")⟩

def elementFunction : Const := ⟨"f", .function [.uninterpreted "t"] (.uninterpreted "t")⟩

/-- The function is always c. -/
def constantFunction : LabeledFormula :=
  let x : Variable := ⟨"X", .uninterpreted "t"⟩
  ⟨none, [], .formula (.forAll [x] (.eq (.apply elementFunction [.var x]) (.const (elementConst "c"))))⟩

/-- A goal that is refuted by a premise: f(d) = d, where some constant is declared. -/
def refutedGoal (declared : String) : LabeledFormula :=
  ⟨none, [.goal none [.constantDecl true (elementConst declared)]
    (.formula (.eq (.apply elementFunction [.const (elementConst "d")]) (.const (elementConst "d"))))], .formula .fls⟩

theorem refutedGoal_wellSorted (declared : String) : (refutedGoal declared).WellSorted :=
  ⟨⟨⟨⟨trivial, trivial⟩, rfl, .uninterpreted "t", ⟨_, rfl, rfl, trivial⟩, rfl⟩, trivial⟩, rfl, trivial⟩

theorem constantFunction_wellSorted : constantFunction.conc.WellSorted :=
  ⟨rfl, rfl, .uninterpreted "t", ⟨_, rfl, rfl, trivial⟩, rfl⟩

theorem constantFunction_holds : constantFunction.conc.Holds Structure.empty := by
  intro env
  refine (Expr.holds_forAll _ env _ _).mpr fun env' _ => (Expr.holds_eq _ env' _ _).mpr ?_
  rw [Expr.eval, Expr.eval, Structure.value_eq _ rfl, Structure.value_eq _ rfl]
  rfl

theorem unfoldGoal_trueIn_iff_plainPremise :
    (unfoldGoal (fun _ names => names) (refutedGoal "e") [[constantFunction]]).TrueIn Structure.empty ↔
      (refutedGoal "e").TrueIn Structure.empty := by
  refine unfoldGoal_trueIn_iff _ _ _ (refutedGoal_wellSorted "e") ?_ ?_ _ ?_
  · refine ⟨⟨⟨fun _ d hd => ?_, trivial⟩, trivial, trivial⟩, trivial⟩
    obtain rfl := List.mem_singleton.mp hd
    refine ⟨fun v _ => ?_, fun c hc => ?_, rfl⟩
    · exact fun n hn => absurd hn List.not_mem_nil
    · have known : c = elementFunction ∨ c = elementConst "c" := by
        simpa [constantFunction, Expr.symbols, symbolsList] using hc
      refine ⟨?_, fun s _ n hn => absurd hn List.not_mem_nil⟩
      rcases known with rfl | rfl <;> decide
  · simpa using constantFunction_wellSorted
  · simpa using constantFunction_holds

/-- A premise declares a constant of its own with the name that the definition uses. Unfolding puts the other one in its
place, and a false goal becomes true. -/
theorem declared_captured : ¬ ∀ (visit : Expr → List String → List String) (g : LabeledFormula)
    (defns : List (List LabeledFormula)), g.WellSorted → (∀ rdefs ∈ defns, (matchFromDefns rdefs).isSome = true ∧
      ∀ d ∈ rdefs, d.conc.WellSorted) → ∀ (D : Domain) (M : Structure D),
      (∀ rdefs ∈ defns, ∀ d ∈ rdefs, d.conc.Holds M) → ((unfoldGoal visit g defns).TrueIn M ↔ g.TrueIn M) := by
  intro claim
  have keeps := claim (fun _ names => names) (refutedGoal "c") [[constantFunction]] (refutedGoal_wellSorted "c")
    (by simpa using ⟨rfl, constantFunction_wellSorted⟩) Domain.two Structure.empty (by simpa using constantFunction_holds)
  have unfolded : unfoldGoal (fun _ names => names) (refutedGoal "c") [[constantFunction]] =
      ⟨none, [.goal none [.constantDecl true (elementConst "c")]
        (.formula (.eq (.const (elementConst "c")) (.const (elementConst "d"))))], .formula .fls⟩ := rfl
  rw [unfolded] at keeps
  have vacuous : Premise.HoldAll [.goal none [.constantDecl true (elementConst "c")]
      (.formula (.eq (.const (elementConst "c")) (.const (elementConst "d"))))] Structure.empty →
      (Conclusion.formula .fls).Holds Structure.empty := by
    intro all
    -- another meaning of the declared constant
    let M' : Structure Domain.two := fun n s _ => .two (decide ((⟨n, s⟩ : Const) = elementConst "c")) s.range
    have r : Reinterprets [] [elementConst "c"] Structure.empty M' := by
      refine ⟨fun _ _ => rfl, fun c undeclared _ args args' _ => ?_⟩
      have other : decide (c = elementConst "c") = false := decide_eq_false fun same =>
        undeclared (same ▸ List.mem_singleton_self _)
      exact heq_of_eq (congrArg (fun b => El.two b c.sort.range) other.symm)
    have equal := (Expr.holds_eq M' (Classical.arbitrary _) _ _).mp (all.1 M' r ⟨trivial, trivial⟩ (Classical.arbitrary _))
    rw [Expr.eval, Expr.eval, Structure.value_eq M' rfl, Structure.value_eq M' rfl] at equal
    exact Bool.noConfusion (eq_of_heq (Sigma.mk.inj equal).2)
  have premise : Premise.HoldAll (refutedGoal "c").prems Structure.empty := by
    refine ⟨fun M' r _ => Expr.valid_of_reinterprets r ⟨fun v hv => ?_, fun c hc => ?_, rfl⟩ fun env => ?_, trivial⟩
    · simp [Expr.allVariables, Expr.allVariablesList] at hv
    · have known : c = elementFunction ∨ c = elementConst "d" := by
        simpa [Expr.symbols, symbolsList] using hc
      refine ⟨?_, fun s _ n hn => absurd hn List.not_mem_nil⟩
      rcases known with rfl | rfl <;> decide
    · refine (Expr.holds_eq _ env _ _).mpr ?_
      rw [Expr.eval, Expr.eval, Structure.value_eq _ rfl, Structure.value_eq _ rfl]
      rfl
  exact Expr.not_holds_fls Structure.empty (Classical.arbitrary _) (keeps.mp vacuous premise (Classical.arbitrary _))

end Goivy
