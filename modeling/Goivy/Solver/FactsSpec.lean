import Goivy.Solver.Ambiguity

/-! The facts that are read out of a model characterize it exactly where they name the values that they print. -/
namespace Goivy.Solver

variable {voc : Vocabulary} {quote : String → String} {fresh : Nat → String} {sig : Sig} {cl : Clauses} {c₀ : Const} {z : Bool}

section Isomorphisms

variable {D D' : Domain} {M : Structure D} {N : Structure D'} {cs : List Const}

/-- Every argument list is the image of one. -/
theorem Isomorphism.exists_args (iso : Isomorphism voc cs M N) {dom : List FSort} (sorts : ∀ s ∈ dom, voc.Sorts s) {ys : List (Val D')}
    (fits : ys.map Sigma.fst = dom) : ∃ xs : List (Val D), xs.map Sigma.fst = dom ∧ xs.map (mapVal iso.map) = ys := by
  subst fits
  induction ys with
  | nil => exact ⟨[], rfl, rfl⟩
  | cons y ys ih =>
    rw [List.map_cons, List.forall_mem_cons] at sorts
    obtain ⟨xs, fits, values⟩ := ih sorts.2
    obtain ⟨s, y⟩ := y
    obtain ⟨x, rfl⟩ := (iso.bijective s sorts.1).2 y
    exact ⟨⟨s, x⟩ :: xs, by rw [List.map_cons, fits, List.map_cons], by rw [List.map_cons, values]; rfl⟩

end Isomorphisms

namespace Ambiguous

variable (a : Ambiguous voc quote) (labelling : Labelling voc quote fresh sig cl) (several : 1 ≤ elements c₀.sort.range)

include labelling

/-- An isomorphism keeps the elements of the ambiguous sort. -/
theorem keeps (iso : Isomorphism voc cl.symbols (a.model fresh) (a.counter fresh z c₀)) {val : Val finite} (sort : val.1 = a.sort) :
    idx (mapVal iso.map val) = idx val := by
  obtain ⟨s, x⟩ := val
  obtain rfl : s = a.sort := sort
  have sorts := a.sorts
  have notUninterpreted := a.notUninterpreted
  generalize a.sort = s at x sorts notUninterpreted
  cases s with
  | boolean => exact congrArg (code .boolean) (iso.boolean x)
  | uninterpreted n => exact absurd rfl (notUninterpreted n)
  | enumerated n ext =>
    have of : (a.read fresh sig z).Of voc quote (a.model fresh) := of_model a labelling
    obtain ⟨e, he, value⟩ := of.standard.onto n ext sorts x
    have place : idx ((a.model fresh).value (enumConst n ext e) []) = ext.idxOf e :=
      labelling.idx_enumConst (fun _ _ _ _ _ _ => rfl) sorts he
    rw [← value, ← iso.constructors n ext sorts e he, a.counter_enumConst labelling sorts he, place]
  | _ => exact sorts.elim

include several

theorem no_isomorphism (hc : c₀ ∈ cl.symbols) (plain : Plain sig c₀) (has : voc.Has c₀) (printed : a.sort ∈ printedSorts z c₀)
    (iso : Isomorphism voc cl.symbols (a.model fresh) (a.counter fresh z c₀)) : False := by
  have model : ∀ xs : List (Val finite), xs.map Sigma.fst = c₀.sort.domain → idx ((a.model fresh).value c₀ xs) = a.usual c₀.sort.range :=
    fun xs fits => a.model_symbol labelling hc plain fits
  have counter : ∀ xs : List (Val finite), xs.map Sigma.fst = c₀.sort.domain →
      idx ((a.counter fresh z c₀).value c₀ xs) = a.results z c₀ c₀ (xs.map idx) :=
    fun xs fits => a.counter_symbol labelling several hc plain fits
  have fits : ∀ k : FSort → Nat, (c₀.sort.domain.map fun s => (⟨s, elementAt s (k s)⟩ : Val finite)).map Sigma.fst = c₀.sort.domain :=
    fun k => by rw [List.map_map]; exact List.map_id _
  have codes : ∀ k : FSort → Nat, (∀ s, k s ≤ elements s) →
      (c₀.sort.domain.map fun s => (⟨s, elementAt s (k s)⟩ : Val finite)).map idx = c₀.sort.domain.map k := by
    intro k le
    rw [List.map_map]
    exact List.map_congr_left fun s _ => code_elementAt (le s)
  by_cases mem : a.sort ∈ c₀.sort.domain
  · -- the symbol has one value in the model, and two in the other structure
    have same : ∀ ys : List (Val finite), ys.map Sigma.fst = c₀.sort.domain → ∀ ys' : List (Val finite), ys'.map Sigma.fst = c₀.sort.domain →
        (a.counter fresh z c₀).value c₀ ys = (a.counter fresh z c₀).value c₀ ys' := by
      intro ys hys ys' hys'
      obtain ⟨xs, hxs, rfl⟩ := iso.exists_args has.domain hys
      obtain ⟨xs', hxs', rfl⟩ := iso.exists_args has.domain hys'
      rw [iso.symbols c₀ hc xs hxs, iso.symbols c₀ hc xs' hxs']
      exact congrArg _ (idx_inj rfl ((model xs hxs).trans (model xs' hxs').symm))
    have good_le : ∀ s, (if s = a.sort then a.other else 0) ≤ elements s := by
      intro s
      split
      · rename_i eq
        exact eq ▸ a.other_le
      · exact Nat.zero_le _
    have values := congrArg idx (same _ (fits a.usual) _ (fits fun s => if s = a.sort then a.other else 0))
    have bad : a.results z c₀ c₀ (c₀.sort.domain.map a.usual) = if a.swapped z c₀ = 0 then 1 else 0 := if_pos ⟨mem, rfl, rfl⟩
    have good : a.results z c₀ c₀ (c₀.sort.domain.map fun s => if s = a.sort then a.other else 0) = a.swapped z c₀ := by
      refine if_neg fun h => ?_
      have here := List.map_inj_left.mp h.2.2 a.sort mem
      rw [if_pos rfl, usual, if_pos rfl] at here
      exact a.ne here
    rw [counter _ (fits _), counter _ (fits _), codes _ a.usual_le, codes _ good_le, bad, good] at values
    split at values
    · rename_i zero
      rw [zero] at values
      exact Nat.one_ne_zero values
    · rename_i nonzero
      exact nonzero values.symm
  · -- the value in the other structure is not that in the model
    obtain ⟨prints, sort⟩ : printsResult z c₀ = true ∧ a.sort = c₀.sort.range := by
      have result := (List.mem_append.mp printed).resolve_left mem
      split at result
      · rename_i prints
        exact ⟨prints, List.mem_singleton.mp result⟩
      · exact absurd result List.not_mem_nil
    have args := fits a.usual
    generalize (c₀.sort.domain.map fun s => (⟨s, elementAt s (a.usual s)⟩ : Val finite)) = xs at args
    have sorts : (xs.map (mapVal iso.map)).map Sigma.fst = c₀.sort.domain := by
      rw [List.map_map]
      exact args
    have values := congrArg idx (iso.symbols c₀ hc xs args)
    rw [counter _ sorts, a.keeps labelling iso sort.symm, model xs args, results, if_neg fun h => mem h.1, swapped,
      if_pos ⟨prints, sort.symm⟩, usual, if_pos sort.symm] at values
    exact a.ne values

end Ambiguous

section Spec

/-- There are labels for the elements that are no names of symbols. -/
theorem exists_labelling (fits : voc.Fits quote sig cl) (quote_inj : quote.Injective) : ∃ fresh, Labelling voc quote fresh sig cl := by
  have infinite : (((cl.symbols.map Const.name ++ ["true", "false"]).toFinset : Set String)ᶜ).Infinite := by
    have : Infinite String := Infinite.of_injective Nat.repr fun _ _ same => Nat.repr_injective same
    exact (Finset.finite_toSet _).infinite_compl
  let fresh := infinite.natEmbedding
  have outside : ∀ k, (fresh k : String) ∉ cl.symbols.map Const.name ++ ["true", "false"] := by
    exact fun k mem => (fresh k).2 (Finset.mem_coe.mpr (List.mem_toFinset.mpr mem))
  refine ⟨fun k => fresh k, fits, quote_inj, fun j k same => fresh.injective (Subtype.ext same), fun k mem => ?_, fun k => ⟨fun word => ?_, fun word => ?_⟩⟩
  · exact outside k (List.mem_append_left _ mem)
  · exact outside k (List.mem_append_right _ (by simp [word]))
  · exact outside k (List.mem_append_right _ (by simp [word]))

/-- Where a printed value is not named, some model is not characterized. -/
theorem exists_model (z : Bool) (fits : voc.Fits quote sig cl) (quote_inj : quote.Injective) (hc : c₀ ∈ cl.symbols)
    (unreadable : ¬ Readable quote z sig c₀) : ∃ (M : Structure finite) (h : HerbrandModel finite),
      h.Of voc quote M ∧ h.sig = sig ∧ h.useZ3Enums = z ∧ ¬ Characterizes voc M h cl := by
  rw [Readable, not_or, not_or, not_forall] at unreadable
  obtain ⟨noConstructor, several, s, unnamed⟩ := unreadable
  rw [not_forall] at unnamed
  obtain ⟨printed, unnamed⟩ := unnamed
  have has := fits.has c₀ hc
  have sorts : voc.Sorts s := by
    rcases List.mem_append.mp printed with arg | result
    · exact has.domain s arg
    · split at result
      · exact List.mem_singleton.mp result ▸ has.range
      · exact absurd result List.not_mem_nil
  have several : 1 ≤ elements c₀.sort.range := by
    have sorts := has.range
    generalize c₀.sort.range = range at several sorts
    cases range with
    | enumerated n ext =>
      have some : 0 < ext.length := List.length_pos_iff.mpr (voc.nonempty _ sorts)
      rw [Single] at several
      rw [elements]
      omega
    | _ => exact Nat.le_refl 1
  obtain ⟨a, rfl⟩ := exists_ambiguous sorts unnamed
  obtain ⟨fresh, labelling⟩ := exists_labelling fits quote_inj
  have of : (a.read fresh sig z).Of voc quote (a.model fresh) := a.of_model labelling
  refine ⟨_, _, of, rfl, rfl, fun characterizes => ?_⟩
  have sat := (of.sat_modelFacts fits.has).mpr (a.describes_counter labelling several fits.has)
  obtain ⟨iso⟩ := characterizes.2 finite _ (Labelling.standard_of_places fun n ext listed e he => a.counter_enumConst labelling listed he) sat
  exact a.no_isomorphism labelling several hc (fun nullary mem => noConstructor ⟨nullary, mem⟩) has printed iso

/-- `Check` returns exactly the assignments that satisfy its literal, each once; and the facts of every model characterize it if and
only if they name the values that they print. -/
theorem modelFacts_spec (z : Bool) (fits : voc.Fits quote sig cl) (quote_inj : quote.Injective) :
    (∀ (D : Domain) (M : Structure D) (h : HerbrandModel D), h.Of voc quote M → ∀ lit : LogicLiteral, (∀ v ∈ lit.vars, voc.Sorts v.sort) →
      (h.check lit).1 = lit.vars ∧ (h.check lit).2.Nodup ∧
        ∀ row, row ∈ (h.check lit).2 ↔ ∃ env : Env D, lit.Holds M env ∧ row = lit.vars.map (h.nameAt env)) ∧
    ((∀ (D : Domain) (M : Structure D) (h : HerbrandModel D), h.Of voc quote M → h.sig = sig → h.useZ3Enums = z → Characterizes voc M h cl) ↔
      ∀ c ∈ cl.symbols, Readable quote z sig c) := by
  refine ⟨fun D M h of lit covered => ⟨check_vars h lit, of.check_rows covered⟩, fun all c hc => ?_, fun readable D M h of hsig hz => ?_⟩
  · by_contra unreadable
    obtain ⟨M, h, of, hsig, hz, fails⟩ := exists_model z fits quote_inj hc unreadable
    exact fails (all finite M h of hsig hz)
  · exact of.characterizes fits hsig (hz ▸ readable)

/-- A relation over a sort and its enumerated color. -/
def paintVocabulary : Vocabulary where
  uninterpreted := ["item"]
  enumerated := [("color", ["red", "green"])]
  nonempty := by decide
  nodup := by decide

def paintSig : Sig := ⟨[], ["red", "green"]⟩

def paintClauses : Clauses :=
  .new [.eq (.apply ⟨"paint", .function [.uninterpreted "item"] (.enumerated "color" ["red", "green"])⟩ [.var ⟨"X", .uninterpreted "item"⟩])
    (.const (enumConst "color" ["red", "green"] "red"))] []

theorem paint_symbols : paintClauses.symbols =
    [⟨"paint", .function [.uninterpreted "item"] (.enumerated "color" ["red", "green"])⟩, enumConst "color" ["red", "green"] "red"] := rfl

theorem paint_fits : paintVocabulary.Fits id paintSig paintClauses := by
  have listed : paintVocabulary.Sorts (.enumerated "color" ["red", "green"]) := List.mem_cons_self
  have item : paintVocabulary.Sorts (.uninterpreted "item") := List.mem_cons_self
  refine ⟨?_, ?_, fun _ _ => List.not_mem_nil, ?_, ?_, fun _ _ _ _ _ => .inl rfl⟩
  · rw [paint_symbols]
    simp only [List.forall_mem_cons, List.not_mem_nil, false_implies, implies_true, and_true]
    exact ⟨⟨by simpa [LSort.domain] using item, listed, by simp⟩, ⟨by simp [LSort.domain, enumConst], listed, by simp [enumConst]⟩⟩
  · rw [paint_symbols]
    simp [LSort.domain, enumConst, paintSig, paintVocabulary]
  · rw [paint_symbols]
    decide
  · intro n ext mem
    obtain ⟨rfl, rfl⟩ := Prod.mk.inj (List.mem_singleton.mp mem)
    decide

theorem modelFacts_spec_paint : ∃ (M : Structure finite) (h : HerbrandModel finite), h.Of paintVocabulary id M ∧
    Characterizes paintVocabulary M h paintClauses := by
  obtain ⟨fresh, labelling⟩ := exists_labelling paint_fits Function.injective_id
  have of : (modelOf paintVocabulary id fresh paintSig true
      (structureOf (meaning paintVocabulary id fresh idx fun _ _ => 0))).Of paintVocabulary id _ :=
    labelling.of_modelOf (fun val sort => idx_inj rfl (labelling.idx_nameOf sort (idx_le val))) fun n ext listed e he =>
      labelling.idx_enumConst (fun _ _ _ _ _ _ => rfl) listed he
  refine ⟨_, _, of, (modelFacts_spec true paint_fits Function.injective_id).2.mpr ?_ finite _ _ of rfl rfl⟩
  rw [paint_symbols]
  simp [Readable, printedSorts, printsResult, Named, LSort.domain, LSort.range, enumConst, paintSig]

def flagClauses : Clauses := .new [.const (boolConst "flag")] []

/-- The facts about a Boolean constant equate it with another one. -/
theorem modelFacts_spec_fails : ¬ ∀ (voc : Vocabulary) (quote : String → String) (sig : Sig) (cl : Clauses), voc.Fits quote sig cl →
    quote.Injective → ∀ (D : Domain) (M : Structure D) (h : HerbrandModel D), h.Of voc quote M → h.sig = sig → Characterizes voc M h cl := by
  intro claim
  let voc : Vocabulary := ⟨[], [], by simp, by simp⟩
  have symbols : flagClauses.symbols = [boolConst "flag"] := rfl
  have fits : voc.Fits id ⟨[], []⟩ flagClauses := by
    refine ⟨?_, ?_, fun _ _ => List.not_mem_nil, ?_, fun _ _ mem => absurd mem List.not_mem_nil, fun _ _ _ _ _ => .inl rfl⟩
    · rw [symbols, List.forall_mem_singleton]
      exact ⟨by simp [boolConst, LSort.domain], trivial, by simp [boolConst]⟩
    · rw [symbols]
      simp [boolConst, voc]
    · rw [symbols]
      decide
  have unreadable : ¬ Readable id true ⟨[], []⟩ (boolConst "flag") := by
    simp [Readable, boolConst, Single, printedSorts, printsResult, Named, LSort.domain, LSort.range]
  obtain ⟨M, h, of, hsig, -, fails⟩ := exists_model true fits Function.injective_id (symbols ▸ List.mem_cons_self) unreadable
  exact fails (claim voc id _ flagClauses fits Function.injective_id finite M h of hsig)

end Spec

end Goivy.Solver
