import Goivy.Solver.Countermodel

/-! Facts with a value that its name does not fix are true in two structures that are not isomorphic. -/
namespace Goivy.Solver

variable {voc : Vocabulary} {quote : String → String} {fresh : Nat → String} {sig : Sig} {cl : Clauses} {c c₀ : Const} {z : Bool}

/-- The name of the element `bad` of a sort does not fix it: it can mean `other` as well. -/
structure Ambiguous (voc : Vocabulary) (quote : String → String) where
  sort : FSort
  bad : Nat
  other : Nat
  sorts : voc.Sorts sort
  notUninterpreted : ∀ n, sort ≠ .uninterpreted n
  bad_le : bad ≤ elements sort
  other_le : other ≤ elements sort
  ne : other ≠ bad
  quoted : ∀ n ext, sort = .enumerated n ext → quote (ext.getD bad "") ≠ ext.getD bad ""

/-- A sort whose values are not named has an ambiguous element. -/
theorem exists_ambiguous {s : FSort} (sorts : voc.Sorts s) (unnamed : ¬ Named quote s) : ∃ a : Ambiguous voc quote, a.sort = s := by
  cases s with
  | boolean => exact ⟨⟨.boolean, 0, 1, trivial, by simp, Nat.zero_le _, Nat.le_refl _, by decide, by simp⟩, rfl⟩
  | uninterpreted n => exact absurd trivial unnamed
  | enumerated n ext =>
    rw [Named, not_or, not_forall] at unnamed
    obtain ⟨several, x, unnamed⟩ := unnamed
    rw [not_forall] at unnamed
    obtain ⟨mem, printed⟩ := unnamed
    have lt := List.idxOf_lt_length_of_mem mem
    have pos : 0 < ext.length := List.length_pos_of_mem mem
    have value : ext.getD (ext.idxOf x) "" = x := by rw [List.getD_eq_getElem _ _ lt, List.getElem_idxOf]
    have bad_le : ext.idxOf x ≤ elements (.enumerated n ext) := by
      rw [elements]
      omega
    have other_le : (if ext.idxOf x = 0 then 1 else 0) ≤ elements (.enumerated n ext) := by
      rw [elements]
      split <;> omega
    refine ⟨⟨.enumerated n ext, ext.idxOf x, if ext.idxOf x = 0 then 1 else 0, sorts, by simp, bad_le, other_le, by split <;> omega, ?_⟩, rfl⟩
    intro n' ext' same
    obtain ⟨-, rfl⟩ := FSort.enumerated.inj same
    rwa [value]
  | _ => exact sorts.elim

namespace Ambiguous

variable (a : Ambiguous voc quote)

/-- The values of all symbols in the model. -/
def usual (s : FSort) : Nat := if s = a.sort then a.bad else 0

theorem usual_le (s : FSort) : a.usual s ≤ elements s := by
  rw [usual]
  split
  · rename_i same
    exact same ▸ a.bad_le
  · exact Nat.zero_le _

/-- What the names of the values mean in the other structure. -/
def swap (val : Val finite) : Nat := if val.1 = a.sort ∧ idx val = a.bad then a.other else idx val

theorem swap_le (val : Val finite) : a.swap val ≤ elements val.1 := by
  rw [swap]
  split
  · rename_i bad
    exact bad.1 ▸ a.other_le
  · exact idx_le val

theorem swap_ne (val : Val finite) (sort : val.1 = a.sort) : a.swap val ≠ a.bad := by
  rw [swap]
  split
  · exact a.ne
  · rename_i good
    exact fun bad => good ⟨sort, bad⟩

theorem swap_keeps {n : String} {ext : List String} {val : Val finite} (sort : val.1 = .enumerated n ext)
    (plain : quote (ext.getD (idx val) "") = ext.getD (idx val) "") : a.swap val = idx val := by
  refine if_neg fun bad => a.quoted n ext (bad.1.symm.trans sort) ?_
  rw [← bad.2]
  exact plain

theorem swap_uninterpreted {n : String} {val : Val finite} (sort : val.1 = .uninterpreted n) : a.swap val = idx val :=
  if_neg fun bad => a.notUninterpreted n (bad.1.symm.trans sort)

/-- The value of a symbol in the other structure: that of the name of its value in the model, where the facts print it. -/
def swapped (z : Bool) (c : Const) : Nat := if printsResult z c ∧ c.sort.range = a.sort then a.other else a.usual c.sort.range

theorem swapped_le (z : Bool) (c : Const) : a.swapped z c ≤ elements c.sort.range := by
  rw [swapped]
  split
  · rename_i printed
    exact printed.2 ▸ a.other_le
  · exact a.usual_le _

/-- Arguments in which the ambiguous element stands. -/
def badArgs (c : Const) : List Nat := c.sort.domain.map a.usual

/-- A value that differs from the usual one, at these arguments of one symbol. -/
def results (z : Bool) (c₀ c : Const) (args : List Nat) : Nat :=
  if a.sort ∈ c₀.sort.domain ∧ c = c₀ ∧ args = a.badArgs c₀ then (if a.swapped z c₀ = 0 then 1 else 0) else a.swapped z c

noncomputable def model (fresh : Nat → String) : Structure finite :=
  structureOf (meaning voc quote fresh idx fun c _ => a.usual c.sort.range)

/-- What Z3 has for the model. -/
noncomputable abbrev read (fresh : Nat → String) (sig : Sig) (z : Bool) : HerbrandModel finite :=
  modelOf voc quote fresh sig z (a.model fresh)

noncomputable def counter (fresh : Nat → String) (z : Bool) (c₀ : Const) : Structure finite :=
  structureOf (meaning voc quote fresh a.swap (a.results z c₀))

section Structures

variable (labelling : Labelling voc quote fresh sig cl) (several : 1 ≤ elements c₀.sort.range)

/-- The symbols that are no constructors. -/
def Plain (sig : Sig) (c : Const) : Prop := c.sort.domain = [] → c.name ∉ sig.constructors

theorem results_le (several : 1 ≤ elements c₀.sort.range) (c : Const) (args : List Nat) : a.results z c₀ c args ≤ elements c.sort.range := by
  rw [results]
  split
  · rename_i here
    rw [here.2.1]
    split
    · exact several
    · exact Nat.zero_le _
  · exact a.swapped_le z c

include labelling

theorem of_model : (a.read fresh sig z).Of voc quote (a.model fresh) := by
  refine labelling.of_modelOf (fun val sort => idx_inj rfl (labelling.idx_nameOf sort (idx_le val))) fun n ext listed e he => ?_
  exact labelling.idx_enumConst (fun _ _ _ _ _ _ => rfl) listed he

theorem counter_enumConst {n : String} {ext : List String} (listed : (n, ext) ∈ voc.enumerated) {e : String} (he : e ∈ ext) :
    idx ((a.counter fresh z c₀).value (enumConst n ext e) []) = ext.idxOf e :=
  labelling.idx_enumConst (fun _ _ _ _ sort plain => a.swap_keeps sort plain) listed he

theorem model_symbol (hc : c ∈ cl.symbols) (plain : Plain sig c) {xs : List (Val finite)} (fits : xs.map Sigma.fst = c.sort.domain) :
    idx ((a.model fresh).value c xs) = a.usual c.sort.range := labelling.idx_symbol hc plain fits (a.usual_le _)

/-- What the names of the values mean in the other structure. -/
theorem idx_denote {val : Val finite} (sort : voc.Sorts val.1) :
    idx ((a.read fresh sig z).denote (a.counter fresh z c₀) val) = a.swap val := by
  rw [HerbrandModel.denote, labelling.constantFromZ3_modelOf]
  exact labelling.idx_nameOf sort (a.swap_le val)

include several

theorem counter_symbol (hc : c ∈ cl.symbols) (plain : Plain sig c) {xs : List (Val finite)} (fits : xs.map Sigma.fst = c.sort.domain) :
    idx ((a.counter fresh z c₀).value c xs) = a.results z c₀ c (xs.map idx) :=
  labelling.idx_symbol hc plain fits (results_le a several c _)

/-- At the meanings of named values a symbol has its usual value in the other structure. -/
theorem counter_named (hc : c ∈ cl.symbols) (plain : Plain sig c) (has : voc.Has c) {xs : List (Val finite)}
    (fits : xs.map Sigma.fst = c.sort.domain) :
    idx ((a.counter fresh z c₀).value c (xs.map ((a.read fresh sig z).denote (a.counter fresh z c₀)))) =
      a.swapped z c := by
  have of : (a.read fresh sig z).Of voc quote (a.model fresh) := of_model a labelling
  have sorts : (xs.map ((a.read fresh sig z).denote (a.counter fresh z c₀))).map Sigma.fst = c.sort.domain := by
    rw [List.map_map, ← fits]
    exact List.map_congr_left fun val _ => of.sort_denote val
  have codes : (xs.map ((a.read fresh sig z).denote (a.counter fresh z c₀))).map idx = xs.map a.swap := by
    rw [List.map_map]
    refine List.map_congr_left fun val hval => idx_denote a labelling (has.domain _ ?_)
    rw [← fits]
    exact List.mem_map_of_mem hval
  rw [a.counter_symbol labelling several hc plain sorts, codes, results, if_neg]
  rintro ⟨mem, rfl, args⟩
  rw [badArgs, ← fits, List.map_map] at args
  rw [← fits] at mem
  obtain ⟨val, hval, sort⟩ := List.mem_map.mp mem
  refine a.swap_ne val sort ((List.map_inj_left.mp args val hval).trans ?_)
  rw [Function.comp_apply, sort]
  exact if_pos rfl

/-- The facts render the values of a symbol. -/
theorem renders_counter (hc : c ∈ cl.symbols) (plain : Plain sig c) (has : voc.Has c) (notRelation : ∀ dom, c.sort ≠ .function dom .boolean)
    {xs : List (Val finite)} (fits : xs.map Sigma.fst = c.sort.domain) :
    (a.read fresh sig z).Renders (a.model fresh) (a.counter fresh z c₀) ((a.model fresh).value c xs)
      ((a.counter fresh z c₀).value c (xs.map ((a.read fresh sig z).denote (a.counter fresh z c₀)))) := by
  have value := a.counter_named (z := z) labelling several hc plain has fits
  have usual := a.model_symbol labelling hc plain fits
  by_cases encoded : ∃ n ext, c.sort.range = .enumerated n ext ∧ z = false
  · obtain ⟨n, ext, enum, rfl⟩ := encoded
    have listed : (n, ext) ∈ voc.enumerated := by
      have sorts := has.range
      rwa [enum] at sorts
    refine (renders_enumerated enum rfl).mpr fun e he same => idx_inj enum ?_
    have unprinted : printsResult false c = false := by
      unfold printsResult
      split
      · rfl
      · simp only [enum]
    have place : idx ((a.model fresh).value (enumConst n ext e) []) = ext.idxOf e :=
      labelling.idx_enumConst (fun _ _ _ _ _ _ => rfl) listed he
    rw [value, a.counter_enumConst labelling listed he, ← place, same, usual, swapped, unprinted]
    rfl
  · have native : ∀ n ext, c.sort.range = .enumerated n ext → z = true := fun n ext enum =>
      Bool.of_not_eq_false fun off => encoded ⟨n, ext, enum, off⟩
    have of : (a.read fresh sig z).Of voc quote (a.model fresh) := of_model a labelling
    have sort : ((a.model fresh).value c xs).1 = c.sort.range := rfl
    refine (renders_other native).mpr (idx_inj (by rw [of.sort_denote]; rfl) ?_)
    rw [value, a.idx_denote labelling has.range, swapped, printsResult_of notRelation native, swap, usual, sort]
    by_cases same : c.sort.range = a.sort
    · have bad : a.usual c.sort.range = a.bad := if_pos same
      rw [if_pos ⟨rfl, same⟩, if_pos ⟨same, bad⟩]
    · rw [if_neg fun h => same h.2, if_neg fun h => same h.1]

/-- The facts are true in the other structure. -/
theorem describes_counter (has : ∀ c ∈ cl.symbols, voc.Has c) :
    (a.read fresh sig z).Describes voc (a.model fresh) cl.symbols (a.counter fresh z c₀) := by
  have of : (a.read fresh sig z).Of voc quote (a.model fresh) := of_model a labelling
  have keeps : ∀ n ∈ voc.uninterpreted, ∀ x : El finite (.uninterpreted n),
      (a.read fresh sig z).denote (a.counter fresh z c₀) ⟨_, x⟩ = ⟨_, x⟩ := by
    intro n listed x
    refine idx_inj (of.sort_denote _) ((a.idx_denote labelling ?_).trans (a.swap_uninterpreted rfl))
    exact listed
  have function : ∀ c ∈ cl.symbols, ∀ dom range, c.sort = .function dom range → Plain sig c := by
    intro c hc dom range sort nullary
    rw [sort] at nullary
    exact absurd (sort.trans (congrArg (LSort.function · range) nullary)) ((has c hc).args range)
  refine ⟨fun n listed y => ⟨y, keeps n listed y⟩, fun n listed x y same => ?_, fun c hc s sort other => ?_,
    fun c hc dom sort xs fits => ?_, fun c hc dom range sort other xs fits => ?_⟩
  · rw [keeps n listed, keeps n listed] at same
    exact eq_of_heq (Sigma.mk.inj same).2
  · exact a.renders_counter labelling several hc (fun _ => other) (has c hc) (by simp [sort]) (by rw [sort]; rfl)
  · have plain := function c hc dom _ sort
    have fits' : xs.map Sigma.fst = c.sort.domain := by rw [sort]; exact fits
    have value := a.counter_named (z := z) labelling several hc plain (has c hc) fits'
    have unprinted : printsResult z c = false := by
      unfold printsResult
      simp only [sort]
    have same : (a.counter fresh z c₀).value c (xs.map ((a.read fresh sig z).denote (a.counter fresh z c₀))) = (a.model fresh).value c xs := by
      refine idx_inj rfl ?_
      rw [value, a.model_symbol labelling hc plain fits', swapped, unprinted]
      rfl
    rw [same]
  · refine a.renders_counter labelling several hc (function c hc dom range sort) (has c hc) ?_ (by rw [sort]; exact fits)
    exact fun dom' relation => other (LSort.function.inj (sort.symm.trans relation)).2

end Structures

end Ambiguous

end Goivy.Solver
