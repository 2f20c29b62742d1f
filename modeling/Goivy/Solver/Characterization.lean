import Goivy.Solver.ModelFacts
import Goivy.Logic.Sorting

/-! When the facts of a model determine it. -/
namespace Goivy.Solver

variable {D D' : Domain} {voc : Vocabulary} {quote : String → String} {M : Structure D} {N : Structure D'} {h : HerbrandModel D}
  {cl : Clauses} {c : Const} {sig : Sig} {s : FSort}

def mapVal (f : (s : FSort) → El D s → El D' s) (val : Val D) : Val D' := ⟨val.1, f val.1 val.2⟩

/-- An isomorphism of structures on some symbols. It keeps the truth values and the values of the enumerations. -/
structure Isomorphism (voc : Vocabulary) (cs : List Const) (M : Structure D) (N : Structure D') where
  map : (s : FSort) → El D s → El D' s
  bijective : ∀ s, voc.Sorts s → (map s).Bijective
  boolean : ∀ b : Bool, map .boolean b = b
  constructors : ∀ n ext, (n, ext) ∈ voc.enumerated → ∀ e ∈ ext,
    N.value (enumConst n ext e) [] = mapVal map (M.value (enumConst n ext e) [])
  symbols : ∀ c ∈ cs, ∀ xs : List (Val D), xs.map Sigma.fst = c.sort.domain →
    N.value c (xs.map (mapVal map)) = mapVal map (M.value c xs)

/-- The facts are true in the model, and every structure in which they are true is isomorphic to it. -/
def Characterizes (voc : Vocabulary) (M : Structure D) (h : HerbrandModel D) (cl : Clauses) : Prop :=
  (h.modelFacts (fun _ => false) cl false).Sat M ∧ ∀ (D' : Domain) (N : Structure D'), voc.Standard N →
    (h.modelFacts (fun _ => false) cl false).Sat N → Nonempty (Isomorphism voc cl.symbols M N)

/-- An enumeration of one value. -/
def Single : FSort → Prop
  | .enumerated _ ext => ext.length = 1
  | _ => False

/-- The printed values of the sort name the same values in every structure: truth values do not, and the values of an enumeration
do so where their names are printed as they are. -/
def Named (quote : String → String) : FSort → Prop
  | .boolean => False
  | .enumerated _ ext => ext.length = 1 ∨ ∀ e ∈ ext, quote e = e
  | _ => True

/-- The values of a symbol are printed: those of a relation are not, and constants are found for those of an encoded enumeration. -/
def printsResult (useZ3Enums : Bool) (c : Const) : Bool :=
  match c.sort with
  | .function _ .boolean => false
  | s =>
    match s.range with
    | .enumerated _ _ => useZ3Enums
    | _ => true

/-- The sorts of the values that are printed for a symbol. -/
def printedSorts (useZ3Enums : Bool) (c : Const) : List FSort :=
  c.sort.domain ++ if printsResult useZ3Enums c then [c.sort.range] else []

/-- The facts about the symbol determine it. -/
def Readable (quote : String → String) (useZ3Enums : Bool) (sig : Sig) (c : Const) : Prop :=
  (c.sort.domain = [] ∧ c.name ∈ sig.constructors) ∨ Single c.sort.range ∨ ∀ s ∈ printedSorts useZ3Enums c, Named quote s

/-- A clause set over a vocabulary. A name is that of one symbol and no word for a truth value, and a name that is not printed as it
is has a printed form that is no name. -/
structure Vocabulary.Fits (voc : Vocabulary) (quote : String → String) (sig : Sig) (cl : Clauses) : Prop where
  has : ∀ c ∈ cl.symbols, voc.Has c
  constructors : ∀ c ∈ cl.symbols, c.sort.domain = [] →
    (c.name ∈ sig.constructors ↔ ∃ n ext, (n, ext) ∈ voc.enumerated ∧ c.name ∈ ext ∧ c.sort = .first (.enumerated n ext))
  uninterpreted : ∀ s, voc.Sorts s → s.name ∉ sig.interp
  words : ∀ c ∈ cl.symbols, c.name ≠ "true" ∧ c.name ≠ "false"
  quotedWords : ∀ n ext, (n, ext) ∈ voc.enumerated → ∀ e ∈ ext, quote e ≠ "true" ∧ quote e ≠ "false"
  quoted : ∀ n ext, (n, ext) ∈ voc.enumerated → ∀ e ∈ ext, quote e = e ∨ quote e ∉ ext ∧ quote e ∉ cl.symbols.map Const.name

theorem printsResult_of {useZ3Enums : Bool} (plain : ∀ dom, c.sort ≠ .function dom .boolean)
    (native : ∀ n ext, c.sort.range = .enumerated n ext → useZ3Enums = true) : printsResult useZ3Enums c = true := by
  unfold printsResult
  split
  · rename_i dom sort
    exact absurd sort (plain dom)
  · split
    · rename_i n ext enum
      exact native n ext enum
    · rfl

section Sound

/-- What the elements of a sort are mapped to. -/
def Corresponds (h : HerbrandModel D) (M : Structure D) (N : Structure D') : (s : FSort) → (El D s → El D' s) → Prop
  | .boolean, f => ∀ b : Bool, f b = b
  | .enumerated n ext, f => ∀ e ∈ ext, ∀ x, M.value (enumConst n ext e) [] = ⟨_, x⟩ → N.value (enumConst n ext e) [] = ⟨_, f x⟩
  | s, f => ∀ x, h.denote N ⟨s, x⟩ = ⟨s, f x⟩

theorem holds_mapVal {f : (s : FSort) → El D s → El D' s} (boolean : ∀ b : Bool, f .boolean b = b) {val : Val D}
    (sort : val.1 = .boolean) : (mapVal f val).Holds ↔ val.Holds := by
  obtain ⟨s, b⟩ := val
  obtain rfl : s = .boolean := sort
  have same : mapVal f (⟨.boolean, b⟩ : Val D) = ⟨.boolean, b⟩ := congrArg (Sigma.mk FSort.boolean) (boolean b)
  rw [same]
  exact ⟨fun h => congrArg (Sigma.mk FSort.boolean) (eq_of_heq (Sigma.mk.inj h).2 : (b : Bool) = true),
    fun h => congrArg (Sigma.mk FSort.boolean) (eq_of_heq (Sigma.mk.inj h).2 : (b : Bool) = true)⟩

theorem single_eq (standard : voc.Standard N) (sort : voc.Sorts s) (single : Single s) {a b : Val D'} (ha : a.1 = s) (hb : b.1 = s) :
    a = b := by
  cases s with
  | enumerated n ext =>
    obtain ⟨e, rfl⟩ := List.length_eq_one_iff.mp single
    have all : ∀ a : Val D', a.1 = .enumerated n [e] → a = N.value (enumConst n [e] e) [] := by
      rintro ⟨_, y⟩ rfl
      obtain ⟨e', he', same⟩ := standard.onto n [e] sort y
      rw [← same, List.mem_singleton.mp he']
    rw [all a ha, all b hb]
  | _ => exact single.elim

namespace HerbrandModel.Of

variable (of : h.Of voc quote M)

include of

theorem constantFromZ3_eq {x : El D s} (other : s ≠ .boolean) : h.constantFromZ3 s ⟨s, x⟩ = ⟨h.string ⟨s, x⟩, .first s⟩ := by
  have words : h.string ⟨s, x⟩ ≠ "true" ∧ h.string ⟨s, x⟩ ≠ "false" :=
    ⟨fun word => other (congrArg Sigma.fst ((of.true_iff _).mp word)), fun word => other (congrArg Sigma.fst ((of.false_iff _).mp word))⟩
  rw [constantFromZ3, if_neg words.1, if_neg words.2]

/-- The facts are true in the model. -/
theorem describes_self (has : ∀ c ∈ cl.symbols, voc.Has c) : h.Describes voc M cl.symbols M := by
  have denotes : ∀ val : Val D, voc.Sorts val.1 → h.denote M val = val := fun val sort => of.denote_model sort
  have renders : ∀ val : Val D, voc.Sorts val.1 → h.Renders M M val val := by
    intro val sort
    unfold Renders
    split
    · exact fun e _ same => same.symm
    · exact (denotes val sort).symm
  have args : ∀ c ∈ cl.symbols, ∀ xs : List (Val D), xs.map Sigma.fst = c.sort.domain → xs.map (h.denote M) = xs := by
    intro c hc xs fits
    refine (List.map_congr_left fun val hval => denotes val ?_).trans (List.map_id _)
    refine (has c hc).domain _ ?_
    rw [← fits]
    exact List.mem_map_of_mem hval
  refine ⟨fun n hn y => ⟨y, denotes ⟨_, y⟩ hn⟩, fun n hn x y same => ?_, fun c hc s sort _ => renders _ (has c hc).range,
    fun c hc dom sort xs fits => ?_, fun c hc dom range sort _ xs fits => ?_⟩
  · rw [denotes ⟨_, x⟩ hn, denotes ⟨_, y⟩ hn] at same
    exact eq_of_heq (Sigma.mk.inj same).2
  · rw [args c hc xs (by rw [sort]; exact fits)]
  · rw [args c hc xs (by rw [sort]; exact fits)]
    exact renders _ (has c hc).range

theorem exists_map (standard : voc.Standard N) (describes : h.Describes voc M cl.symbols N) (s : FSort) :
    ∃ f : El D s → El D' s, voc.Sorts s → f.Bijective ∧ Corresponds h M N s f := by
  cases s with
  | boolean => exact ⟨id, fun _ => ⟨Function.bijective_id, fun _ => rfl⟩⟩
  | uninterpreted n =>
    have sorted : ∀ x : El D (.uninterpreted n), ∃ y : El D' (.uninterpreted n), h.denote N ⟨_, x⟩ = ⟨_, y⟩ := by
      intro x
      have sort := of.sort_denote (N := N) ⟨_, x⟩
      generalize h.denote N ⟨_, x⟩ = val at sort
      obtain ⟨s, y⟩ := val
      obtain rfl : s = .uninterpreted n := sort
      exact ⟨y, rfl⟩
    choose f hf using sorted
    refine ⟨f, fun listed => ⟨⟨fun x y same => ?_, fun y => ?_⟩, hf⟩⟩
    · refine describes.inj n listed x y ?_
      rw [hf, hf, same]
    · obtain ⟨x, same⟩ := describes.onto n listed y
      exact ⟨x, eq_of_heq (Sigma.mk.inj ((hf x).symm.trans same)).2⟩
  | enumerated n ext =>
    by_cases listed : (n, ext) ∈ voc.enumerated
    · choose e mem value using of.standard.onto n ext listed
      refine ⟨fun x => (N.value (enumConst n ext (e x)) []).2, fun _ => ⟨⟨fun x y same => ?_, fun y => ?_⟩, fun e' he' x same => ?_⟩⟩
      · have names := standard.inj n ext listed _ (mem x) _ (mem y) (Sigma.ext rfl (heq_of_eq same))
        have values := (value x).symm.trans ((congrArg (fun e => M.value (enumConst n ext e) []) names).trans (value y))
        exact eq_of_heq (Sigma.mk.inj values).2
      · obtain ⟨e', he', same⟩ := standard.onto n ext listed y
        obtain ⟨x, hx⟩ : ∃ x : El D (.enumerated n ext), M.value (enumConst n ext e') [] = ⟨_, x⟩ := ⟨_, rfl⟩
        have names := of.standard.inj n ext listed _ (mem x) e' he' ((value x).trans hx.symm)
        have values := (congrArg (fun e => N.value (enumConst n ext e) []) names).trans same
        exact ⟨x, eq_of_heq (Sigma.mk.inj values).2⟩
      · rw [of.standard.inj n ext listed e' he' _ (mem x) (same.trans (value x).symm)]
        rfl
    · exact ⟨fun _ => Classical.arbitrary _, fun sort => absurd sort listed⟩
  | _ => exact ⟨fun _ => Classical.arbitrary _, fun sort => sort.elim⟩

variable {f : (s : FSort) → El D s → El D' s}

/-- A value of an enumeration is that of one of its constants. -/
theorem exists_enumConst {n : String} {ext : List String} (listed : (n, ext) ∈ voc.enumerated) {val : Val D}
    (sort : val.1 = .enumerated n ext) : ∃ e ∈ ext, M.value (enumConst n ext e) [] = val := by
  obtain ⟨s, x⟩ := val
  obtain rfl : s = .enumerated n ext := sort
  exact of.standard.onto n ext listed x

theorem enumerated_value {n : String} {ext : List String} {e : String} (corresponds : Corresponds h M N (.enumerated n ext) (f _))
    (he : e ∈ ext) : N.value (enumConst n ext e) [] = mapVal f (M.value (enumConst n ext e) []) :=
  corresponds e he _ rfl

/-- A named value means the element that it is mapped to. -/
theorem denote_eq (standard : voc.Standard N) {val : Val D} (sort : voc.Sorts val.1) (corresponds : Corresponds h M N val.1 (f val.1))
    (named : Named quote val.1) : h.denote N val = mapVal f val := by
  obtain ⟨s, x⟩ := val
  cases s with
  | boolean => exact named.elim
  | enumerated n ext =>
    rcases named with single | named
    · exact single_eq standard sort (show Single (.enumerated n ext) from single) (of.sort_denote _) rfl
    · obtain ⟨e, he, value⟩ : ∃ e ∈ ext, M.value (enumConst n ext e) [] = ⟨.enumerated n ext, x⟩ := of.exists_enumConst sort rfl
      have printed := of.constructors n ext sort e he
      rw [value, named e he] at printed
      rw [denote, of.constantFromZ3_eq (by simp), printed, ← value]
      exact of.enumerated_value corresponds he
  | _ => exact corresponds x

theorem renders_eq (standard : voc.Standard N) {val : Val D} {val' : Val D'} (renders : h.Renders M N val val') (sort : voc.Sorts val.1)
    (corresponds : Corresponds h M N val.1 (f val.1))
    (named : (∀ n ext, val.1 = .enumerated n ext → h.useZ3Enums = true) → Named quote val.1) : val' = mapVal f val := by
  by_cases encoded : ∃ n ext, val.1 = .enumerated n ext ∧ h.useZ3Enums = false
  · obtain ⟨n, ext, enum, encoded⟩ := encoded
    rw [renders_enumerated enum encoded] at renders
    rw [enum] at sort corresponds
    obtain ⟨e, he, rfl⟩ := of.exists_enumConst sort enum
    rw [renders e he rfl]
    exact of.enumerated_value corresponds he
  · have native : ∀ n ext, val.1 = .enumerated n ext → h.useZ3Enums = true := fun n ext enum =>
      Bool.of_not_eq_false fun off => encoded ⟨n, ext, enum, off⟩
    rw [(renders_other native).mp renders]
    exact of.denote_eq standard sort corresponds (named native)

/-- The facts about a symbol that they determine are those of an isomorphism. -/
theorem symbol_eq (fits : voc.Fits quote sig cl) (standard : voc.Standard N) (describes : h.Describes voc M cl.symbols N)
    (hsig : h.sig = sig) (corresponds : ∀ s, voc.Sorts s → Corresponds h M N s (f s)) (hc : c ∈ cl.symbols)
    (readable : Readable quote h.useZ3Enums sig c) {xs : List (Val D)} (sorts : xs.map Sigma.fst = c.sort.domain) :
    N.value c (xs.map (mapVal f)) = mapVal f (M.value c xs) := by
  have has := fits.has c hc
  by_cases constructor : c.sort.domain = [] ∧ c.name ∈ sig.constructors
  · obtain ⟨n, ext, listed, mem, sort⟩ := (fits.constructors c hc constructor.1).mp constructor.2
    obtain rfl : xs = [] := List.map_eq_nil_iff.mp (sorts.trans constructor.1)
    obtain ⟨name, _⟩ := c
    obtain rfl := sort
    exact of.enumerated_value (corresponds _ listed) mem
  rcases readable.resolve_left constructor with single | named
  · exact single_eq standard has.range single rfl rfl
  have args : xs.map (mapVal f) = xs.map (h.denote N) := by
    refine List.map_congr_left fun val hval => ?_
    have mem : val.1 ∈ c.sort.domain := by
      rw [← sorts]
      exact List.mem_map_of_mem hval
    exact (of.denote_eq standard (has.domain _ mem) (corresponds _ (has.domain _ mem)) (named _ (List.mem_append_left _ mem))).symm
  rw [args]
  have result : (∀ dom, c.sort ≠ .function dom .boolean) → h.Renders M N (M.value c xs) (N.value c (xs.map (h.denote N))) →
      N.value c (xs.map (h.denote N)) = mapVal f (M.value c xs) := fun plain renders =>
    of.renders_eq standard renders has.range (corresponds _ has.range) fun native =>
      named _ (List.mem_append_right _ (by rw [printsResult_of plain native]; exact List.mem_cons_self))
  cases sort : c.sort with
  | first s =>
    rw [sort] at sorts
    obtain rfl : xs = [] := List.map_eq_nil_iff.mp sorts
    have other : c.name ∉ h.sig.constructors := fun mem => constructor ⟨by rw [sort]; rfl, hsig ▸ mem⟩
    exact result (by simp [sort]) (describes.constants c hc s sort other)
  | function dom range =>
    rw [sort] at sorts
    by_cases boolean : range = .boolean
    · subst boolean
      have range : c.sort.range = .boolean := by rw [sort, LSort.range]
      refine Val.eq_of_holds_iff range range ?_
      rw [describes.relations c hc dom sort xs sorts, holds_mapVal (corresponds .boolean trivial) range]
    · exact result (by simp [sort, boolean]) (describes.functions c hc dom range sort boolean xs sorts)

/-- Facts that determine each symbol determine the model. -/
theorem characterizes (fits : voc.Fits quote sig cl) (hsig : h.sig = sig)
    (readable : ∀ c ∈ cl.symbols, Readable quote h.useZ3Enums sig c) : Characterizes voc M h cl := by
  refine ⟨(of.sat_modelFacts fits.has).mpr (of.describes_self fits.has), fun D' N standard sat => ?_⟩
  have describes := (of.sat_modelFacts fits.has).mp sat
  choose f hf using of.exists_map standard describes
  exact ⟨f, fun s sort => (hf s sort).1, (hf .boolean trivial).2,
    fun n ext listed e he => of.enumerated_value (hf (.enumerated n ext) listed).2 he,
    fun c hc xs sorts => of.symbol_eq fits standard describes hsig (fun s sort => (hf s sort).2) hc (readable c hc) sorts⟩

end HerbrandModel.Of

end Sound

end Goivy.Solver
