import Goivy.Solver.Characterization

/-! Models of a vocabulary with few elements, for facts that do not determine their model. -/
namespace Goivy.Solver

section Elements

/-- The number of elements after the first one. -/
def elements : FSort → Nat
  | .enumerated _ ext => ext.length - 1
  | _ => 1

def finite : Domain := ⟨fun s => Fin (elements s + 1), fun _ => ⟨0⟩⟩

def code : (s : FSort) → El finite s → Nat
  | .boolean, b => Bool.toNat b
  | .uninterpreted _, x | .enumerated _ _, x | .range _ _ _, x | .top _, x => Fin.val x

def elementAt : (s : FSort) → Nat → El finite s
  | .boolean, k => decide (k = 1)
  | .uninterpreted _, k | .enumerated _ _, k | .range _ _ _, k | .top _, k => Fin.ofNat _ k

theorem code_le {s : FSort} (x : El finite s) : code s x ≤ elements s := by
  cases s with
  | boolean => exact Bool.toNat_le x
  | _ => exact Nat.le_of_lt_succ (Fin.isLt x)

theorem elementAt_code {s : FSort} (x : El finite s) : elementAt s (code s x) = x := by
  cases s with
  | boolean =>
    cases (x : Bool) <;> rfl
  | _ => exact Fin.ofNat_val_eq_self x

theorem code_elementAt {s : FSort} {k : Nat} (le : k ≤ elements s) : code s (elementAt s k) = k := by
  cases s with
  | boolean =>
    obtain rfl | rfl : k = 0 ∨ k = 1 := Nat.le_one_iff_eq_zero_or_eq_one.mp le
    · rfl
    · rfl
  | _ => exact Nat.mod_eq_of_lt (Nat.lt_succ_of_le le)

def idx (val : Val finite) : Nat := code val.1 val.2

theorem idx_le (val : Val finite) : idx val ≤ elements val.1 := code_le val.2

theorem idx_inj {a b : Val finite} (sort : a.1 = b.1) (same : idx a = idx b) : a = b := by
  obtain ⟨s, x⟩ := a
  obtain ⟨_, y⟩ := b
  obtain rfl := sort
  have same : code s x = code s y := same
  rw [← elementAt_code x, same, elementAt_code]

/-- A structure in which the symbols compute with the numbers of the elements. -/
def structureOf (F : Const → List Nat → Nat) : Structure finite := fun n s args => elementAt s.range (F ⟨n, s⟩ (args.1.map idx))

theorem value_structureOf {F : Const → List Nat → Nat} {c : Const} {xs : List (Val finite)} (fits : xs.map Sigma.fst = c.sort.domain) :
    (structureOf F).value c xs = ⟨c.sort.range, elementAt c.sort.range (F c (xs.map idx))⟩ := Structure.value_eq _ fits

theorem idx_value {F : Const → List Nat → Nat} {c : Const} {xs : List (Val finite)} (fits : xs.map Sigma.fst = c.sort.domain)
    (le : F c (xs.map idx) ≤ elements c.sort.range) : idx ((structureOf F).value c xs) = F c (xs.map idx) := by
  rw [value_structureOf fits, idx, code_elementAt le]

end Elements

section Labels

variable (voc : Vocabulary) (quote : String → String) (fresh : Nat → String)

/-- How a value is printed. -/
def label (val : Val finite) : String :=
  match val.1 with
  | .boolean => if idx val = 1 then "true" else "false"
  | .enumerated n ext => if (n, ext) ∈ voc.enumerated then quote (ext.getD (idx val) "") else fresh (idx val)
  | _ => fresh (idx val)

def nameOf (val : Val finite) : Const := ⟨label voc quote fresh val, .first val.1⟩

/-- The labels of the elements of uninterpreted sorts are new names. -/
structure Labelling (sig : Sig) (cl : Clauses) : Prop where
  fits : voc.Fits quote sig cl
  quote_inj : quote.Injective
  fresh_inj : fresh.Injective
  fresh_names : ∀ k, fresh k ∉ cl.symbols.map Const.name
  fresh_words : ∀ k, fresh k ≠ "true" ∧ fresh k ≠ "false"

open Classical in
/-- What Z3 has for a structure. -/
noncomputable def modelOf (sig : Sig) (useZ3Enums : Bool) (M : Structure finite) : HerbrandModel finite where
  eval e assignment :=
    if agrees : ∃ env : Env finite, ∀ p ∈ assignment, (⟨p.1.sort, env p.1⟩ : Val finite) = p.2 then e.eval M agrees.choose
    else ⟨.boolean, false⟩
  string := label voc quote fresh
  constants n :=
    if n ∈ voc.uninterpreted then some [⟨.uninterpreted n, elementAt _ 0⟩, ⟨.uninterpreted n, elementAt _ 1⟩] else none
  sortMap := voc.uninterpreted.map fun n => (n, .uninterpreted n)
  sig := sig
  useZ3Enums := useZ3Enums

variable {voc quote fresh} {sig : Sig} {cl : Clauses} (labelling : Labelling voc quote fresh sig cl)

/-- The constant of a value of an enumeration. -/
theorem getD_mem {n : String} {ext : List String} (listed : (n, ext) ∈ voc.enumerated) {k : Nat}
    (le : k ≤ elements (.enumerated n ext)) : ext.getD k "" ∈ ext ∧ ext.idxOf (ext.getD k "") = k := by
  have lt : k < ext.length := by
    have pos : 0 < ext.length := List.length_pos_iff.mpr (voc.nonempty _ listed)
    rw [elements] at le
    omega
  rw [List.getD_eq_getElem _ _ lt]
  exact ⟨List.getElem_mem lt, (voc.nodup _ listed).idxOf_getElem k lt⟩

namespace Labelling

include labelling

theorem label_other {val : Val finite} (other : val.1 ≠ .boolean) :
    label voc quote fresh val ≠ "true" ∧ label voc quote fresh val ≠ "false" := by
  obtain ⟨s, x⟩ := val
  cases s with
  | boolean => exact absurd rfl other
  | enumerated n ext =>
    simp only [label]
    split
    · rename_i listed
      exact labelling.fits.quotedWords n ext listed _ (getD_mem listed (idx_le ⟨.enumerated n ext, x⟩)).1
    · exact labelling.fresh_words _
  | _ => exact labelling.fresh_words _

omit labelling in
theorem label_boolean (b : Bool) : label voc quote fresh ⟨.boolean, b⟩ = if b then "true" else "false" := by
  cases b <;> rfl

theorem label_eq_iff (val : Val finite) (b : Bool) :
    label voc quote fresh val = (if b then "true" else "false") ↔ val = ⟨.boolean, b⟩ := by
  constructor
  · intro word
    by_cases boolean : val.1 = .boolean
    · obtain ⟨s, x⟩ := val
      obtain rfl : s = .boolean := boolean
      change Bool at x
      rw [label_boolean] at word
      have same : x = b := by cases x <;> cases b <;> first | rfl | exact absurd word (by decide)
      exact congrArg (Sigma.mk FSort.boolean) same
    · have words := labelling.label_other boolean
      cases b
      · exact absurd word words.2
      · exact absurd word words.1
  · rintro rfl
    exact label_boolean b

theorem label_inj {a b : Val finite} (sort : voc.Sorts a.1) (sorts : a.1 = b.1)
    (same : label voc quote fresh a = label voc quote fresh b) : a = b := by
  refine idx_inj sorts ?_
  obtain ⟨s, x⟩ := a
  obtain ⟨_, y⟩ := b
  obtain rfl : s = _ := sorts
  cases s with
  | boolean =>
    change Bool at x y
    have eq := (labelling.label_eq_iff ⟨.boolean, x⟩ y).mp (same.trans (label_boolean y))
    rw [eq_of_heq (Sigma.mk.inj eq).2]
  | uninterpreted n => exact labelling.fresh_inj same
  | enumerated n ext =>
    have listed : (n, ext) ∈ voc.enumerated := sort
    simp only [label, listed, if_true] at same
    rw [← (getD_mem listed (idx_le ⟨.enumerated n ext, x⟩)).2, labelling.quote_inj same, (getD_mem listed (idx_le ⟨.enumerated n ext, y⟩)).2]
  | _ => exact sort.elim

theorem constantFromZ3_modelOf {z : Bool} {M : Structure finite} (val : Val finite) :
    (modelOf voc quote fresh sig z M).constantFromZ3 val.1 val = nameOf voc quote fresh val := by
  rw [HerbrandModel.constantFromZ3, nameOf]
  by_cases boolean : val.1 = .boolean
  · obtain ⟨s, x⟩ := val
    obtain rfl : s = .boolean := boolean
    change Bool at x
    cases x <;> rfl
  · have words := labelling.label_other boolean
    exact (if_neg words.1).trans (if_neg words.2)

omit labelling in
theorem eval_modelOf {z : Bool} {M : Structure finite} {e : Expr} {assignment : List (Variable × Val finite)} {env : Env finite}
    (same : ∀ p ∈ assignment, (⟨p.1.sort, env p.1⟩ : Val finite) = p.2) (closed : ∀ v ∈ e.freeVariables, v ∈ assignment.map Prod.fst) :
    (modelOf voc quote fresh sig z M).eval e assignment = e.eval M env := by
  have agrees : ∃ env : Env finite, ∀ p ∈ assignment, (⟨p.1.sort, env p.1⟩ : Val finite) = p.2 := ⟨env, same⟩
  simp only [modelOf, dif_pos agrees]
  refine Expr.eval_freeVariables M fun v hv => ?_
  obtain ⟨p, hp, rfl⟩ := List.mem_map.mp (closed v hv)
  exact eq_of_heq (Sigma.mk.inj ((agrees.choose_spec p hp).trans (same p hp).symm)).2

omit labelling in
theorem getD_idxOf {ext : List String} {e : String} (he : e ∈ ext) : ext.getD (ext.idxOf e) "" = e := by
  rw [List.getD_eq_getElem _ _ (List.idxOf_lt_length_of_mem he), List.getElem_idxOf]

omit labelling in
theorem standard_of_places {N : Structure finite}
    (constructors : ∀ n ext, (n, ext) ∈ voc.enumerated → ∀ e ∈ ext, idx (N.value (enumConst n ext e) []) = ext.idxOf e) :
    voc.Standard N := by
  refine ⟨fun n ext listed y => ?_, fun n ext listed e he e' he' same => ?_⟩
  · have place := getD_mem listed (code_le y)
    refine ⟨_, place.1, idx_inj rfl ?_⟩
    rw [constructors n ext listed _ place.1, place.2]
    rfl
  · have places := (constructors n ext listed e he).symm.trans ((congrArg idx same).trans (constructors n ext listed e' he'))
    rw [← getD_idxOf he, places, getD_idxOf he']

/-- A structure in which the constants mean the values that they name is a model of the vocabulary. -/
theorem of_modelOf {z : Bool} {M : Structure finite} (named : ∀ val, voc.Sorts val.1 → M.value (nameOf voc quote fresh val) [] = val)
    (constructors : ∀ n ext, (n, ext) ∈ voc.enumerated → ∀ e ∈ ext, idx (M.value (enumConst n ext e) []) = ext.idxOf e) :
    (modelOf voc quote fresh sig z M).Of voc quote M := by
  refine ⟨standard_of_places constructors, fun e assignment env same closed => eval_modelOf same closed,
    fun val => labelling.label_eq_iff val true, fun val => labelling.label_eq_iff val false, fun n ext listed e he => ?_,
    fun n _ x y same => ?_, fun s sort x => ?_, fun s => ?_, fun n listed => ?_, fun s sort => ?_⟩
  · have printed : label voc quote fresh (M.value (enumConst n ext e) []) = quote (ext.getD (idx (M.value (enumConst n ext e) [])) "") :=
      if_pos listed
    rw [constructors n ext listed e he, getD_idxOf he] at printed
    exact printed
  · have codes := labelling.fresh_inj same
    have values := idx_inj (a := ⟨.uninterpreted n, x⟩) (b := ⟨.uninterpreted n, y⟩) rfl codes
    exact eq_of_heq (Sigma.mk.inj values).2
  · rw [labelling.constantFromZ3_modelOf ⟨s, x⟩]
    exact named ⟨s, x⟩ sort
  · simp only [HerbrandModel.sorts, modelOf, List.mem_filterMap, List.mem_map, Prod.exists]
    constructor
    · rintro ⟨name, s', ⟨n, listed, same⟩, found⟩
      obtain ⟨rfl, rfl⟩ := Prod.mk.inj same
      simp only [listed, if_true, Option.isSome_some, Option.some.injEq] at found
      exact ⟨n, listed, found.symm⟩
    · rintro ⟨n, listed, rfl⟩
      exact ⟨n, _, ⟨n, listed, rfl⟩, by simp [listed]⟩
  · refine ⟨_, if_pos listed, ?_, fun x => ?_⟩
    · have other : (⟨.uninterpreted n, elementAt _ 0⟩ : Val finite) ≠ ⟨.uninterpreted n, elementAt _ 1⟩ := fun same =>
        Nat.zero_ne_one (congrArg idx same)
      exact List.nodup_cons.mpr ⟨fun mem => other (List.mem_singleton.mp mem), List.nodup_singleton _⟩
    · rw [List.mem_cons, List.mem_singleton]
      constructor
      · rintro (rfl | rfl) <;> rfl
      · intro sort
        have le : idx x ≤ 1 := (idx_le x).trans_eq (by rw [sort]; rfl)
        rcases Nat.le_one_iff_eq_zero_or_eq_one.mp le with zero | one
        · exact .inl (idx_inj sort zero)
        · exact .inr (idx_inj sort one)
  · have plain := labelling.fits.uninterpreted s sort
    cases s with
    | uninterpreted n | enumerated n ext => exact decide_eq_false plain
    | _ => rfl

end Labelling

end Labels

section Meanings

variable (voc : Vocabulary) (quote : String → String) (fresh : Nat → String)

open Classical in
/-- The number that a constant or an application has: `named` for the name of a value, the place of a constructor in its
enumeration, and `result` for the other symbols. -/
noncomputable def meaning (named : Val finite → Nat) (result : Const → List Nat → Nat) (c : Const) (args : List Nat) : Nat :=
  if h : ∃ val, voc.Sorts val.1 ∧ nameOf voc quote fresh val = c then named h.choose
  else
    match c.sort with
    | .first (.enumerated n ext) => if (n, ext) ∈ voc.enumerated ∧ c.name ∈ ext then ext.idxOf c.name else result c args
    | _ => result c args

variable {voc quote fresh} {sig : Sig} {cl : Clauses} {named : Val finite → Nat} {result : Const → List Nat → Nat} {c : Const}
  {args : List Nat}

namespace Labelling

variable (labelling : Labelling voc quote fresh sig cl)

include labelling

theorem meaning_nameOf {val : Val finite} (sort : voc.Sorts val.1) :
    meaning voc quote fresh named result (nameOf voc quote fresh val) args = named val := by
  have exists_val : ∃ val', voc.Sorts val'.1 ∧ nameOf voc quote fresh val' = nameOf voc quote fresh val := ⟨val, sort, rfl⟩
  rw [meaning, dif_pos exists_val]
  obtain ⟨sort', same⟩ := exists_val.choose_spec
  obtain ⟨names, sorts⟩ := Const.mk.inj same
  rw [labelling.label_inj sort' (LSort.first.inj sorts) names]

/-- A constructor keeps its place where the values keep theirs that are printed as they are. -/
theorem meaning_enumConst (keeps : ∀ n ext, (n, ext) ∈ voc.enumerated → ∀ val : Val finite, val.1 = .enumerated n ext →
    quote (ext.getD (idx val) "") = ext.getD (idx val) "" → named val = idx val) {n : String} {ext : List String}
    (listed : (n, ext) ∈ voc.enumerated) {e : String} (he : e ∈ ext) :
    meaning voc quote fresh named result (enumConst n ext e) args = ext.idxOf e := by
  by_cases exists_val : ∃ val, voc.Sorts val.1 ∧ nameOf voc quote fresh val = enumConst n ext e
  · obtain ⟨val, sort, name⟩ := exists_val
    rw [← name, labelling.meaning_nameOf sort]
    obtain ⟨names, sorts⟩ := Const.mk.inj name
    have enum : val.1 = .enumerated n ext := LSort.first.inj sorts
    have place := getD_mem listed (k := idx val) (enum ▸ idx_le val)
    have printed : quote (ext.getD (idx val) "") = e := by
      rw [← names, label, enum]
      exact (if_pos listed).symm
    have plain := (labelling.fits.quoted n ext listed _ place.1).resolve_right fun quoted => quoted.1 (printed ▸ he)
    rw [keeps n ext listed val enum plain, ← printed, plain, place.2]
  · rw [meaning, dif_neg exists_val]
    exact if_pos ⟨listed, he⟩

theorem meaning_symbol (hc : c ∈ cl.symbols) (other : c.sort.domain = [] → c.name ∉ sig.constructors) :
    meaning voc quote fresh named result c args = result c args := by
  have plain : ∀ n ext, (n, ext) ∈ voc.enumerated → c.sort = .first (.enumerated n ext) → c.name ∉ ext := by
    intro n ext listed sort mem
    have nullary : c.sort.domain = [] := by rw [sort]; rfl
    exact other nullary ((labelling.fits.constructors c hc nullary).mpr ⟨n, ext, listed, mem, sort⟩)
  have new : ¬ ∃ val, voc.Sorts val.1 ∧ nameOf voc quote fresh val = c := by
    rintro ⟨⟨s, x⟩, sort, rfl⟩
    have words := labelling.fits.words _ hc
    cases s with
    | boolean =>
      change Bool at x
      cases x
      · exact words.2 rfl
      · exact words.1 rfl
    | uninterpreted n => exact labelling.fresh_names _ (List.mem_map_of_mem hc)
    | enumerated n ext =>
      have listed : (n, ext) ∈ voc.enumerated := sort
      have place := getD_mem listed (idx_le ⟨.enumerated n ext, x⟩)
      have printed : label voc quote fresh ⟨.enumerated n ext, x⟩ = quote (ext.getD (idx ⟨.enumerated n ext, x⟩) "") := if_pos listed
      have name := plain n ext listed rfl
      rw [nameOf, printed] at name
      rcases labelling.fits.quoted n ext listed _ place.1 with same | quoted
      · exact name (same.symm ▸ place.1)
      · refine quoted.2 (List.mem_map.mpr ⟨_, hc, ?_⟩)
        exact printed
    | _ => exact sort.elim
  rw [meaning, dif_neg new]
  split
  · rename_i n ext sort
    exact if_neg fun mem => plain n ext mem.1 sort mem.2
  · rfl

variable {xs : List (Val finite)}

theorem idx_nameOf {val : Val finite} (sort : voc.Sorts val.1) (le : named val ≤ elements val.1) :
    idx ((structureOf (meaning voc quote fresh named result)).value (nameOf voc quote fresh val) []) = named val := by
  rw [idx_value rfl, List.map_nil, labelling.meaning_nameOf sort]
  rw [List.map_nil, labelling.meaning_nameOf sort]
  exact le

theorem idx_enumConst (keeps : ∀ n ext, (n, ext) ∈ voc.enumerated → ∀ val : Val finite, val.1 = .enumerated n ext →
    quote (ext.getD (idx val) "") = ext.getD (idx val) "" → named val = idx val) {n : String} {ext : List String}
    (listed : (n, ext) ∈ voc.enumerated) {e : String} (he : e ∈ ext) :
    idx ((structureOf (meaning voc quote fresh named result)).value (enumConst n ext e) []) = ext.idxOf e := by
  rw [idx_value rfl, List.map_nil, labelling.meaning_enumConst keeps listed he]
  rw [List.map_nil, labelling.meaning_enumConst keeps listed he]
  exact Nat.le_sub_one_of_lt (List.idxOf_lt_length_of_mem he)

theorem idx_symbol (hc : c ∈ cl.symbols) (other : c.sort.domain = [] → c.name ∉ sig.constructors)
    (fits : xs.map Sigma.fst = c.sort.domain) (le : result c (xs.map idx) ≤ elements c.sort.range) :
    idx ((structureOf (meaning voc quote fresh named result)).value c xs) = result c (xs.map idx) := by
  rw [idx_value fits, labelling.meaning_symbol hc other]
  rw [labelling.meaning_symbol hc other]
  exact le

end Labelling

end Meanings

end Goivy.Solver
