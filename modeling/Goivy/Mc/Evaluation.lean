import Goivy.Mc.Decode
import Goivy.Mc.Simulation

/-! The circuit of an expression computes its value. -/
namespace Goivy

/-- Sorts that are all interpreted as finite ones, and the names of their constructors. -/
structure Signature where
  sorts : List FSort
  interp : Interpretation
  constructors : List String
  bool : interp "bool" = none
  finite : ∀ s ∈ sorts, ∃ th, HasTheory s interp th
  extension : ∀ s ∈ sorts, ∀ ext, HasTheory s interp (.enumerated ext) →
    ext.Nodup ∧ ∀ n ∈ ext, n ∈ constructors
  symbolic : ∀ n ∈ constructors, isNumeralName n = false

theorem HasTheory.unique {s : FSort} {interp : Interpretation} {th th' : FiniteTheory}
    (h : HasTheory s interp th) (h' : HasTheory s interp th') : th = th' :=
  Option.some.inj ((hasTheory_iff.mp h).symm.trans (hasTheory_iff.mp h'))

namespace Signature

variable (sig : Signature)

theorem hasTheory_boolean : HasTheory .boolean sig.interp .boolean :=
  .boolean (by rw [getSortTheory, sortName, sig.bool])

/-- Symbols of these sorts with distinct names, which are no constructors and no numerals. -/
structure Declares (syms : List Const) : Prop where
  names : (syms.map Const.name).Nodup
  sorts : ∀ x ∈ syms, ∃ s ∈ .boolean :: sig.sorts, x.sort = .first s
  fresh : ∀ x ∈ syms, x.name ∉ sig.constructors ∧ isNumeralName x.name = false

/-- The expressions over some symbols that are well sorted. -/
inductive WellSorted (syms : List Const) : Expr → FSort → Prop
  | symbol {x : Const} {s : FSort} : x ∈ syms → x.sort = .first s → WellSorted syms (.const x) s
  | constructor {n : String} {s : FSort} {ext : List String} : s ∈ sig.sorts →
      HasTheory s sig.interp (.enumerated ext) → n ∈ ext → WellSorted syms (.const ⟨n, .first s⟩) s
  | numeral {n : String} {s : FSort} {th : FiniteTheory} {k : Int} : s ∈ sig.sorts →
      HasTheory s sig.interp th → isNumeralName n = true → atoi n = (k, true) → th.InRange k →
      WellSorted syms (.const ⟨n, .first s⟩) s
  | and {ts : List Expr} : (∀ t ∈ ts, WellSorted syms t .boolean) → WellSorted syms (.and ts) .boolean
  | or {ts : List Expr} : (∀ t ∈ ts, WellSorted syms t .boolean) → WellSorted syms (.or ts) .boolean
  | not {a : Expr} : WellSorted syms a .boolean → WellSorted syms (.not a) .boolean
  | implies {a b : Expr} : WellSorted syms a .boolean → WellSorted syms b .boolean →
      WellSorted syms (.implies a b) .boolean
  | iff {a b : Expr} : WellSorted syms a .boolean → WellSorted syms b .boolean →
      WellSorted syms (.iff a b) .boolean
  | ite {c a b : Expr} {s : FSort} : WellSorted syms c .boolean → WellSorted syms a s →
      WellSorted syms b s → WellSorted syms (.ite c a b) s
  | eq {a b : Expr} {s : FSort} : WellSorted syms a s → WellSorted syms b s →
      WellSorted syms (.eq a b) .boolean

variable {D : Domain}

/-- Constructors denote their positions and numerals their numbers, without confusion. -/
structure Standard (M : Structure D) (number : (s : FSort) → Int → El D s) : Prop where
  injective : ∀ s ∈ sig.sorts, ∀ th, HasTheory s sig.interp th → ∀ i j, th.IsNumber i →
    th.IsNumber j → number s i = number s j → i = j
  constructor : ∀ s ∈ sig.sorts, ∀ ext, HasTheory s sig.interp (.enumerated ext) →
    ∀ (i : Nat) n, ext[i]? = some n → M n (.first s) ⟨[], rfl⟩ = number s i
  numeral : ∀ s ∈ sig.sorts, ∀ th, HasTheory s sig.interp th → ∀ n k, isNumeralName n = true →
    atoi n = (k, true) → th.InRange k → M n (.first s) ⟨[], rfl⟩ = number s k

variable {sig}

theorem WellSorted.nodeSort {syms : List Const} {e : Expr} {s : FSort}
    (h : sig.WellSorted syms e s) : e.nodeSort = .first s := by
  induction h with
  | symbol _ sort => exact sort
  | ite _ _ _ _ then_ _ => exact then_
  | _ => rfl

theorem WellSorted.theory {syms : List Const} (declares : sig.Declares syms) {e : Expr} {s : FSort}
    (h : sig.WellSorted syms e s) :
    s ∈ .boolean :: sig.sorts := by
  induction h with
  | @symbol x s hx sort =>
    obtain ⟨t, ht, sort'⟩ := declares.sorts x hx
    rw [sort, LSort.first.injEq] at sort'
    rwa [sort']
  | constructor hs _ _ => exact List.mem_cons_of_mem _ hs
  | numeral hs _ _ _ _ => exact List.mem_cons_of_mem _ hs
  | ite _ _ _ _ then_ _ => exact then_
  | _ => exact List.mem_cons_self

theorem theory_of_mem {s : FSort} (hs : s ∈ .boolean :: sig.sorts) :
    ∃ th, HasTheory s sig.interp th := by
  obtain rfl | hs := List.mem_cons.mp hs
  · exact ⟨.boolean, sig.hasTheory_boolean⟩
  · exact sig.finite s hs

/-- Every sort of the signature has an encoding that is right. -/
def Encodable (sig : Signature) : Prop :=
  ∀ s ∈ sig.sorts, ∀ th, HasTheory s sig.interp th → th.Encodable

theorem Encodable.theory (encodable : sig.Encodable) {s : FSort} (hs : s ∈ .boolean :: sig.sorts)
    {th : FiniteTheory} (h : HasTheory s sig.interp th) : th.Encodable := by
  obtain rfl | hs := List.mem_cons.mp hs
  · rw [h.unique sig.hasTheory_boolean]
    trivial
  · exact encodable s hs th h

end Signature

theorem eval_const {D : Domain} (M : Structure D) (env : Env D) (n : String) (s : FSort) :
    (Expr.const ⟨n, .first s⟩).eval M env = ⟨s, M n (.first s) ⟨[], rfl⟩⟩ := by
  rw [Expr.eval, Structure.value_eq M (by rfl)]
  rfl

theorem eval_boolExpr {D : Domain} (M : Structure D) (env : Env D) (b : Bool) :
    (boolExpr b).eval M env = .ofProp (b = true) := by
  cases b
  · simp [boolExpr, Expr.fls, Expr.eval, evalList]
  · simp [boolExpr, Expr.tru, Expr.eval, evalList]

theorem boolean_value (s : FSort) (b : Bool) :
    FiniteTheory.boolean.value s (min (binary [b]) FiniteTheory.boolean.last) = boolExpr b := by
  cases b <;> rfl

theorem forall_mem_congr {α β : Type} {P : α → Prop} {Q : β → Prop} {xs : List α} {ys : List β}
    (same : List.Forall₂ (fun x y => P x ↔ Q y) xs ys) : (∀ x ∈ xs, P x) ↔ ∀ y ∈ ys, Q y := by
  induction same with
  | nil => simp
  | cons head _ ih => rw [List.forall_mem_cons, List.forall_mem_cons, head, ih]

theorem exists_mem_congr {α β : Type} {P : α → Prop} {Q : β → Prop} {xs : List α} {ys : List β}
    (same : List.Forall₂ (fun x y => P x ↔ Q y) xs ys) : (∃ x ∈ xs, P x) ↔ ∃ y ∈ ys, Q y := by
  induction same with
  | nil => simp
  | cons head _ ih => rw [List.exists_mem_cons_iff, List.exists_mem_cons_iff, head, ih]

theorem isNumeralName_itoa (n : Nat) : isNumeralName (itoa n) = true := by
  have digits : ∀ c ∈ Nat.toDigits 10 n, c.isDigit = true := fun c hc =>
    Nat.isDigit_of_mem_toDigits (by decide) (by decide) hc
  have nonempty := Nat.toDigits_ne_nil (n := n) (b := 10)
  unfold isNumeralName
  rw [toList_itoa]
  generalize Nat.toDigits 10 n = cs at digits nonempty
  split
  · exact absurd rfl nonempty
  · exact absurd (digits '-' List.mem_cons_self) (by decide)
  · rename_i c _ _
    rw [digits c List.mem_cons_self, Bool.true_or]

namespace Signature

variable {sig : Signature} {D : Domain} {M : Structure D} {number : (s : FSort) → Int → El D s}
  (standard : sig.Standard M number)

include standard

/-- A value denotes its number. -/
theorem eval_value {s : FSort} (hs : s ∈ sig.sorts) {th : FiniteTheory}
    (h : HasTheory s sig.interp th) (encodable : th.Encodable) (notBoolean : th ≠ .boolean) {k : Nat}
    (le : k ≤ th.last) (env : Env D) :
    (th.value s k).eval M env = ⟨s, number s k⟩ ∧ th.IsNumber k := by
  have inRange : th.InRange k → (Expr.const ⟨itoa k, .first s⟩).eval M env = ⟨s, number s k⟩ := by
    intro inRange
    have small : k < 2 ^ 63 := by
      have := FiniteTheory.last_lt encodable
      have := FiniteTheory.width_le encodable
      have : 2 ^ th.width ≤ 2 ^ 63 := Nat.pow_le_pow_right Nat.zero_lt_two (by omega)
      omega
    rw [eval_const, standard.numeral s hs th h _ k (isNumeralName_itoa k) (atoi_itoa small) inRange]
  cases th with
  | boolean => exact absurd rfl notBoolean
  | enumerated extension =>
    have pos := encodable.1
    simp only [FiniteTheory.last] at le
    have inside : k < extension.length := by omega
    refine ⟨?_, Int.natCast_nonneg k, by exact_mod_cast inside⟩
    rw [FiniteTheory.value, eval_const]
    rw [standard.constructor s hs extension h k _ (by simp [inside])]
  | range lb ub =>
    have zero := encodable.1
    have pos := encodable.2.1
    simp only [FiniteTheory.last] at le
    have here : (FiniteTheory.range lb ub).InRange k := ⟨by omega, by omega⟩
    exact ⟨inRange here, here⟩
  | bitVector bits =>
    have pos := Nat.two_pow_pos bits
    simp only [FiniteTheory.last] at le
    have lt : k < 2 ^ bits := by omega
    have here : (FiniteTheory.bitVector bits).InRange k :=
      ⟨Int.natCast_nonneg k, by exact_mod_cast lt⟩
    exact ⟨inRange here, here⟩

theorem eval_value_inj {s : FSort} (hs : s ∈ .boolean :: sig.sorts) {th : FiniteTheory}
    (h : HasTheory s sig.interp th) (encodable : th.Encodable) {i j : Nat} (hi : i ≤ th.last)
    (hj : j ≤ th.last) (env : Env D) :
    (th.value s i).eval M env = (th.value s j).eval M env ↔ i = j := by
  refine ⟨fun same => ?_, fun same => same ▸ rfl⟩
  by_cases boolean : th = .boolean
  · subst boolean
    have bool : ∀ k ≤ 1, FiniteTheory.boolean.value s k = boolExpr (k = 1) := by
      intro k hk
      obtain rfl | rfl : k = 0 ∨ k = 1 := by omega
      · rfl
      · rfl
    rw [bool i hi, bool j hj, eval_boolExpr, eval_boolExpr] at same
    have := congrArg Val.Holds same
    simp only [holds_ofProp, decide_eq_true_iff, eq_iff_iff] at this
    simp only [FiniteTheory.last] at hi hj
    omega
  · have hs : s ∈ sig.sorts := by
      obtain rfl | hs := List.mem_cons.mp hs
      · exact absurd (h.unique sig.hasTheory_boolean) boolean
      · exact hs
    obtain ⟨evalI, isI⟩ := eval_value standard hs h encodable boolean hi env
    obtain ⟨evalJ, isJ⟩ := eval_value standard hs h encodable boolean hj env
    rw [evalI, evalJ] at same
    have := standard.injective s hs th h i j isI isJ (eq_of_heq (Sigma.mk.inj same).2)
    exact_mod_cast this

end Signature

/-- An encoder as `ToAiger` makes it, whose symbols have literals for their bits. -/
structure Encoder.Ready (enc : Encoder) (sig : Signature) (syms : List Const) : Prop where
  interp : enc.interp = sig.interp
  isConstructor : ∀ x, enc.isConstructor x = decide (x.name ∈ sig.constructors)
  index : enc.constructorIndexFn = Encoder.constructorIndex sig.interp
  numbered : enc.sub.Numbered
  lits : ∀ x ∈ syms, ∀ s, x.sort = .first s → ∀ th, HasTheory s sig.interp th →
    ∃ ls, enc.lit x = some ls ∧ ls.length = th.width ∧ ∀ l ∈ ls, l < 2 * enc.sub.nextID

/-- Each symbol denotes the value of its bits. -/
def Encoder.Denotes (enc : Encoder) (sig : Signature) (syms : List Const) (v : Nat → Bool)
    {D : Domain} (M : Structure D) (env : Env D) : Prop :=
  ∀ x ∈ syms, ∀ s, x.sort = .first s → ∀ th, HasTheory s sig.interp th → ∀ ls, enc.lit x = some ls →
    (Expr.const x).eval M env = (th.value s (min (binary (ls.map (litValue v))) th.last)).eval M env

/-- An evaluation with a circuit that has more gates: it gives literals for the bits of the value. -/
structure Encoder.Evaluates (enc : Encoder) (sig : Signature) (syms : List Const)
    (getdef : Option GetDefFunc) (sub : Aiger) (e : Expr) (s : FSort) (th : FiniteTheory)
    (r : Aiger × List Nat) : Prop where
  result : Encoder.evalRec getdef { enc with sub := sub } e = .ok ({ enc with sub := r.1 }, r.2)
  grows : sub.Grows r.1
  length : r.2.length = th.width
  exists_ : ∀ l ∈ r.2, l < 2 * r.1.nextID
  means : ∀ v, Circuit.Settled r.1.gates v →
    ∀ (D : Domain) (M : Structure D) (number : (s : FSort) → Int → El D s) (env : Env D),
      sig.Standard M number → enc.Denotes sig syms v M env →
      e.eval M env = (th.value s (min (binary (r.2.map (litValue v))) th.last)).eval M env

namespace Encoder

variable {enc : Encoder} {sig : Signature} {syms : List Const} {getdef : Option GetDefFunc}

variable (encodable : sig.Encodable) (ready : enc.Ready sig syms)

include ready encodable

theorem evaluates_constructor {n : String} {s : FSort} {ext : List String} (hs : s ∈ sig.sorts)
    (h : HasTheory s sig.interp (.enumerated ext)) (hn : n ∈ ext) {sub : Aiger}
    (grows : enc.sub.Grows sub) :
    ∃ r, enc.Evaluates sig syms getdef sub (.const ⟨n, .first s⟩) s (.enumerated ext) r := by
  have ok := encodable s hs _ h
  have width : ceilLog2 ext.length = (FiniteTheory.enumerated ext).width := by
    have := ok.1
    simp only [FiniteTheory.width, FiniteTheory.last]
    rw [ceilLog2, if_neg (by omega), Nat.sub_add_cancel (by omega)]
  have index : constructorIndex sig.interp ⟨n, .first s⟩ = (ext.idxOf n, ext.length) := by
    cases h with
    | enumerated sort => simp only [constructorIndex, sort, if_pos hn]
  have small : (FiniteTheory.enumerated ext).width ≤ 64 := by
    have := FiniteTheory.width_le ok
    omega
  have inside : ext.idxOf n < ext.length := List.idxOf_lt_length_of_mem hn
  refine ⟨(sub, binEnc (ext.idxOf n) (FiniteTheory.enumerated ext).width), ?_, .refl grows.numbered,
    ?_, fun l hl => binEnc_exists grows.numbered hl, fun v _ D M number env _ _ => ?_⟩
  · have isConstructor := ready.isConstructor ⟨n, .first s⟩
    rw [decide_eq_true ((sig.extension s hs ext h).2 n hn)] at isConstructor
    simp [evalRec, isConstructor, evalConstructor, ready.index, index, width]
  · simp [binEnc]
  · have lt := FiniteTheory.last_lt ok
    have code : ext.idxOf n % 2 ^ (FiniteTheory.enumerated ext).width = ext.idxOf n := by
      refine Nat.mod_eq_of_lt ?_
      simp only [FiniteTheory.last] at lt
      omega
    have least : min (ext.idxOf n) (FiniteTheory.enumerated ext).last = ext.idxOf n := by
      simp only [FiniteTheory.last]
      omega
    rw [binEnc_lowBits small, binary_lowBits, code, least, FiniteTheory.value]
    simp [inside]

theorem evaluates_numeral {n : String} {s : FSort} {th : FiniteTheory} {k : Int} (hs : s ∈ sig.sorts)
    (h : HasTheory s sig.interp th) (numeral : isNumeralName n = true) (value : atoi n = (k, true))
    (inRange : th.InRange k) {sub : Aiger} (grows : enc.sub.Grows sub) :
    ∃ r, enc.Evaluates sig syms getdef sub (.const ⟨n, .first s⟩) s th r := by
  have ok := encodable s hs _ h
  obtain ⟨m, rfl, le⟩ : ∃ m : Nat, k = m ∧ m ≤ th.last := by
    cases th with
    | range lb ub =>
      obtain ⟨rfl, -, -⟩ := ok
      obtain ⟨low, high⟩ := inRange
      exact ⟨k.toNat, by omega, by simp only [FiniteTheory.last]; omega⟩
    | bitVector bits =>
      obtain ⟨low, high⟩ := inRange
      obtain ⟨m, rfl⟩ : ∃ m : Nat, k = m := ⟨k.toNat, by omega⟩
      have lt : m < 2 ^ bits := by exact_mod_cast high
      exact ⟨m, rfl, by simp only [FiniteTheory.last]; omega⟩
    | _ => exact absurd inRange id
  have small : th.width ≤ 64 := by
    have := FiniteTheory.width_le ok
    omega
  have notConstructor : n ∉ sig.constructors := fun hn => by
    rw [sig.symbolic n hn] at numeral
    cases numeral
  refine ⟨(sub, binEnc m th.width), ?_, .refl grows.numbered, by simp [binEnc],
    fun l hl => binEnc_exists grows.numbered hl, fun v _ D M number env standard _ => ?_⟩
  · have isConstructor := ready.isConstructor ⟨n, .first s⟩
    rw [decide_eq_false notConstructor] at isConstructor
    simp [evalRec, isConstructor, numeral, ready.interp, getEncodingBits_eq h ok, parseNum_atoi value,
      bind, Except.bind, pure, Except.pure]
  · have lt := FiniteTheory.last_lt ok
    have notBoolean : th ≠ .boolean := by
      rintro rfl
      exact inRange
    rw [binEnc_lowBits small, binary_lowBits, Nat.mod_eq_of_lt (by omega), Nat.min_eq_left le,
      (Signature.eval_value standard hs h ok notBoolean le env).1, eval_const,
      standard.numeral s hs th h n m numeral value inRange]

end Encoder

end Goivy
