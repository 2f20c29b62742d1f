import Goivy.Mc.EncoderBits
import Goivy.Logic.Semantics

/-! The finite sorts of a signature: their values, and how bits encode and decode them. -/
namespace Goivy

/-- The interpretations of a sort that have finitely many values. -/
inductive FiniteTheory where
  | boolean
  | enumerated (extension : List String)
  | range (lb ub : Int)
  | bitVector (bits : Nat)

def finiteTheory (s : FSort) (interp : Interpretation) : Option FiniteTheory :=
  match getSortTheory s interp with
  | .sort .boolean => some .boolean
  | .sort (.enumerated _ extension) => some (.enumerated extension)
  | .sort (.range _ lb ub) =>
    if (atoi lb).2 ∧ (atoi ub).2 then some (.range (atoi lb).1 (atoi ub).1) else none
  | .theory (.bitVector bits) => some (.bitVector bits)
  | _ => none

/-- The theories of the sorts that are finite. -/
inductive HasTheory (s : FSort) (interp : Interpretation) : FiniteTheory → Prop
  | boolean : getSortTheory s interp = .sort .boolean → HasTheory s interp .boolean
  | enumerated {name : String} {extension : List String} :
      getSortTheory s interp = .sort (.enumerated name extension) →
      HasTheory s interp (.enumerated extension)
  | range {name lb ub : String} {l u : Int} : getSortTheory s interp = .sort (.range name lb ub) →
      atoi lb = (l, true) → atoi ub = (u, true) → HasTheory s interp (.range l u)
  | bitVector {bits : Nat} : getSortTheory s interp = .theory (.bitVector bits) →
      HasTheory s interp (.bitVector bits)

theorem hasTheory_iff {s : FSort} {interp : Interpretation} {th : FiniteTheory} :
    HasTheory s interp th ↔ finiteTheory s interp = some th := by
  constructor
  · rintro (h | h | ⟨h, hl, hu⟩ | h)
    · rw [finiteTheory, h]
    · rw [finiteTheory, h]
    · simp [finiteTheory, h, hl, hu]
    · rw [finiteTheory, h]
  · intro finite
    unfold finiteTheory at finite
    split at finite
    · cases finite
      exact .boolean ‹_›
    · cases finite
      exact .enumerated ‹_›
    · split at finite
      · rename_i h both
        cases finite
        exact .range h (Prod.ext rfl both.1) (Prod.ext rfl both.2)
      · cases finite
    · cases finite
      exact .bitVector ‹_›
    · cases finite

namespace FiniteTheory

/-- The numbers that a numeral of the sort can denote. -/
def InRange : FiniteTheory → Int → Prop
  | range lb ub, k => lb ≤ k ∧ k ≤ ub
  | bitVector bits, k => 0 ≤ k ∧ k < 2 ^ bits
  | _, _ => False

/-- The numbers of the values of a sort that is not Boolean. -/
def IsNumber : FiniteTheory → Int → Prop
  | enumerated extension, k => 0 ≤ k ∧ k < extension.length
  | th, k => th.InRange k

/-- The values of a sort, as the expressions that denote them. -/
def IsValue (s : FSort) : FiniteTheory → Expr → Prop
  | boolean, e => e = .tru ∨ e = .fls
  | enumerated extension, e => ∃ n ∈ extension, e = .const ⟨n, .first s⟩
  | th, e => ∃ k, th.InRange k ∧ e = .const ⟨itoa k, .first s⟩

/-- The sorts that the encoding is right for. -/
def Encodable : FiniteTheory → Prop
  | boolean => True
  | enumerated extension => 2 ≤ extension.length ∧ extension.length ≤ 2 ^ 62
  | range lb ub => lb = 0 ∧ 1 ≤ ub ∧ ub < 2 ^ 62
  | bitVector bits => 1 ≤ bits ∧ bits ≤ 63

/-- The number of the last value, from zero. -/
def last : FiniteTheory → Nat
  | boolean => 1
  | enumerated extension => extension.length - 1
  | range _ ub => ub.toNat
  | bitVector bits => 2 ^ bits - 1

def width : FiniteTheory → Nat
  | bitVector bits => bits
  | th => Nat.clog 2 (th.last + 1)

/-- The value with a number. -/
def value (s : FSort) : FiniteTheory → Nat → Expr
  | boolean, k => if k = 1 then .tru else .fls
  | enumerated extension, k => .const ⟨extension.getD k "", .first s⟩
  | _, k => .const ⟨itoa k, .first s⟩

variable {th : FiniteTheory} (encodable : th.Encodable)

include encodable

theorem last_lt : th.last < 2 ^ th.width := by
  cases th with
  | bitVector bits => exact Nat.sub_lt (Nat.two_pow_pos bits) Nat.one_pos
  | _ => exact Nat.le_pow_clog Nat.one_lt_two _

theorem last_pos : 1 ≤ th.last := by
  cases th with
  | boolean => exact Nat.le_refl 1
  | enumerated extension =>
    have := encodable.1
    simp only [last]
    omega
  | range lb ub =>
    have := encodable.2.1
    simp only [last]
    omega
  | bitVector bits =>
    have : 2 ^ 1 ≤ 2 ^ bits := Nat.pow_le_pow_right Nat.zero_lt_two encodable.1
    simp only [last]
    omega

theorem width_pos : 1 ≤ th.width := by
  by_contra zero
  have := last_lt encodable
  have := last_pos encodable
  rw [Nat.lt_one_iff.mp (not_le.mp zero)] at *
  omega

theorem width_le : th.width ≤ 62 ∨ th.width = 63 ∧ th.last = 2 ^ 63 - 1 := by
  cases th with
  | boolean => exact .inl (by decide)
  | enumerated extension =>
    have bound := encodable.2
    exact .inl (Nat.clog_le_of_le_pow (by simp only [last]; omega))
  | range lb ub =>
    have bound := encodable.2.2
    exact .inl (Nat.clog_le_of_le_pow (by simp only [last]; omega))
  | bitVector bits =>
    obtain lt | rfl := Nat.lt_or_eq_of_le encodable.2
    · exact .inl (by simp only [width]; omega)
    · exact .inr ⟨rfl, rfl⟩

end FiniteTheory

section Finite

variable {s : FSort} {interp : Interpretation} {th : FiniteTheory} (finite : HasTheory s interp th)
  (encodable : th.Encodable)

include finite encodable

theorem getEncodingBits_eq : getEncodingBits s interp = .ok th.width := by
  unfold getEncodingBits
  cases finite with
  | boolean sort =>
    rw [sort]
    rfl
  | @enumerated name extension sort =>
    have positive : extension.length - 1 + 1 = extension.length := by
      have := encodable.1
      omega
    rw [sort]
    simp only [FiniteTheory.width, FiniteTheory.last, positive]
    exact mcCeilLog2_eq encodable.2
  | @range name lb ub l u sort lower upper =>
    obtain ⟨-, pos, small⟩ := encodable
    obtain ⟨n, rfl⟩ : ∃ n : Nat, u = n := ⟨u.toNat, by omega⟩
    have next : machineInt ((n : Int) + 1) = ((n + 1 : Nat) : Int) := by
      rw [machineInt_eq (by omega) (by omega), Nat.cast_add_one]
    simp only [sort, upper, if_true, next, FiniteTheory.width, FiniteTheory.last, Int.toNat_natCast]
    exact mcCeilLog2_eq (by omega)
  | bitVector sort =>
    rw [sort]
    rfl

theorem sortSize_eq : machineInt (getSortSizeWithInterp s interp - 1) = th.last := by
  unfold getSortSizeWithInterp
  cases finite with
  | boolean sort =>
    rw [sort]
    rfl
  | @enumerated name extension sort =>
    have := encodable.1
    have := encodable.2
    simp only [sort, FiniteTheory.last]
    rw [machineInt_eq (by omega) (by omega)]
    omega
  | @range name lb ub l u sort lower upper =>
    obtain ⟨-, pos, small⟩ := encodable
    simp only [sort, upper, if_true, FiniteTheory.last]
    rw [machineInt_eq (x := u + 1) (by omega) (by omega), machineInt_eq (by omega) (by omega)]
    omega
  | @bitVector bits sort =>
    have pos := Nat.two_pow_pos bits
    simp only [sort, FiniteTheory.last]
    obtain lt | rfl := Nat.lt_or_eq_of_le encodable.2
    · have bound : 2 ^ bits ≤ 2 ^ 62 := Nat.pow_le_pow_right Nat.zero_lt_two (by omega)
      rw [shiftOne_eq (by omega)]
      generalize 2 ^ bits = m at pos bound
      rw [machineInt_eq (by omega) (by omega)]
      omega
    · decide

end Finite

/-- A simulated bit as an expression. -/
def boolExpr (b : Bool) : Expr := if b then .tru else .fls

theorem isTrueNode_boolExpr (b : Bool) : isTrueNode (boolExpr b) = b := by cases b <;> rfl

theorem binDecFrom_eq (res : Int) (bits : List Bool) :
    binDecFrom (machineInt res) (bits.map boolExpr) = machineInt (res + binary bits) := by
  induction bits generalizing res with
  | nil => simp [binDecFrom]
  | cons b bits ih =>
    have here : (if isTrueNode (boolExpr b) then
        machineInt (machineInt res + shiftOne (bits.map boolExpr).length) else machineInt res) =
        machineInt (res + b.toNat * 2 ^ bits.length) := by
      rw [isTrueNode_boolExpr, List.length_map]
      cases b
      · simp
      · simp [machineInt, shiftOne]
    rw [List.map_cons, binDecFrom, here, ih, binary_cons, Nat.cast_add, Nat.cast_mul, Nat.cast_pow,
      add_assoc]
    rfl

theorem binDecBool_eq (bits : List Bool) :
    binDecBool (bits.map boolExpr) = machineInt (binary bits) := by
  have := binDecFrom_eq 0 bits
  rwa [zero_add] at this

section Finite

variable {s : FSort} {interp : Interpretation} {th : FiniteTheory} (finite : HasTheory s interp th)
  (encodable : th.Encodable)

omit encodable in
include finite in
theorem sort_boolean (h : th = .boolean) : s = .boolean := by
  subst h
  cases finite with
  | boolean sort =>
    unfold getSortTheory at sort
    split at sort
    · rename_i i _
      cases i <;> cases sort
    · exact (SortTheory.sort.inj sort)

include finite encodable

/-- Codes above the last value decode to it. -/
theorem decodeVal_eq {bits : List Bool} (length : bits.length = th.width) (name : String) :
    decodeVal interp (bits.map boolExpr) ⟨name, .first s⟩ =
      .ok (th.value s (min (binary bits) th.last)) := by
  have lt := binary_lt bits
  have exact_ : machineInt (binary bits) = binary bits := by
    have bound : 2 ^ bits.length ≤ 2 ^ 63 := by
      have := FiniteTheory.width_le encodable
      exact Nat.pow_le_pow_right Nat.zero_lt_two (by omega)
    exact machineInt_eq (by omega) (by omega)
  unfold decodeVal
  rw [binDecBool_eq, exact_]
  have isBoolean := sort_boolean finite
  cases finite with
  | boolean sort =>
    obtain rfl := isBoolean rfl
    obtain ⟨b, rfl⟩ := List.length_eq_one_iff.mp (length.trans (by decide))
    simp only [sort]
    cases b <;> rfl
  | @enumerated name extension sort =>
    have pos := encodable.1
    have index : (if (extension.length : Int) ≤ binary bits then (extension.length : Int) - 1
        else binary bits) = ((min (binary bits) (extension.length - 1) : Nat) : Int) := by
      split <;> omega
    have inside : min (binary bits) (extension.length - 1) < extension.length := by omega
    simp only [sort, index, Int.toNat_natCast, if_pos (Int.natCast_nonneg _),
      List.getElem?_eq_getElem inside, FiniteTheory.value, FiniteTheory.last,
      List.getD_eq_getElem?_getD, Option.getD_some]
  | @range name lb ub l u sort lower upper =>
    have pos := encodable.2.1
    have least : (if u < (binary bits : Int) then u else binary bits) =
        ((min (binary bits) u.toNat : Nat) : Int) := by
      split <;> omega
    simp only [sort, upper, least, FiniteTheory.value, FiniteTheory.last]
  | @bitVector n sort =>
    rw [FiniteTheory.width] at length
    rw [length] at lt
    have least : min (binary bits) (2 ^ n - 1) = binary bits := by omega
    simp only [sort, FiniteTheory.value, FiniteTheory.last, least]

omit finite in
theorem value_isValue {k : Nat} (le : k ≤ th.last) : th.IsValue s (th.value s k) := by
  cases th with
  | boolean =>
    simp only [FiniteTheory.value]
    split
    · exact .inl rfl
    · exact .inr rfl
  | enumerated extension =>
    have pos := encodable.1
    have inside : k < extension.length := by
      simp only [FiniteTheory.last] at le
      omega
    refine ⟨extension[k], List.getElem_mem inside, ?_⟩
    simp [FiniteTheory.value, inside]
  | range lb ub =>
    have zero := encodable.1
    have pos := encodable.2.1
    simp only [FiniteTheory.last] at le
    refine ⟨k, ⟨?_, ?_⟩, rfl⟩
    · omega
    · omega
  | bitVector bits =>
    have pos := Nat.two_pow_pos bits
    simp only [FiniteTheory.last] at le
    refine ⟨k, ⟨Int.natCast_nonneg k, ?_⟩, rfl⟩
    have lt : k < 2 ^ bits := by omega
    exact_mod_cast lt

end Finite

end Goivy
