import Mathlib.Data.Nat.Digits.Lemmas

/-! Numbers and their bits, the most significant one first. -/
namespace Goivy

def binary (bits : List Bool) : Nat := Nat.ofDigits 2 (bits.map Bool.toNat).reverse

@[simp] theorem binary_nil : binary [] = 0 := rfl

theorem binary_cons (b : Bool) (bits : List Bool) :
    binary (b :: bits) = b.toNat * 2 ^ bits.length + binary bits := by
  rw [binary, List.map_cons, Nat.ofDigits_reverse_cons, List.length_map, binary, Nat.add_comm,
    Nat.mul_comm]

theorem binary_lt (bits : List Bool) : binary bits < 2 ^ bits.length := by
  have digits : ∀ d ∈ (bits.map Bool.toNat).reverse, d < 2 := by
    intro d hd
    obtain ⟨b, -, rfl⟩ := List.mem_map.mp (List.mem_reverse.mp hd)
    exact b.toNat_lt
  have := Nat.ofDigits_lt_base_pow_length Nat.one_lt_two digits
  rwa [List.length_reverse, List.length_map] at this

theorem binary_inj {bits bits' : List Bool} (length : bits.length = bits'.length) :
    binary bits = binary bits' ↔ bits = bits' := by
  refine ⟨fun same => ?_, congrArg binary⟩
  induction bits generalizing bits' with
  | nil => exact (List.length_eq_zero_iff.mp length.symm).symm
  | cons b bits ih =>
    cases bits' with
    | nil => cases length
    | cons b' bits' =>
      have tails : bits.length = bits'.length := Nat.succ.inj length
      have lt := binary_lt bits
      have lt' := binary_lt bits'
      rw [binary_cons, binary_cons, tails] at same
      rw [tails] at lt
      cases b <;> cases b' <;> simp only [Bool.toNat_false, Bool.toNat_true] at same
      · rw [ih tails (by omega)]
      · omega
      · omega
      · rw [ih tails (by omega)]

/-- The lowest bits of a number. -/
def lowBits (n m : Nat) : List Bool := (List.range n).map (fun i => m / 2 ^ (n - 1 - i) % 2 = 1)

theorem lowBits_succ (n m : Nat) : lowBits (n + 1) m = (m / 2 ^ n % 2 = 1 : Bool) :: lowBits n m := by
  rw [lowBits, List.range_succ_eq_map, List.map_cons, List.map_map]
  refine congrArg₂ List.cons rfl (List.map_congr_left fun i _ => ?_)
  have : n + 1 - 1 - (i + 1) = n - 1 - i := by omega
  simp only [Function.comp, Nat.succ_eq_add_one, this]

theorem binary_lowBits (n m : Nat) : binary (lowBits n m) = m % 2 ^ n := by
  induction n with
  | zero => simp [lowBits, Nat.mod_one]
  | succ n ih =>
    have length : (lowBits n m).length = n := by simp [lowBits]
    have bit : (decide (m / 2 ^ n % 2 = 1)).toNat = m / 2 ^ n % 2 := by
      rcases Nat.mod_two_eq_zero_or_one (m / 2 ^ n) with zero | one
      · simp [zero]
      · simp [one]
    rw [lowBits_succ, binary_cons, length, ih, bit, Nat.mod_pow_succ]
    ring

theorem binary_replicate_true (n : Nat) : binary (List.replicate n true) = 2 ^ n - 1 := by
  induction n with
  | zero => rfl
  | succ n ih =>
    have pos := Nat.two_pow_pos n
    rw [List.replicate_succ, binary_cons, List.length_replicate, ih, Nat.pow_succ, Bool.toNat_true]
    omega

theorem binary_replicate_false (n : Nat) : binary (List.replicate n false) = 0 := by
  induction n with
  | zero => rfl
  | succ n ih => rw [List.replicate_succ, binary_cons, ih, Bool.toNat_false, Nat.zero_mul]

end Goivy
