import Goivy.Mc.EncoderBits

/-! Ripple-carry arithmetic on vectors of literals. -/
namespace Goivy

open Aiger

namespace Encoder

/-- One round of the loop of `EncodePlusInt`: the sum and the carry. -/
def plusBit (a : Aiger) (x y cy : Nat) : Aiger × Nat × Nat :=
  let (a, half) := a.xor x y
  let (a, sum) := a.xor half cy
  let (a, both) := a.andl [x, y]
  let (a, left) := a.andl [x, cy]
  let (a, right) := a.andl [y, cy]
  let (a, carry) := a.orl [both, left, right]
  (a, sum, carry)

/-- `EncodePlusInt`, from the last bit to the first one. -/
def encodePlusInt : Aiger → List Nat → List Nat → Nat → Except EvalError (Aiger × List Nat × Nat)
  | a, [], _, cy => .ok (a, [], cy)
  | _, _ :: _, [], _ => .error .outOfRange
  | a, x :: xs, y :: ys, cy => do
    let (a, res, cy) ← encodePlusInt a xs ys cy
    let (a, sum, cy) := plusBit a x y cy
    return (a, sum :: res, cy)

def encodePlus (a : Aiger) (x y : List Nat) : Except EvalError (Aiger × List Nat) := do
  let (a, res, _) ← encodePlusInt a x y 0
  return (a, res)

def encodeMinus (a : Aiger) (x y : List Nat) : Except EvalError (Aiger × List Nat) := do
  let (a, res, _) ← encodePlusInt a x (notlMulti y) 1
  return (a, res)

/-- One round of the loop of `EncodeLt`. -/
def ltBit (a : Aiger) (x y cy : Nat) : Aiger × Nat :=
  let (a, less) := a.andl [Aiger.notl x, y]
  let (a, same) := a.iff x y
  let (a, kept) := a.andl [same, cy]
  a.orl [less, kept]

/-- The loop of `EncodeLt`. -/
def ltFrom : Aiger → List Nat → List Nat → Nat → Except EvalError (Aiger × Nat)
  | a, [], _, cy => .ok (a, cy)
  | _, _ :: _, [], _ => .error .outOfRange
  | a, x :: xs, y :: ys, cy => do
    let (a, cy) ← ltFrom a xs ys cy
    return ltBit a x y cy

def encodeLt (a : Aiger) (x y : List Nat) (cy : Nat) : Except EvalError (Aiger × List Nat) := do
  let (a, cy) ← ltFrom a x y cy
  return (a, [cy])

def encodeLe (a : Aiger) (x y : List Nat) : Except EvalError (Aiger × List Nat) := encodeLt a x y 1

/-- The loop of `EncodeTimes` over the bits of the first operand. -/
def timesFrom (y : List Nat) : Aiger → List Nat → List Nat → Except EvalError (Aiger × List Nat)
  | a, res, [] => .ok (a, res)
  | a, res, x :: xs => do
    let shifted := res.tail ++ [0]
    let (a, sum) ← encodePlus a shifted y
    let (a, chosen) ← encodeIte a x sum shifted
    timesFrom y a chosen xs

def encodeTimes (a : Aiger) (x y : List Nat) : Except EvalError (Aiger × List Nat) :=
  timesFrom y a (List.replicate x.length 0) x

/-- The loop of `BinDec`. -/
def binDecFrom (res : Int) : List Nat → Int
  | [] => res
  | l :: bits => binDecFrom (if l = 1 then machineInt (res + shiftOne bits.length) else res) bits

def binDec (bits : List Nat) : Int := binDecFrom 0 bits

end Encoder

/-- The carry and the sum of two bit vectors. -/
def addBits : List Bool → List Bool → Bool → Bool × List Bool
  | x :: xs, y :: ys, c =>
    let (carry, sum) := addBits xs ys c
    (x && y || (x && carry || y && carry), ((x != y) != carry) :: sum)
  | _, _, c => (c, [])

theorem addBits_spec {xs ys : List Bool} (length : xs.length = ys.length) (c : Bool) :
    (addBits xs ys c).2.length = xs.length ∧ (addBits xs ys c).1.toNat * 2 ^ xs.length +
      binary (addBits xs ys c).2 = binary xs + binary ys + c.toNat := by
  induction xs generalizing ys with
  | nil =>
    obtain rfl := List.length_eq_zero_iff.mp length.symm
    simp [addBits]
  | cons x xs ih =>
    cases ys with
    | nil => cases length
    | cons y ys =>
      obtain ⟨lengthSum, value⟩ := ih (Nat.succ.inj length)
      have tails : xs.length = ys.length := Nat.succ.inj length
      simp only [addBits, List.length_cons, lengthSum, true_and]
      rw [binary_cons, binary_cons, binary_cons, lengthSum, ← tails, Nat.pow_succ]
      generalize 2 ^ xs.length = p at value ⊢
      generalize binary (addBits xs ys c).2 = r at value ⊢
      generalize (addBits xs ys c).1 = carry at value ⊢
      cases x <;> cases y <;> cases carry <;> simp at value ⊢ <;> omega

/-- Less, or equal and the bit. -/
def ltBits : List Bool → List Bool → Bool → Bool
  | x :: xs, y :: ys, c => !x && y || (x == y) && ltBits xs ys c
  | _, _, c => c

theorem ltBits_spec {xs ys : List Bool} (length : xs.length = ys.length) (c : Bool) :
    ltBits xs ys c = true ↔ binary xs < binary ys + c.toNat := by
  induction xs generalizing ys with
  | nil =>
    obtain rfl := List.length_eq_zero_iff.mp length.symm
    cases c <;> simp [ltBits]
  | cons x xs ih =>
    cases ys with
    | nil => cases length
    | cons y ys =>
      have tails : xs.length = ys.length := Nat.succ.inj length
      have rest := ih tails
      have lt := binary_lt xs
      have lt' := binary_lt ys
      have carry := c.toNat_lt
      rw [ltBits, binary_cons, binary_cons, tails]
      rw [tails] at lt
      generalize 2 ^ ys.length = p at lt lt' ⊢
      cases x <;> cases y <;> simp [rest] <;> omega

/-- The bits of the complement. -/
theorem binary_not (bits : List Bool) : binary (bits.map (!·)) + binary bits + 1 = 2 ^ bits.length := by
  induction bits with
  | nil => rfl
  | cons b bits ih =>
    rw [List.map_cons, binary_cons, binary_cons, List.length_map, List.length_cons, Nat.pow_succ]
    generalize 2 ^ bits.length = p at ih ⊢
    cases b <;> simp only [Bool.not_false, Bool.not_true, Bool.toNat_true, Bool.toNat_false] <;> omega

theorem binary_append (xs ys : List Bool) :
    binary (xs ++ ys) = binary xs * 2 ^ ys.length + binary ys := by
  induction xs with
  | nil => simp
  | cons x xs ih =>
    rw [List.cons_append, binary_cons, binary_cons, ih, List.length_append, Nat.pow_add]
    ring

theorem binary_tail (xs : List Bool) : binary xs.tail = binary xs % 2 ^ (xs.length - 1) := by
  cases xs with
  | nil => rfl
  | cons x xs =>
    rw [List.tail_cons, binary_cons, List.length_cons, Nat.add_sub_cancel, Nat.mul_add_mod_self_right,
      Nat.mod_eq_of_lt (binary_lt xs)]

/-- The shift of the loop of a multiplication. -/
theorem binary_shift {xs : List Bool} {n : Nat} (length : xs.length = n + 1) :
    binary (xs.tail ++ [false]) = 2 * binary xs % 2 ^ (n + 1) := by
  rw [binary_append, binary_tail, length]
  simp only [List.length_singleton, Nat.pow_one, Nat.add_sub_cancel, binary_cons, List.length_nil,
    Bool.toNat_false, Nat.zero_mul, binary_nil, Nat.add_zero]
  rw [Nat.pow_succ, Nat.mul_comm 2, Nat.mul_mod_mul_right]

namespace Encoder

variable {a : Aiger} (numbered : a.Numbered)

include numbered

theorem plusBit_yields {x y cy : Nat} (hx : x < 2 * a.nextID) (hy : y < 2 * a.nextID)
    (hcy : cy < 2 * a.nextID) :
    a.YieldsBits ((plusBit a x y cy).1, [(plusBit a x y cy).2.2, (plusBit a x y cy).2.1])
      (fun v => [litValue v x && litValue v y || (litValue v x && litValue v cy || litValue v y && litValue v cy),
        (litValue v x != litValue v y) != litValue v cy]) := by
  have half := xor_yields numbered hx hy
  have sum := xor_yields half.grows.numbered half.exists_ (half.grows.exists_ hcy)
  have grows₂ := half.grows.trans sum.grows
  have both := andl_yields sum.grows.numbered [x, y] (by simp [grows₂.exists_ hx, grows₂.exists_ hy])
  have grows₃ := grows₂.trans both.grows
  have left := andl_yields both.grows.numbered [x, cy] (by simp [grows₃.exists_ hx, grows₃.exists_ hcy])
  have grows₄ := grows₃.trans left.grows
  have right := andl_yields left.grows.numbered [y, cy] (by simp [grows₄.exists_ hy, grows₄.exists_ hcy])
  have carry := orl_yields right.grows.numbered [_, _, _]
    (List.forall_mem_cons.mpr ⟨right.grows.exists_ (left.grows.exists_ both.exists_),
      List.forall_mem_cons.mpr ⟨right.grows.exists_ left.exists_, List.forall_mem_singleton.mpr right.exists_⟩⟩)
  have grows₅ := (both.grows.trans left.grows).trans (right.grows.trans carry.grows)
  refine ⟨grows₂.trans grows₅, ?_, fun v settled => ?_⟩
  · exact List.forall_mem_cons.mpr ⟨carry.exists_, List.forall_mem_singleton.mpr (grows₅.exists_ sum.exists_)⟩
  · have settled₄ := settled_of_grows carry.grows settled
    have settled₃ := settled_of_grows right.grows settled₄
    have settled₂ := settled_of_grows left.grows settled₃
    have settled₁ := settled_of_grows both.grows settled₂
    have carryValue := carry.means v settled
    simp only [List.any_cons, List.any_nil, Bool.or_false, both.means v settled₂, left.means v settled₃,
      right.means v settled₄, List.all_cons, List.all_nil, Bool.and_true] at carryValue
    have sumValue := sum.means v settled₁
    rw [half.means v (settled_of_grows sum.grows settled₁)] at sumValue
    rw [List.map_cons, List.map_singleton]
    exact congrArg₂ (fun c s => [c, s]) carryValue sumValue

theorem encodePlusInt_yields {xs ys : List Nat} {cy : Nat} (length : xs.length = ys.length)
    (hxs : ∀ x ∈ xs, x < 2 * a.nextID) (hys : ∀ y ∈ ys, y < 2 * a.nextID) (hcy : cy < 2 * a.nextID) :
    ∃ r, encodePlusInt a xs ys cy = .ok r ∧ r.2.1.length = xs.length ∧ a.YieldsBits (r.1, r.2.2 :: r.2.1)
      (fun v => (addBits (xs.map (litValue v)) (ys.map (litValue v)) (litValue v cy)).1 ::
        (addBits (xs.map (litValue v)) (ys.map (litValue v)) (litValue v cy)).2) := by
  induction xs generalizing ys with
  | nil =>
    refine ⟨(a, [], cy), rfl, rfl, .refl numbered, List.forall_mem_singleton.mpr hcy, fun v _ => ?_⟩
    rw [List.map_nil, addBits, List.map_singleton]
    simp
  | cons x xs ih =>
    cases ys with
    | nil => cases length
    | cons y ys =>
      rw [List.forall_mem_cons] at hxs hys
      obtain ⟨r, result, restLength, rest⟩ := ih (Nat.succ.inj length) hxs.2 hys.2
      have below := List.forall_mem_cons.mp rest.exists_
      have bit := plusBit_yields rest.grows.numbered (rest.grows.exists_ hxs.1) (rest.grows.exists_ hys.1) below.1
      have here := List.forall_mem_cons.mp bit.exists_
      refine ⟨((plusBit r.1 x y r.2.2).1, (plusBit r.1 x y r.2.2).2.1 :: r.2.1, (plusBit r.1 x y r.2.2).2.2),
        ?_, congrArg Nat.succ restLength, rest.grows.trans bit.grows, ?_, fun v settled => ?_⟩
      · rw [encodePlusInt, result]
        rfl
      · refine List.forall_mem_cons.mpr ⟨here.1, List.forall_mem_cons.mpr ⟨?_, fun l hl => ?_⟩⟩
        · exact here.2 _ List.mem_cons_self
        · exact bit.grows.exists_ (below.2 l hl)
      · have bitValue := bit.means v settled
        have restValue := rest.means v (settled_of_grows bit.grows settled)
        simp only [List.map_cons, List.map_nil, List.cons.injEq, and_true] at bitValue restValue
        simp only [List.map_cons, addBits, bitValue.1, bitValue.2, restValue.1, restValue.2]

theorem ltBit_yields {x y cy : Nat} (hx : x < 2 * a.nextID) (hy : y < 2 * a.nextID)
    (hcy : cy < 2 * a.nextID) : a.Yields (ltBit a x y cy) (fun v =>
      !litValue v x && litValue v y || (litValue v x == litValue v y) && litValue v cy) := by
  have less := andl_yields numbered [Aiger.notl x, y] (by simp [notl_lt hx, hy])
  have same := iff_yields less.grows.numbered (less.grows.exists_ hx) (less.grows.exists_ hy)
  have grows₂ := less.grows.trans same.grows
  have kept := andl_yields same.grows.numbered [_, cy]
    (List.forall_mem_cons.mpr ⟨same.exists_, List.forall_mem_singleton.mpr (grows₂.exists_ hcy)⟩)
  have result := orl_yields kept.grows.numbered [_, _]
    (List.forall_mem_cons.mpr ⟨kept.grows.exists_ (same.grows.exists_ less.exists_),
      List.forall_mem_singleton.mpr kept.exists_⟩)
  refine ⟨(grows₂.trans kept.grows).trans result.grows, result.exists_, fun v settled => ?_⟩
  have settled₃ := settled_of_grows result.grows settled
  have settled₂ := settled_of_grows kept.grows settled₃
  refine (result.means v settled).trans ?_
  simp only [List.any_cons, List.any_nil, Bool.or_false, kept.means v settled₃, List.all_cons, List.all_nil,
    Bool.and_true, same.means v settled₂, less.means v (settled_of_grows same.grows settled₂), litValue_notl]

theorem ltFrom_yields {xs ys : List Nat} {cy : Nat} (length : xs.length = ys.length)
    (hxs : ∀ x ∈ xs, x < 2 * a.nextID) (hys : ∀ y ∈ ys, y < 2 * a.nextID) (hcy : cy < 2 * a.nextID) :
    ∃ r, ltFrom a xs ys cy = .ok r ∧ a.Yields r
      (fun v => ltBits (xs.map (litValue v)) (ys.map (litValue v)) (litValue v cy)) := by
  induction xs generalizing ys with
  | nil => exact ⟨(a, cy), rfl, .refl numbered, hcy, fun v _ => rfl⟩
  | cons x xs ih =>
    cases ys with
    | nil => cases length
    | cons y ys =>
      rw [List.forall_mem_cons] at hxs hys
      obtain ⟨r, result, rest⟩ := ih (Nat.succ.inj length) hxs.2 hys.2
      have bit := ltBit_yields rest.grows.numbered (rest.grows.exists_ hxs.1) (rest.grows.exists_ hys.1)
        rest.exists_
      refine ⟨ltBit r.1 x y r.2, ?_, rest.grows.trans bit.grows, bit.exists_, fun v settled => ?_⟩
      · rw [ltFrom, result]
        rfl
      · rw [bit.means v settled, rest.means v (settled_of_grows bit.grows settled)]
        rfl

omit numbered in
/-- The sum without the carry. -/
theorem binary_sum {xs ys : List Bool} (length : xs.length = ys.length) (c : Bool) :
    binary (addBits xs ys c).2 = (binary xs + binary ys + c.toNat) % 2 ^ xs.length ∧
      (addBits xs ys c).1 = decide (2 ^ xs.length ≤ binary xs + binary ys + c.toNat) := by
  obtain ⟨lengthSum, value⟩ := addBits_spec length c
  have lt := binary_lt (addBits xs ys c).2
  rw [lengthSum] at lt
  rw [← value]
  refine ⟨?_, ?_⟩
  · rw [Nat.add_comm, Nat.add_mul_mod_self_right, Nat.mod_eq_of_lt lt]
  · cases (addBits xs ys c).1
    · simp [lt]
    · simp

end Encoder

/-- The number of a vector of literals. -/
def number (v : Nat → Bool) (bits : List Nat) : Nat := binary (bits.map (litValue v))

/-- A vector of `n` literals of a larger circuit that has the number wherever the gates settle. -/
structure Aiger.YieldsNumber (a : Aiger) (r : Aiger × List Nat) (n : Nat) (value : (Nat → Bool) → Nat) :
    Prop where
  grows : a.Grows r.1
  length : r.2.length = n
  exists_ : ∀ l ∈ r.2, l < 2 * r.1.nextID
  means : ∀ v, Circuit.Settled r.1.gates v → number v r.2 = value v

namespace Encoder

/-- An operation on vectors of `n` literals that computes a function of their numbers. -/
def Encodes (n : Nat) (op : Aiger → List Nat → List Nat → Except EvalError (Aiger × List Nat))
    (f : Nat → Nat → Nat) : Prop :=
  ∀ a : Aiger, a.Numbered → ∀ x y : List Nat, x.length = n → y.length = n →
    (∀ l ∈ x, l < 2 * a.nextID) → (∀ l ∈ y, l < 2 * a.nextID) →
    ∃ r, op a x y = .ok r ∧ a.YieldsNumber r n (fun v => f (number v x) (number v y))

/-- An operation whose only literal decides a relation between the numbers. -/
def Compares (n : Nat) (op : Aiger → List Nat → List Nat → Except EvalError (Aiger × List Nat))
    (f : Nat → Nat → Bool) : Prop :=
  ∀ a : Aiger, a.Numbered → ∀ x y : List Nat, x.length = n → y.length = n →
    (∀ l ∈ x, l < 2 * a.nextID) → (∀ l ∈ y, l < 2 * a.nextID) →
    ∃ r, op a x y = .ok (r.1, [r.2]) ∧ a.Yields r (fun v => f (number v x) (number v y))

theorem encodePlusInt_number {n : Nat} {a : Aiger} (numbered : a.Numbered) {x y : List Nat} {cy : Nat}
    (lengthX : x.length = n) (lengthY : y.length = n) (hx : ∀ l ∈ x, l < 2 * a.nextID)
    (hy : ∀ l ∈ y, l < 2 * a.nextID) (hcy : cy < 2 * a.nextID) :
    ∃ r, encodePlusInt a x y cy = .ok r ∧
      a.YieldsNumber (r.1, r.2.1) n (fun v => (number v x + number v y + (litValue v cy).toNat) % 2 ^ n) ∧
      a.Yields (r.1, r.2.2) (fun v => 2 ^ n ≤ number v x + number v y + (litValue v cy).toNat) := by
  obtain ⟨r, result, length, yields⟩ := encodePlusInt_yields numbered (lengthX.trans lengthY.symm) hx hy hcy
  have exist := List.forall_mem_cons.mp yields.exists_
  have value : ∀ v, Circuit.Settled r.1.gates v →
      litValue v r.2.2 = decide (2 ^ n ≤ number v x + number v y + (litValue v cy).toNat) ∧
      number v r.2.1 = (number v x + number v y + (litValue v cy).toNat) % 2 ^ n := by
    intro v settled
    have lengths : (x.map (litValue v)).length = (y.map (litValue v)).length := by
      rw [List.length_map, List.length_map, lengthX, lengthY]
    obtain ⟨sum, carry⟩ := binary_sum lengths (litValue v cy)
    rw [List.length_map, lengthX] at sum carry
    have := yields.means v settled
    rw [List.map_cons, List.cons.injEq] at this
    rw [this.1, show number v r.2.1 = binary (r.2.1.map (litValue v)) from rfl, this.2]
    exact ⟨carry, sum⟩
  exact ⟨r, result, ⟨yields.grows, length.trans lengthX, exist.2, fun v settled => (value v settled).2⟩,
    yields.grows, exist.1, fun v settled => (value v settled).1⟩

theorem one_lt_two_mul {a : Aiger} (numbered : a.Numbered) : 1 < 2 * a.nextID := by
  have := numbered.nextID
  omega

theorem encodePlus_number (n : Nat) : Encodes n encodePlus (fun x y => (x + y) % 2 ^ n) := by
  intro a numbered x y lengthX lengthY hx hy
  obtain ⟨r, result, sum, -⟩ := encodePlusInt_number numbered lengthX lengthY hx hy
    (Nat.lt_of_succ_lt (one_lt_two_mul numbered))
  refine ⟨(r.1, r.2.1), ?_, sum⟩
  rw [encodePlus, result]
  rfl

theorem number_notl (v : Nat → Bool) (y : List Nat) : number v (notlMulti y) = 2 ^ y.length - 1 - number v y := by
  have := binary_not (y.map (litValue v))
  rw [List.map_map, List.length_map] at this
  have complement : (notlMulti y).map (litValue v) = y.map ((!·) ∘ litValue v) := by
    rw [notlMulti, List.map_map]
    exact List.map_congr_left fun l _ => litValue_notl v l
  rw [number, number, complement]
  omega

theorem encodeMinus_number (n : Nat) : Encodes n encodeMinus (fun x y => (x + 2 ^ n - y) % 2 ^ n) := by
  intro a numbered x y lengthX lengthY hx hy
  have complement : ∀ l ∈ notlMulti y, l < 2 * a.nextID := by
    intro l hl
    obtain ⟨z, hz, rfl⟩ := List.mem_map.mp hl
    exact notl_lt (hy z hz)
  have lengthC : (notlMulti y).length = n := (List.length_map _).trans lengthY
  obtain ⟨r, result, difference, -⟩ := encodePlusInt_number numbered lengthX lengthC hx complement
    (one_lt_two_mul numbered)
  refine ⟨(r.1, r.2.1), ?_, difference.grows, difference.length, difference.exists_, fun v settled => ?_⟩
  · rw [encodeMinus, result]
    rfl
  · have lt := binary_lt (y.map (litValue v))
    rw [List.length_map, lengthY] at lt
    rw [difference.means v settled, number_notl, lengthY, litValue_one, Bool.toNat_true]
    congr 1
    simp only [number] at lt ⊢
    omega

theorem encodeLt_compares (n : Nat) (c : Bool) : Compares n (fun a x y => encodeLt a x y c.toNat)
    (fun x y => x < y + c.toNat) := by
  intro a numbered x y lengthX lengthY hx hy
  have exist : c.toNat < 2 * a.nextID := Nat.lt_of_le_of_lt c.toNat_le (one_lt_two_mul numbered)
  obtain ⟨r, result, yields⟩ := ltFrom_yields numbered (lengthX.trans lengthY.symm) hx hy exist
  refine ⟨r, ?_, yields.congr fun v => ?_⟩
  · simp only [encodeLt, result]
    rfl
  · have lengths : (x.map (litValue v)).length = (y.map (litValue v)).length := by
      rw [List.length_map, List.length_map, lengthX, lengthY]
    have carry : litValue v c.toNat = c := by cases c <;> rfl
    rw [carry]
    exact Bool.eq_iff_iff.mpr ((ltBits_spec lengths c).trans decide_eq_true_iff.symm)

/-- A choice between two vectors. -/
theorem encodeIte_number {n : Nat} {a : Aiger} (numbered : a.Numbered) {c : Nat} {x y : List Nat}
    (hc : c < 2 * a.nextID) (lengthX : x.length = n) (lengthY : y.length = n)
    (hx : ∀ l ∈ x, l < 2 * a.nextID) (hy : ∀ l ∈ y, l < 2 * a.nextID) :
    ∃ r, encodeIte a c x y = .ok r ∧
      a.YieldsNumber r n (fun v => bif litValue v c then number v x else number v y) := by
  obtain ⟨r, result, length, yields⟩ := zipBits_yields numbered (computes_ite hc)
    (lengthX.trans lengthY.symm) hx hy
  refine ⟨r, result, yields.grows, length.trans lengthX, yields.exists_, fun v settled => ?_⟩
  have lengths : (x.map (litValue v)).length = (y.map (litValue v)).length := by
    rw [List.length_map, List.length_map, lengthX, lengthY]
  rw [number, yields.means v settled, zipWith_bif (litValue v c) lengths]
  cases litValue v c <;> rfl

theorem timesFrom_number {n : Nat} {y : List Nat} (lengthY : y.length = n + 1) {a : Aiger}
    (numbered : a.Numbered) {res xs : List Nat} (lengthRes : res.length = n + 1)
    (hy : ∀ l ∈ y, l < 2 * a.nextID) (hres : ∀ l ∈ res, l < 2 * a.nextID) (hxs : ∀ l ∈ xs, l < 2 * a.nextID) :
    ∃ r, timesFrom y a res xs = .ok r ∧ a.YieldsNumber r (n + 1)
      (fun v => (number v res * 2 ^ xs.length + number v xs * number v y) % 2 ^ (n + 1)) := by
  induction xs generalizing a res with
  | nil =>
    refine ⟨(a, res), rfl, .refl numbered, lengthRes, hres, fun v _ => ?_⟩
    have lt := binary_lt (res.map (litValue v))
    rw [List.length_map, lengthRes] at lt
    simp [number, Nat.mod_eq_of_lt lt]
  | cons x xs ih =>
    rw [List.forall_mem_cons] at hxs
    have lengthShifted : (res.tail ++ [0]).length = n + 1 := by simp [lengthRes]
    have hshifted : ∀ l ∈ res.tail ++ [0], l < 2 * a.nextID := by
      intro l hl
      rcases List.mem_append.mp hl with mem | mem
      · exact hres l (List.mem_of_mem_tail mem)
      · rw [List.mem_singleton.mp mem]
        exact Nat.lt_of_succ_lt (one_lt_two_mul numbered)
    obtain ⟨s, plus, sum⟩ := encodePlus_number (n + 1) a numbered _ _ lengthShifted lengthY hshifted hy
    obtain ⟨t, ite, chosen⟩ := encodeIte_number sum.grows.numbered (sum.grows.exists_ hxs.1) sum.length
      lengthShifted sum.exists_ fun l hl => sum.grows.exists_ (hshifted l hl)
    have grows := sum.grows.trans chosen.grows
    obtain ⟨r, rest, yields⟩ := ih chosen.grows.numbered chosen.length (fun l hl => grows.exists_ (hy l hl))
      chosen.exists_ fun l hl => grows.exists_ (hxs.2 l hl)
    refine ⟨r, ?_, grows.trans yields.grows, yields.length, yields.exists_, fun v settled => ?_⟩
    · simp only [timesFrom, plus, ite, bind, Except.bind]
      exact rest
    · have settled₂ := settled_of_grows yields.grows settled
      have shift : number v (res.tail ++ [0]) = 2 * number v res % 2 ^ (n + 1) := by
        rw [number, List.map_append, List.map_tail, List.map_singleton, litValue_zero]
        exact binary_shift (by rw [List.length_map, lengthRes])
      have value : number v t.2 ≡ 2 * number v res + (litValue v x).toNat * number v y [MOD 2 ^ (n + 1)] := by
        rw [chosen.means v settled₂, sum.means v (settled_of_grows chosen.grows settled₂), shift]
        cases litValue v x
        · simpa using Nat.mod_modEq _ _
        · simpa using (Nat.mod_modEq _ _).trans ((Nat.mod_modEq _ _).add_right _)
      have first : number v (x :: xs) = (litValue v x).toNat * 2 ^ xs.length + number v xs := by
        rw [number, List.map_cons, binary_cons, List.length_map]
        rfl
      have step : (2 * number v res + (litValue v x).toNat * number v y) * 2 ^ xs.length +
          number v xs * number v y =
          number v res * 2 ^ (xs.length + 1) + number v (x :: xs) * number v y := by
        rw [first]
        ring
      rw [yields.means v settled, List.length_cons, ← step]
      exact (value.mul_right _).add_right _

theorem encodeTimes_number (n : Nat) : Encodes n encodeTimes (fun x y => x * y % 2 ^ n) := by
  intro a numbered x y lengthX lengthY hx hy
  cases n with
  | zero =>
    obtain rfl := List.length_eq_zero_iff.mp lengthX
    exact ⟨(a, []), rfl, .refl numbered, rfl, hx, fun v _ => by simp [number]⟩
  | succ n =>
    have zeros : ∀ l ∈ List.replicate x.length 0, l < 2 * a.nextID := fun l hl => by
      rw [List.eq_of_mem_replicate hl]
      exact Nat.lt_of_succ_lt (one_lt_two_mul numbered)
    obtain ⟨r, result, yields⟩ := timesFrom_number lengthY numbered
      (List.length_replicate.trans lengthX) hy zeros hx
    refine ⟨r, result, yields.grows, yields.length, yields.exists_, fun v settled => ?_⟩
    have zero : number v (List.replicate x.length 0) = 0 := by
      rw [number, List.map_replicate, litValue_zero, binary_replicate_false]
    rw [yields.means v settled, zero, Nat.zero_mul, Nat.zero_add]

theorem binEnc_succ (m n : Nat) : binEnc m (n + 1) =
    (if n < 64 ∧ m / 2 ^ n % 2 = 1 then 1 else 0) :: binEnc m n := by
  have bit : ((m : Int) / 2 ^ n % 2 = 1) ↔ m / 2 ^ n % 2 = 1 := by exact_mod_cast Iff.rfl
  rw [binEnc, List.range_succ_eq_map, List.map_cons, List.map_map]
  refine congrArg₂ List.cons (if_congr (and_congr_right fun _ => bit) rfl rfl)
    (List.map_congr_left fun i _ => ?_)
  have : n + 1 - 1 - (i + 1) = n - 1 - i := by omega
  simp only [Function.comp, Nat.succ_eq_add_one, this]

theorem binDecFrom_binEnc {m : Nat} (small : m < 2 ^ 63) (n : Nat) :
    binDecFrom ((m : Int) - (m % 2 ^ n : Nat)) (binEnc m n) = m := by
  induction n with
  | zero => simp [binEnc, binDecFrom, Nat.mod_one]
  | succ n ih =>
    have lengthEnc : (binEnc m n).length = n := by simp [binEnc]
    have split := Nat.mod_pow_succ (b := 2) (k := n) (x := m)
    rw [binEnc_succ, binDecFrom, lengthEnc, split]
    rcases Nat.mod_two_eq_zero_or_one (m / 2 ^ n) with zero | one
    · simp only [zero, Nat.zero_ne_one, and_false, if_false, Nat.mul_zero, Nat.add_zero]
      exact ih
    · have le : 2 ^ n ≤ m := by
        by_contra small
        rw [Nat.div_eq_of_lt (by omega)] at one
        cases one
      have narrow : n ≤ 62 := by
        have : 2 ^ n < 2 ^ 63 := by omega
        have := (Nat.pow_lt_pow_iff_right (by decide)).mp this
        omega
      have below : m % 2 ^ n + 2 ^ n ≤ m := by
        have := Nat.mod_le m (2 ^ (n + 1))
        rw [split, one] at this
        omega
      have inside : n < 64 := by omega
      simp only [one, inside, and_self, if_true, shiftOne_eq narrow]
      rw [machineInt_eq (by omega) (by omega)]
      refine Eq.trans (congrArg (fun res => binDecFrom res (binEnc m n)) ?_) ih
      omega

theorem binDec_binEnc {m n : Nat} (small : m < 2 ^ 63) (fits : m < 2 ^ n) : binDec (binEnc m n) = m := by
  have := binDecFrom_binEnc small n
  rwa [Nat.mod_eq_of_lt fits, Int.sub_self] at this

/-- What the operations on vectors of `n` literals are to compute, with the number of the vector as
its value. -/
structure Arithmetic (n : Nat) : Prop where
  plus : Encodes n encodePlus (fun x y => (x + y) % 2 ^ n)
  minus : Encodes n encodeMinus (fun x y => (x + 2 ^ n - y) % 2 ^ n)
  times : Encodes n encodeTimes (fun x y => x * y % 2 ^ n)
  less : Compares n (fun a x y => encodeLt a x y 0) (fun x y => x < y)
  atMost : Compares n (fun a x y => encodeLt a x y 1) (fun x y => x ≤ y)
  plusInt : ∀ a : Aiger, a.Numbered → ∀ (x y : List Nat) (cy : Nat), x.length = n → y.length = n →
    (∀ l ∈ x, l < 2 * a.nextID) → (∀ l ∈ y, l < 2 * a.nextID) → cy < 2 * a.nextID →
    ∃ r, encodePlusInt a x y cy = .ok r ∧
      a.YieldsNumber (r.1, r.2.1) n (fun v => (number v x + number v y + (litValue v cy).toNat) % 2 ^ n) ∧
      a.Yields (r.1, r.2.2) (fun v => 2 ^ n ≤ number v x + number v y + (litValue v cy).toNat)
  geBin : ∀ a : Aiger, a.Numbered → ∀ (bits : List Nat) (k : Nat), bits.length = n → k < 2 ^ 63 →
    (∀ l ∈ bits, l < 2 * a.nextID) →
    ∃ r, geBin a bits k = .ok r ∧ a.Yields r (fun v => k ≤ number v bits)
  roundTrip : ∀ m : Nat, m < 2 ^ n → m < 2 ^ 63 → binDec (binEnc m n) = m

theorem shiftOne_wide {n : Nat} (wide : 63 ≤ n) : shiftOne n ≤ 0 := by
  obtain rfl | wider := Nat.eq_or_lt_of_le wide
  · decide
  · obtain ⟨k, rfl⟩ := Nat.exists_eq_add_of_le wider
    have zero : (2 : Int) ^ (63 + 1 + k) = 2 ^ 64 * 2 ^ k := pow_add 2 64 k
    rw [shiftOne, machineInt, Nat.succ_eq_add_one, zero]
    exact (Int.mul_bmod_right (2 ^ 64) (2 ^ k)).le

/-- Vectors of 63 literals and more are not at least one. -/
theorem geBin_wide {n : Nat} (wide : 63 ≤ n) (a : Aiger) :
    geBin a (List.replicate n 1) (1 : Nat) = .ok (a, 0) := by
  obtain ⟨k, rfl⟩ := Nat.exists_eq_add_of_le' (Nat.le_trans (by decide : 1 ≤ 63) wide)
  have shifted := shiftOne_wide wide
  rw [List.replicate_succ, geBin, List.length_replicate, if_neg (by decide), if_pos (by omega)]

/-- The operations are arithmetic modulo a power of two where the widths are at most 62. -/
theorem arithmetic_iff (n : Nat) : Arithmetic n ↔ n ≤ 62 := by
  refine ⟨fun arithmetic => ?_, fun narrow => ?_⟩
  · by_contra wide
    have numbered : (Aiger.new [] [] []).Numbered := ⟨trivial, rfl, fun _ => Nat.zero_lt_two.trans_le (by decide)⟩
    have ones : ∀ l ∈ List.replicate n 1, l < 2 * (Aiger.new [] [] []).nextID := fun l hl => by
      rw [List.eq_of_mem_replicate hl]
      decide
    obtain ⟨r, result, yields⟩ := arithmetic.geBin _ numbered _ 1 List.length_replicate (by decide) ones
    rw [geBin_wide (by omega)] at result
    cases result
    have := yields.means (fun _ => false) fun g hg => absurd hg List.not_mem_nil
    have pos : 2 ≤ 2 ^ n := Nat.le_self_pow (by omega) 2
    rw [litValue_zero, number, List.map_replicate, litValue_one, binary_replicate_true] at this
    simp only [eq_comm (a := false), decide_eq_false_iff_not] at this
    omega
  · refine ⟨encodePlus_number n, encodeMinus_number n, encodeTimes_number n, ?_, ?_, ?_, ?_, ?_⟩
    · exact encodeLt_compares n false
    · have := encodeLt_compares n true
      simpa only [Bool.toNat_true, Nat.lt_succ_iff] using this
    · exact fun a numbered x y cy lengthX lengthY hx hy hcy =>
        encodePlusInt_number numbered lengthX lengthY hx hy hcy
    · exact fun a numbered bits k length _ exist => geBin_yields numbered (length.trans_le narrow) exist k
    · exact fun m fits small => binDec_binEnc small fits

/-- A vector of 63 true literals has a large number, but it is not at least one. -/
theorem geBin_sixtyThree : geBin (.new [] [] []) (List.replicate 63 1) (1 : Nat) = .ok (.new [] [] [], 0) ∧
    ∀ v, 1 ≤ number v (List.replicate 63 1) ∧ litValue v 0 = false := by
  refine ⟨geBin_wide (by decide) _, fun v => ⟨?_, litValue_zero v⟩⟩
  rw [number, List.map_replicate, litValue_one, binary_replicate_true]
  decide

end Encoder

end Goivy
