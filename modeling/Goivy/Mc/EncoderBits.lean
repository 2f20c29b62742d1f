import Goivy.Mc.Encoder
import Goivy.Mc.Numbering
import Goivy.Util.Binary

/-! What the operations on vectors of literals add, bit by bit. -/
namespace Goivy

open Aiger

/-- Literals of a larger circuit that have the values wherever the gates settle. -/
structure Aiger.YieldsBits (a : Aiger) (r : Aiger × List Nat) (value : (Nat → Bool) → List Bool) :
    Prop where
  grows : a.Grows r.1
  exists_ : ∀ l ∈ r.2, l < 2 * r.1.nextID
  means : ∀ v, Circuit.Settled r.1.gates v → r.2.map (litValue v) = value v

namespace Aiger

theorem YieldsBits.nil {a : Aiger} (numbered : a.Numbered) : a.YieldsBits (a, []) (fun _ => []) :=
  ⟨.refl numbered, fun _ h => absurd h List.not_mem_nil, fun _ _ => rfl⟩

theorem Yields.cons {a : Aiger} {r : Aiger × Nat} {rs : Aiger × List Nat}
    {value : (Nat → Bool) → Bool} {values : (Nat → Bool) → List Bool} (head : a.Yields r value)
    (tail : r.1.YieldsBits rs values) :
    a.YieldsBits (rs.1, r.2 :: rs.2) (fun v => value v :: values v) := by
  refine ⟨head.grows.trans tail.grows, ?_, fun v settled => ?_⟩
  · rw [List.forall_mem_cons]
    exact ⟨tail.grows.exists_ head.exists_, tail.exists_⟩
  · rw [List.map_cons, tail.means v settled, head.means v (settled_of_grows tail.grows settled)]

theorem Yields.single {a : Aiger} {r : Aiger × Nat} {value : (Nat → Bool) → Bool}
    (h : a.Yields r value) : a.YieldsBits (r.1, [r.2]) (fun v => [value v]) :=
  h.cons (.nil h.grows.numbered)

theorem YieldsBits.after {a b : Aiger} {r : Aiger × List Nat} {value : (Nat → Bool) → List Bool}
    (h : b.YieldsBits r value) (grows : a.Grows b) : a.YieldsBits r value :=
  ⟨grows.trans h.grows, h.exists_, h.means⟩

theorem Yields.andl {a : Aiger} {r : Aiger × Nat} {value : (Nat → Bool) → Bool}
    (h : a.Yields r value) {l : Nat} (hl : l < 2 * a.nextID) :
    a.Yields (r.1.andl [l, r.2]) (fun v => litValue v l && value v) := by
  have gate := andl_yields h.grows.numbered [l, r.2] (by simp [h.grows.exists_ hl, h.exists_])
  refine ⟨h.grows.trans gate.grows, gate.exists_, fun v settled => ?_⟩
  simp [gate.means v settled, h.means v (settled_of_grows gate.grows settled)]

theorem Yields.orl {a : Aiger} {r : Aiger × Nat} {value : (Nat → Bool) → Bool}
    (h : a.Yields r value) {l : Nat} (hl : l < 2 * a.nextID) :
    a.Yields (r.1.orl [l, r.2]) (fun v => litValue v l || value v) := by
  have gate := orl_yields h.grows.numbered [l, r.2] (by simp [h.grows.exists_ hl, h.exists_])
  refine ⟨h.grows.trans gate.grows, gate.exists_, fun v settled => ?_⟩
  simp [gate.means v settled, h.means v (settled_of_grows gate.grows settled)]

theorem Yields.congr {a : Aiger} {r : Aiger × Nat} {value value' : (Nat → Bool) → Bool}
    (h : a.Yields r value) (same : ∀ v, value v = value' v) : a.Yields r value' :=
  ⟨h.grows, h.exists_, fun v settled => (h.means v settled).trans (same v)⟩

end Aiger

namespace Encoder

/-- An operation on two literals that still exist, and what it computes. -/
def Computes (a : Aiger) (op : Aiger → Nat → Nat → Aiger × Nat)
    (f : (Nat → Bool) → Bool → Bool → Bool) : Prop :=
  ∀ b, a.Grows b → ∀ x y, x < 2 * b.nextID → y < 2 * b.nextID →
    b.Yields (op b x y) (fun v => f v (litValue v x) (litValue v y))

theorem zipBits_yields {a : Aiger} (numbered : a.Numbered) {op : Aiger → Nat → Nat → Aiger × Nat}
    {f : (Nat → Bool) → Bool → Bool → Bool} (computes : Computes a op f) {xs ys : List Nat}
    (length : xs.length = ys.length) (hxs : ∀ x ∈ xs, x < 2 * a.nextID)
    (hys : ∀ y ∈ ys, y < 2 * a.nextID) :
    ∃ r, zipBits op a xs ys = .ok r ∧ r.2.length = xs.length ∧
      a.YieldsBits r (fun v => List.zipWith (f v) (xs.map (litValue v)) (ys.map (litValue v))) := by
  induction xs generalizing a ys with
  | nil => exact ⟨(a, []), rfl, rfl, .nil numbered⟩
  | cons x xs ih =>
    cases ys with
    | nil => cases length
    | cons y ys =>
      rw [List.forall_mem_cons] at hxs hys
      have head := computes a (.refl numbered) x y hxs.1 hys.1
      obtain ⟨r, tail, tailLength, yields⟩ := ih head.grows.numbered
        (fun b grows => computes b (head.grows.trans grows)) (Nat.succ.inj length)
        (fun z hz => head.grows.exists_ (hxs.2 z hz)) (fun z hz => head.grows.exists_ (hys.2 z hz))
      refine ⟨(r.1, (op a x y).2 :: r.2), ?_, congrArg Nat.succ tailLength, head.cons yields⟩
      rw [zipBits, tail]
      rfl

theorem computes_iff {a : Aiger} : Computes a Aiger.iff (fun _ x y => x == y) :=
  fun _ grows _ _ hx hy => iff_yields grows.numbered hx hy

theorem computes_impliesL {a : Aiger} : Computes a Aiger.impliesL (fun _ x y => !x || y) :=
  fun _ grows _ _ hx hy => impliesL_yields grows.numbered hx hy

theorem computes_ite {a : Aiger} {c : Nat} (hc : c < 2 * a.nextID) :
    Computes a (fun a x y => a.ite c x y) (fun v x y => bif litValue v c then x else y) :=
  fun _ grows _ _ hx hy => ite_yields grows.numbered (grows.exists_ hc) hx hy

/-- One bit of each argument. -/
theorem foldBits_single {op : Aiger → List Nat → Aiger × Nat} {a : Aiger} (xs : List Nat) :
    foldBits op (xs.map ([·])) a (List.range 1) = ((op a xs).1, [(op a xs).2]) := by
  have heads : (xs.map ([·])).map (fun x => x.getD 0 0) = xs := by
    rw [List.map_map]
    exact List.map_id _
  simp only [List.range_one, foldBits, heads]

theorem andlMulti_single (a : Aiger) (xs : List Nat) :
    andlMulti a (xs.map ([·])) = ((a.andl xs).1, [(a.andl xs).2]) := by
  cases xs with
  | nil => rfl
  | cons x xs =>
    rw [List.map_cons, andlMulti, List.length_singleton, ← List.map_cons (f := ([·]))]
    exact foldBits_single (x :: xs)

theorem orlMulti_single (a : Aiger) (xs : List Nat) :
    orlMulti a (xs.map ([·])) = ((a.orl xs).1, [(a.orl xs).2]) := by
  cases xs with
  | nil => rfl
  | cons x xs =>
    rw [List.map_cons, orlMulti, List.length_singleton, ← List.map_cons (f := ([·]))]
    exact foldBits_single (x :: xs)

theorem zipWith_bif (b : Bool) {xs ys : List Bool} (length : xs.length = ys.length) :
    List.zipWith (fun x y => bif b then x else y) xs ys = bif b then xs else ys := by
  induction xs generalizing ys with
  | nil =>
    obtain rfl := List.length_eq_zero_iff.mp length.symm
    cases b <;> rfl
  | cons x xs ih =>
    cases ys with
    | nil => cases length
    | cons y ys =>
      rw [List.zipWith_cons_cons, ih (Nat.succ.inj length)]
      cases b <;> rfl

theorem binEnc_lowBits {m n : Nat} (hn : n ≤ 64) (v : Nat → Bool) :
    (binEnc m n).map (litValue v) = lowBits n m := by
  rw [binEnc, List.map_map, lowBits]
  refine List.map_congr_left fun i _ => ?_
  have bit : ((m : Int) / 2 ^ (n - 1 - i) % 2 = 1) ↔ m / 2 ^ (n - 1 - i) % 2 = 1 := by
    exact_mod_cast Iff.rfl
  by_cases lt : n - 1 - i < 64
  · simp only [Function.comp, lt, true_and, bit]
    split
    · simp_all
    · simp_all
  · omega

theorem binEnc_exists {a : Aiger} (numbered : a.Numbered) {m : Int} {n l : Nat}
    (hl : l ∈ binEnc m n) : l < 2 * a.nextID := by
  have := numbered.nextID
  obtain ⟨i, -, rfl⟩ := List.mem_map.mp hl
  split <;> omega

theorem geBin_yields {a : Aiger} (numbered : a.Numbered) {bits : List Nat} (width : bits.length ≤ 62)
    (exist : ∀ l ∈ bits, l < 2 * a.nextID) (n : Nat) :
    ∃ r, geBin a bits n = .ok r ∧
      a.Yields r (fun v => n ≤ binary (bits.map (litValue v))) := by
  have constant : ∀ {l : Nat} {value : (Nat → Bool) → Bool}, l < 2 →
      (∀ v, litValue v l = value v) → a.Yields (a, l) value := fun small means =>
    ⟨.refl numbered, by have := numbered.nextID; simp only; omega, fun v _ => means v⟩
  induction bits generalizing n with
  | nil =>
    obtain rfl | pos := Nat.eq_zero_or_pos n
    · exact ⟨(a, 1), rfl, constant (by decide) fun v => by simp⟩
    · have ne : (n : Int) ≠ 0 := by omega
      have one : (1 : Int) ≤ n := by omega
      refine ⟨(a, 0), by rw [geBin, if_neg ne, if_pos one], constant (by decide) fun v => ?_⟩
      simp [Nat.ne_of_gt pos]
  | cons b bits ih =>
    rw [List.forall_mem_cons] at exist
    rw [List.length_cons] at width
    have half := shiftOne_eq (n := bits.length) (by omega)
    have all := shiftOne_eq (n := bits.length + 1) (by omega)
    have lt : ∀ v, binary (bits.map (litValue v)) < 2 ^ bits.length := fun v => by
      have := binary_lt (bits.map (litValue v))
      rwa [List.length_map] at this
    have value : ∀ v, binary ((b :: bits).map (litValue v)) =
        (litValue v b).toNat * 2 ^ bits.length + binary (bits.map (litValue v)) := fun v => by
      rw [List.map_cons, binary_cons, List.length_map]
    have double : 2 ^ (bits.length + 1) = 2 * 2 ^ bits.length := by
      rw [Nat.pow_succ, Nat.mul_comm]
    obtain rfl | pos := Nat.eq_zero_or_pos n
    · exact ⟨(a, 1), if_pos rfl, constant (by decide) fun v => by simp⟩
    have ne : ¬ (n : Int) = 0 := by omega
    rw [geBin, if_neg ne, all, half]
    by_cases large : 2 ^ (bits.length + 1) ≤ n
    · refine ⟨(a, 0), if_pos (by exact_mod_cast large), constant (by decide) fun v => ?_⟩
      have := lt v
      rw [litValue_zero, eq_comm, decide_eq_false_iff_not, value]
      cases litValue v b <;> simp only [Bool.toNat_false, Bool.toNat_true] <;> omega
    rw [if_neg (by exact_mod_cast large)]
    by_cases upper : 2 ^ bits.length ≤ n
    · have less : machineInt ((n : Int) - ((2 ^ bits.length : Nat) : Int)) =
          ((n - 2 ^ bits.length : Nat) : Int) := by
        have bound : 2 ^ bits.length ≤ 2 ^ 61 := Nat.pow_le_pow_right (by decide) (by omega)
        rw [machineInt_eq (by omega) (by omega)]
        omega
      obtain ⟨r, rest, yields⟩ := ih (by omega) exist.2 (n - 2 ^ bits.length)
      refine ⟨r.1.andl [b, r.2], ?_, (yields.andl exist.1).congr fun v => ?_⟩
      · rw [if_pos (by exact_mod_cast upper), less, rest]
        rfl
      · have := lt v
        rw [value]
        cases litValue v b
        · simp only [Bool.toNat_false, Bool.false_and, eq_comm (a := false), decide_eq_false_iff_not]
          omega
        · simp only [Bool.toNat_true, Bool.true_and, decide_eq_decide]
          omega
    · obtain ⟨r, rest, yields⟩ := ih (by omega) exist.2 n
      refine ⟨r.1.orl [b, r.2], ?_, (yields.orl exist.1).congr fun v => ?_⟩
      · rw [if_neg (by exact_mod_cast upper), rest]
        rfl
      · rw [value]
        cases litValue v b
        · simp only [Bool.toNat_false, Bool.false_or, decide_eq_decide]
          omega
        · simp only [Bool.toNat_true, Bool.true_or, eq_comm (a := true), decide_eq_true_iff]
          omega

/-- The comparison with the last value of a sort. At 63 bits the bound is negative, and the
literal is false. -/
theorem geBin_last {a : Aiger} (numbered : a.Numbered) {bits : List Nat} {last : Nat}
    (width : bits.length ≤ 62 ∨ bits.length = 63 ∧ last = 2 ^ 63 - 1)
    (exist : ∀ l ∈ bits, l < 2 * a.nextID) :
    ∃ r, geBin a bits last = .ok r ∧
      a.Yields r (fun v => bits.length ≤ 62 ∧ last ≤ binary (bits.map (litValue v))) := by
  obtain narrow | ⟨wide, rfl⟩ := width
  · obtain ⟨r, result, yields⟩ := geBin_yields numbered narrow exist last
    exact ⟨r, result, yields.congr fun v => by simp [narrow]⟩
  · refine ⟨(a, 0), ?_, .refl numbered, ?_, fun v _ => ?_⟩
    · cases bits with
      | nil => cases wide
      | cons b bits =>
        rw [List.length_cons] at wide
        rw [geBin, wide, if_neg (by decide), if_pos (by decide)]
    · have := numbered.nextID
      simp only
      omega
    · simp [wide]

theorem zipWith_beq_all {xs ys : List Bool} (length : xs.length = ys.length) :
    (List.zipWith (· == ·) xs ys).all id = decide (xs = ys) := by
  induction xs generalizing ys with
  | nil =>
    obtain rfl := List.length_eq_zero_iff.mp length.symm
    rfl
  | cons x xs ih =>
    cases ys with
    | nil => cases length
    | cons y ys =>
      rw [List.zipWith_cons_cons, List.all_cons, ih (Nat.succ.inj length)]
      cases x <;> cases y <;> simp

/-- Codes denote the same value where they are equal or both at least the last one. -/
theorem min_eq_min {m n last : Nat} : min m last = min n last ↔ m = n ∨ last ≤ m ∧ last ≤ n := by
  omega

theorem encodeEquality_yields {a : Aiger} (numbered : a.Numbered) {nvals : Int} {last : Nat}
    (size : machineInt (nvals - 1) = last) {x y : List Nat} (length : x.length = y.length)
    (width : x.length ≤ 62 ∨ x.length = 63 ∧ last = 2 ^ 63 - 1)
    (hx : ∀ l ∈ x, l < 2 * a.nextID) (hy : ∀ l ∈ y, l < 2 * a.nextID) :
    ∃ r, encodeEquality a nvals [x, y] = .ok r ∧ r.2.length = 1 ∧
      a.YieldsBits r (fun v => [decide (min (binary (x.map (litValue v))) last =
        min (binary (y.map (litValue v))) last)]) := by
  obtain ⟨⟨a₁, iffs⟩, zipped, -, iffYields⟩ := zipBits_yields numbered computes_iff length hx hy
  have eqsYields := andl_yields iffYields.grows.numbered iffs iffYields.exists_
  generalize eqsEq : a₁.andl iffs = eqs at eqsYields
  have grows₂ := iffYields.grows.trans eqsYields.grows
  obtain ⟨r₃, geX, yieldsX⟩ := geBin_last eqsYields.grows.numbered width
    fun l hl => grows₂.exists_ (hx l hl)
  have grows₃ := grows₂.trans yieldsX.grows
  obtain ⟨r₄, geY, yieldsY⟩ := geBin_last yieldsX.grows.numbered (length ▸ width)
    fun l hl => grows₃.exists_ (hy l hl)
  have altYields := (yieldsX.cons yieldsY.single)
  have alt := andl_yields altYields.grows.numbered [r₃.2, r₄.2] altYields.exists_
  generalize altEq : r₄.1.andl [r₃.2, r₄.2] = alts at alt
  have grows₄ := altYields.grows.trans alt.grows
  have result := orl_yields alt.grows.numbered [eqs.2, alts.2]
    (by simp [grows₄.exists_ eqsYields.exists_, alt.exists_])
  have computed : encodeEquality a nvals [x, y] = .ok ((alts.1.orl [eqs.2, alts.2]).1,
      [(alts.1.orl [eqs.2, alts.2]).2]) := by
    simp only [encodeEquality, zipped, size, geAll, geX, geY, bind, Except.bind, pure, Except.pure,
      eqsEq, altEq]
  refine ⟨_, computed, rfl, ((grows₂.trans grows₄).trans result.grows), result.single.exists_,
    fun v settled => ?_⟩
  have settled₄ := settled_of_grows result.grows settled
  have settled₃ := settled_of_grows alt.grows settled₄
  have settled₂ := settled_of_grows altYields.grows settled₃
  have settled₁ := settled_of_grows eqsYields.grows settled₂
  have lengths : (x.map (litValue v)).length = (y.map (litValue v)).length := by
    rw [List.length_map, List.length_map, length]
  have eqs_value : litValue v eqs.2 = decide (x.map (litValue v) = y.map (litValue v)) := by
    rw [eqsYields.means v settled₂, ← zipWith_beq_all lengths, ← iffYields.means v settled₁,
      List.all_map]
    rfl
  have pair := altYields.means v settled₃
  simp only [List.map_cons, List.map_nil, List.cons.injEq, and_true] at pair
  have alts_value : litValue v alts.2 = decide (x.length ≤ 62 ∧
      last ≤ binary (x.map (litValue v)) ∧ last ≤ binary (y.map (litValue v))) := by
    rw [alt.means v settled₄]
    simp only [List.all_cons, List.all_nil, Bool.and_true, pair.1, pair.2, ← length]
    rw [← Bool.decide_and, decide_eq_decide]
    tauto
  rw [result.single.means v settled]
  simp only [List.any_cons, List.any_nil, Bool.or_false, eqs_value, alts_value]
  rw [← Bool.decide_or]
  refine congrArg (fun b => [b]) (decide_eq_decide.mpr ?_)
  rw [min_eq_min, ← binary_inj lengths]
  obtain narrow | ⟨wide, rfl⟩ := width
  · simp only [narrow, true_and]
  · have ltX := binary_lt (x.map (litValue v))
    have ltY := binary_lt (y.map (litValue v))
    rw [List.length_map, wide] at ltX
    rw [List.length_map, ← length, wide] at ltY
    omega

end Encoder

end Goivy
