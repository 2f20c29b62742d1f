import Mathlib

/-! Runes of a byte string, as `utf8.DecodeRuneInString` reads them: a byte that starts no
valid sequence is a rune of its own. -/
namespace Goivy.Utf8

def runeError : Nat := 0xFFFD

/-- The number of continuation bytes after a first byte, and the range of the first one. -/
def lead (b : Nat) : Option (Nat × Nat × Nat) :=
  if 0xC2 ≤ b ∧ b ≤ 0xDF then some (1, 0x80, 0xBF)
  else if b = 0xE0 then some (2, 0xA0, 0xBF)
  else if b = 0xED then some (2, 0x80, 0x9F)
  else if 0xE1 ≤ b ∧ b ≤ 0xEF then some (2, 0x80, 0xBF)
  else if b = 0xF0 then some (3, 0x90, 0xBF)
  else if 0xF1 ≤ b ∧ b ≤ 0xF3 then some (3, 0x80, 0xBF)
  else if b = 0xF4 then some (3, 0x80, 0x8F)
  else none

/-- The continuation bytes are in their ranges. -/
def accepts (lo hi : Nat) : List Nat → Bool
  | [] => true
  | c :: cs => lo ≤ c ∧ c ≤ hi ∧ cs.all (fun c => 0x80 ≤ c ∧ c ≤ 0xBF)

/-- The rune at the start of a byte string, and its size. -/
def decodeRune : List UInt8 → Nat × Nat
  | [] => (runeError, 0)
  | b :: bs =>
    if b.toNat < 0x80 then (b.toNat, 1)
    else match lead b.toNat with
      | none => (runeError, 1)
      | some (k, lo, hi) =>
        let cont := (bs.take k).map UInt8.toNat
        if cont.length = k ∧ accepts lo hi cont then
          (cont.foldl (fun r c => r * 64 + c % 64) (b.toNat % 2 ^ (6 - k)), k + 1)
        else (runeError, 1)

theorem decodeRune_ascii {b : UInt8} (bs : List UInt8) (ascii : b.toNat < 0x80) :
    decodeRune (b :: bs) = (b.toNat, 1) := by
  rw [decodeRune, if_pos ascii]

/-- A first byte that is not ASCII gives the error rune, or has its continuation bytes. -/
theorem decodeRune_high {b : UInt8} (bs : List UInt8) (high : 0x80 ≤ b.toNat) :
    decodeRune (b :: bs) = (runeError, 1) ∨
      ∃ k lo hi, lead b.toNat = some (k, lo, hi) ∧ k ≤ bs.length ∧
        accepts lo hi ((bs.take k).map UInt8.toNat) = true ∧
        decodeRune (b :: bs) = (((bs.take k).map UInt8.toNat).foldl (fun r c => r * 64 + c % 64)
          (b.toNat % 2 ^ (6 - k)), k + 1) := by
  rw [decodeRune, if_neg (by omega)]
  cases h : lead b.toNat with
  | none => exact .inl rfl
  | some p =>
    obtain ⟨k, lo, hi⟩ := p
    dsimp only
    split
    · rename_i ok
      refine .inr ⟨k, lo, hi, rfl, ?_, ok.2, rfl⟩
      have := ok.1
      rw [List.length_map, List.length_take] at this
      omega
    · exact .inl rfl

theorem lead_cases {b k lo hi : Nat} (h : lead b = some (k, lo, hi)) :
    (k = 1 ∧ 0xC2 ≤ b ∧ b ≤ 0xDF ∨ k = 2 ∧ 0xE0 ≤ b ∧ b ≤ 0xEF ∨ k = 3 ∧ 0xF0 ≤ b ∧ b ≤ 0xF4) ∧
      0x80 ≤ lo ∧ hi ≤ 0xBF ∧ (b = 0xE0 → 0xA0 ≤ lo) ∧ (b = 0xF0 → 0x90 ≤ lo) := by
  unfold lead at h
  split_ifs at h <;> simp only [Option.some.injEq, Prod.mk.injEq] at h <;> omega

/-- What the decoder finds where a valid sequence starts with a byte that is not ASCII. -/
inductive Sequence (b : Nat) : List Nat → Nat → Prop
  | two (c : Nat) : 0xC2 ≤ b → b ≤ 0xDF → 0x80 ≤ c → c ≤ 0xBF →
      Sequence b [c] (b % 32 * 64 + c % 64)
  | three (c d : Nat) : 0xE0 ≤ b → b ≤ 0xEF → (b = 0xE0 → 0xA0 ≤ c) → 0x80 ≤ c → c ≤ 0xBF →
      0x80 ≤ d → d ≤ 0xBF → Sequence b [c, d] ((b % 16 * 64 + c % 64) * 64 + d % 64)
  | four (c d e : Nat) : 0xF0 ≤ b → b ≤ 0xF4 → (b = 0xF0 → 0x90 ≤ c) → 0x80 ≤ c → c ≤ 0xBF →
      0x80 ≤ d → d ≤ 0xBF → 0x80 ≤ e → e ≤ 0xBF →
      Sequence b [c, d, e] (((b % 8 * 64 + c % 64) * 64 + d % 64) * 64 + e % 64)

theorem decodeRune_sequence {b : UInt8} (bs : List UInt8) (high : 0x80 ≤ b.toNat) :
    decodeRune (b :: bs) = (runeError, 1) ∨
      ∃ k r, k ≤ bs.length ∧ Sequence b.toNat ((bs.take k).map UInt8.toNat) r ∧
        decodeRune (b :: bs) = (r, k + 1) := by
  obtain error | ⟨k, lo, hi, hlead, fits, ok, eq⟩ := decodeRune_high bs high
  · exact .inl error
  · refine .inr ⟨k, _, fits, ?_, eq⟩
    obtain ⟨bounds, low, top, e0, f0⟩ := lead_cases hlead
    have length : ((bs.take k).map UInt8.toNat).length = k := by simpa using fits
    revert length ok
    generalize (bs.take k).map UInt8.toNat = cont
    intro ok length
    obtain ⟨rfl, first⟩ | ⟨rfl, first⟩ | ⟨rfl, first⟩ := bounds
    · obtain ⟨c, rfl⟩ := List.length_eq_one_iff.mp length
      simp only [accepts, decide_eq_true_eq] at ok
      exact .two c first.1 first.2 (low.trans ok.1) (ok.2.1.trans top)
    · obtain ⟨c, d, rfl⟩ := List.length_eq_two.mp length
      simp only [accepts, decide_eq_true_eq, List.all_cons, List.all_nil, Bool.and_true] at ok
      exact .three c d first.1 first.2 (fun h => (e0 h).trans ok.1) (low.trans ok.1) (ok.2.1.trans top)
        ok.2.2.1 ok.2.2.2
    · obtain ⟨c, d, e, rfl⟩ := List.length_eq_three.mp length
      simp only [accepts, decide_eq_true_eq, List.all_cons, List.all_nil, Bool.and_true,
        Bool.and_eq_true] at ok
      exact .four c d e first.1 first.2 (fun h => (f0 h).trans ok.1) (low.trans ok.1)
        (ok.2.1.trans top) ok.2.2.1.1 ok.2.2.1.2 ok.2.2.2.1 ok.2.2.2.2

theorem Sequence.rune_high {b r : Nat} {cont : List Nat} (h : Sequence b cont r) : 0x80 ≤ r := by
  cases h <;> omega

theorem Sequence.bytes_high {b r : Nat} {cont : List Nat} (h : Sequence b cont r) :
    ∀ c ∈ cont, 0x80 ≤ c := by
  cases h <;> simp only [List.forall_mem_cons, List.not_mem_nil, false_imp_iff, implies_true, and_true] <;>
    omega

/-- The decoder moves on, and not beyond the end. -/
theorem decodeRune_size (b : UInt8) (bs : List UInt8) :
    1 ≤ (decodeRune (b :: bs)).2 ∧ (decodeRune (b :: bs)).2 ≤ bs.length + 1 := by
  by_cases ascii : b.toNat < 0x80
  · rw [decodeRune_ascii bs ascii]
    exact ⟨Nat.le_refl 1, Nat.succ_le_succ (Nat.zero_le _)⟩
  · obtain error | ⟨k, r, fits, -, eq⟩ := decodeRune_sequence bs (Nat.le_of_not_lt ascii)
    · rw [error]
      exact ⟨Nat.le_refl 1, Nat.succ_le_succ (Nat.zero_le _)⟩
    · rw [eq]
      exact ⟨Nat.succ_le_succ (Nat.zero_le _), Nat.succ_le_succ fits⟩

/-- A byte that is not ASCII gives a rune that is not, and takes no ASCII byte with it. -/
theorem decodeRune_not_ascii {b : UInt8} (bs : List UInt8) (high : 0x80 ≤ b.toNat) :
    0x80 ≤ (decodeRune (b :: bs)).1 ∧
      ∀ c ∈ (b :: bs).take (decodeRune (b :: bs)).2, 0x80 ≤ c.toNat := by
  obtain error | ⟨k, r, fits, sequence, eq⟩ := decodeRune_sequence bs high
  · rw [error]
    refine ⟨by decide, ?_⟩
    simpa using high
  · rw [eq]
    refine ⟨sequence.rune_high, ?_⟩
    rw [List.take_succ_cons, List.forall_mem_cons]
    exact ⟨high, fun c hc => sequence.bytes_high c.toNat (List.mem_map_of_mem hc)⟩

/-- The decoder looks at the bytes it takes only. -/
theorem decodeRune_append {b : UInt8} {bs rest : List UInt8}
    (inside : (decodeRune (b :: (bs ++ rest))).2 ≤ bs.length + 1) :
    decodeRune (b :: (bs ++ rest)) = decodeRune (b :: bs) := by
  by_cases ascii : b.toNat < 0x80
  · rw [decodeRune_ascii _ ascii, decodeRune_ascii _ ascii]
  · simp only [decodeRune, if_neg ascii] at inside ⊢
    cases h : lead b.toNat with
    | none => rfl
    | some p =>
      obtain ⟨k, lo, hi⟩ := p
      simp only [h] at inside ⊢
      by_cases fits : k ≤ bs.length
      · rw [List.take_append_of_le_length fits]
      · have short : ((bs.take k).map UInt8.toNat).length ≠ k := by
          rw [List.length_map, List.length_take]
          omega
        rw [if_neg (c := _ ∧ _ = true) fun ok => short ok.1]
        split at inside
        · dsimp only at inside
          omega
        · rename_i no
          rw [if_neg no]

/-- A rune of three bytes has one spelling. -/
theorem decodeRune_three {bs : List UInt8} {r : Nat} (low : 0x800 ≤ r) (high : r < 0x10000)
    (proper : r ≠ runeError) (rune : (decodeRune bs).1 = r) :
    (bs.take (decodeRune bs).2).map UInt8.toNat =
      [0xE0 + r / 4096, 0x80 + r / 64 % 64, 0x80 + r % 64] := by
  cases bs with
  | nil => exact absurd rune.symm proper
  | cons b bs =>
    by_cases ascii : b.toNat < 0x80
    · rw [decodeRune_ascii bs ascii] at rune
      change b.toNat = r at rune
      omega
    · obtain error | ⟨k, r', fits, sequence, eq⟩ := decodeRune_sequence bs (Nat.le_of_not_lt ascii)
      · rw [error] at rune
        exact absurd rune.symm proper
      · rw [eq] at rune ⊢
        obtain rfl : r' = r := rune
        rw [List.take_succ_cons, List.map_cons]
        generalize (bs.take k).map UInt8.toNat = cont at sequence
        cases sequence with
        | two c => omega
        | three c d =>
          simp only [List.cons.injEq, and_true]
          omega
        | four c d e => omega

/-- The bytes of the runes of a byte string, in order. -/
def runes : List UInt8 → List (List UInt8)
  | [] => []
  | b :: bs => (b :: bs).take (decodeRune (b :: bs)).2 :: runes ((b :: bs).drop (decodeRune (b :: bs)).2)
termination_by bs => bs.length
decreasing_by
  have := (decodeRune_size b bs).1
  simp only [List.length_drop, List.length_cons]
  omega

@[simp] theorem runes_nil : runes [] = [] := by rw [runes]

theorem runes_cons (b : UInt8) (bs : List UInt8) : runes (b :: bs) =
    (b :: bs).take (decodeRune (b :: bs)).2 :: runes ((b :: bs).drop (decodeRune (b :: bs)).2) := by
  rw [runes]

theorem flatten_runes (bs : List UInt8) : (runes bs).flatten = bs := by
  induction bs using runes.induct with
  | case1 => simp
  | case2 b bs ih => rw [runes_cons, List.flatten_cons, ih, List.take_append_drop]

theorem runes_ne_nil {bs : List UInt8} : ∀ c ∈ runes bs, c ≠ [] := by
  induction bs using runes.induct with
  | case1 => simp
  | case2 b bs ih =>
    rw [runes_cons, List.forall_mem_cons]
    refine ⟨fun empty => ?_, ih⟩
    have := (decodeRune_size b bs).1
    rw [List.take_eq_nil_iff] at empty
    obtain h | h := empty
    · omega
    · cases h

/-- Where a rune ends, the bytes before can be read on their own. -/
theorem runes_append {cs : List (List UInt8)} {before rest : List UInt8}
    (boundary : runes (before ++ rest) = cs ++ runes rest) (bytes : cs.flatten = before) :
    runes before = cs := by
  induction cs generalizing before with
  | nil =>
    obtain rfl : before = [] := bytes.symm
    exact runes_nil
  | cons c cs ih =>
    rw [List.flatten_cons] at bytes
    subst bytes
    have ne : c ≠ [] := runes_ne_nil c (by rw [boundary]; exact List.mem_cons_self)
    obtain ⟨b, c, rfl⟩ := List.exists_cons_of_ne_nil ne
    simp only [List.cons_append, List.append_assoc] at boundary
    rw [runes_cons, List.cons.injEq] at boundary
    obtain ⟨first, later⟩ := boundary
    have size : (decodeRune (b :: (c ++ (cs.flatten ++ rest)))).2 = c.length + 1 := by
      have bound := (decodeRune_size b (c ++ (cs.flatten ++ rest))).2
      have := congrArg List.length first
      rw [List.length_take, List.length_cons, List.length_cons] at this
      omega
    have alone : decodeRune (b :: (c ++ cs.flatten)) = decodeRune (b :: (c ++ (cs.flatten ++ rest))) := by
      rw [← List.append_assoc] at size ⊢
      refine (decodeRune_append ?_).symm
      rw [size, List.length_append]
      omega
    rw [List.cons_append, runes_cons, alone, size]
    rw [size] at later
    have tail : runes (cs.flatten ++ rest) = cs ++ runes rest := by
      simpa using later
    have head : (b :: (c ++ cs.flatten)).take (c.length + 1) = b :: c := by simp
    have drop : (b :: (c ++ cs.flatten)).drop (c.length + 1) = cs.flatten := by simp
    rw [head, drop, ih tail rfl]

end Goivy.Utf8
