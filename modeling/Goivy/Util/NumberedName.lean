import Mathlib.Data.Nat.Digits.Lemmas

/-! Names that end in a separator and a number. -/
namespace Goivy

theorem split_unique {α : Type} {c : α} {xs ys xs' ys' : List α} (notMem : c ∉ xs)
    (notMem' : c ∉ xs') (same : xs ++ c :: ys = xs' ++ c :: ys') : xs = xs' ∧ ys = ys' := by
  induction xs generalizing xs' with
  | nil =>
    cases xs' with
    | nil => exact ⟨rfl, (List.cons.inj same).2⟩
    | cons x' xs' => exact absurd ((List.cons.inj same).1 ▸ List.mem_cons_self) notMem'
  | cons x xs ih =>
    rw [List.mem_cons, not_or] at notMem
    cases xs' with
    | nil => exact absurd (List.cons.inj same).1.symm notMem.1
    | cons x' xs' =>
      rw [List.mem_cons, not_or] at notMem'
      obtain ⟨rfl, rest⟩ := List.cons.inj same
      obtain ⟨rfl, tails⟩ := ih notMem.2 notMem'.2 rest
      exact ⟨rfl, tails⟩

/-- The base and the number can be read off the name, whatever the base contains. -/
theorem numberedName_inj {sep : String} {c : Char} (single : sep.toList = [c])
    (notDigit : c.isDigit = false) {base base' : String} {i j : Nat}
    (same : base ++ sep ++ toString i = base' ++ sep ++ toString j) : base = base' ∧ i = j := by
  have chars : ∀ (base : String) (i : Nat),
      (base ++ sep ++ toString i).toList.reverse =
        (Nat.toDigits 10 i).reverse ++ c :: base.toList.reverse := by
    intro base i
    simp [String.toList_append, single]
  have noSeparator : ∀ i : Nat, c ∉ (Nat.toDigits 10 i).reverse := by
    intro i hi
    have := Nat.isDigit_of_mem_toDigits (by decide) (by decide) (List.mem_reverse.mp hi)
    rw [notDigit] at this
    contradiction
  have lists := congrArg (fun s => s.toList.reverse) same
  simp only [chars] at lists
  obtain ⟨digits, names⟩ := split_unique (noSeparator i) (noSeparator j) lists
  have numbers := congrArg (fun cs => Nat.ofDigitChars 10 cs 0) (List.reverse_inj.mp digits)
  simp only [Nat.ofDigitChars_ten_toDigits] at numbers
  exact ⟨String.toList_inj.mp (List.reverse_inj.mp names), numbers⟩

end Goivy
