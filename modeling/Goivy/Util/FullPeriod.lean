import Mathlib.Algebra.Ring.Parity
import Mathlib.Data.Fintype.EquivFin
import Mathlib.Data.Nat.ModEq
import Mathlib.Data.Nat.Prime.Basic
import Mathlib.Logic.Function.Iterate
import Mathlib.Tactic.Linarith
import Mathlib.Tactic.Positivity
import Mathlib.Tactic.Ring

/-! The recurrence `5 i + 1` reaches every residue modulo a power of two. -/
namespace Goivy

/-- One step of the recurrence. -/
def fiveStep (k i : Nat) : Nat := (i * 5 + 1) % 2 ^ k

/-- The sum of the first powers of five. -/
def fiveSum : Nat → Nat
  | 0 => 0
  | n + 1 => fiveSum n * 5 + 1

theorem fiveSum_four (n : Nat) : 4 * fiveSum n + 1 = 5 ^ n := by
  induction n with
  | zero => rfl
  | succ n ih => rw [fiveSum, pow_succ, ← ih]; ring

theorem fiveSum_double (n : Nat) : fiveSum (2 * n) = fiveSum n * (5 ^ n + 1) := by
  have square : 4 * fiveSum (2 * n) + 1 = (4 * fiveSum n + 1) * (4 * fiveSum n + 1) := by
    rw [fiveSum_four, fiveSum_four, two_mul, pow_add]
  rw [← fiveSum_four]
  nlinarith

theorem fiveSum_parity (n : Nat) : fiveSum n % 2 = n % 2 := by
  induction n with
  | zero => rfl
  | succ n ih => rw [fiveSum]; omega

/-- Twice an odd number. -/
theorem five_pow_add_one (n : Nat) : ∃ m, 5 ^ n + 1 = 2 * (2 * m + 1) := by
  refine ⟨fiveSum n, ?_⟩
  have sum := fiveSum_four n
  omega

theorem pow_two_dvd_mul_odd {k a m : Nat} : 2 ^ k ∣ a * (2 * m + 1) ↔ 2 ^ k ∣ a := by
  have odd : Nat.Coprime (2 ^ k) (2 * m + 1) :=
    Nat.Coprime.pow_left k (Nat.coprime_two_left.mpr ⟨m, rfl⟩)
  exact odd.dvd_mul_right

/-- The sum is divisible by as many twos as its length. -/
theorem pow_two_dvd_fiveSum (k n : Nat) : 2 ^ k ∣ fiveSum n ↔ 2 ^ k ∣ n := by
  induction k generalizing n with
  | zero => simp
  | succ k ih =>
    obtain ⟨m, rfl | rfl⟩ : ∃ m, n = 2 * m ∨ n = 2 * m + 1 := ⟨n / 2, by omega⟩
    · obtain ⟨r, eq⟩ := five_pow_add_one m
      have split : fiveSum (2 * m) = 2 * (fiveSum m * (2 * r + 1)) := by
        rw [fiveSum_double, eq]; ring
      rw [split, pow_succ', Nat.mul_dvd_mul_iff_left (by decide), pow_two_dvd_mul_odd, ih,
        Nat.mul_dvd_mul_iff_left (by decide)]
    · have even : ∀ a, 2 ^ (k + 1) ∣ a → a % 2 = 0 := fun a div =>
        Nat.mod_eq_zero_of_dvd ((Dvd.intro_left _ (pow_succ 2 k).symm).trans div)
      have sum := fiveSum_parity (2 * m + 1)
      exact ⟨fun div => by have := even _ div; omega, fun div => by have := even _ div; omega⟩

theorem iterate_fiveStep (k i n : Nat) :
    (fiveStep k)^[n] i % 2 ^ k = (i * 5 ^ n + fiveSum n) % 2 ^ k := by
  induction n with
  | zero => simp [fiveSum]
  | succ n ih =>
    rw [Function.iterate_succ_apply', fiveStep, Nat.mod_mod, Nat.add_mod, Nat.mul_mod, ih,
      ← Nat.mul_mod, ← Nat.add_mod, fiveSum, pow_succ]
    congr 1
    ring

/-- A residue comes back only after a full period. -/
theorem dvd_of_iterate_eq {k i n : Nat} (same : (fiveStep k)^[n] i % 2 ^ k = i % 2 ^ k) : 2 ^ k ∣ n := by
  rw [iterate_fiveStep, ← fiveSum_four] at same
  have split : i * (4 * fiveSum n + 1) + fiveSum n = i + fiveSum n * (2 * (2 * i) + 1) := by ring
  rw [split] at same
  have div : 2 ^ k ∣ fiveSum n * (2 * (2 * i) + 1) := by
    have equal : i + 0 ≡ i + fiveSum n * (2 * (2 * i) + 1) [MOD 2 ^ k] := same.symm
    exact (Nat.modEq_zero_iff_dvd).mp (Nat.ModEq.add_left_cancel' i equal).symm
  exact (pow_two_dvd_fiveSum k n).mp (pow_two_dvd_mul_odd.mp div)

/-- Every residue is reached within one period. -/
theorem exists_iterate_fiveStep {k i j : Nat} (hj : j < 2 ^ k) :
    ∃ n < 2 ^ k, (fiveStep k)^[n] i % 2 ^ k = j := by
  have injective : Function.Injective fun n : Fin (2 ^ k) =>
      (⟨(fiveStep k)^[n] i % 2 ^ k, Nat.mod_lt _ (by positivity)⟩ : Fin (2 ^ k)) := by
    have le : ∀ a b : Fin (2 ^ k), a ≤ b →
        (fiveStep k)^[a] i % 2 ^ k = (fiveStep k)^[b] i % 2 ^ k → a = b := by
      intro a b hab same
      have again : (fiveStep k)^[b - a] ((fiveStep k)^[a] i) = (fiveStep k)^[b] i := by
        rw [← Function.iterate_add_apply, Nat.sub_add_cancel hab]
      have period := dvd_of_iterate_eq (again ▸ same.symm)
      have none : (b : Nat) - a = 0 := Nat.eq_zero_of_dvd_of_lt period (by omega)
      exact Fin.ext (by have := Fin.le_def.mp hab; omega)
    intro a b same
    obtain hab | hba := le_total a b
    · exact le a b hab (Fin.mk.inj same)
    · exact (le b a hba (Fin.mk.inj same).symm).symm
  obtain ⟨n, eq⟩ := (Finite.injective_iff_surjective.mp injective) ⟨j, hj⟩
  exact ⟨n, n.2, Fin.mk.inj eq⟩

end Goivy
