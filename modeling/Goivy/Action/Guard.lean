import Mathlib.Data.List.Basic

/-! Meanings of actions: what they relate, and where they fail. A guard decides whether a branch is
entered, and can choose values that only the branch sees. -/
namespace Goivy

variable {S : Type}

/-- A relation between states, and the states in which the action fails. -/
@[ext]
structure Meaning (S : Type) where
  step : S → S → Prop
  fails : S → Prop

namespace Meaning

def skip : Meaning S := ⟨fun s s' => s' = s, fun _ => False⟩

/-- An action without successors. -/
def block : Meaning S := ⟨fun _ _ => False, fun _ => False⟩

def seq (m m' : Meaning S) : Meaning S where
  step s s' := ∃ t, m.step s t ∧ m'.step t s'
  fails s := m.fails s ∨ ∃ t, m.step s t ∧ m'.fails t

theorem seq_skip (m : Meaning S) : m.seq skip = m := by
  ext <;> simp [seq, skip]

end Meaning

/-- A guard enters a branch in a state with chosen values, which are taken back when the branch ends. -/
structure Guard (S : Type) where
  enter : S → S → Prop
  exit : S → Prop
  leave : S → S → S
  enter_leave : ∀ s t u, enter (leave s t) u ↔ enter t u
  exit_leave : ∀ s t, exit (leave s t) ↔ exit t
  leave_left : ∀ s t u, leave (leave s t) u = leave s u
  leave_right : ∀ s t u, leave s (leave t u) = leave s u

namespace Guard

variable (g : Guard S) (m : Meaning S)

/-- A branch under the guard. -/
def branch : Meaning S where
  step s s' := (∃ u t, g.enter s u ∧ m.step u t ∧ s' = g.leave s t) ∨ g.exit s ∧ s' = s
  fails s := ∃ u, g.enter s u ∧ m.fails u

/-- Rounds of a loop: the guard lets the body run, and takes the chosen values back. -/
inductive Iterates : Nat → S → S → Prop
  | zero (s : S) : Iterates 0 s s
  | succ {n : Nat} {s u t s' : S} : g.enter s u → m.step u t → Iterates n (g.leave s t) s' → Iterates (n + 1) s s'

/-- A loop that ends after at most `bound` rounds. -/
def loop (bound : Nat) : Meaning S where
  step s s' := ∃ n ≤ bound, Iterates g m n s s' ∧ g.exit s'
  fails s := ∃ n < bound, ∃ t u, Iterates g m n s t ∧ g.enter t u ∧ m.fails u

/-- The nested branches that an unrolled loop consists of. -/
def unrolled : Nat → Meaning S
  | 0 => g.branch .block
  | n + 1 => g.branch (m.seq (unrolled n))

variable {g m}

/-- Values that the guard chooses do not matter to the loop. -/
theorem Iterates.leave {n : Nat} {u t : S} (h : Iterates g m n u t) (s : S) :
    Iterates g m n (g.leave s u) (g.leave s t) := by
  induction h with
  | zero => exact .zero _
  | succ entered step _ ih =>
    refine .succ ((g.enter_leave _ _ _).mpr entered) step ?_
    rw [g.leave_left]
    rwa [g.leave_right] at ih

theorem Iterates.of_leave {n : Nat} {s u s' : S} (h : Iterates g m n (g.leave s u) s') :
    ∃ t, Iterates g m n u t ∧ s' = g.leave s t := by
  generalize start : g.leave s u = v at h
  induction h generalizing u with
  | zero => exact ⟨u, .zero u, start.symm⟩
  | @succ n _ w x s' entered step _ ih =>
    subst start
    have next : g.leave s (g.leave u x) = g.leave (g.leave s u) x := by rw [g.leave_left, g.leave_right]
    obtain ⟨t, rest, same⟩ := ih next
    exact ⟨t, .succ ((g.enter_leave _ _ _).mp entered) step rest, same⟩

/-- The unrolled loop relates and fails as the loop does within the bound. -/
theorem unrolled_eq_loop (bound : Nat) : g.unrolled m bound = g.loop m bound := by
  induction bound with
  | zero =>
    ext s s'
    · constructor
      · rintro (⟨_, _, -, step, -⟩ | ⟨exit, rfl⟩)
        · exact step.elim
        · exact ⟨0, Nat.le_refl 0, .zero _, exit⟩
      · rintro ⟨n, le, rounds, exit⟩
        obtain rfl := Nat.le_zero.mp le
        cases rounds
        exact .inr ⟨exit, rfl⟩
    · exact iff_of_false (fun ⟨_, _, fails⟩ => fails) fun ⟨_, lt, _⟩ => absurd lt (Nat.not_lt_zero _)
  | succ bound ih =>
    rw [unrolled, ih]
    ext s s'
    · constructor
      · rintro (⟨u, t, entered, ⟨v, body, n, le, rounds, exit⟩, rfl⟩ | ⟨exit, rfl⟩)
        · exact ⟨n + 1, Nat.succ_le_succ le, .succ entered body (rounds.leave s), (g.exit_leave _ _).mpr exit⟩
        · exact ⟨0, Nat.zero_le _, .zero _, exit⟩
      · rintro ⟨n, le, rounds, exit⟩
        cases rounds with
        | zero => exact .inr ⟨exit, rfl⟩
        | succ entered body rest =>
          obtain ⟨t, rounds, rfl⟩ := rest.of_leave
          exact .inl ⟨_, t, entered, ⟨_, body, _, Nat.le_of_succ_le_succ le, rounds, (g.exit_leave _ _).mp exit⟩, rfl⟩
    · constructor
      · rintro ⟨u, entered, fails | ⟨v, body, n, lt, t, w, rounds, again, fails⟩⟩
        · exact ⟨0, Nat.succ_pos _, s, u, .zero _, entered, fails⟩
        · exact ⟨n + 1, Nat.succ_lt_succ lt, _, w, .succ entered body (rounds.leave s),
            (g.enter_leave _ _ _).mpr again, fails⟩
      · rintro ⟨n, lt, t, w, rounds, again, fails⟩
        cases rounds with
        | zero => exact ⟨w, again, .inl fails⟩
        | succ entered body rest =>
          obtain ⟨v, rounds, rfl⟩ := rest.of_leave
          exact ⟨_, entered, .inr ⟨_, body, _, Nat.lt_of_succ_lt_succ lt, v, w, rounds,
            (g.enter_leave _ _ _).mp again, fails⟩⟩

end Guard

end Goivy
