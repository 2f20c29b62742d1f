import Mathlib.Data.List.Basic
import Mathlib.Data.List.Perm.Basic

/-! Synchronous and-inverter circuits. A literal is twice a variable, plus one for the
negation; variable zero is constant false. -/
namespace Goivy

/-- A gate is its output literal and its two operands, a latch its literal and its next state. -/
structure Circuit where
  inputs : List Nat
  latches : List (Nat × Nat)
  outputs : List Nat
  gates : List (Nat × Nat × Nat)
deriving DecidableEq

/-- The value of a literal under values of the variables. -/
def litValue (v : Nat → Bool) (l : Nat) : Bool := xor (l % 2 = 1) (l / 2 ≠ 0 && v (l / 2))

@[simp] theorem litValue_zero (v : Nat → Bool) : litValue v 0 = false := rfl

@[simp] theorem litValue_one (v : Nat → Bool) : litValue v 1 = true := rfl

theorem litValue_even (v : Nat → Bool) {k : Nat} (pos : 0 < k) : litValue v (2 * k) = v k := by
  have ne : k ≠ 0 := by omega
  simp [litValue, ne]

theorem litValue_congr {v w : Nat → Bool} {l : Nat} (same : 0 < l / 2 → v (l / 2) = w (l / 2)) :
    litValue v l = litValue w l := by
  unfold litValue
  by_cases zero : l / 2 = 0
  · simp [zero]
  · rw [same (by omega)]

namespace Circuit

/-- Every gate has the conjunction of its operands as its value. -/
def Settled (gates : List (Nat × Nat × Nat)) (v : Nat → Bool) : Prop :=
  ∀ g ∈ gates, v (g.1 / 2) = (litValue v g.2.1 && litValue v g.2.2)

/-- The cycles of the circuit from given latch values: in each one the gates settle, and
then all latches take their next values at once. -/
inductive Runs (c : Circuit) : List Bool → List (List Bool) → List (List Bool × List Bool) → Prop
  | nil (latches : List Bool) : Runs c latches [] []
  | cons (v : Nat → Bool) {inputs : List (List Bool)} {cycles : List (List Bool × List Bool)} :
      Settled c.gates v →
      Runs c (c.latches.map (fun p => litValue v p.2)) inputs cycles →
      Runs c (c.latches.map (fun p => litValue v p.1)) (c.inputs.map (litValue v) :: inputs)
        ((c.latches.map (fun p => litValue v p.1), c.outputs.map (litValue v)) :: cycles)

/-- The gates have the variables from a number on, in order, and their operands are smaller. -/
def Ordered : Nat → List (Nat × Nat × Nat) → Prop
  | _, [] => True
  | k, g :: gates => g.1 = 2 * k ∧ g.2.1 < 2 * k ∧ g.2.2 < 2 * k ∧ Ordered (k + 1) gates

theorem ordered_append {k : Nat} {gates : List (Nat × Nat × Nat)} {x y : Nat}
    (h : Ordered k gates) (hx : x < 2 * (k + gates.length)) (hy : y < 2 * (k + gates.length)) :
    Ordered k (gates ++ [(2 * (k + gates.length), x, y)]) := by
  induction gates generalizing k with
  | nil => exact ⟨rfl, hx, hy, trivial⟩
  | cons g gates ih =>
    have length : k + (g :: gates).length = k + 1 + gates.length := by
      rw [List.length_cons]
      omega
    rw [length] at hx hy ⊢
    exact ⟨h.1, h.2.1, h.2.2.1, ih h.2.2.2 hx hy⟩

theorem ordered_outputs {k : Nat} {gates : List (Nat × Nat × Nat)} (h : Ordered k gates) :
    gates.map Prod.fst = (List.range' k gates.length).map (2 * ·) := by
  induction gates generalizing k with
  | nil => rfl
  | cons g gates ih =>
    rw [List.map_cons, List.length_cons, List.range'_succ, List.map_cons, h.1, ih h.2.2.2]

/-- The values of the other variables determine those of the gates. -/
theorem settled_unique {k : Nat} {gates : List (Nat × Nat × Nat)} (ordered : Ordered k gates)
    (pos : 0 < k) {v w : Nat → Bool} (settledV : Settled gates v) (settledW : Settled gates w)
    (same : ∀ i, 0 < i → i < k → v i = w i) : ∀ i, 0 < i → i < k + gates.length → v i = w i := by
  induction gates generalizing k with
  | nil => exact same
  | cons g gates ih =>
    obtain ⟨out, lt1, lt2, rest⟩ := ordered
    have operand : ∀ l, l < 2 * k → litValue v l = litValue w l := fun l hl =>
      litValue_congr fun p => same _ p (by omega)
    have here : v k = w k := by
      have hv := settledV g List.mem_cons_self
      have hw := settledW g List.mem_cons_self
      rw [out, Nat.mul_div_cancel_left k Nat.zero_lt_two] at hv hw
      rw [hv, hw, operand _ lt1, operand _ lt2]
    intro i hi lt
    refine ih rest (Nat.succ_pos k) (fun g hg => settledV g (List.mem_cons_of_mem _ hg))
      (fun g hg => settledW g (List.mem_cons_of_mem _ hg)) (fun j hj ltj => ?_) i hi ?_
    · obtain lt | rfl := Nat.lt_succ_iff_lt_or_eq.mp ltj
      · exact same j hj lt
      · exact here
    · rw [List.length_cons] at lt
      omega

/-- A circuit has one run on given inputs where its variables are the inputs, the latches and
the gates in this order, and all its literals are of these. -/
theorem runs_unique {c : Circuit} {k : Nat} (ordered : Ordered k c.gates) (pos : 0 < k)
    (first : c.inputs ++ c.latches.map Prod.fst = (List.range' 1 (k - 1)).map (2 * ·))
    (nexts : ∀ p ∈ c.latches, p.2 < 2 * (k + c.gates.length))
    (outputs : ∀ l ∈ c.outputs, l < 2 * (k + c.gates.length)) {latches : List Bool}
    {inputs : List (List Bool)} {cycles cycles' : List (List Bool × List Bool)}
    (h : c.Runs latches inputs cycles) (h' : c.Runs latches inputs cycles') : cycles' = cycles := by
  induction h generalizing cycles' with
  | nil => cases h'; rfl
  | cons v settled rest ih =>
    generalize start : c.latches.map (fun p => litValue v p.1) = latches at h'
    generalize given : c.inputs.map (litValue v) :: _ = all at h'
    cases h' with
    | nil => cases given
    | cons w settledW restW =>
      rw [List.cons.injEq] at given
      obtain ⟨sameInputs, rfl⟩ := given
      -- inputs and latches have the same values, so all variables do
      have lits : (c.inputs ++ c.latches.map Prod.fst).map (litValue v) =
          (c.inputs ++ c.latches.map Prod.fst).map (litValue w) := by
        rw [List.map_append, List.map_append, sameInputs, List.map_map, List.map_map]
        exact congrArg _ start
      have low : ∀ i, 0 < i → i < k → v i = w i := by
        intro i hi lt
        rw [first] at lits
        have := List.map_inj_left.mp lits (2 * i)
          (List.mem_map.mpr ⟨i, List.mem_range'_1.mpr (by omega), rfl⟩)
        rwa [litValue_even v hi, litValue_even w hi] at this
      have all := settled_unique ordered pos settled settledW low
      have same : ∀ l, l < 2 * (k + c.gates.length) → litValue v l = litValue w l := fun l hl =>
        litValue_congr fun p => all _ p (by omega)
      have next : c.latches.map (fun p => litValue w p.2) = c.latches.map (fun p => litValue v p.2) :=
        List.map_congr_left fun p hp => (same _ (nexts p hp)).symm
      have out : c.outputs.map (litValue w) = c.outputs.map (litValue v) :=
        List.map_congr_left fun l hl => (same l (outputs l hl)).symm
      rw [next] at restW
      rw [ih restW, out]

end Circuit

end Goivy
