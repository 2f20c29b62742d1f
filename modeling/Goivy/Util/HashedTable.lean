import Goivy.Util.FullPeriod
import Goivy.Util.Hashed
import Mathlib.Data.Finset.Card
import Mathlib.Data.Nat.Bitwise

/-! The probe sequences of the hash map, and what its table keeps. -/
namespace Goivy.Hashed

/-! ### Probe sequences -/

/-- The slot and the perturbation after some steps. -/
def probed (mask h : Nat) : Nat → Nat × Nat
  | 0 => (h &&& mask, h)
  | n + 1 =>
    let last := probed mask h n
    ((last.1 * 5 + (last.2 >>> 5) + 1) &&& mask, last.2 >>> 5)

def slotAt (mask h n : Nat) : Nat := (probed mask h n).1

theorem perturb_eq (mask h n : Nat) : (probed mask h n).2 = h >>> (5 * n) := by
  induction n with
  | zero => rfl
  | succ n ih =>
    change (probed mask h n).2 >>> 5 = _
    rw [ih, ← Nat.shiftRight_add, Nat.mul_succ]

theorem and_mask (k x : Nat) : x &&& (2 ^ k - 1) = x % 2 ^ k := Nat.and_two_pow_sub_one_eq_mod x k

theorem slotAt_lt (k h n : Nat) : slotAt (2 ^ k - 1) h n < 2 ^ k := by
  cases n with
  | zero => rw [slotAt, probed, and_mask]; exact Nat.mod_lt _ (by positivity)
  | succ n => rw [slotAt, probed, and_mask]; exact Nat.mod_lt _ (by positivity)

/-- When the hash is used up, the recurrence goes on alone. -/
theorem slotAt_late {k h : Nat} (hash : h < 2 ^ 64) (n : Nat) :
    slotAt (2 ^ k - 1) h (13 + n) = (fiveStep k)^[n] (slotAt (2 ^ k - 1) h 13) := by
  induction n with
  | zero => rfl
  | succ n ih =>
    have spent : (probed (2 ^ k - 1) h (13 + n)).2 >>> 5 = 0 := by
      rw [perturb_eq, ← Nat.shiftRight_add, Nat.shiftRight_eq_div_pow]
      exact Nat.div_eq_of_lt (hash.trans_le (Nat.pow_le_pow_right (by decide) (by omega)))
    rw [← Nat.add_assoc, slotAt, probed]
    simp only [spent]
    rw [Function.iterate_succ_apply', ← ih, Nat.add_zero, and_mask]
    rfl

/-- Every probe sequence reaches every slot. -/
theorem exists_slotAt {k h s : Nat} (hash : h < 2 ^ 64) (hs : s < 2 ^ k) :
    ∃ n < 13 + 2 ^ k, slotAt (2 ^ k - 1) h n = s := by
  obtain ⟨n, less, eq⟩ := exists_iterate_fiveStep (i := slotAt (2 ^ k - 1) h 13) hs
  refine ⟨13 + n, by omega, ?_⟩
  rw [← slotAt_late hash, Nat.mod_eq_of_lt (slotAt_lt k h _)] at eq
  exact eq

/-- A probe loop ends at the first slot where its visit stops. -/
theorem probe_stops {α : Type} {mask h : Nat} {visit : Nat → Option (Option α)} {result : α}
    {n : Nat} (goes : ∀ j < n, visit (slotAt mask h j) = some none)
    (stops : visit (slotAt mask h n) = some (some result)) {fuel : Nat} (enough : n < fuel) :
    probe mask visit fuel (h &&& mask) h = some result := by
  suffices gen : ∀ m fuel, m ≤ n → n < m + fuel →
      probe mask visit fuel (probed mask h m).1 (probed mask h m).2 = some result from
    gen 0 fuel (Nat.zero_le n) (by omega)
  intro m fuel
  induction fuel generalizing m with
  | zero => intro le less; omega
  | succ fuel ih =>
    intro le less
    rw [probe]
    obtain rfl | before := Nat.eq_or_lt_of_le le
    · rw [show visit (probed mask h m).1 = _ from stops]
      rfl
    · rw [show visit (probed mask h m).1 = _ from goes m before]
      exact ih (m + 1) before (by omega)

theorem first_stop (stop : Nat → Prop) {n : Nat} (stops : stop n) :
    ∃ m ≤ n, stop m ∧ ∀ j < m, ¬ stop j := by
  classical
  exact ⟨Nat.find ⟨n, stops⟩, Nat.find_min' _ stops, Nat.find_spec ⟨n, stops⟩, fun j => Nat.find_min _⟩

/-! ### The table -/

/-- What a slot holds, in its tag and its index. -/
inductive Cell where
  | empty
  | dummy
  | used (ix : Nat)
deriving DecidableEq

variable {K V : Type}

def Cell.tag (entries : List (Entry K V)) : Cell → Option Nat
  | empty => some tagEmpty
  | dummy => some tagDummy
  | used ix => entries[ix]?.map fun e => hashTag e.hash

def Cell.index : Cell → Int
  | empty => slotEmpty
  | dummy => slotDummy
  | used ix => ix

/-- Tables of size `2 ^ k`: every live entry has one slot, which its probe sequence reaches before
an empty one, and there are no more slots in use than entries. -/
structure Table (env : Env K) (k : Nat) (d : InsMap K V) (c : Nat → Cell) : Prop where
  indicesLen : d.indices.length = 2 ^ k
  tagsLen : d.tags.length = 2 ^ k
  mask : d.mask = 2 ^ k - 1
  tags : ∀ s < 2 ^ k, d.tags[s]? = (c s).tag d.entries
  indices : ∀ s < 2 ^ k, d.indices[s]? = some (c s).index
  used : ∀ s < 2 ^ k, ∀ ix, c s = .used ix → ∃ e, d.entries[ix]? = some e ∧ e.live
  inj : ∀ s < 2 ^ k, ∀ s' < 2 ^ k, ∀ ix, c s = .used ix → c s' = .used ix → s = s'
  reach : ∀ (ix : Nat) (e : Entry K V), d.entries[ix]? = some e → e.live → ∃ n,
    c (slotAt d.mask e.hash n) = .used ix ∧ ∀ j < n, c (slotAt d.mask e.hash j) ≠ .empty
  hashes : ∀ e ∈ d.entries, e.live → e.hash = env.hashOf e.key
  keys : ∀ (ix ix' : Nat) (e e' : Entry K V), d.entries[ix]? = some e → d.entries[ix']? = some e' → e.live → e'.live →
    e.key = e'.key → ix = ix'
  room : ((Finset.range (2 ^ k)).filter fun s => c s ≠ .empty).card ≤ d.entries.length
  within : d.entries.length ≤ 2 ^ k * 2 / 3

/-- A slot that the search for a key passes. -/
def Misses (d : InsMap K V) (c : Nat → Cell) (key : K) (h s : Nat) : Prop :=
  c s = .dummy ∨ ∃ (ix : Nat) (e : Entry K V), c s = .used ix ∧ d.entries[ix]? = some e ∧ ¬ (e.hash = h ∧ e.key = key)

theorem hashOf_lt (env : Env K) (key : K) : env.hashOf key < 2 ^ 64 := Nat.mod_lt _ (by positivity)

theorem tagUsed_le (h : Nat) : tagUsed ≤ hashTag h := Nat.left_le_or

namespace Table

variable {env : Env K} {k : Nat} {d : InsMap K V} {c : Nat → Cell}

theorem lt (t : Table env k d c) (h n : Nat) : slotAt d.mask h n < 2 ^ k := by
  rw [t.mask]
  exact slotAt_lt k h n

theorem exists_empty (t : Table env k d c) : ∃ s < 2 ^ k, c s = .empty := by
  by_contra full
  push Not at full
  have all : (Finset.range (2 ^ k)).filter (fun s => c s ≠ .empty) = Finset.range (2 ^ k) :=
    Finset.filter_true_of_mem fun s mem => full s (Finset.mem_range.mp mem)
  have room := t.room
  have within := t.within
  have positive : 0 < 2 ^ k := by positivity
  rw [all, Finset.card_range] at room
  omega

/-- The search for a key ends at its entry, or at an empty slot when there is no entry. -/
theorem locate [DecidableEq K] (t : Table env k d c) (key : K) :
    let h := env.hashOf key
    (∃ (n ix : Nat) (e : Entry K V), n < 13 + 2 ^ k ∧ d.entries[ix]? = some e ∧ e.live ∧ e.hash = h ∧ e.key = key ∧
      c (slotAt d.mask h n) = .used ix ∧ ∀ j < n, Misses d c key h (slotAt d.mask h j)) ∨
    (∀ (ix : Nat) (e : Entry K V), d.entries[ix]? = some e → e.live → e.key ≠ key) ∧ ∃ n < 13 + 2 ^ k,
      c (slotAt d.mask h n) = .empty ∧ ∀ j < n, Misses d c key h (slotAt d.mask h j) := by
  intro h
  obtain ⟨s, hs, empty⟩ := t.exists_empty
  obtain ⟨n, less, rfl⟩ := exists_slotAt (hashOf_lt env key) hs
  rw [← t.mask] at empty
  let stop (n : Nat) : Prop := ¬ Misses d c key h (slotAt d.mask h n)
  have ends : stop n := by
    rintro (eq | ⟨ix, e, eq, _⟩) <;> rw [empty] at eq <;> cases eq
  obtain ⟨m, le, stops, goes⟩ := first_stop stop ends
  have goes : ∀ j < m, Misses d c key h (slotAt d.mask h j) := fun j hj => not_not.mp (goes j hj)
  cases cell : c (slotAt d.mask h m) with
  | dummy => exact absurd (.inl cell) stops
  | used ix =>
    obtain ⟨e, entry, live⟩ := t.used _ (t.lt h m) ix cell
    have hit : e.hash = h ∧ e.key = key := by
      by_contra miss
      exact stops (.inr ⟨ix, e, cell, entry, miss⟩)
    exact .inl ⟨m, ix, e, by omega, entry, live, hit.1, hit.2, cell, goes⟩
  | empty =>
    refine .inr ⟨?_, m, by omega, cell, goes⟩
    rintro ix e entry live rfl
    have hash := t.hashes e (List.mem_of_getElem? entry) live
    obtain ⟨n', here, before⟩ := t.reach ix e entry live
    rw [hash] at here before
    obtain less | rfl | greater := Nat.lt_trichotomy n' m
    · obtain eq | ⟨ix', e', eq, entry', miss⟩ := goes n' less
      · rw [here] at eq; cases eq
      · rw [here] at eq
        cases eq
        rw [entry] at entry'
        cases entry'
        exact miss ⟨hash, rfl⟩
    · rw [here] at cell; cases cell
    · exact before m greater cell

end Table

end Goivy.Hashed
