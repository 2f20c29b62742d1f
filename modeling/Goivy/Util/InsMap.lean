import Mathlib

/-! Maps that keep the order in which their keys were first set. -/
namespace Goivy

structure InsMap (κ α : Type) where
  entries : List (κ × α)
  nodup : (entries.map Prod.fst).Nodup

namespace InsMap

variable {κ α : Type} [DecidableEq κ]

/-- A new key goes to the end, an old one keeps its place. -/
def setEntries (k : κ) (a : α) : List (κ × α) → List (κ × α)
  | [] => [(k, a)]
  | p :: ps => if p.1 = k then (k, a) :: ps else p :: setEntries k a ps

theorem setEntries_keys (k : κ) (a : α) (ps : List (κ × α)) :
    (setEntries k a ps).map Prod.fst =
      if k ∈ ps.map Prod.fst then ps.map Prod.fst else ps.map Prod.fst ++ [k] := by
  induction ps with
  | nil => rfl
  | cons p ps ih =>
    by_cases h : p.1 = k
    · simp [setEntries, h]
    · simp only [setEntries, if_neg h, List.map_cons, ih, List.mem_cons, Ne.symm h, false_or]
      split <;> rfl

def empty : InsMap κ α := ⟨[], List.nodup_nil⟩

def set (m : InsMap κ α) (k : κ) (a : α) : InsMap κ α where
  entries := setEntries k a m.entries
  nodup := by
    rw [setEntries_keys]
    split
    · exact m.nodup
    · rename_i h
      refine List.nodup_append.mpr ⟨m.nodup, List.nodup_singleton k, fun j hj i hi => ?_⟩
      rintro rfl
      exact h (List.mem_singleton.mp hi ▸ hj)

def get (m : InsMap κ α) (k : κ) : Option α := m.entries.lookup k

/-- The value of a key is replaced, or set for the first time. -/
def update (m : InsMap κ α) (k : κ) (f : Option α → α) : InsMap κ α := m.set k (f (m.get k))

def values (m : InsMap κ α) : List α := m.entries.map Prod.snd

@[simp] theorem get_empty (k : κ) : (empty : InsMap κ α).get k = none := rfl

theorem lookup_cons (k j : κ) (a : α) (ps : List (κ × α)) :
    ((k, a) :: ps).lookup j = if j = k then some a else ps.lookup j := by
  by_cases h : j = k
  · simp [h]
  · simp [List.lookup, beq_false_of_ne h, h]

theorem lookup_filter_notMem (ks : List κ) (ps : List (κ × α)) (k : κ) :
    (ps.filter fun p => p.1 ∉ ks).lookup k = if k ∈ ks then none else ps.lookup k := by
  induction ps with
  | nil => simp
  | cons p ps ih =>
    obtain ⟨key, a⟩ := p
    by_cases removed : key ∈ ks
    · rw [List.filter_cons_of_neg (by simpa using removed), ih, lookup_cons]
      split
      · rfl
      · rename_i kept
        rw [if_neg (by rintro rfl; exact kept removed)]
    · rw [List.filter_cons_of_pos (by simpa using removed), lookup_cons, lookup_cons, ih]
      split
      · rename_i same
        rw [if_neg (same ▸ removed)]
      · rfl

/-- The map that has the value of `f` at each of the keys. -/
theorem lookup_graph (f : κ → α) (ks : List κ) (k : κ) : (ks.map fun k => (k, f k)).lookup k = if k ∈ ks then some (f k) else none := by
  induction ks with
  | nil => rfl
  | cons j ks ih =>
    rw [List.map_cons, lookup_cons, ih]
    by_cases same : k = j
    · simp [same]
    · simp [same]

theorem lookup_setEntries (k j : κ) (a : α) (ps : List (κ × α)) :
    (setEntries k a ps).lookup j = if j = k then some a else ps.lookup j := by
  induction ps with
  | nil => exact lookup_cons k j a []
  | cons p ps ih =>
    obtain ⟨key, b⟩ := p
    simp only [setEntries]
    split <;> simp only [lookup_cons] <;> grind

theorem get_set (m : InsMap κ α) (k j : κ) (a : α) :
    (m.set k a).get j = if j = k then some a else m.get j :=
  lookup_setEntries k j a m.entries

section Loop

variable {β : Type} (key : β → κ) (f : β → Option α → α)

/-- A loop that updates one key a round leaves the other keys alone. -/
theorem get_foldl_update_other {bs : List β} {m : InsMap κ α} {k : κ} (h : ∀ b ∈ bs, key b ≠ k) :
    (bs.foldl (fun m b => m.update (key b) (f b)) m).get k = m.get k := by
  induction bs generalizing m with
  | nil => rfl
  | cons b bs ih =>
    rw [List.foldl_cons, ih fun c hc => h c (List.mem_cons_of_mem _ hc), update, get_set,
      if_neg (Ne.symm (h b List.mem_cons_self))]

/-- Where the keys are distinct every key is updated once. -/
theorem get_foldl_update {bs : List β} {m : InsMap κ α} (once : (bs.map key).Nodup) {b : β}
    (hb : b ∈ bs) :
    (bs.foldl (fun m b => m.update (key b) (f b)) m).get (key b) = some (f b (m.get (key b))) := by
  induction bs generalizing m with
  | nil => simp at hb
  | cons c bs ih =>
    rw [List.map_cons, List.nodup_cons] at once
    have later : ∀ d ∈ bs, key d ≠ key c := fun d hd same => once.1 (same ▸ List.mem_map_of_mem hd)
    obtain rfl | hb := List.mem_cons.mp hb
    · rw [List.foldl_cons, get_foldl_update_other key f later, update, get_set, if_pos rfl]
    · rw [List.foldl_cons, ih once.2 hb, update, get_set, if_neg (later b hb)]

end Loop

theorem mem_of_lookup {ps : List (κ × α)} {k : κ} {a : α} (h : ps.lookup k = some a) :
    (k, a) ∈ ps := by
  induction ps with
  | nil => contradiction
  | cons p ps ih =>
    rw [lookup_cons] at h
    split at h
    · rename_i same
      cases h
      simp [same]
    · exact List.mem_cons_of_mem _ (ih h)

theorem mem_iff_lookup {ps : List (κ × α)} (nodup : (ps.map Prod.fst).Nodup) {k : κ} {a : α} :
    (k, a) ∈ ps ↔ ps.lookup k = some a := by
  induction ps with
  | nil => simp
  | cons p ps ih =>
    obtain ⟨key, b⟩ := p
    simp only [List.map_cons, List.nodup_cons, List.mem_map, not_exists, not_and] at nodup
    have tail := ih nodup.2
    simp only [List.mem_cons, Prod.mk.injEq, lookup_cons]
    by_cases h : k = key
    · have : (k, a) ∉ ps := fun mem => nodup.1 _ mem h
      simp [h, eq_comm, h ▸ this]
    · simp [h, tail]

theorem mem_entries {m : InsMap κ α} {k : κ} {a : α} : (k, a) ∈ m.entries ↔ m.get k = some a :=
  mem_iff_lookup m.nodup

theorem mem_values {m : InsMap κ α} {a : α} : a ∈ m.values ↔ ∃ k, m.get k = some a := by
  simp [values, mem_entries]

end InsMap

end Goivy
