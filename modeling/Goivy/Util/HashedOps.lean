import Goivy.Util.HashedTable

/-! Each operation of the hash map keeps the table and acts on the live entries. -/
namespace Goivy.Hashed

variable {K V : Type} {env : Env K} {k : Nat} {d : InsMap K V} {c : Nat → Cell}

namespace Table

theorem steps (t : Table env k d c) : d.steps = 14 + 2 ^ k := by rw [InsMap.steps, t.indicesLen]

/-! ### Searching -/

theorem tag_at (t : Table env k d c) (h n : Nat) :
    d.tags[slotAt d.mask h n]? = (c (slotAt d.mask h n)).tag d.entries := t.tags _ (t.lt h n)

theorem index_at (t : Table env k d c) (h n : Nat) :
    d.indices[slotAt d.mask h n]? = some (c (slotAt d.mask h n)).index := t.indices _ (t.lt h n)

theorem tagUsed_ne (h : Nat) : hashTag h ≠ tagEmpty ∧ hashTag h ≠ tagDummy := by
  have le := tagUsed_le h
  rw [tagUsed] at le
  rw [tagEmpty, tagDummy]
  omega

theorem find_passes [DecidableEq K] (t : Table env k d c) {key : K} {h j : Nat}
    (miss : Misses d c key h (slotAt d.mask h j)) : (do
      let ctrl ← d.tags[slotAt d.mask h j]?
      if ctrl = tagEmpty then return some (slotAt d.mask h j, none)
      else if ctrl = hashTag h then
        let ix ← d.indices[slotAt d.mask h j]?
        let e ← d.entries[ix.toNat]?
        if 0 ≤ ix then return if e.hash = h ∧ e.key = key then some (slotAt d.mask h j, some ix.toNat) else none
        else none
      else return none) = some (none : Option (Nat × Option Nat)) := by
  have tag := t.tag_at h j
  have index := t.index_at h j
  obtain dummy | ⟨ix, e, used, entry, other⟩ := miss
  · rw [dummy] at tag
    simp [tag, Cell.tag, (by decide : tagDummy ≠ tagEmpty), (tagUsed_ne h).2.symm]
  · rw [used] at tag index
    simp only [Cell.tag, Cell.index, entry, Option.map_some] at tag index
    simp [tag, index, entry, other, (tagUsed_ne _).1]

theorem get2_passes [DecidableEq K] (t : Table env k d c) {key : K} {h j : Nat}
    (miss : Misses d c key h (slotAt d.mask h j)) : (do
      let ctrl ← d.tags[slotAt d.mask h j]?
      if ctrl = hashTag h then
        let ix ← d.indices[slotAt d.mask h j]?
        let e ← d.entries[ix.toNat]?
        if 0 ≤ ix then return if e.hash = h ∧ e.key = key then some (some e.val) else none
        else none
      else return if ctrl = tagEmpty then some none else none) = some (none : Option (Option V)) := by
  have tag := t.tag_at h j
  have index := t.index_at h j
  obtain dummy | ⟨ix, e, used, entry, other⟩ := miss
  · rw [dummy] at tag
    simp [tag, Cell.tag, (by decide : tagDummy ≠ tagEmpty), (tagUsed_ne h).2.symm]
  · rw [used] at tag index
    simp only [Cell.tag, Cell.index, entry, Option.map_some] at tag index
    simp [tag, index, entry, other, (tagUsed_ne _).1]

theorem find_spec [DecidableEq K] (t : Table env k d c) (key : K) :
    (∃ (s ix : Nat) (e : Entry K V), s < 2 ^ k ∧ d.entries[ix]? = some e ∧ e.live ∧ e.key = key ∧
      c s = .used ix ∧
      d.find key (env.hashOf key) (hashTag (env.hashOf key)) = some (s, some ix)) ∨
    (∀ (ix : Nat) (e : Entry K V), d.entries[ix]? = some e → e.live → e.key ≠ key) ∧
      ∃ n, c (slotAt d.mask (env.hashOf key) n) = .empty ∧
        (∀ j < n, c (slotAt d.mask (env.hashOf key) j) ≠ .empty) ∧
        d.find key (env.hashOf key) (hashTag (env.hashOf key)) =
          some (slotAt d.mask (env.hashOf key) n, none) := by
  have steps := t.steps
  have nonempty : ∀ s, Misses d c key (env.hashOf key) s → c s ≠ .empty := by
    rintro s (eq | ⟨ix, e, eq, _⟩) empty <;> rw [empty] at eq <;> cases eq
  obtain ⟨n, ix, e, less, entry, live, hash, same, cell, goes⟩ | ⟨absent, n, less, cell, goes⟩ := t.locate key
  · have tag := t.tag_at (env.hashOf key) n
    have index := t.index_at (env.hashOf key) n
    rw [cell] at tag index
    simp only [Cell.tag, Cell.index, entry, hash, Option.map_some] at tag index
    refine .inl ⟨_, ix, e, t.lt _ n, entry, live, same, cell, ?_⟩
    refine probe_stops (fun j hj => ?_) ?_ (by omega : n < d.steps)
    · exact t.find_passes (goes j hj)
    · simp [tag, index, entry, hash, same, (tagUsed_ne _).1]
  · have tag := t.tag_at (env.hashOf key) n
    rw [cell] at tag
    refine .inr ⟨absent, n, cell, fun j hj => nonempty _ (goes j hj), ?_⟩
    refine probe_stops (fun j hj => ?_) ?_ (by omega : n < d.steps)
    · exact t.find_passes (goes j hj)
    · simp [tag, Cell.tag]

theorem get2_spec [DecidableEq K] (t : Table env k d c) (key : K) (some_live : d.live ≠ 0) :
    (∃ (ix : Nat) (e : Entry K V), d.entries[ix]? = some e ∧ e.live ∧ e.key = key ∧
      d.get2 env key = some (some e.val)) ∨
    (∀ (ix : Nat) (e : Entry K V), d.entries[ix]? = some e → e.live → e.key ≠ key) ∧
      d.get2 env key = some none := by
  have steps := t.steps
  rw [InsMap.get2, if_neg some_live]
  obtain ⟨n, ix, e, less, entry, live, hash, same, cell, goes⟩ | ⟨absent, n, less, cell, goes⟩ := t.locate key
  · have tag := t.tag_at (env.hashOf key) n
    have index := t.index_at (env.hashOf key) n
    rw [cell] at tag index
    simp only [Cell.tag, Cell.index, entry, hash, Option.map_some] at tag index
    refine .inl ⟨ix, e, entry, live, same, ?_⟩
    refine probe_stops (fun j hj => ?_) ?_ (by omega : n < d.steps)
    · exact t.get2_passes (goes j hj)
    · simp [tag, index, entry, hash, same]
  · have tag := t.tag_at (env.hashOf key) n
    rw [cell] at tag
    refine .inr ⟨absent, ?_⟩
    refine probe_stops (fun j hj => ?_) ?_ (by omega : n < d.steps)
    · exact t.get2_passes (goes j hj)
    · simp [tag, Cell.tag, (tagUsed_ne _).1.symm]

theorem freeSlot_spec (t : Table env k d c) {h : Nat} (hash : h < 2 ^ 64) :
    ∃ n, (∀ ix, c (slotAt d.mask h n) ≠ .used ix) ∧ (∀ j < n, c (slotAt d.mask h j) ≠ .empty) ∧
      d.freeSlot h = some (slotAt d.mask h n) := by
  have steps := t.steps
  obtain ⟨s, hs, empty⟩ := t.exists_empty
  obtain ⟨n, less, rfl⟩ := exists_slotAt hash hs
  rw [← t.mask] at empty
  obtain ⟨m, le, stops, goes⟩ := first_stop (fun n => ∀ ix, c (slotAt d.mask h n) ≠ .used ix)
    (n := n) fun ix eq => by rw [empty] at eq; cases eq
  have taken : ∀ j < m, ∃ ix, c (slotAt d.mask h j) = .used ix := fun j hj => by
    simpa using goes j hj
  refine ⟨m, stops, fun j hj eq => ?_, probe_stops (fun j hj => ?_) ?_ (by omega : m < d.steps)⟩
  · obtain ⟨ix, used⟩ := taken j hj
    rw [eq] at used
    cases used
  · obtain ⟨ix, used⟩ := taken j hj
    obtain ⟨e, entry, _⟩ := t.used _ (t.lt h j) ix used
    have tag := t.tag_at h j
    rw [used] at tag
    simp [tag, Cell.tag, entry, tagUsed_le]
  · have tag := t.tag_at h m
    cases cell : c (slotAt d.mask h m) with
    | used ix => exact absurd cell (stops ix)
    | empty | dummy =>
      rw [cell] at tag
      simp [tag, Cell.tag, tagEmpty, tagDummy, tagUsed]

/-! ### Changing the table -/

theorem get_append {es : List (Entry K V)} {e e' : Entry K V} {ix : Nat}
    (found : (es ++ [e])[ix]? = some e') : es[ix]? = some e' ∨ ix = es.length ∧ e' = e := by
  obtain less | rfl | greater := Nat.lt_trichotomy ix es.length
  · rw [List.getElem?_append_left less] at found
    exact .inl found
  · rw [List.getElem?_concat_length] at found
    exact .inr ⟨rfl, (Option.some.inj found).symm⟩
  · rw [List.getElem?_eq_none (by simp; omega)] at found
    cases found

theorem append_get {es : List (Entry K V)} {e e' : Entry K V} {ix : Nat} (found : es[ix]? = some e') :
    (es ++ [e])[ix]? = some e' := by
  rw [List.getElem?_append_left (List.getElem?_eq_some_iff.mp found).1, found]

/-- An entry is added, with a slot on its probe sequence. -/
theorem place (t : Table env k d c) {e : Entry K V} (hash : e.hash = env.hashOf e.key)
    (fresh : ∀ (ix : Nat) (e' : Entry K V), d.entries[ix]? = some e' → e'.live → e'.key ≠ e.key)
    (live : e.live) {n : Nat} (free : ∀ ix, c (slotAt d.mask e.hash n) ≠ .used ix)
    (before : ∀ j < n, c (slotAt d.mask e.hash j) ≠ .empty)
    (room : d.entries.length < 2 ^ k * 2 / 3) :
    Table env k (d.place env (slotAt d.mask e.hash n) e)
      (Function.update c (slotAt d.mask e.hash n) (.used d.entries.length)) := by
  have hs := t.lt e.hash n
  generalize slot : slotAt d.mask e.hash n = s at free hs
  have old : ∀ s' ix, c s' = .used ix → s' ≠ s := fun s' ix used eq => free ix (eq ▸ used)
  have nonempty : ∀ s', c s' ≠ .empty → Function.update c s (.used d.entries.length) s' ≠ .empty := by
    intro s' ne
    by_cases eq : s' = s
    · simp [eq]
    · rwa [Function.update_of_ne eq]
  have within : ∀ s' < 2 ^ k, ∀ ix, c s' = .used ix → ix < d.entries.length := by
    intro s' hs' ix used
    obtain ⟨e', entry, _⟩ := t.used s' hs' ix used
    exact (List.getElem?_eq_some_iff.mp entry).1
  refine ⟨?_, ?_, t.mask, ?_, ?_, ?_, ?_, ?_, ?_, ?_, ?_, ?_⟩
  · rw [InsMap.place, List.length_set, t.indicesLen]
  · rw [InsMap.place, List.length_set, t.tagsLen]
  · intro s' hs'
    by_cases eq : s' = s
    · subst eq
      simp [InsMap.place, InsMap.append, Cell.tag, t.tagsLen, hs]
    · have tag := t.tags s' hs'
      rw [Function.update_of_ne eq]
      simp only [InsMap.place, InsMap.append, List.getElem?_set_ne (Ne.symm eq), tag]
      cases cell : c s' with
      | used ix => simp only [Cell.tag, List.getElem?_append_left (within s' hs' ix cell)]
      | empty | dummy => rfl
  · intro s' hs'
    by_cases eq : s' = s
    · subst eq
      simp [InsMap.place, Cell.index, t.indicesLen, hs]
    · rw [Function.update_of_ne eq, ← t.indices s' hs']
      simp only [InsMap.place, List.getElem?_set_ne (Ne.symm eq)]
  · intro s' hs' ix used
    by_cases eq : s' = s
    · subst eq
      rw [Function.update_self] at used
      cases used
      exact ⟨e, by simp [InsMap.place, InsMap.append], live⟩
    · rw [Function.update_of_ne eq] at used
      obtain ⟨e', entry, live'⟩ := t.used s' hs' ix used
      exact ⟨e', append_get entry, live'⟩
  · intro s' hs' s'' hs'' ix used used'
    by_cases eq : s' = s
    · by_cases eq' : s'' = s
      · rw [eq, eq']
      · rw [eq, Function.update_self] at used
        rw [Function.update_of_ne eq'] at used'
        cases used
        exact absurd (within s'' hs'' _ used') (lt_irrefl _)
    · by_cases eq' : s'' = s
      · rw [eq', Function.update_self] at used'
        rw [Function.update_of_ne eq] at used
        cases used'
        exact absurd (within s' hs' _ used) (lt_irrefl _)
      · rw [Function.update_of_ne eq] at used
        rw [Function.update_of_ne eq'] at used'
        exact t.inj s' hs' s'' hs'' ix used used'
  · intro ix e' entry live'
    obtain entry | ⟨rfl, rfl⟩ := get_append entry
    · obtain ⟨n', here, earlier⟩ := t.reach ix e' entry live'
      refine ⟨n', ?_, fun j hj => nonempty _ (earlier j hj)⟩
      exact (Function.update_of_ne (old _ ix here) _ _).trans here
    · refine ⟨n, ?_, fun j hj => nonempty _ (before j hj)⟩
      exact slot ▸ Function.update_self _ _ _
  · intro e' mem live'
    obtain mem | mem := List.mem_append.mp mem
    · exact t.hashes e' mem live'
    · rw [List.mem_singleton.mp mem, hash]
  · intro ix ix' e' e'' entry entry' live' live'' same
    obtain here | ⟨rfl, rfl⟩ := get_append entry
    · obtain there | ⟨rfl, rfl⟩ := get_append entry'
      · exact t.keys ix ix' e' e'' here there live' live'' same
      · exact absurd same (fresh ix e' here live')
    · obtain there | ⟨rfl, rfl⟩ := get_append entry'
      · exact absurd same.symm (fresh ix' e'' there live'')
      · rfl
  · have sub : (Finset.range (2 ^ k)).filter
        (fun s' => Function.update c s (.used d.entries.length) s' ≠ .empty) ⊆
          insert s ((Finset.range (2 ^ k)).filter fun s' => c s' ≠ .empty) := by
      intro s' mem
      obtain ⟨range, ne⟩ := Finset.mem_filter.mp mem
      by_cases eq : s' = s
      · exact Finset.mem_insert.mpr (.inl eq)
      · rw [Function.update_of_ne eq] at ne
        exact Finset.mem_insert_of_mem (Finset.mem_filter.mpr ⟨range, ne⟩)
    have card := (Finset.card_le_card sub).trans (Finset.card_insert_le _ _)
    have old := t.room
    simp only [InsMap.place, InsMap.append, List.length_append, List.length_singleton]
    omega
  · simp only [InsMap.place, InsMap.append, List.length_append, List.length_singleton]
    omega

theorem get_set {es : List (Entry K V)} {zero e : Entry K V} {ix ix' : Nat} (dead : zero.live = false)
    (found : (es.set ix zero)[ix']? = some e) (live : e.live) : ix' ≠ ix ∧ es[ix']? = some e := by
  rw [List.getElem?_set] at found
  split at found
  · split at found
    · cases found
      rw [dead] at live
      cases live
    · cases found
  · rename_i ne
    exact ⟨fun eq => ne eq.symm, found⟩

/-- An entry is deleted, and its slot is a dummy. -/
theorem unplace (t : Table env k d c) {s ix live : Nat} {zero : Entry K V} (dead : zero.live = false)
    (hs : s < 2 ^ k) (cell : c s = .used ix) :
    Table env k { d with
      indices := d.indices.set s slotDummy
      tags := d.tags.set s tagDummy
      entries := d.entries.set ix zero
      live } (Function.update c s .dummy) := by
  have other : ∀ s' < 2 ^ k, s' ≠ s → ∀ ix', c s' = .used ix' → ix' ≠ ix := by
    rintro s' hs' ne ix' used rfl
    exact ne (t.inj s' hs' s hs ix' used cell)
  refine ⟨?_, ?_, t.mask, ?_, ?_, ?_, ?_, ?_, ?_, ?_, ?_, ?_⟩
  · rw [List.length_set, t.indicesLen]
  · rw [List.length_set, t.tagsLen]
  · intro s' hs'
    by_cases eq : s' = s
    · subst eq
      simp [Cell.tag, t.tagsLen, hs]
    · rw [Function.update_of_ne eq, List.getElem?_set_ne (Ne.symm eq), t.tags s' hs']
      cases used : c s' with
      | used ix' => rw [Cell.tag, Cell.tag, List.getElem?_set_ne (other s' hs' eq ix' used).symm]
      | empty | dummy => rfl
  · intro s' hs'
    by_cases eq : s' = s
    · subst eq
      simp [Cell.index, t.indicesLen, hs]
    · rw [Function.update_of_ne eq, List.getElem?_set_ne (Ne.symm eq), t.indices s' hs']
  · intro s' hs' ix' used
    by_cases eq : s' = s
    · rw [eq, Function.update_self] at used
      cases used
    · rw [Function.update_of_ne eq] at used
      rw [List.getElem?_set_ne (other s' hs' eq ix' used).symm]
      exact t.used s' hs' ix' used
  · intro s' hs' s'' hs'' ix' used used'
    have ne : ∀ s', Function.update c s .dummy s' = .used ix' → s' ≠ s := by
      rintro s' used rfl
      rw [Function.update_self] at used
      cases used
    rw [Function.update_of_ne (ne s' used)] at used
    rw [Function.update_of_ne (ne s'' used')] at used'
    exact t.inj s' hs' s'' hs'' ix' used used'
  · intro ix' e entry alive
    obtain ⟨ne, entry⟩ := get_set dead entry alive
    obtain ⟨n, here, before⟩ := t.reach ix' e entry alive
    have elsewhere : slotAt d.mask e.hash n ≠ s := by
      intro eq
      rw [eq, cell] at here
      cases here
      exact ne rfl
    refine ⟨n, (Function.update_of_ne elsewhere _ _).trans here, fun j hj => ?_⟩
    by_cases eq : slotAt d.mask e.hash j = s
    · simp [eq]
    · rw [Function.update_of_ne eq]
      exact before j hj
  · intro e mem alive
    obtain ⟨ix', entry⟩ := List.getElem?_of_mem mem
    exact t.hashes e (List.mem_of_getElem? (get_set dead entry alive).2) alive
  · intro ix₁ ix₂ e₁ e₂ entry₁ entry₂ alive₁ alive₂
    exact t.keys ix₁ ix₂ e₁ e₂ (get_set dead entry₁ alive₁).2 (get_set dead entry₂ alive₂).2 alive₁ alive₂
  · have sub : (Finset.range (2 ^ k)).filter (fun s' => Function.update c s .dummy s' ≠ .empty) ⊆
        (Finset.range (2 ^ k)).filter fun s' => c s' ≠ .empty := by
      intro s' mem
      obtain ⟨range, ne⟩ := Finset.mem_filter.mp mem
      refine Finset.mem_filter.mpr ⟨range, ?_⟩
      by_cases eq : s' = s
      · simp [eq, cell]
      · rwa [Function.update_of_ne eq] at ne
    rw [List.length_set]
    exact (Finset.card_le_card sub).trans t.room
  · rw [List.length_set]
    exact t.within

end Table

end Goivy.Hashed
