import Goivy.Util.HashedOps

/-! The live entries of the hash map, and what rebuilding, searching and changing do to them. -/
namespace Goivy.Hashed

variable {K V : Type} {env : Env K}

def contentsOf (es : List (Entry K V)) : List (K × V) :=
  (es.filter Entry.live).map fun e => (e.key, e.val)

theorem contentsOf_cons (e : Entry K V) (es : List (Entry K V)) :
    contentsOf (e :: es) = if e.live then (e.key, e.val) :: contentsOf es else contentsOf es := by
  rw [contentsOf, List.filter_cons]
  split <;> rfl

theorem contentsOf_append (es es' : List (Entry K V)) :
    contentsOf (es ++ es') = contentsOf es ++ contentsOf es' := by
  rw [contentsOf, List.filter_append, List.map_append]
  rfl

theorem contentsOf_filter (es : List (Entry K V)) : contentsOf (es.filter Entry.live) = contentsOf es := by
  rw [contentsOf, List.filter_filter]
  simp [contentsOf]

theorem mem_contentsOf {es : List (Entry K V)} {p : K × V} :
    p ∈ contentsOf es ↔ ∃ e ∈ es, e.live ∧ (e.key, e.val) = p := by
  simp [contentsOf, and_assoc]

/-- The entries carry their hashes, and no key is live twice. -/
structure Sound (env : Env K) (es : List (Entry K V)) : Prop where
  hashes : ∀ e ∈ es, e.live → e.hash = env.hashOf e.key
  nodup : ((contentsOf es).map Prod.fst).Nodup

theorem nodup_of_keys {es : List (Entry K V)} (keys : ∀ (ix ix' : Nat) (e e' : Entry K V),
    es[ix]? = some e → es[ix']? = some e' → e.live → e'.live → e.key = e'.key → ix = ix') :
    ((contentsOf es).map Prod.fst).Nodup := by
  induction es with
  | nil => exact List.nodup_nil
  | cons e es ih =>
    have rest := ih fun ix ix' e₁ e₂ h₁ h₂ l₁ l₂ same =>
      Nat.succ.inj (keys (ix + 1) (ix' + 1) e₁ e₂ h₁ h₂ l₁ l₂ same)
    rw [contentsOf_cons]
    split
    · rename_i live
      rw [List.map_cons, List.nodup_cons]
      refine ⟨fun mem => ?_, rest⟩
      obtain ⟨p, mem, same⟩ := List.mem_map.mp mem
      obtain ⟨e', there, live', rfl⟩ := mem_contentsOf.mp mem
      obtain ⟨ix, entry⟩ := List.getElem?_of_mem there
      cases keys 0 (ix + 1) e e' rfl entry live live' same.symm
    · exact rest

section Rebuild

variable {k : Nat} {d : InsMap K V} {c : Nat → Cell}

theorem Table.sound (t : Table env k d c) : Sound env d.entries := ⟨t.hashes, nodup_of_keys t.keys⟩

theorem Table.with_live (t : Table env k d c) (live : Nat) : Table env k { d with live } c :=
  ⟨t.indicesLen, t.tagsLen, t.mask, t.tags, t.indices, t.used, t.inj, t.reach, t.hashes, t.keys, t.room,
    t.within⟩

/-- A table with no entries. -/
theorem Table.fresh (env : Env K) (k cap live : Nat) : Table env k
    (⟨List.replicate (2 ^ k) slotEmpty, [], cap, live, 2 ^ k - 1, List.replicate (2 ^ k) tagEmpty⟩ :
      InsMap K V) fun _ => .empty where
  indicesLen := List.length_replicate
  tagsLen := List.length_replicate
  mask := rfl
  tags s hs := by simp [Cell.tag, hs]
  indices s hs := by simp [Cell.index, hs]
  used _ _ _ used := by cases used
  inj _ _ _ _ _ used := by cases used
  reach _ _ entry := by simp at entry
  hashes _ mem := by cases mem
  keys _ _ _ _ entry := by simp at entry
  room := by simp
  within := Nat.zero_le _

/-- The copying loop adds the live entries that are left, also when it overwrites the old ones. -/
theorem copy_spec (shared : Bool) {n i : Nat} {old : List (Entry K V)} (left : i + n = old.length)
    (t : Table env k d c) (behind : d.entries.length ≤ i) (sound : Sound env (d.entries ++ old.drop i))
    (room : d.entries.length + ((old.drop i).filter Entry.live).length ≤ 2 ^ k * 2 / 3) :
    ∃ d' c', InsMap.copy env shared (List.range' i n) old d = some d' ∧ Table env k d' c' ∧
      d'.entries = d.entries ++ (old.drop i).filter Entry.live ∧ d'.live = d.live := by
  induction n generalizing i old d c with
  | zero =>
    refine ⟨d, c, rfl, t, ?_, rfl⟩
    rw [List.drop_eq_nil_of_le (by omega), List.filter_nil, List.append_nil]
  | succ n ih =>
    have less : i < old.length := by omega
    have split := List.drop_eq_getElem_cons less
    rw [split] at sound room ⊢
    rw [List.range'_succ, InsMap.copy, List.getElem?_eq_getElem less, Option.bind_eq_bind, Option.bind_some]
    generalize old[i] = e at split sound room
    cases live : e.live with
    | false =>
      rw [List.filter_cons_of_neg (by simp [live])] at room ⊢
      have kept : Sound env (d.entries ++ old.drop (i + 1)) := by
        have nodup := sound.nodup
        rw [contentsOf_append, contentsOf_cons, live, if_neg (by simp), ← contentsOf_append] at nodup
        refine ⟨fun e' mem => sound.hashes e' ?_, nodup⟩
        obtain mem | mem := List.mem_append.mp mem
        · exact List.mem_append_left _ mem
        · exact List.mem_append_right _ (List.mem_cons_of_mem _ mem)
      exact ih (by omega) t (by omega) kept room
    | true =>
      rw [List.filter_cons_of_pos live] at room ⊢
      rw [List.length_cons] at room
      have hash := sound.hashes e (List.mem_append_right _ List.mem_cons_self) live
      have bound : e.hash < 2 ^ 64 := hash ▸ hashOf_lt env e.key
      obtain ⟨m, free, before, run⟩ := t.freeSlot_spec bound
      have fresh : ∀ (ix : Nat) (e' : Entry K V), d.entries[ix]? = some e' → e'.live → e'.key ≠ e.key := by
        intro ix e' entry live' same
        have nodup := sound.nodup
        rw [contentsOf_append, List.map_append, contentsOf_cons, if_pos live, List.map_cons] at nodup
        refine (List.nodup_append.mp nodup).2.2 e'.key ?_ e.key List.mem_cons_self same
        exact List.mem_map_of_mem (f := Prod.fst)
          (mem_contentsOf.mpr ⟨e', List.mem_of_getElem? entry, live', rfl⟩)
      have t' := t.place hash fresh live free before (by omega)
      have drop : (if shared then old.set d.entries.length e else old).drop (i + 1) = old.drop (i + 1) := by
        cases shared
        · rfl
        · exact List.drop_set_of_lt (by omega)
      have length : (if shared then old.set d.entries.length e else old).length = old.length := by
        cases shared
        · rfl
        · exact List.length_set
      have entries : (d.place env (slotAt d.mask e.hash m) e).entries = d.entries ++ [e] := rfl
      have more : (d.place env (slotAt d.mask e.hash m) e).entries.length = d.entries.length + 1 := by
        rw [entries, List.length_append, List.length_singleton]
      have sound' : Sound env ((d.place env (slotAt d.mask e.hash m) e).entries ++
          (if shared then old.set d.entries.length e else old).drop (i + 1)) := by
        rw [entries, drop, List.append_assoc]
        exact sound
      have room' : (d.place env (slotAt d.mask e.hash m) e).entries.length +
          (((if shared then old.set d.entries.length e else old).drop (i + 1)).filter Entry.live).length ≤
            2 ^ k * 2 / 3 := by
        rw [more, drop]
        omega
      obtain ⟨d', c', copied, table, contents, live'⟩ := ih (by rw [length]; omega) t' (by omega) sound' room'
      refine ⟨d', c', by simpa [run, live] using copied, table, ?_, live'⟩
      rw [contents, entries, drop, List.append_assoc]
      rfl

theorem rebuildEntries_spec (sound : Sound env d.entries) (capacity : Nat)
    (room : (d.entries.filter Entry.live).length ≤ 2 ^ k * 2 / 3) :
    ∃ d' c', d.rebuildEntries env (2 ^ k) capacity = some d' ∧ Table env k d' c' ∧
      d'.entries = d.entries.filter Entry.live ∧ d'.live = d.live := by
  rw [InsMap.rebuildEntries, List.range_eq_range']
  obtain ⟨d', c', copied, table, contents, live⟩ := copy_spec _ (Nat.zero_add _)
    (Table.fresh env k _ d.live) (Nat.zero_le _) (by simpa using sound) (by simpa using room)
  exact ⟨d', c', copied, table, by simpa using contents, live⟩

end Rebuild

/-! ### Changed entries -/

section Change

variable [DecidableEq K]

theorem contentsOf_modify {es : List (Entry K V)} {ix : Nat} {e : Entry K V}
    (nodup : ((contentsOf es).map Prod.fst).Nodup) (entry : es[ix]? = some e) (live : e.live) (v : V) :
    contentsOf (es.modify ix fun e => { e with val := v }) = InsMap.setEntries e.key v (contentsOf es) := by
  induction es generalizing ix with
  | nil => simp at entry
  | cons e₀ es ih =>
    rw [contentsOf_cons] at nodup ⊢
    cases ix with
    | zero =>
      rw [List.getElem?_cons_zero, Option.some.injEq] at entry
      subst entry
      rw [List.modify_zero_cons, contentsOf_cons, if_pos live, if_pos live, InsMap.setEntries, if_pos rfl]
    | succ ix =>
      rw [List.getElem?_cons_succ] at entry
      rw [List.modify_succ_cons, contentsOf_cons]
      cases live₀ : e₀.live with
      | false =>
        rw [live₀, if_neg (by simp)] at nodup
        exact ih nodup entry
      | true =>
        rw [live₀, if_pos rfl, List.map_cons, List.nodup_cons] at nodup
        have other : e₀.key ≠ e.key := by
          intro same
          have mem : e.key ∈ (contentsOf es).map Prod.fst :=
            List.mem_map.mpr ⟨_, mem_contentsOf.mpr ⟨e, List.mem_of_getElem? entry, live, rfl⟩, rfl⟩
          rw [← same] at mem
          exact nodup.1 mem
        rw [if_pos rfl, if_pos rfl, InsMap.setEntries, if_neg other, ih nodup.2 entry]

theorem setEntries_new {m : List (K × V)} {key : K} (absent : key ∉ m.map Prod.fst) (v : V) :
    InsMap.setEntries key v m = m ++ [(key, v)] := by
  induction m with
  | nil => rfl
  | cons p m ih =>
    rw [List.map_cons, List.mem_cons, not_or] at absent
    rw [InsMap.setEntries, if_neg (Ne.symm absent.1), ih absent.2, List.cons_append]

/-- Clears the entry of a key. -/
def kill (zero : Entry K V) (key : K) (e : Entry K V) : Entry K V :=
  if e.live ∧ e.key = key then zero else e

theorem contentsOf_kill (zero : Entry K V) (dead : zero.live = false) (key : K) (es : List (Entry K V)) :
    contentsOf (es.map (kill zero key)) = (contentsOf es).filter fun p => p.1 ≠ key := by
  induction es with
  | nil => rfl
  | cons e es ih =>
    rw [List.map_cons, contentsOf_cons, contentsOf_cons, ih]
    cases live : e.live with
    | false => simp [kill, live]
    | true =>
      by_cases same : e.key = key
      · simp [kill, live, same, dead]
      · simp [kill, live, same]

theorem set_eq_kill (zero : Entry K V) {e : Entry K V} {es : List (Entry K V)} {ix : Nat}
    (keys : ∀ (ix ix' : Nat) (e e' : Entry K V), es[ix]? = some e → es[ix']? = some e' → e.live →
      e'.live → e.key = e'.key → ix = ix') (entry : es[ix]? = some e) (live : e.live) :
    es.set ix zero = es.map (kill zero e.key) := by
  refine List.ext_getElem? fun j => ?_
  rw [List.getElem?_set, List.getElem?_map]
  split
  · rename_i same
    subst same
    rw [if_pos (List.getElem?_eq_some_iff.mp entry).1, entry, Option.map_some, kill, if_pos ⟨live, rfl⟩]
  · rename_i other
    cases there : es[j]? with
    | none => rfl
    | some e' =>
      have stays : ¬ (e'.live ∧ e'.key = e.key) := fun ⟨live', same⟩ =>
        other (keys ix j e e' entry there live live' same.symm)
      rw [Option.map_some, kill, if_neg stays]

theorem map_kill_of_absent {zero : Entry K V} {key : K} {es : List (Entry K V)}
    (absent : ∀ e ∈ es, e.live → e.key ≠ key) : es.map (kill zero key) = es :=
  (List.map_congr_left fun e mem => if_neg fun h => absent e mem h.1 h.2).trans (List.map_id' es)

end Change

end Goivy.Hashed
