import Goivy.Util.HashedContents

/-! Every run of hash maps and their clones answers as insertion-ordered finite maps do. -/
namespace Goivy.Hashed

variable {K V : Type} {env : Env K}

/-! ### What the map is for -/

namespace Ordered

variable [DecidableEq K] (m : List (K × V))

/-- A new key goes to the end. -/
def put (k : K) (v : V) : Bool × List (K × V) := (k ∉ m.map Prod.fst, Goivy.InsMap.setEntries k v m)

def delkey (k : K) : Bool × List (K × V) := (k ∈ m.map Prod.fst, m.filter fun p => p.1 ≠ k)

def remove : Removal K → List (K × V)
  | .delkey k | .delPackMaybe k => (delkey m k).2
  | .deleteAll => []

/-- The loop over the keys of the start: those that are still there are visited in order. -/
@[grind =] def visit (body : Body K V) : List K → List (K × V) → List (K × V) → List (K × V) × List (K × V)
  | [], m, seen => (m, seen)
  | k :: ks, m, seen =>
    match m.lookup k with
    | none => visit body ks m seen
    | some v =>
      let seen := seen ++ [(k, v)]
      let m := (body seen).1.foldl remove m
      if (body seen).2 then visit body ks m seen else (m, seen)

def all (body : Body K V) : List (K × V) × List (K × V) := visit body (m.map Prod.fst) m []

end Ordered

/-! ### What the loops visit -/

section Visits

variable [DecidableEq K]

/-- The keys that a removal leaves. -/
def Removal.keeps : Removal K → K → Bool
  | .delkey k, x | .delPackMaybe k, x => x ≠ k
  | .deleteAll, _ => false

theorem removes_eq_filter (m : List (K × V)) (rs : List (Removal K)) :
    rs.foldl Ordered.remove m = m.filter fun p => rs.all (·.keeps p.1) := by
  induction rs generalizing m with
  | nil => simp
  | cons r rs ih =>
    have here : Ordered.remove m r = m.filter fun p => r.keeps p.1 := by
      cases r with
      | deleteAll => simp [Ordered.remove, Removal.keeps]
      | delkey | delPackMaybe => rfl
    rw [List.foldl_cons, ih, here, List.filter_filter]
    refine List.filter_congr fun p _ => ?_
    rw [List.all_cons, Bool.and_comm]

theorem keys_removes (m : List (K × V)) (rs : List (Removal K)) :
    (rs.foldl Ordered.remove m).map Prod.fst = (m.map Prod.fst).filter fun x => rs.all (·.keeps x) := by
  rw [removes_eq_filter, List.filter_map]
  rfl

variable (body : Body K V)

/-- Keys that are not there are not visited. -/
theorem visit_skip {ks : List K} {m : List (K × V)} (absent : ∀ k ∈ ks, k ∉ m.map Prod.fst) (more : List K)
    (seen : List (K × V)) : Ordered.visit body (ks ++ more) m seen = Ordered.visit body more m seen := by
  induction ks with
  | nil => rfl
  | cons k ks ih =>
    obtain ⟨here, rest⟩ := List.forall_mem_cons.mp absent
    have missing : m.lookup k = none := List.lookup_eq_none_iff.mpr fun p hp => by
      simpa using fun eq => here (List.mem_map.mpr ⟨p, hp, eq.symm⟩)
    rw [List.cons_append, Ordered.visit, missing]
    exact ih rest

/-- Keys are visited in their order, and none twice. -/
theorem visit_sublist (ks : List K) (m seen : List (K × V)) : ∃ more,
    (Ordered.visit body ks m seen).2 = seen ++ more ∧ (more.map Prod.fst).Sublist ks := by
  induction ks generalizing m seen with
  | nil => exact ⟨[], by simp [Ordered.visit], .refl _⟩
  | cons k ks ih =>
    rw [Ordered.visit]
    split
    · obtain ⟨more, eq, sub⟩ := ih m seen
      exact ⟨more, eq, sub.trans (List.sublist_cons_self k ks)⟩
    · rename_i v found
      dsimp only
      split
      · obtain ⟨more, eq, sub⟩ := ih ((body (seen ++ [(k, v)])).1.foldl Ordered.remove m) (seen ++ [(k, v)])
        exact ⟨(k, v) :: more, by rw [eq, List.append_assoc]; rfl, sub.cons_cons k⟩
      · exact ⟨[(k, v)], rfl, List.Sublist.cons_cons k (List.nil_sublist ks)⟩

/-- A key that survives the loop has been visited. -/
theorem visit_survivors (goes : ∀ seen, (body seen).2) (ks : List K) (m seen : List (K × V)) :
    (∀ k ∈ ((Ordered.visit body ks m seen).1).map Prod.fst, k ∈ m.map Prod.fst) ∧
      ∀ k ∈ ks, k ∈ ((Ordered.visit body ks m seen).1).map Prod.fst →
        k ∈ ((Ordered.visit body ks m seen).2).map Prod.fst := by
  induction ks generalizing m seen with
  | nil => exact ⟨fun _ mem => mem, fun _ mem => absurd mem List.not_mem_nil⟩
  | cons k ks ih =>
    rw [Ordered.visit]
    split
    · rename_i missing
      obtain ⟨kept, visited⟩ := ih m seen
      refine ⟨kept, fun x mem there => ?_⟩
      obtain rfl | mem := List.mem_cons.mp mem
      · obtain ⟨p, hp, eq⟩ := List.mem_map.mp (kept x there)
        have other := List.lookup_eq_none_iff.mp missing p hp
        simp [eq] at other
      · exact visited x mem there
    · rename_i v found
      dsimp only
      rw [if_pos (goes _)]
      obtain ⟨kept, visited⟩ := ih ((body (seen ++ [(k, v)])).1.foldl Ordered.remove m) (seen ++ [(k, v)])
      refine ⟨fun x there => ?_, fun x mem there => ?_⟩
      · have left := kept x there
        rw [keys_removes] at left
        exact (List.mem_filter.mp left).1
      · obtain rfl | mem := List.mem_cons.mp mem
        · obtain ⟨more, eq, _⟩ := visit_sublist body ks
            ((body (seen ++ [(x, v)])).1.foldl Ordered.remove m) (seen ++ [(x, v)])
          rw [eq]
          simp
        · exact visited x mem there

/-- A loop that removes nothing lists all entries. -/
theorem visit_quiet (looks : ∀ seen, body seen = ([], true)) (pre : List (K × V)) {post : List (K × V)}
    (nodup : ((pre ++ post).map Prod.fst).Nodup) (seen : List (K × V)) :
    Ordered.visit body (post.map Prod.fst) (pre ++ post) seen = (pre ++ post, seen ++ post) := by
  induction post generalizing pre seen with
  | nil => simp [Ordered.visit]
  | cons p post ih =>
    have found : (pre ++ p :: post).lookup p.1 = some p.2 :=
      (Goivy.InsMap.mem_iff_lookup nodup).mp (by simp)
    rw [List.map_cons, Ordered.visit, found]
    simp only [looks, List.foldl_nil, if_true]
    have rest := ih (pre ++ [p]) (by simpa using nodup) (seen ++ [p])
    simpa using rest

end Visits

/-- A hash map that holds these entries, in this order. -/
structure Holds (env : Env K) (d : InsMap K V) (m : List (K × V)) : Prop where
  contents : contentsOf d.entries = m
  live : d.live = m.length
  table : d = { (InsMap.new : InsMap K V) with cap := d.cap } ∨ ∃ k c, 3 ≤ k ∧ Table env k d c

variable {d : InsMap K V} {m : List (K × V)}

theorem Holds.sound (h : Holds env d m) : Sound env d.entries := by
  obtain eq | ⟨k, c, _, t⟩ := h.table
  · rw [eq]
    exact ⟨fun _ mem => absurd mem List.not_mem_nil, List.nodup_nil⟩
  · exact t.sound

theorem Holds.nodup (h : Holds env d m) : (m.map Prod.fst).Nodup := h.contents ▸ h.sound.nodup

theorem Holds.new : Holds env (InsMap.new : InsMap K V) [] := ⟨rfl, rfl, .inl rfl⟩

/-! ### Sizes -/

theorem doubling_spec (enough : Nat → Bool) (fuel k : Nat) : ∃ n, k ≤ n ∧
    InsMap.doubling enough fuel (2 ^ k) = 2 ^ n ∧ (enough (2 ^ n) ∨ n = k + fuel) := by
  induction fuel generalizing k with
  | zero => exact ⟨k, le_refl k, rfl, .inr rfl⟩
  | succ fuel ih =>
    rw [InsMap.doubling]
    split
    · rename_i large
      exact ⟨k, le_refl k, rfl, .inl large⟩
    · obtain ⟨n, le, eq, large⟩ := ih (k + 1)
      refine ⟨n, by omega, by rw [← pow_succ, eq], ?_⟩
      obtain large | last := large
      · exact .inl large
      · exact .inr (by omega)

theorem presizeFor_spec (n : Nat) : ∃ k, 3 ≤ k ∧ InsMap.presizeFor n = 2 ^ k ∧ n ≤ 2 ^ k * 2 / 3 := by
  obtain ⟨k, le, eq, large⟩ := doubling_spec (fun size => n ≤ size * 2 / 3) (n + 1) 3
  refine ⟨k, le, eq, ?_⟩
  obtain large | rfl := large
  · simpa using large
  · have less := Nat.lt_two_pow_self (n := n)
    rw [show 3 + (n + 1) = n + 4 from by omega, pow_add]
    omega

theorem sizeFor_spec (live : Nat) : ∃ k, 3 ≤ k ∧ InsMap.sizeFor live = 2 ^ k ∧ live < 2 ^ k * 2 / 3 := by
  obtain ⟨k, le, eq, large⟩ := doubling_spec (fun size => live * 3 ≤ size) (live * 3) 3
  refine ⟨k, le, eq, ?_⟩
  have eight : 2 ^ 3 ≤ 2 ^ k := Nat.pow_le_pow_right (by decide) le
  obtain large | rfl := large
  · have large : live * 3 ≤ 2 ^ k := by simpa using large
    omega
  · have less := Nat.lt_two_pow_self (n := live * 3)
    rw [pow_add] at eight ⊢
    omega

/-! ### The operations -/

theorem Holds.rebuild (h : Holds env d m) {k : Nat} (large : 3 ≤ k) (room : m.length ≤ 2 ^ k * 2 / 3)
    (capacity : Nat) : ∃ d' c', d.rebuildEntries env (2 ^ k) capacity = some d' ∧ Table env k d' c' ∧
      Holds env d' m ∧ d'.entries.length = m.length := by
  have length : (d.entries.filter Entry.live).length = m.length := by
    rw [← h.contents, contentsOf, List.length_map]
  obtain ⟨d', c', run, t, entries, live⟩ := rebuildEntries_spec h.sound capacity
    (by rw [length]; exact room)
  refine ⟨d', c', run, t, ⟨?_, live.trans h.live, .inr ⟨k, c', large, t⟩⟩, by rw [entries, length]⟩
  rw [entries, contentsOf_filter, h.contents]

theorem Holds.absent_iff (h : Holds env d m) {key : K} :
    (∀ (ix : Nat) (e : Entry K V), d.entries[ix]? = some e → e.live → e.key ≠ key) ↔
      key ∉ m.map Prod.fst := by
  rw [← h.contents]
  constructor
  · intro absent mem
    obtain ⟨p, listed, rfl⟩ := List.mem_map.mp mem
    obtain ⟨e, there, live, rfl⟩ := mem_contentsOf.mp listed
    obtain ⟨ix, entry⟩ := List.getElem?_of_mem there
    exact absent ix e entry live rfl
  · rintro absent ix e entry live rfl
    exact absent (List.mem_map.mpr ⟨_, mem_contentsOf.mpr ⟨e, List.mem_of_getElem? entry, live, rfl⟩, rfl⟩)

theorem Holds.mem (h : Holds env d m) {ix : Nat} {e : Entry K V} (entry : d.entries[ix]? = some e)
    (live : e.live) : (e.key, e.val) ∈ m :=
  h.contents ▸ mem_contentsOf.mpr ⟨e, List.mem_of_getElem? entry, live, rfl⟩

/-- A new entry at the end. -/
theorem Holds.place {k n : Nat} {c : Nat → Cell} (h : Holds env d m) (large : 3 ≤ k)
    (t : Table env k d c) {key : K} (v : V) (absent : key ∉ m.map Prod.fst)
    (free : ∀ ix, c (slotAt d.mask (env.hashOf key) n) ≠ .used ix)
    (before : ∀ j < n, c (slotAt d.mask (env.hashOf key) j) ≠ .empty)
    (room : d.entries.length < 2 ^ k * 2 / 3) :
    Holds env { d.place env (slotAt d.mask (env.hashOf key) n) ⟨env.hashOf key, key, v, true⟩ with
      live := d.live + 1 } (m ++ [(key, v)]) := by
  have t' := t.place (e := ⟨env.hashOf key, key, v, true⟩) rfl (h.absent_iff.mpr absent) rfl free before room
  refine ⟨?_, ?_, .inr ⟨k, _, large, t'.with_live _⟩⟩
  · change contentsOf (d.entries ++ [_]) = _
    rw [contentsOf_append, h.contents]
    rfl
  · rw [List.length_append, ← h.live]
    rfl

/-- A value is replaced. -/
theorem Holds.revalue [DecidableEq K] {k ix : Nat} {c : Nat → Cell} (h : Holds env d m) (large : 3 ≤ k)
    (t : Table env k d c) {e : Entry K V} (entry : d.entries[ix]? = some e) (live : e.live) (v : V) :
    Holds env { d with entries := d.entries.modify ix fun e => { e with val := v } }
      (Goivy.InsMap.setEntries e.key v m) := by
  have contents := contentsOf_modify (h.contents ▸ h.nodup) entry live v
  rw [h.contents] at contents
  have same : ∀ (j : Nat) (e' : Entry K V), (d.entries.modify ix fun e => { e with val := v })[j]? = some e' →
      ∃ e₀, d.entries[j]? = some e₀ ∧ e'.hash = e₀.hash ∧ e'.key = e₀.key ∧ e'.live = e₀.live := by
    intro j e' found
    rw [List.getElem?_modify, Option.map_eq_map, Option.map_eq_some_iff] at found
    obtain ⟨e₀, there, rfl⟩ := found
    refine ⟨e₀, there, ?_⟩
    split <;> exact ⟨rfl, rfl, rfl⟩
  have back : ∀ (j : Nat) (e₀ : Entry K V), d.entries[j]? = some e₀ →
      ∃ e', (d.entries.modify ix fun e => { e with val := v })[j]? = some e' ∧ e'.hash = e₀.hash ∧
        e'.live = e₀.live := by
    intro j e₀ there
    rw [List.getElem?_modify, there]
    refine ⟨_, rfl, ?_⟩
    dsimp only
    split <;> exact ⟨rfl, rfl⟩
  refine ⟨contents, ?_, .inr ⟨k, c, large, ⟨t.indicesLen, t.tagsLen, t.mask, ?_, t.indices, ?_, t.inj, ?_, ?_,
    ?_, ?_, ?_⟩⟩⟩
  · have keys := congrArg List.length (Goivy.InsMap.setEntries_keys e.key v m)
    have there : e.key ∈ m.map Prod.fst := List.mem_map_of_mem (f := Prod.fst) (h.mem entry live)
    rw [if_pos there, List.length_map, List.length_map] at keys
    rw [keys]
    exact h.live
  · intro s hs
    rw [t.tags s hs]
    cases cell : c s with
    | used ix' =>
      obtain ⟨e₀, there, _⟩ := t.used s hs ix' cell
      obtain ⟨e', here, hash, _⟩ := back ix' e₀ there
      rw [Cell.tag, Cell.tag, there, here, Option.map_some, Option.map_some, hash]
    | empty | dummy => rfl
  · intro s hs ix' cell
    obtain ⟨e₀, there, live₀⟩ := t.used s hs ix' cell
    obtain ⟨e', here, _, live'⟩ := back ix' e₀ there
    exact ⟨e', here, live'.trans live₀⟩
  · intro j e' found live'
    obtain ⟨e₀, there, hash, _, eq⟩ := same j e' found
    rw [hash]
    exact t.reach j e₀ there (eq ▸ live')
  · intro e' mem live'
    obtain ⟨j, found⟩ := List.getElem?_of_mem mem
    obtain ⟨e₀, there, hash, key, eq⟩ := same j e' found
    rw [hash, key]
    exact t.hashes e₀ (List.mem_of_getElem? there) (eq ▸ live')
  · intro j j' e' e'' found found' live' live'' keys
    obtain ⟨e₀, there, _, key, eq⟩ := same j e' found
    obtain ⟨e₁, there', _, key', eq'⟩ := same j' e'' found'
    exact t.keys j j' e₀ e₁ there there' (eq ▸ live') (eq' ▸ live'') (by rw [← key, ← key', keys])
  · rw [List.length_modify]
    exact t.room
  · rw [List.length_modify]
    exact t.within

theorem Holds.made (h : Holds env d m) : ∃ d₁ k c, d.made env = some d₁ ∧ 3 ≤ k ∧
    Table env k d₁ c ∧ Holds env d₁ m := by
  rw [InsMap.made]
  obtain eq | ⟨k, c, large, t⟩ := h.table
  · have none : m = [] := by
      rw [← h.contents, eq]
      rfl
    obtain ⟨d', c', run, t, h', _⟩ := h.rebuild (le_refl 3) (by rw [none]; exact Nat.zero_le _) (minSize * 2 / 3)
    have empty : d.indices.isEmpty = true := by rw [eq]; rfl
    exact ⟨d', 3, c', by rw [if_pos empty]; exact run, le_refl 3, t, h'⟩
  · have full : d.indices.isEmpty = false := by
      rw [List.isEmpty_eq_false_iff, ← List.length_pos_iff_ne_nil, t.indicesLen]
      positivity
    exact ⟨d, k, c, by rw [full]; rfl, large, t, h⟩

theorem Holds.put [DecidableEq K] (h : Holds env d m) (key : K) (v : V) :
    ∃ d', d.put env key v = some ((Ordered.put m key v).1, d') ∧ Holds env d' (Ordered.put m key v).2 := by
  obtain ⟨d₁, k, c, first, large, t, h⟩ := h.made
  rw [InsMap.put, first]
  simp only [Option.bind_eq_bind, Option.bind_some]
  obtain ⟨s, ix, e, _, entry, live, rfl, _, run⟩ | ⟨absent, n, cell, before, run⟩ := t.find_spec key
  · have there : e.key ∈ m.map Prod.fst := List.mem_map_of_mem (f := Prod.fst) (h.mem entry live)
    rw [run]
    exact ⟨_, by simp [Ordered.put, there], h.revalue large t entry live v⟩
  · have new := h.absent_iff.mp absent
    rw [run, Ordered.put, setEntries_new new]
    simp only [Option.bind_some, new, not_false_eq_true, decide_true]
    split
    · obtain ⟨k₂, large₂, size, room⟩ := sizeFor_spec d₁.live
      obtain ⟨d₂, c₂, rebuilt, t₂, h₂, length⟩ := h.rebuild large₂ (h.live ▸ room.le) (2 ^ k₂ * 2 / 3)
      obtain ⟨n₂, free, before₂, slot⟩ := t₂.freeSlot_spec (hashOf_lt env key)
      refine ⟨_, ?_, h₂.place large₂ t₂ v new free before₂ (by rw [length, ← h.live]; exact room)⟩
      rw [InsMap.rebuild, size, rebuilt, Option.bind_some, slot]
      rfl
    · rename_i space
      have room : d₁.entries.length < 2 ^ k * 2 / 3 := by
        rw [InsMap.usable, t.indicesLen] at space
        omega
      split
      · obtain ⟨n', free, before', slot⟩ := t.freeSlot_spec (hashOf_lt env key)
        refine ⟨_, ?_, h.place large t v new free before' room⟩
        rw [slot]
        rfl
      · exact ⟨_, rfl, h.place large t v new (fun ix used => by rw [cell] at used; cases used) before room⟩

theorem Holds.get2 [DecidableEq K] (h : Holds env d m) (key : K) : d.get2 env key = some (m.lookup key) := by
  by_cases none : d.live = 0
  · have nil : m = [] := List.eq_nil_of_length_eq_zero (h.live ▸ none)
    rw [InsMap.get2, if_pos none, nil]
    rfl
  · obtain eq | ⟨k, c, _, t⟩ := h.table
    · exact absurd (by rw [eq]; rfl) none
    · obtain ⟨ix, e, entry, live, rfl, run⟩ | ⟨absent, run⟩ := t.get2_spec key none
      · rw [run, (Goivy.InsMap.mem_iff_lookup h.nodup).mp (h.mem entry live)]
      · have missing : m.lookup key = Option.none := List.lookup_eq_none_iff.mpr fun p hp => by
          simpa using fun eq => h.absent_iff.mp absent (List.mem_map.mpr ⟨p, hp, eq.symm⟩)
        rw [run, missing]

theorem length_filter_key [DecidableEq K] {m : List (K × V)} (nodup : (m.map Prod.fst).Nodup) {key : K}
    (there : key ∈ m.map Prod.fst) : (m.filter fun p => p.1 ≠ key).length + 1 = m.length := by
  induction m with
  | nil => cases there
  | cons p m ih =>
    rw [List.map_cons, List.nodup_cons] at nodup
    by_cases same : p.1 = key
    · have rest : m.filter (fun q => q.1 ≠ key) = m := List.filter_eq_self.mpr fun q hq => by
        refine decide_eq_true fun eq => nodup.1 ?_
        exact List.mem_map.mpr ⟨q, hq, eq.trans same.symm⟩
      rw [List.filter_cons_of_neg (by simp [same]), rest, List.length_cons]
    · have there : key ∈ m.map Prod.fst := (List.mem_cons.mp there).resolve_left (Ne.symm same)
      rw [List.filter_cons_of_pos (by simp [same]), List.length_cons, ih nodup.2 there, List.length_cons]

section Delete

variable [DecidableEq K] [Inhabited K] [Inhabited V]

def zeroEntry : Entry K V := ⟨0, default, default, false⟩

theorem Holds.delkey (h : Holds env d m) (key : K) : ∃ d',
    d.delkey env key = some ((Ordered.delkey m key).1, d') ∧ Holds env d' (Ordered.delkey m key).2 ∧
      d'.entries = d.entries.map (kill zeroEntry key) := by
  have stays : key ∉ m.map Prod.fst → (Ordered.delkey m key) = (false, m) ∧
      d.entries.map (kill zeroEntry key) = d.entries := by
    intro absent
    have filtered : m.filter (fun p => p.1 ≠ key) = m := List.filter_eq_self.mpr fun p hp => by
      simpa using fun eq => absent (List.mem_map.mpr ⟨p, hp, eq⟩)
    refine ⟨Prod.ext (decide_eq_false absent) filtered, map_kill_of_absent fun e mem live => ?_⟩
    obtain ⟨ix, entry⟩ := List.getElem?_of_mem mem
    exact h.absent_iff.mpr absent ix e entry live
  by_cases none : d.live = 0
  · have nil : m = [] := List.eq_nil_of_length_eq_zero (h.live ▸ none)
    obtain ⟨result, entries⟩ := stays (by simp [nil])
    rw [InsMap.delkey, if_pos none, result, entries]
    exact ⟨d, rfl, h, rfl⟩
  · obtain eq | ⟨k, c, large, t⟩ := h.table
    · exact absurd (by rw [eq]; rfl) none
    · obtain ⟨s, ix, e, hs, entry, live, rfl, cell, run⟩ | ⟨absent, n, _, _, run⟩ := t.find_spec key
      · have there : e.key ∈ m.map Prod.fst := List.mem_map_of_mem (f := Prod.fst) (h.mem entry live)
        have killed := set_eq_kill zeroEntry t.keys entry live
        have contents := contentsOf_kill zeroEntry rfl e.key d.entries
        rw [h.contents] at contents
        rw [InsMap.delkey, if_neg none]
        simp only [run]
        refine ⟨{ d with
            indices := d.indices.set s slotDummy
            tags := d.tags.set s tagDummy
            entries := d.entries.set ix zeroEntry
            live := d.live - 1 }, by simp [Ordered.delkey, there, zeroEntry],
          ⟨?_, ?_, .inr ⟨k, _, large, t.unplace rfl hs cell⟩⟩, killed⟩
        · change contentsOf (d.entries.set ix zeroEntry) = _
          rw [killed, contents]
          rfl
        · change d.live - 1 = (m.filter fun p => p.1 ≠ e.key).length
          rw [h.live, ← length_filter_key h.nodup there]
          rfl
      · obtain ⟨result, entries⟩ := stays (h.absent_iff.mp absent)
        rw [InsMap.delkey, if_neg none, result, entries]
        simp only [run]
        exact ⟨d, rfl, h, rfl⟩

end Delete

theorem Holds.pack (h : Holds env d m) (force : Bool) : ∃ d', d.pack env force = some d' ∧ Holds env d' m := by
  rw [InsMap.pack]
  split
  · exact ⟨d, rfl, h⟩
  · split
    · obtain ⟨k, large, size, room⟩ := sizeFor_spec d.live
      obtain ⟨d', c', run, _, h', _⟩ := h.rebuild large (h.live ▸ room.le) (2 ^ k * 2 / 3)
      exact ⟨d', by rw [InsMap.rebuild, size, run], h'⟩
    · exact ⟨d, rfl, h⟩

theorem Holds.clone (h : Holds env d m) : Holds env (d.clone env) m := by
  refine ⟨h.contents, h.live, ?_⟩
  obtain eq | ⟨k, c, large, t⟩ := h.table
  · exact .inl (by rw [eq]; rfl)
  · exact .inr ⟨k, c, large, ⟨t.indicesLen, t.tagsLen, t.mask, t.tags, t.indices, t.used, t.inj, t.reach,
      t.hashes, t.keys, t.room, t.within⟩⟩

theorem newSize_holds (env : Env K) (hint : Int) : ∃ d : InsMap K V, InsMap.newSize env hint = some d ∧ Holds env d [] := by
  rw [InsMap.newSize]
  split
  · obtain ⟨k, large, size, _⟩ := presizeFor_spec hint.toNat
    obtain ⟨d', _, run, _, h, _⟩ := Holds.new.rebuild large (Nat.zero_le _) hint.toNat
    exact ⟨d', by rw [size, run], h⟩
  · exact ⟨_, rfl, .new⟩

/-! ### Loops -/

theorem split_filter {α : Type} {keep : α → Bool} {x : α} {xs rest : List α}
    (eq : xs.filter keep = x :: rest) : ∃ pre post, xs = pre ++ x :: post ∧
      (∀ y ∈ pre, keep y = false) ∧ post.filter keep = rest := by
  induction xs with
  | nil => cases eq
  | cons y xs ih =>
    rw [List.filter_cons] at eq
    split at eq
    · obtain ⟨rfl, rfl⟩ := List.cons.inj eq
      exact ⟨[], xs, rfl, fun _ mem => (List.not_mem_nil mem).elim, rfl⟩
    · rename_i drop
      obtain ⟨pre, post, rfl, dropped, kept⟩ := ih eq
      exact ⟨y :: pre, post, rfl, List.forall_mem_cons.mpr ⟨by simpa using drop, dropped⟩, kept⟩

section Loops

variable [DecidableEq K] [Inhabited K] [Inhabited V]

/-- A removal that does not move entries. -/
def Removal.stays : Removal K → Prop
  | .delPackMaybe _ => False
  | _ => True

/-- What a removal leaves, and of the entries from a place on. -/
theorem Holds.remove (h : Holds env d m) {r : Removal K} (stays : r.stays) : ∃ d',
    d.remove env r = some d' ∧ Holds env d' (Ordered.remove m r) ∧ d'.entries.length ≤ d.entries.length ∧
      ∀ i, contentsOf (d'.entries.drop i) = Ordered.remove (contentsOf (d.entries.drop i)) r := by
  cases r with
  | delPackMaybe => exact stays.elim
  | deleteAll =>
    exact ⟨_, rfl, Holds.new, Nat.zero_le _, fun i => by simp [InsMap.deleteAll, InsMap.new, contentsOf, Ordered.remove]⟩
  | delkey key =>
    obtain ⟨d', run, h', entries⟩ := h.delkey key
    refine ⟨d', by rw [InsMap.remove, run]; rfl, h', by rw [entries, List.length_map], fun i => ?_⟩
    rw [entries, ← List.map_drop, contentsOf_kill zeroEntry rfl]
    rfl

theorem Holds.removes {rs : List (Removal K)} (h : Holds env d m) (stays : ∀ r ∈ rs, r.stays) : ∃ d',
    rs.foldlM (InsMap.remove env) d = some d' ∧ Holds env d' (rs.foldl Ordered.remove m) ∧
      d'.entries.length ≤ d.entries.length ∧
      ∀ i, contentsOf (d'.entries.drop i) = rs.foldl Ordered.remove (contentsOf (d.entries.drop i)) := by
  induction rs generalizing d m with
  | nil => exact ⟨d, rfl, h, le_refl _, fun _ => rfl⟩
  | cons r rs ih =>
    obtain ⟨first, rest⟩ := List.forall_mem_cons.mp stays
    obtain ⟨d₁, run, h₁, length, from_⟩ := h.remove first
    obtain ⟨d₂, runs, h₂, lengths, froms⟩ := ih h₁ rest
    exact ⟨d₂, by rw [List.foldlM_cons, run]; exact runs, h₂, lengths.trans length, fun i => by
      rw [froms, from_, List.foldl_cons]⟩

variable (body : Body K V)

theorem allFrom_spec (quiet : ∀ seen, ∀ r ∈ (body seen).1, r.stays) (fuel : Nat) {i : Nat} {ks : List K}
    (h : Holds env d m) (enough : d.entries.length - i < fuel) (seen : List (K × V))
    (left : ks.filter (fun k => k ∈ m.map Prod.fst) = (contentsOf (d.entries.drop i)).map Prod.fst) :
    ∃ d', InsMap.allFrom env body fuel i d seen = some (d', (Ordered.visit body ks m seen).2) ∧
      Holds env d' (Ordered.visit body ks m seen).1 := by
  induction fuel generalizing i ks d m seen with
  | zero => omega
  | succ fuel ih =>
    rw [InsMap.allFrom]
    cases entry : d.entries[i]? with
    | none =>
      rw [List.getElem?_eq_none_iff] at entry
      rw [List.drop_eq_nil_of_le entry] at left
      have absent : ∀ k ∈ ks, k ∉ m.map Prod.fst := by simpa using List.filter_eq_nil_iff.mp left
      have skipped := visit_skip body absent [] seen
      rw [List.append_nil] at skipped
      rw [skipped]
      exact ⟨d, rfl, h⟩
    | some e =>
      have less := (List.getElem?_eq_some_iff.mp entry).1
      have split : d.entries.drop i = e :: d.entries.drop (i + 1) := by
        rw [List.drop_eq_getElem_cons less, (List.getElem?_eq_some_iff.mp entry).2]
      rw [split, contentsOf_cons] at left
      cases live : e.live with
      | false =>
        rw [live, if_neg (by simp)] at left
        obtain ⟨d', run, h'⟩ := ih h (by omega) seen left
        exact ⟨d', by simpa [live] using run, h'⟩
      | true =>
        rw [if_pos live, List.map_cons] at left
        obtain ⟨pre, post, rfl, gone, rest⟩ := split_filter left
        have absent : ∀ k ∈ pre, k ∉ m.map Prod.fst := fun k hk => by simpa using gone k hk
        have found : m.lookup e.key = some e.val :=
          (Goivy.InsMap.mem_iff_lookup h.nodup).mp (h.mem entry live)
        rw [visit_skip body absent, Ordered.visit, found]
        obtain ⟨d₁, runs, h₁, length, drops⟩ := h.removes (quiet (seen ++ [(e.key, e.val)]))
        have left₁ : post.filter (fun k => k ∈ ((body (seen ++ [(e.key, e.val)])).1.foldl Ordered.remove m).map
            Prod.fst) = (contentsOf (d₁.entries.drop (i + 1))).map Prod.fst := by
          rw [drops, keys_removes, keys_removes, ← rest, List.filter_filter]
          refine List.filter_congr fun k _ => ?_
          simp only [List.mem_filter, Bool.decide_and, Bool.decide_eq_true, Bool.and_comm]
        simp only [live, Bool.not_true, Bool.false_eq_true, if_false, runs, Option.bind_eq_bind, Option.bind_some]
        split
        · exact ih h₁ (by omega) _ left₁
        · exact ⟨d₁, rfl, h₁⟩

theorem Holds.all (quiet : ∀ seen, ∀ r ∈ (body seen).1, r.stays) (h : Holds env d m) :
    ∃ d', d.all env body = some (d', (Ordered.all m body).2) ∧ Holds env d' (Ordered.all m body).1 := by
  refine allFrom_spec body quiet _ h (by omega) [] ?_
  rw [List.drop_zero, h.contents]
  exact List.filter_eq_self.mpr fun k mem => decide_eq_true mem

end Loops

/-! ### Runs of several maps -/

inductive MapOp (K V : Type) where
  | put (k : K) (v : V)
  | set (k : K) (v : V)
  | delkey (k : K)
  | delPackMaybe (k : K)
  | pack (force : Bool)
  | deleteAll
  | get2 (k : K)
  | len
  | all (body : Body K V)

inductive Op (K V : Type) where
  | at (i : Nat) (op : MapOp K V)
  | clone (i : Nat)

inductive Answer (K V : Type) where
  | done
  | flag (b : Bool)
  | value (v : Option V)
  | number (n : Nat)
  | listing (seen : List (K × V))
deriving DecidableEq

theorem forall₂_set {α β : Type} {R : α → β → Prop} {xs : List α} {ys : List β} (h : List.Forall₂ R xs ys)
    {x : α} {y : β} (here : R x y) (i : Nat) : List.Forall₂ R (xs.set i x) (ys.set i y) := by
  induction h generalizing i with
  | nil => exact .nil
  | cons head tail ih =>
    cases i with
    | zero => exact .cons here tail
    | succ i => exact .cons head (ih i)

section Runs

variable [DecidableEq K] [Inhabited K] [Inhabited V]

def InsMap.act (env : Env K) (d : InsMap K V) : MapOp K V → Option (Answer K V × InsMap K V)
  | .put k v => (d.put env k v).map fun r => (.flag r.1, r.2)
  | .set k v => (d.set env k v).map fun r => (.flag r.1, r.2)
  | .delkey k => (d.delkey env k).map fun r => (.flag r.1, r.2)
  | .delPackMaybe k => (d.delPackMaybe env k).map fun r => (.flag r.1, r.2)
  | .pack force => (d.pack env force).map fun d => (.done, d)
  | .deleteAll => some (.done, d.deleteAll)
  | .get2 k => (d.get2 env k).map fun v => (.value v, d)
  | .len => some (.number d.len, d)
  | .all body => (d.all env body).map fun r => (.listing r.2, r.1)

def Ordered.act (m : List (K × V)) : MapOp K V → Answer K V × List (K × V)
  | .put k v | .set k v => (.flag (put m k v).1, (put m k v).2)
  | .delkey k | .delPackMaybe k => (.flag (delkey m k).1, (delkey m k).2)
  | .pack _ => (.done, m)
  | .deleteAll => (.done, [])
  | .get2 k => (.value (m.lookup k), m)
  | .len => (.number m.length, m)
  | .all body => (.listing (all m body).2, (all m body).1)

/-- One operation on one of several maps; a clone is a further one. -/
def step {σ : Type} (act : σ → MapOp K V → Option (Answer K V × σ)) (copy : σ → σ) (maps : List σ) :
    Op K V → Option (Answer K V × List σ)
  | .at i op => do
    let (answer, d) ← act (← maps[i]?) op
    return (answer, maps.set i d)
  | .clone i => do return (.done, maps ++ [copy (← maps[i]?)])

@[grind =] def run {σ : Type} (act : σ → MapOp K V → Option (Answer K V × σ)) (copy : σ → σ) :
    List (Op K V) → List σ → Option (List (Answer K V))
  | [], _ => some []
  | op :: ops, maps => do
    let (answer, maps) ← step act copy maps op
    return answer :: (← run act copy ops maps)

/-- No loop packs the map it goes through. -/
def Op.quiet : Op K V → Prop
  | .at _ (.all body) => ∀ seen, ∀ r ∈ (body seen).1, r.stays
  | _ => True

theorem Holds.act (h : Holds env d m) {i : Nat} {op : MapOp K V} (quiet : (Op.at i op).quiet) :
    ∃ d', d.act env op = some ((Ordered.act m op).1, d') ∧ Holds env d' (Ordered.act m op).2 := by
  cases op with
  | put k v | set k v =>
    obtain ⟨d', run, h'⟩ := h.put k v
    exact ⟨d', congrArg (Option.map _) run, h'⟩
  | delkey k =>
    obtain ⟨d', run, h', _⟩ := h.delkey k
    exact ⟨d', congrArg (Option.map _) run, h'⟩
  | delPackMaybe k =>
    obtain ⟨d₁, deleted, h₁, _⟩ := h.delkey k
    obtain ⟨d₂, packed, h₂⟩ := h₁.pack false
    exact ⟨d₂, by simp [InsMap.act, InsMap.delPackMaybe, deleted, packed, Ordered.act], h₂⟩
  | pack force =>
    obtain ⟨d', run, h'⟩ := h.pack force
    exact ⟨d', congrArg (Option.map _) run, h'⟩
  | deleteAll => exact ⟨_, rfl, .new⟩
  | get2 k => exact ⟨d, congrArg (Option.map _) (h.get2 k), h⟩
  | len => exact ⟨d, congrArg (fun n => some (Answer.number n, d)) h.live, h⟩
  | all body =>
    obtain ⟨d', run, h'⟩ := h.all body quiet
    exact ⟨d', congrArg (Option.map _) run, h'⟩

theorem step_spec {ds : List (InsMap K V)} {ms : List (List (K × V))} (h : List.Forall₂ (Holds env) ds ms)
    {op : Op K V} (quiet : op.quiet) :
    (step (InsMap.act env) (InsMap.clone env) ds op = none ∧
      step (fun m op => some (Ordered.act m op)) id ms op = none) ∨
    ∃ answer ds' ms', step (InsMap.act env) (InsMap.clone env) ds op = some (answer, ds') ∧
      step (fun m op => some (Ordered.act m op)) id ms op = some (answer, ms') ∧
      List.Forall₂ (Holds env) ds' ms' := by
  have length := h.length_eq
  have missing : ∀ i, ds.length ≤ i → ds[i]? = none ∧ ms[i]? = none := fun i le =>
    ⟨List.getElem?_eq_none le, List.getElem?_eq_none (length ▸ le)⟩
  have present : ∀ i, i < ds.length → ∃ d m, ds[i]? = some d ∧ ms[i]? = some m ∧ Holds env d m := by
    intro i less
    exact ⟨ds[i], ms[i], List.getElem?_eq_getElem less, List.getElem?_eq_getElem (length ▸ less),
      h.get less (length ▸ less)⟩
  cases op with
  | «at» i op =>
    obtain less | le := Nat.lt_or_ge i ds.length
    · obtain ⟨d, m, hd, hm, holds⟩ := present i less
      obtain ⟨d', acted, holds'⟩ := holds.act quiet
      exact .inr ⟨(Ordered.act m op).1, ds.set i d', ms.set i (Ordered.act m op).2, by rw [step, hd]; simp [acted], by rw [step, hm]; rfl,
        forall₂_set h holds' i⟩
    · exact .inl (by simp [step, missing i le])
  | clone i =>
    obtain less | le := Nat.lt_or_ge i ds.length
    · obtain ⟨d, m, hd, hm, holds⟩ := present i less
      exact .inr ⟨.done, _, _, by simp [step, hd], by simp [step, hm],
        List.rel_append h (.cons holds.clone .nil)⟩
    · exact .inl (by simp [step, missing i le])

theorem run_spec {ds : List (InsMap K V)} {ms : List (List (K × V))} (h : List.Forall₂ (Holds env) ds ms)
    (script : List (Op K V)) (quiet : ∀ op ∈ script, op.quiet) :
    run (InsMap.act env) (InsMap.clone env) script ds =
      run (fun m op => some (Ordered.act m op)) id script ms := by
  induction script generalizing ds ms with
  | nil => rfl
  | cons op script ih =>
    obtain ⟨first, later⟩ := List.forall_mem_cons.mp quiet
    obtain ⟨fails, fails'⟩ | ⟨answer, ds', ms', acts, acts', h'⟩ := step_spec h first
    · rw [run, run, fails, fails']
      rfl
    · rw [run, run, acts, acts']
      simp only [Option.bind_eq_bind, Option.bind_some, ih h' later]

end Runs

/-- For every hash function, allocator and capacity hint, maps and their clones answer as insertion-ordered
finite maps do, if no loop packs the map it goes through; every probe loop ends. The loops over the ordered
maps list all entries when they remove nothing, and else visit every surviving key once, in order. -/
theorem insMap_run_refines [DecidableEq K] [Inhabited K] [Inhabited V] (env : Env K) (hint : Int)
    (script : List (Op K V)) (quiet : ∀ op ∈ script, op.quiet) :
    (∃ d : InsMap K V, InsMap.newSize env hint = some d ∧
      run (InsMap.act env) (InsMap.clone env) script [d] =
        run (fun m op => some (Ordered.act m op)) id script [[]]) ∧
    ∀ (m : List (K × V)) (body : Body K V), (m.map Prod.fst).Nodup →
      ((∀ seen, body seen = ([], true)) → Ordered.all m body = (m, m)) ∧
      ((Ordered.all m body).2.map Prod.fst).Sublist (m.map Prod.fst) ∧
      ((∀ seen, (body seen).2) → ∀ k ∈ (Ordered.all m body).1.map Prod.fst,
        k ∈ (Ordered.all m body).2.map Prod.fst) := by
  constructor
  · obtain ⟨d, made, holds⟩ := newSize_holds env hint
    exact ⟨d, made, run_spec (.cons holds .nil) script quiet⟩
  · intro m body nodup
    refine ⟨fun looks => visit_quiet body looks [] nodup [], ?_, fun goes k there => ?_⟩
    · obtain ⟨more, eq, sub⟩ := visit_sublist body (m.map Prod.fst) m []
      rwa [Ordered.all, eq, List.nil_append]
    · obtain ⟨kept, visited⟩ := visit_survivors body goes (m.map Prod.fst) m []
      exact visited k (kept k there) there

/-- Numbers are their own hashes, and slices double. -/
def plainEnv : Env Nat := ⟨fun k => k, fun n => 2 * n + 1⟩

/-- Two keys that collide, and a loop that deletes the second one when it sees the first. -/
def deletingScript : List (Op Nat Nat) :=
  [.at 0 (.put 1 10), .at 0 (.put 9 20), .clone 0,
    .at 0 (.all fun seen => (if seen.length = 1 then [.delkey 9] else [], true)), .at 1 (.get2 9)]

theorem insMap_run_refines_deleting : ∃ d : InsMap Nat Nat, InsMap.newSize plainEnv 4 = some d ∧
    run (InsMap.act plainEnv) (InsMap.clone plainEnv) deletingScript [d] =
      some [.flag true, .flag true, .done, .listing [(1, 10)], .value (some 20)] := by
  have quiet : ∀ op ∈ deletingScript, op.quiet := by
    simp only [deletingScript, List.forall_mem_cons, Op.quiet, true_and]
    refine ⟨fun seen r mem => ?_, fun op mem => absurd mem List.not_mem_nil⟩
    split at mem
    · rw [List.mem_singleton.mp mem]
      trivial
    · cases mem
  obtain ⟨⟨d, made, eq⟩, _⟩ := insMap_run_refines plainEnv 4 deletingScript quiet
  exact ⟨d, made, eq.trans (by decide)⟩

/-- Puts thirty-six keys; the loop deletes the first twenty-eight of them with `DelPackMaybe`. -/
def packingScript : List (Op Nat Nat) :=
  (List.range 36).map (fun k => .at 0 (.put k k)) ++
    [.at 0 (.all fun seen => (if seen.length = 1 then (List.range 28).map .delPackMaybe else [], true)),
      .at 0 (.get2 28)]

/-- The map is packed under the loop, which never sees the key 28. -/
theorem packing_skips_survivor :
    (run (InsMap.act plainEnv) (InsMap.clone plainEnv) packingScript [.new]).map (·.drop 36) =
      some [.listing ([0, 29, 30, 31, 32, 33, 34, 35].map fun k => (k, k)), .value (some 28)] ∧
    (run (fun m op => some (Ordered.act m op)) id packingScript [[]]).map (·.drop 36) =
      some [.listing ([0, 28, 29, 30, 31, 32, 33, 34, 35].map fun k => (k, k)), .value (some 28)] := by
  decide +kernel

end Goivy.Hashed
