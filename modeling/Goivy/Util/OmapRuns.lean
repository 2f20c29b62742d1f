import Goivy.Util.InsMap
import Goivy.Util.OmapLoops

/-! Every run of the ordered maps answers as the sorted entries do, but for the loops that lose
an entry. -/
namespace Goivy

variable {C K V : Type} [LinearOrder C] {T : Rbtree C (Okv C K) Okv.id} {keys : Keys C K}

theorem Omap.implements : (Omap.ops (V := V) (T := T) keys).Implements keys fun _ => True where
  set _ _ _ _ _ _ := ⟨_, rfl, rfl, trivial⟩
  delkey _ _ _ _ _ := ⟨rfl, rfl, trivial⟩
  deleteAll _ _ := ⟨rfl, trivial⟩
  getokv _ _ _ _ _ := rfl
  len _ _ _ _ := rfl
  nextit _ _ _ _ := rfl
  withOmap _ _ _ _ _ := ⟨rfl, trivial⟩

namespace Dmap

/-- The index and the entries' own iterators lead to the nodes of the tree. -/
structure Synced (s : Dmap T V) : Prop where
  index : (s.idx.getD []).Perm ((T.nodes s.tree).map fun n => ((T.item n).id, n))
  its : ∀ n ∈ T.nodes s.tree, s.its[(T.item n).ref]? = some (some n)
  places : s.its.length = s.vals.length

variable {s : Dmap T V} {m : List (C × K × V)}

theorem find_eq (s : Dmap T V) (key : K) :
    s.find keys key = (s.idx.getD []).lookup (keys.canon key) := by
  unfold Dmap.find
  cases s.idx <;> rfl

theorem Synced.find_present (synced : s.Synced) {n : T.Node} (mem : n ∈ T.nodes s.tree) {key : K}
    (id : (T.item n).id = keys.canon key) : s.find keys key = some n := by
  have nodup : ((s.idx.getD []).map Prod.fst).Nodup := by
    refine (synced.index.map Prod.fst).nodup_iff.mpr ?_
    rw [List.map_map]
    exact List.Pairwise.map _ (fun _ _ h => ne_of_lt h) (T.sorted s.tree)
  rw [find_eq, ← InsMap.mem_iff_lookup nodup, synced.index.mem_iff, ← id]
  exact List.mem_map_of_mem (f := fun n => ((T.item n).id, n)) mem

theorem Synced.find_absent (synced : s.Synced) {key : K}
    (absent : ∀ n ∈ T.nodes s.tree, (T.item n).id ≠ keys.canon key) : s.find keys key = none := by
  rw [find_eq, List.lookup_eq_none_iff]
  intro p hp
  obtain ⟨n, mem, rfl⟩ := List.mem_map.mp (synced.index.mem_iff.mp hp)
  simpa using (absent n mem).symm

theorem newDmap_synced : (newDmap T V).Synced where
  index := by simp [newDmap, Omap.newOmap, T.nodes_newTree]
  its := by simp [newDmap, Omap.newOmap, T.nodes_newTree]
  places := rfl

theorem set_implements (h : s.toOmap.Refines keys m) (synced : s.Synced) (key : K) (val : V) :
    ∃ s', s.set keys key val = some ((s.toOmap.set keys key val).1, s') ∧
      s'.toOmap = (s.toOmap.set keys key val).2 ∧ s'.Synced := by
  cases nil : keys.isNil key with
  | true =>
    rw [Dmap.set, Omap.set, nil]
    exact ⟨s, rfl, rfl, synced⟩
  | false =>
    obtain ⟨pre, n, post, _, _, _, split, _, _, read, _, found⟩ | ⟨absent, other, none⟩ :=
      h.find (keys.canon key)
    · have result : s.toOmap.set keys key val =
          (false, { s.touched with vals := s.vals.set (T.item n).ref val }) := by
        rw [Omap.set, nil, if_neg (by simp), found]
      rw [result, Dmap.set, nil, if_neg (by simp), synced.find_present (by simp [split]) read.id]
      exact ⟨_, rfl, rfl, synced.index, synced.its, by simp [synced.places]⟩
    · obtain ⟨flag, _, _, t, n, pre, post, inserted, item, old, new, result⟩ :=
        h.set_absent val nil (Omap.Refines.get_absent absent)
      rw [Dmap.set, nil, if_neg (by simp), synced.find_absent other, inserted, flag, result]
      refine ⟨_, rfl, rfl, ?_, ?_, by simp [synced.places]⟩
      · have index := synced.index
        simp only [old, List.map_append] at index
        simp only [new, List.map_append, List.map_cons, Option.getD_some, item]
        exact (index.cons _).trans List.perm_middle.symm
      · intro n' mem
        simp only [new, List.mem_append, List.mem_cons] at mem
        obtain rfl | mem : n' = n ∨ n' ∈ T.nodes s.tree := by rw [old, List.mem_append]; tauto
        · rw [item, ← synced.places, List.getElem?_concat_length]
        · have here := synced.its n' mem
          rw [List.getElem?_append_left (List.getElem?_eq_some_iff.mp here).1, here]

theorem delkey_implements (h : s.toOmap.Refines keys m) (synced : s.Synced) (key : K) :
    (s.delkey keys key).1.1 = (s.toOmap.delkey keys key).1.1 ∧
      (s.delkey keys key).2.toOmap = (s.toOmap.delkey keys key).2 ∧
      (s.delkey keys key).2.Synced := by
  cases nil : keys.isNil key with
  | true =>
    rw [Dmap.delkey, Omap.delkey, nil]
    exact ⟨rfl, rfl, synced⟩
  | false =>
    obtain ⟨pre, n, post, _, _, _, split, _, _, read, _, found⟩ | ⟨absent, other, _⟩ :=
      h.find (keys.canon key)
    · obtain ⟨flag, _, _, _, result, nodes⟩ := h.delkey_present split read.id nil
      rw [Dmap.delkey, nil, if_neg (by simp), synced.find_present (by simp [split]) read.id, flag, result]
      rw [result] at nodes
      have kept : ∀ n' ∈ pre ++ post, n' ∈ T.nodes s.tree := fun n' mem => by
        rw [split]; simp at mem ⊢; tauto
      refine ⟨rfl, rfl, ?_, ?_, synced.places⟩
      · have order : SortedEntries.Sorted ((T.nodes s.tree).map fun n => ((T.item n).id, n)) :=
          List.Pairwise.map _ (fun _ _ h => h) (T.sorted s.tree)
        have index := synced.index.filter (fun p => p.1 ≠ keys.canon key)
        simp only [split, List.map_append, List.map_cons, read.id] at order index
        have removed := SortedEntries.remove_split order
        unfold SortedEntries.remove at removed
        rw [removed] at index
        simp only [nodes, List.map_append]
        cases idx : s.idx <;> simpa [idx] using index
      · intro n' mem
        exact synced.its n' (kept n' (nodes ▸ mem))
    · obtain ⟨same, flag⟩ := h.delkey_absent (Omap.Refines.get_absent absent)
      rw [Dmap.delkey, nil, if_neg (by simp), synced.find_absent other, same, flag]
      exact ⟨rfl, rfl, synced⟩

theorem getikv_implements (h : s.toOmap.Refines keys m) (synced : s.Synced) (key : K) :
    s.getikv keys key = s.toOmap.getokv keys key := by
  unfold Dmap.getikv Omap.getokv
  split
  · rfl
  · obtain ⟨pre, n, post, _, _, _, split, _, _, read, _, found⟩ | ⟨_, other, none⟩ :=
      h.find (keys.canon key)
    · rw [synced.find_present (by simp [split]) read.id, found]
      rfl
    · rw [synced.find_absent other]
      split
      · rename_i eq
        rw [eq] at none
        cases none
      · rfl

theorem implements : (Dmap.ops (V := V) (T := T) keys).Implements keys Dmap.Synced where
  set _ _ key val h synced := set_implements h synced key val
  delkey _ _ key h synced := delkey_implements h synced key
  deleteAll s synced := ⟨rfl, by
    refine ⟨?_, ?_, synced.places⟩ <;>
      simp [Dmap.ops, Dmap.deleteAll, T.nodes_deleteAll]⟩
  getokv _ _ key h synced := getikv_implements h synced key
  len s m h synced := by
    show s.len = s.toOmap.len
    rw [Dmap.len, Omap.len, T.len_eq, synced.index.length_eq, List.length_map]
  nextit s n synced mem := by
    have here := synced.its n mem
    simp [Dmap.ops, here]
  withOmap s o synced tree vals := by
    refine ⟨rfl, ?_, ?_, synced.places.trans vals.symm⟩
    · exact tree ▸ synced.index
    · exact tree ▸ synced.its

end Dmap

section SortedList

variable {I : Type} {id : I → C}

theorem filter_split {pre post : List I} {n : I}
    (sorted : (pre ++ n :: post).Pairwise fun x y => id x < id y) (keep : I → Bool)
    (before here after : Bool) (below : ∀ x, id x < id n → keep x = before) (same : keep n = here)
    (above : ∀ x, id n < id x → keep x = after) : (pre ++ n :: post).filter keep =
      (if before then pre else []) ++ (if here then [n] else []) ++ if after then post else [] := by
  obtain ⟨_, back, across⟩ := List.pairwise_append.mp sorted
  have low : pre.filter keep = if before then pre else [] := by
    split <;> simp only [List.filter_eq_self, List.filter_eq_nil_iff]
    all_goals
      intro x mem
      simp_all
  have high : post.filter keep = if after then post else [] := by
    split <;> simp only [List.filter_eq_self, List.filter_eq_nil_iff]
    all_goals
      intro x mem
      simp_all
  rw [List.filter_append, List.filter_cons, low, high, same]
  cases here <;> simp

theorem split_at_absent {l : List I} (sorted : l.Pairwise fun x y => id x < id y) {c : C}
    (absent : ∀ x ∈ l, id x ≠ c) :
    l = l.filter (fun x => id x < c) ++ l.filter (fun x => c < id x) := by
  induction l with
  | nil => rfl
  | cons x l ih =>
    obtain ⟨first, sorted⟩ := List.pairwise_cons.mp sorted
    obtain ⟨here, absent⟩ := List.forall_mem_cons.mp absent
    obtain below | above := lt_or_gt_of_ne here
    · rw [List.filter_cons_of_pos (by simpa using below),
        List.filter_cons_of_neg (by simpa using below.le), List.cons_append, ← ih sorted absent]
    · rw [List.filter_eq_nil_iff.mpr, List.filter_eq_self.mpr, List.nil_append]
      · simpa using ⟨above, fun y hy => above.trans (first y hy)⟩
      · simpa using ⟨above.le, fun y hy => (above.trans (first y hy)).le⟩

/-- A sorted list is such a tree. -/
def Rbtree.sortedList (id : I → C) : Rbtree C I id where
  Tree := { l : List I // l.Pairwise fun x y => id x < id y }
  Node := I
  item x := x
  nodes t := t.1
  newTree := ⟨[], .nil⟩
  len t := t.1.length
  min t := t.1.head?
  next t x := (t.1.filter fun y => id x < id y).head?
  findGE_isEqual t c := match (t.1.filter fun y => c ≤ id y).head? with
    | some x => (some x, id x = c)
    | none => (none, false)
  insertGetIt t x :=
    if t.1.any (id · = id x) then (t, false, some x)
    else (⟨t.1.filter (fun y => id y < id x) ++ x :: t.1.filter (fun y => id x < id y), by
      refine List.pairwise_append.mpr ⟨t.2.filter _, List.pairwise_cons.mpr ⟨?_, t.2.filter _⟩, ?_⟩
      · intro y hy
        simpa using (List.mem_filter.mp hy).2
      · intro y hy z hz
        have below : id y < id x := by simpa using (List.mem_filter.mp hy).2
        obtain rfl | hz := List.mem_cons.mp hz
        · exact below
        · exact below.trans (by simpa using (List.mem_filter.mp hz).2)⟩, true, some x)
  deleteWithIterator t x := ⟨t.1.filter fun y => id y ≠ id x, t.2.filter _⟩
  deleteAll _ := ⟨[], .nil⟩
  sorted t := t.2
  nodes_newTree := rfl
  len_eq _ := rfl
  min_eq _ := rfl
  next_eq t pre n post split := by
    have sorted := t.2
    rw [split] at sorted
    rw [split, filter_split sorted _ false false true] <;> simp
    exact fun x less => less.le
  find_node t n mem := by
    obtain ⟨pre, post, split⟩ := List.append_of_mem mem
    have sorted := t.2
    rw [split] at sorted
    rw [split, filter_split sorted _ false true true] <;> simp
    exact fun x less => less.le
  find_none t c absent := by
    split
    · rename_i x found
      have mem := List.mem_of_mem_filter (List.mem_of_mem_head? found)
      simpa using absent x mem
    · rfl
  insert_new t x absent := by
    rw [if_neg (by simpa using absent)]
    exact ⟨_, x, _, _, rfl, rfl, split_at_absent t.2 absent, rfl⟩
  delete_node t pre n post split := by
    have sorted := t.2
    rw [split] at sorted
    show t.1.filter _ = pre ++ post
    rw [split, filter_split sorted _ true false true] <;> simp
    · exact fun x less => less.ne
    · exact fun x less => less.ne'
  nodes_deleteAll _ := rfl

end SortedList

/-- Plain keys: each is its own identity, and none is nil. -/
def Keys.plain (K : Type) : Keys K K := ⟨fun key => key, fun _ => false⟩

/-- Every answer of every run, of an `omap` and of a `dmap`, is that of the sorted entries exactly
when no loop of the run is on the cache and makes, as its first change, the deletion of the entry
before the last one. The loops over the entries visit the keys of their start. -/
theorem Omap.answers_iff_clean {C K V : Type} [LinearOrder C] [LinearOrder K]
    (S : Rbtree K (Okv K K) Okv.id) (T : Rbtree C (Okv C K) Okv.id) (keys : Keys C K)
    (script : List (Op K V)) (body : Body K V) :
    ((Omap.ops (.plain K)).run script (Omap.newOmap S V) = some (Entries.run (.plain K) script []) ↔
      (Omap.ops (.plain K)).Clean (.plain K) script (Omap.newOmap S V)) ∧
    ((Dmap.ops keys).run script (Dmap.newDmap T V) = some (Entries.run keys script []) ↔
      (Dmap.ops keys).Clean keys script (Dmap.newDmap T V)) ∧
    Entries.Proper keys (Entries.final keys script []) ∧ ((∀ seen, (body seen).2) →
      (Entries.all keys body (Entries.final keys script [])).2.map (fun p => keys.canon p.1) =
        (Entries.final keys script []).map Prod.fst) := by
  have proper := Entries.final_proper keys script
  refine ⟨?_, ?_, proper, proper.all_visits body⟩
  · exact MapOps.run_spec Omap.implements ⟨Omap.Refines.newOmap, trivial⟩ script
  · exact MapOps.run_spec Dmap.implements ⟨Omap.Refines.newOmap, Dmap.newDmap_synced⟩ script

/-- Sets two keys, fills the cache, and deletes the first of them in a loop. -/
def deletingScript : List (Op Nat Nat) :=
  [.set 1 10, .set 2 20, .cached, .all fun seen => (if seen.length = 1 then [.delete] else [], true)]

/-- The loop sees only the first of two keys. -/
theorem Omap.all_skips_last : (Omap.ops (.plain Nat)).run deletingScript
      (Omap.newOmap (Rbtree.sortedList Okv.id) Nat) =
        some [.flag true, .flag true, .listing [(1, 10), (2, 20)], .listing [(1, 10)]] ∧
    Entries.run (.plain Nat) deletingScript [] =
      [.flag true, .flag true, .listing [(1, 10), (2, 20)], .listing [(1, 10), (2, 20)]] := by
  decide

end Goivy
