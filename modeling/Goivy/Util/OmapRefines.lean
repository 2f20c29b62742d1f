import Goivy.Util.OmapSpec
import Mathlib.Data.List.Forall2

/-! The maps' operations refine those on the sorted entries. -/
namespace Goivy

open SortedEntries

variable {C K V : Type} [LinearOrder C] {T : Rbtree C (Okv C K) Okv.id} {keys : Keys C K}

/-- The node of an entry. -/
structure Reads (T : Rbtree C (Okv C K) Okv.id) (vals : List V) (n : T.Node) (p : C × K × V) :
    Prop where
  id : (T.item n).id = p.1
  key : (T.item n).key = p.2.1
  val : vals[(T.item n).ref]? = some p.2.2

structure Omap.Refines (keys : Keys C K) (s : Omap T V) (m : List (C × K × V)) : Prop where
  entries : List.Forall₂ (Reads T s.vals) (T.nodes s.tree) m
  refs : (T.nodes s.tree).Pairwise fun n n' => (T.item n).ref ≠ (T.item n').ref
  canon : ∀ n ∈ T.nodes s.tree,
    (T.item n).id = keys.canon (T.item n).key ∧ keys.isNil (T.item n).key = false
  cache : s.ordercache <+: (T.nodes s.tree).map T.item

namespace Omap.Refines

variable {s : Omap T V} {m : List (C × K × V)}

theorem newOmap : (Omap.newOmap T V).Refines keys [] where
  entries := by simp [Omap.newOmap, T.nodes_newTree]
  refs := by simp [Omap.newOmap, T.nodes_newTree]
  canon := by simp [Omap.newOmap, T.nodes_newTree]
  cache := List.nil_prefix

theorem append_of_forall₂ {α β : Type} {R : α → β → Prop} {pre post : List α} {l : List β}
    (h : List.Forall₂ R (pre ++ post) l) : ∃ before after, l = before ++ after ∧
      List.Forall₂ R pre before ∧ List.Forall₂ R post after := by
  induction pre generalizing l with
  | nil => exact ⟨[], l, rfl, .nil, h⟩
  | cons a pre ih =>
    obtain ⟨b, rest, head, tail, rfl⟩ := List.forall₂_cons_left_iff.mp h
    obtain ⟨before, after, rfl, front, back⟩ := ih tail
    exact ⟨b :: before, after, rfl, .cons head front, back⟩

theorem sorted_of_reads {vals : List V} {ns : List T.Node}
    (sorted : ns.Pairwise fun n n' => (T.item n).id < (T.item n').id)
    (reads : List.Forall₂ (Reads T vals) ns m) : Sorted m := by
  induction reads with
  | nil => exact List.Pairwise.nil
  | @cons n p ns m head tail ih =>
    obtain ⟨first, rest⟩ := List.pairwise_cons.mp sorted
    refine List.pairwise_cons.mpr ⟨fun q hq => ?_, ih rest⟩
    obtain ⟨n', mem, read⟩ : ∃ n' ∈ ns, Reads T vals n' q := by
      obtain ⟨i, hi, rfl⟩ := List.mem_iff_getElem.mp hq
      have length := tail.length_eq
      exact ⟨ns[i], List.getElem_mem _, tail.get (by omega) hi⟩
    exact head.id ▸ read.id ▸ first n' mem

theorem sorted (h : s.Refines keys m) : Sorted m := sorted_of_reads (T.sorted s.tree) h.entries

theorem len (h : s.Refines keys m) : s.len = m.length := by
  rw [Omap.len, T.len_eq, h.entries.length_eq]

/-- The lookup of a key splits tree and entries at the same place, or finds nothing in both. -/
theorem find (h : s.Refines keys m) (c : C) :
    (∃ pre n post before w after, T.nodes s.tree = pre ++ n :: post ∧ m = before ++ (c, w) :: after ∧
        List.Forall₂ (Reads T s.vals) pre before ∧ Reads T s.vals n (c, w) ∧
        List.Forall₂ (Reads T s.vals) post after ∧ T.findGE_isEqual s.tree c = (some n, true)) ∨
      (∀ p ∈ m, p.1 ≠ c) ∧ (∀ n ∈ T.nodes s.tree, (T.item n).id ≠ c) ∧
        (T.findGE_isEqual s.tree c).2 = false := by
  by_cases present : ∃ n ∈ T.nodes s.tree, (T.item n).id = c
  · obtain ⟨n, mem, rfl⟩ := present
    have found := T.find_node s.tree n mem
    obtain ⟨pre, post, split⟩ := List.append_of_mem mem
    have entries := h.entries
    rw [split] at entries
    obtain ⟨before, rest, rfl, front, back⟩ := append_of_forall₂ entries
    obtain ⟨⟨c, w⟩, after, read, tail, rfl⟩ := List.forall₂_cons_left_iff.mp back
    obtain rfl := read.id
    exact .inl ⟨pre, n, post, before, w, after, split, rfl, front, read, tail, found⟩
  · have absent : ∀ n ∈ T.nodes s.tree, (T.item n).id ≠ c := fun n mem same => present ⟨n, mem, same⟩
    refine .inr ⟨fun p hp => ?_, absent, T.find_none s.tree c absent⟩
    obtain ⟨i, hi, rfl⟩ := List.mem_iff_getElem.mp hp
    have length := h.entries.length_eq
    have read := h.entries.get (i := i) (by omega) hi
    exact read.id ▸ absent _ (List.getElem_mem _)

/-- A new value for one entry leaves the others as they were. -/
theorem assign (h : s.Refines keys m) {pre post : List T.Node} {n : T.Node}
    {before after : List (C × K × V)} {c : C} {first : K} {w : V}
    (split : T.nodes s.tree = pre ++ n :: post) (front : List.Forall₂ (Reads T s.vals) pre before)
    (read : Reads T s.vals n (c, first, w)) (back : List.Forall₂ (Reads T s.vals) post after) (val : V)
    {o : Omap T V} (tree : o.tree = s.tree) (vals : o.vals = s.vals.set (T.item n).ref val)
    (cache : o.ordercache <+: (T.nodes s.tree).map T.item) :
    o.Refines keys (before ++ (c, first, val) :: after) := by
  have refs := h.refs
  simp only [split, List.pairwise_append, List.pairwise_cons, List.mem_cons] at refs
  obtain ⟨_, ⟨others, _⟩, across⟩ := refs
  have keep : ∀ {ns l}, (∀ n' ∈ ns, (T.item n').ref ≠ (T.item n).ref) →
      List.Forall₂ (Reads T s.vals) ns l → List.Forall₂ (Reads T o.vals) ns l := by
    intro ns l other reads
    induction reads with
    | nil => exact .nil
    | cons head tail ih =>
      obtain ⟨here, rest⟩ := List.forall_mem_cons.mp other
      refine .cons ⟨head.id, head.key, ?_⟩ (ih rest)
      rw [vals, List.getElem?_set_ne here.symm, head.val]
  refine ⟨?_, by rw [tree]; exact h.refs, by rw [tree]; exact h.canon, by rw [tree]; exact cache⟩
  rw [tree, split]
  refine List.rel_append (keep (fun n' hn' => across n' hn' n (.inl rfl)) front)
    (.cons ⟨read.id, read.key, ?_⟩ (keep (fun n' hn' => (others n' hn').symm) back))
  obtain ⟨bound, _⟩ := List.getElem?_eq_some_iff.mp read.val
  rw [vals, List.getElem?_set_self bound]

/-- Entries without one of them. -/
theorem without (h : s.Refines keys m) {pre post : List T.Node} {n : T.Node}
    {before after : List (C × K × V)} (split : T.nodes s.tree = pre ++ n :: post)
    (front : List.Forall₂ (Reads T s.vals) pre before)
    (back : List.Forall₂ (Reads T s.vals) post after) {o : Omap T V}
    (nodes : T.nodes o.tree = pre ++ post) (vals : o.vals = s.vals) (cache : o.ordercache = []) :
    o.Refines keys (before ++ after) := by
  have sub : (pre ++ post).Sublist (T.nodes s.tree) :=
    split ▸ List.Sublist.append (.refl _) (List.sublist_cons_self _ _)
  refine ⟨?_, ?_, ?_, by rw [cache]; exact List.nil_prefix⟩
  · rw [nodes, vals]
    exact List.rel_append front back
  · rw [nodes]
    exact h.refs.sublist sub
  · rw [nodes]
    exact fun n hn => h.canon n (sub.subset hn)

theorem get_cons {key : K} {before after : List (C × K × V)} {w : K × V}
    (nil : keys.isNil key = false) (sorted : Sorted (before ++ (keys.canon key, w) :: after)) :
    Entries.get keys (before ++ (keys.canon key, w) :: after) key = some w := by
  rw [Entries.get, nil, if_neg (by simp), lookup_split sorted]

theorem get_absent {key : K} (absent : ∀ p ∈ m, p.1 ≠ keys.canon key) :
    Entries.get keys m key = none := by
  rw [Entries.get, lookup_absent absent, ite_self]

theorem getokv_none (h : s.Refines keys m) {key : K} (missing : Entries.get keys m key = none) :
    s.getokv keys key = none := by
  unfold Omap.getokv
  cases nil : keys.isNil key with
  | true => rfl
  | false =>
    obtain ⟨_, _, _, _, _, _, _, rfl, _⟩ | ⟨_, _, none⟩ := h.find (keys.canon key)
    · rw [get_cons nil h.sorted] at missing
      cases missing
    · rw [if_neg (by simp)]
      split
      · rename_i eq
        rw [eq] at none
        cases none
      · rfl

/-- The pointer of a present key leads to its value, and a write through it is a new value. -/
theorem getokv_some (h : s.Refines keys m) {key first : K} {w : V}
    (found : Entries.get keys m key = some (first, w)) :
    ∃ kv, s.getokv keys key = some kv ∧ s.vals[kv.ref]? = some w ∧ ∀ val,
      Omap.Refines keys { s with vals := s.vals.set kv.ref val } (Entries.set keys m key val).2 := by
  unfold Omap.getokv
  unfold Entries.get at found
  cases nil : keys.isNil key with
  | true => simp [nil] at found
  | false =>
    rw [nil, if_neg (by simp)] at found
    obtain ⟨pre, n, post, before, w, after, split, rfl, front, read, back, eq⟩ | ⟨absent, _⟩ :=
      h.find (keys.canon key)
    · rw [lookup_split h.sorted] at found
      cases found
      refine ⟨T.item n, by rw [if_neg (by simp), eq], read.val, fun val => ?_⟩
      have put := put_split [(keys.canon key, first, w)] (Sorted.replace (first, val) h.sorted) (by simp)
      rw [List.append_assoc, List.singleton_append] at put
      rw [Entries.set, nil, if_neg (by simp), lookup_split h.sorted]
      simp only [put]
      exact h.assign split front read back val rfl rfl h.cache
    · rw [lookup_absent absent] at found
      cases found

theorem delkey_absent (h : s.Refines keys m) {key : K} (missing : Entries.get keys m key = none) :
    (s.delkey keys key).2 = s ∧ (s.delkey keys key).1.1 = false := by
  unfold Omap.delkey
  cases nil : keys.isNil key with
  | true => exact ⟨rfl, rfl⟩
  | false =>
    obtain ⟨_, _, _, _, _, _, _, rfl, _⟩ | ⟨_, _, none⟩ := h.find (keys.canon key)
    · rw [get_cons nil h.sorted] at missing
      cases missing
    · rw [if_neg (by simp)]
      split
      · rename_i eq
        rw [eq] at none
        cases none
      · exact ⟨rfl, rfl⟩

theorem present_split (h : s.Refines keys m) {key : K}
    (present : (Entries.get keys m key).isSome) : keys.isNil key = false ∧
      ∃ pre n post, T.nodes s.tree = pre ++ n :: post ∧ (T.item n).id = keys.canon key := by
  unfold Entries.get at present
  cases nil : keys.isNil key with
  | true => simp [nil] at present
  | false =>
    rw [nil, if_neg (by simp)] at present
    obtain ⟨pre, n, post, before, w, after, split, rfl, _, read, _⟩ | ⟨absent, _⟩ :=
      h.find (keys.canon key)
    · exact ⟨rfl, pre, n, post, split, read.id⟩
    · rw [lookup_absent absent] at present
      cases present

/-- The entry at a node. -/
theorem read (h : s.Refines keys m) {pre post : List T.Node} {n : T.Node}
    (split : T.nodes s.tree = pre ++ n :: post) : ∃ before val after,
      m = before ++ ((T.item n).id, (T.item n).key, val) :: after ∧
      List.Forall₂ (Reads T s.vals) pre before ∧
      Reads T s.vals n ((T.item n).id, (T.item n).key, val) ∧
      List.Forall₂ (Reads T s.vals) post after := by
  have entries := h.entries
  rw [split] at entries
  obtain ⟨before, rest, rfl, front, back⟩ := append_of_forall₂ entries
  obtain ⟨⟨c, k, val⟩, after, read, tail, rfl⟩ := List.forall₂_cons_left_iff.mp back
  obtain ⟨rfl, rfl, _⟩ := And.intro read.id (And.intro read.key trivial)
  exact ⟨before, val, after, rfl, front, read, tail⟩

/-- The node of a present key is taken out of the tree. -/
theorem delkey_present (h : s.Refines keys m) {pre post : List T.Node} {n : T.Node}
    (split : T.nodes s.tree = pre ++ n :: post) {key : K} (same : (T.item n).id = keys.canon key)
    (nil : keys.isNil key = false) :
    (s.delkey keys key).1.1 = true ∧ (s.delkey keys key).2.version = s.version + 1 ∧
      (Entries.delkey keys m key).1 = true ∧
      (s.delkey keys key).2.Refines keys (Entries.delkey keys m key).2 ∧
      (s.delkey keys key).2 = { s.touched with tree := T.deleteWithIterator s.tree n } ∧
      T.nodes (s.delkey keys key).2.tree = pre ++ post := by
  obtain ⟨before, val, after, rfl, front, read, back⟩ := h.read split
  have found := T.find_node s.tree n (by simp [split])
  have sorted := h.sorted
  rw [same] at found sorted ⊢
  have nodes := T.delete_node _ _ _ _ split
  have result : s.delkey keys key = ((true, T.next s.tree n),
      { s.touched with tree := T.deleteWithIterator s.tree n }) := by
    rw [Omap.delkey, nil, if_neg (by simp), found]
  have spec := get_cons nil sorted
  rw [result, Entries.delkey, spec, Option.isSome_some, if_pos rfl, remove_split sorted]
  exact ⟨rfl, rfl, rfl, h.without split front back nodes rfl rfl, rfl, nodes⟩

theorem set_present (h : s.Refines keys m) {key : K} (val : V)
    (present : (Entries.get keys m key).isSome) :
    (s.set keys key val).1 = (Entries.set keys m key val).1 ∧
      (s.set keys key val).2.Refines keys (Entries.set keys m key val).2 ∧
      (s.set keys key val).2.tree = s.tree ∧ (s.set keys key val).2.version = s.version + 1 := by
  unfold Omap.set Entries.set
  unfold Entries.get at present
  cases nil : keys.isNil key with
  | true => simp [nil] at present
  | false =>
    rw [nil, if_neg (by simp)] at present
    obtain ⟨pre, n, post, before, ⟨first, w⟩, after, split, rfl, front, read, back, eq⟩ | ⟨absent, _⟩ :=
      h.find (keys.canon key)
    · rw [if_neg (by simp), if_neg (by simp), eq, lookup_split h.sorted]
      have put := put_split [(keys.canon key, first, w)] (Sorted.replace (first, val) h.sorted) (by simp)
      rw [List.append_assoc, List.singleton_append] at put
      refine ⟨rfl, ?_, rfl, rfl⟩
      simp only [put]
      exact h.assign split front read back val rfl rfl List.nil_prefix
    · rw [lookup_absent absent] at present
      cases present

/-- A new key gets a new node, a new place for its value, and an entry where it belongs. -/
theorem set_absent (h : s.Refines keys m) {key : K} (val : V) (nil : keys.isNil key = false)
    (missing : Entries.get keys m key = none) :
    (s.set keys key val).1 = true ∧ (s.set keys key val).2.Refines keys (Entries.set keys m key val).2 ∧
      (Entries.set keys m key val).1 = true ∧ ∃ t n pre post,
        T.insertGetIt s.tree ⟨keys.canon key, key, s.vals.length⟩ = (t, true, some n) ∧
        T.item n = ⟨keys.canon key, key, s.vals.length⟩ ∧ T.nodes s.tree = pre ++ post ∧
        T.nodes t = pre ++ n :: post ∧ (s.set keys key val).2 =
          { s.touched with tree := t, vals := s.vals ++ [val] } := by
  obtain ⟨_, _, _, _, _, _, _, rfl, _⟩ | ⟨absent, other, none⟩ := h.find (keys.canon key)
  · rw [get_cons nil h.sorted] at missing
    cases missing
  obtain ⟨t, n, pre, post, inserted, item, old, new⟩ :=
    T.insert_new s.tree ⟨keys.canon key, key, s.vals.length⟩ other
  have result : s.set keys key val =
      (true, { s.touched with tree := t, vals := s.vals ++ [val] }) := by
    unfold Omap.set
    rw [nil, if_neg (by simp)]
    split
    · rename_i eq
      rw [eq] at none
      cases none
    · rw [inserted]
  have spec : Entries.set keys m key val = (true, put m (keys.canon key) (key, val)) := by
    rw [Entries.set, nil, if_neg (by simp), lookup_absent absent]
  rw [result, spec]
  refine ⟨rfl, ?_, rfl, t, n, pre, post, inserted, item, old, new, rfl⟩
  have bound : ∀ n' ∈ T.nodes s.tree, (T.item n').ref < s.vals.length := fun n' hn' => by
    obtain ⟨i, hi, rfl⟩ := List.mem_iff_getElem.mp hn'
    have read := h.entries.get hi (h.entries.length_eq ▸ hi)
    exact (List.getElem?_eq_some_iff.mp read.val).1
  have entries := h.entries
  have keep : ∀ {ns l}, List.Forall₂ (Reads T s.vals) ns l →
      List.Forall₂ (Reads T (s.vals ++ [val])) ns l := fun reads =>
    reads.imp fun n' p read => ⟨read.id, read.key, by
      rw [List.getElem?_append_left (List.getElem?_eq_some_iff.mp read.val).1, read.val]⟩
  have read : Reads T (s.vals ++ [val]) n (keys.canon key, key, val) :=
    ⟨by rw [item], by rw [item], by rw [item, List.getElem?_concat_length]⟩
  rw [old] at entries
  obtain ⟨before, after, rfl, front, back⟩ := append_of_forall₂ entries
  have reads : List.Forall₂ (Reads T (s.vals ++ [val])) (T.nodes t)
      (before ++ (keys.canon key, key, val) :: after) :=
    new ▸ List.rel_append (keep front) (.cons read (keep back))
  have put := put_split [] (sorted_of_reads (T.sorted t) reads) (by simp)
  rw [List.append_nil] at put
  have fresh : ∀ n' ∈ pre ++ post, (T.item n').ref ≠ (T.item n).ref := fun n' hn' => by
    rw [item]
    exact Nat.ne_of_lt (bound n' (old ▸ hn'))
  refine ⟨by rw [put]; exact reads, ?_, ?_, List.nil_prefix⟩
  · have refs := h.refs
    simp only [new, old, List.pairwise_append, List.pairwise_cons, List.mem_cons] at refs ⊢
    refine ⟨refs.1, ⟨fun n' hn' => (fresh n' (List.mem_append_right _ hn')).symm, refs.2.1⟩, ?_⟩
    rintro n' hn' m' (rfl | hm')
    · exact fresh n' (List.mem_append_left _ hn')
    · exact refs.2.2 n' hn' m' hm'
  · rw [new]
    intro n' hn'
    obtain hn' | rfl | hn' : n' ∈ pre ∨ n' = n ∨ n' ∈ post := by simpa using hn'
    · exact h.canon n' (old ▸ List.mem_append_left _ hn')
    · simp [item, nil]
    · exact h.canon n' (old ▸ List.mem_append_right _ hn')

theorem set (h : s.Refines keys m) (key : K) (val : V) :
    (s.set keys key val).1 = (Entries.set keys m key val).1 ∧
      (s.set keys key val).2.Refines keys (Entries.set keys m key val).2 := by
  cases nil : keys.isNil key with
  | true =>
    rw [Omap.set, Entries.set, nil]
    exact ⟨rfl, h⟩
  | false =>
    cases found : Entries.get keys m key with
    | none =>
      obtain ⟨flag, refines, flag', _⟩ := h.set_absent val nil found
      exact ⟨flag.trans flag'.symm, refines⟩
    | some entry =>
      obtain ⟨flag, refines, _⟩ := h.set_present val (Option.isSome_of_eq_some found)
      exact ⟨flag, refines⟩

theorem delkey (h : s.Refines keys m) (key : K) :
    (s.delkey keys key).1.1 = (Entries.delkey keys m key).1 ∧
      (s.delkey keys key).2.Refines keys (Entries.delkey keys m key).2 := by
  cases found : Entries.get keys m key with
  | none =>
    obtain ⟨same, flag⟩ := h.delkey_absent found
    rw [same, flag, Entries.delkey, found]
    exact ⟨rfl, h⟩
  | some entry =>
    obtain ⟨nil, pre, n, post, split, id⟩ := h.present_split (Option.isSome_of_eq_some found)
    obtain ⟨flag, _, flag', refines, _⟩ := h.delkey_present split id nil
    exact ⟨flag.trans flag'.symm, refines⟩

theorem deleteAll : s.deleteAll.Refines keys [] where
  entries := by simp [Omap.deleteAll, T.nodes_deleteAll]
  refs := by simp [Omap.deleteAll, T.nodes_deleteAll]
  canon := by simp [Omap.deleteAll, T.nodes_deleteAll]
  cache := List.nil_prefix

end Omap.Refines

end Goivy
