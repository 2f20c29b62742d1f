import Mathlib

/-! Finite maps as lists of entries in the strict order of their keys. -/
namespace Goivy.SortedEntries

variable {C W : Type} [LinearOrder C]

def Sorted (m : List (C × W)) : Prop := m.Pairwise fun p q => p.1 < q.1

def put (m : List (C × W)) (c : C) (w : W) : List (C × W) :=
  m.filter (fun p => p.1 < c) ++ (c, w) :: m.filter (fun p => c < p.1)

def remove (m : List (C × W)) (c : C) : List (C × W) := m.filter fun p => p.1 ≠ c

theorem Sorted.split {pre post : List (C × W)} {p : C × W} (sorted : Sorted (pre ++ p :: post)) :
    (∀ q ∈ pre, q.1 < p.1) ∧ ∀ q ∈ post, p.1 < q.1 := by
  obtain ⟨_, back, across⟩ := List.pairwise_append.mp sorted
  exact ⟨fun q hq => across q hq p List.mem_cons_self, (List.pairwise_cons.mp back).1⟩

theorem Sorted.drop {pre post : List (C × W)} {p : C × W} (sorted : Sorted (pre ++ p :: post)) :
    Sorted (pre ++ post) :=
  List.Pairwise.sublist (List.Sublist.append (.refl _) (List.sublist_cons_self _ _)) sorted

theorem Sorted.replace {pre post : List (C × W)} {c : C} {w : W} (w' : W)
    (sorted : Sorted (pre ++ (c, w) :: post)) : Sorted (pre ++ (c, w') :: post) := by
  simp only [Sorted, List.pairwise_append, List.pairwise_cons, List.forall_mem_cons] at sorted ⊢
  exact sorted

/-- `middle` is empty or the old entry of the key. -/
theorem put_split {pre post : List (C × W)} {c : C} {w : W} (middle : List (C × W))
    (sorted : Sorted (pre ++ (c, w) :: post)) (old : ∀ p ∈ middle, p.1 = c) :
    put (pre ++ middle ++ post) c w = pre ++ (c, w) :: post := by
  obtain ⟨below, above⟩ := sorted.split
  have low : (pre ++ middle ++ post).filter (fun p => p.1 < c) = pre := by
    rw [List.filter_append, List.filter_append, List.filter_eq_self.mpr, List.filter_eq_nil_iff.mpr,
      List.filter_eq_nil_iff.mpr, List.append_nil, List.append_nil]
    · exact fun p hp => by simpa using (above p hp).le
    · exact fun p hp => by simp [old p hp]
    · exact fun p hp => by simpa using below p hp
  have high : (pre ++ middle ++ post).filter (fun p => c < p.1) = post := by
    rw [List.filter_append, List.filter_append, List.filter_eq_nil_iff.mpr, List.filter_eq_nil_iff.mpr,
      List.filter_eq_self.mpr, List.nil_append, List.nil_append]
    · exact fun p hp => by simpa using above p hp
    · exact fun p hp => by simp [old p hp]
    · exact fun p hp => by simpa using (below p hp).le
  rw [put, low, high]

theorem remove_split {pre post : List (C × W)} {c : C} {w : W}
    (sorted : Sorted (pre ++ (c, w) :: post)) : remove (pre ++ (c, w) :: post) c = pre ++ post := by
  obtain ⟨below, above⟩ := sorted.split
  have front : pre.filter (fun p => p.1 ≠ c) = pre :=
    List.filter_eq_self.mpr fun p hp => by simpa using (below p hp).ne
  have back : post.filter (fun p => p.1 ≠ c) = post :=
    List.filter_eq_self.mpr fun p hp => by simpa using (above p hp).ne'
  rw [remove, List.filter_append, List.filter_cons_of_neg (by simp), front, back]

theorem remove_absent {m : List (C × W)} {c : C} (absent : ∀ p ∈ m, p.1 ≠ c) : remove m c = m :=
  List.filter_eq_self.mpr fun p hp => by simpa using absent p hp

theorem lookup_split {pre post : List (C × W)} {c : C} {w : W}
    (sorted : Sorted (pre ++ (c, w) :: post)) : (pre ++ (c, w) :: post).lookup c = some w := by
  have absent : pre.lookup c = none := List.lookup_eq_none_iff.mpr fun p hp => by
    simpa using (sorted.split.1 p hp).ne'
  rw [List.lookup_append, absent, List.lookup_cons_self, Option.none_or]

theorem lookup_absent {m : List (C × W)} {c : C} (absent : ∀ p ∈ m, p.1 ≠ c) : m.lookup c = none :=
  List.lookup_eq_none_iff.mpr fun p hp => by simpa using (absent p hp).symm

theorem Sorted.put {m : List (C × W)} (sorted : Sorted m) (c : C) (w : W) : Sorted (put m c w) := by
  refine List.pairwise_append.mpr ⟨sorted.filter _, List.pairwise_cons.mpr ⟨?_, sorted.filter _⟩, ?_⟩
  · intro p hp
    simpa using (List.mem_filter.mp hp).2
  · intro p hp q hq
    have below : p.1 < c := by simpa using (List.mem_filter.mp hp).2
    obtain rfl | hq := List.mem_cons.mp hq
    · exact below
    · exact below.trans (by simpa using (List.mem_filter.mp hq).2)

theorem Sorted.remove {m : List (C × W)} (sorted : Sorted m) (c : C) : Sorted (remove m c) :=
  sorted.filter _

theorem Sorted.nodup {m : List (C × W)} (sorted : Sorted m) : (m.map Prod.fst).Nodup :=
  List.Pairwise.map _ (fun _ _ h => ne_of_lt h) sorted

theorem lookup_isSome {m : List (C × W)} {c : C} (mem : c ∈ m.map Prod.fst) :
    (m.lookup c).isSome := by
  rw [Option.isSome_iff_ne_none, ne_eq, List.lookup_eq_none_iff]
  obtain ⟨p, hp, rfl⟩ := List.mem_map.mp mem
  exact fun none => by simpa using none p hp

theorem lookup_filter (m : List (C × W)) (keep : C → Bool) (c : C) :
    (m.filter fun p => keep p.1).lookup c = if keep c then m.lookup c else none := by
  induction m with
  | nil => simp
  | cons p m ih =>
    obtain ⟨d, w⟩ := p
    by_cases same : c = d
    · subst same
      cases kept : keep c <;> simp [kept, ih]
    · have other : (c == d) = false := beq_false_of_ne same
      cases kept : keep d <;> simp [kept, ih, List.lookup_cons, other]

theorem lookup_put (m : List (C × W)) (c d : C) (w : W) :
    (put m c w).lookup d = if d = c then some w else m.lookup d := by
  rw [put, List.lookup_append, lookup_filter m (fun x => x < c), List.lookup_cons,
    lookup_filter m (fun x => c < x)]
  obtain less | rfl | greater := lt_trichotomy d c
  · simp [less, less.ne, less.not_gt, beq_false_of_ne less.ne]
  · simp
  · simp [greater, greater.ne', greater.not_gt, beq_false_of_ne greater.ne']

theorem lookup_remove (m : List (C × W)) (c d : C) :
    (remove m c).lookup d = if d = c then none else m.lookup d := by
  have filtered := lookup_filter m (fun x => decide (x ≠ c)) d
  rw [remove, filtered]
  split <;> simp_all

end Goivy.SortedEntries
