import Mathlib

/-! Depth-first orders with an explicit stack. -/
namespace Goivy

open Relation

/-- The state of `TopologicalSort`: the stack with its top first, the successors of the keys that have not been visited,
and the result from its end. -/
structure Visit (T K : Type) where
  stack : List T
  adj : K → Option (List T)
  done : List K
  result : List T

variable {T K : Type} [DecidableEq K] (key : T → K)

/-- The loop of `TopologicalSort`. An item with unvisited successors goes back on the stack, below them. -/
def sortLoop : Nat → Visit T K → Option (List T)
  | 0, _ => none
  | fuel + 1, s =>
    match s.stack with
    | [] => some s.result
    | item :: stack =>
      if key item ∈ s.done then sortLoop fuel { s with stack := stack }
      else
        match s.adj (key item) with
        | some succs => sortLoop fuel { s with
            stack := (succs.filter fun t => key t ≠ key item).reverse ++ item :: stack
            adj := Function.update s.adj (key item) none }
        | none => sortLoop fuel { s with stack := stack, done := key item :: s.done, result := item :: s.result }

/-- The adjacency map of `TopologicalSort`. -/
def adjacency (order : List (T × T)) : K → Option (List T) :=
  order.foldl (fun adj p => Function.update adj (key p.1) (some ((adj (key p.1)).getD [] ++ [p.2]))) fun _ => none

def topologicalSort (fuel : Nat) (items : List T) (order : List (T × T)) : Option (List T) :=
  sortLoop key fuel ⟨items.reverse, adjacency key order, [], []⟩

/-- The state of `Reachable`. -/
structure Expansion (T K : Type) where
  stack : List T
  visited : List K
  expanded : List K
  result : List T

/-- The loop of `Reachable`. -/
def reachLoop (iterSucc : K → List T) : Nat → Expansion T K → Option (List T)
  | 0, _ => none
  | fuel + 1, s =>
    match s.stack with
    | [] => some s.result
    | item :: stack =>
      if key item ∈ s.visited then reachLoop iterSucc fuel { s with stack := stack }
      else if key item ∉ s.expanded then reachLoop iterSucc fuel { s with
        stack := ((iterSucc (key item)).filter fun t => key t ≠ key item).reverse ++ item :: stack
        expanded := key item :: s.expanded }
      else reachLoop iterSucc fuel { s with stack := stack, visited := key item :: s.visited, result := item :: s.result }

def reachable (fuel : Nat) (items : List T) (iterSucc : K → List T) : Option (List T) :=
  reachLoop key iterSucc fuel ⟨items.reverse, [], [], []⟩

/-- The key of a pair's first item and that of its second, where these are different. -/
def Before (order : List (T × T)) (a b : K) : Prop := a ≠ b ∧ ∃ p ∈ order, key p.1 = a ∧ key p.2 = b

def Succeeds (iterSucc : K → List T) (a b : K) : Prop := a ≠ b ∧ ∃ t ∈ iterSucc a, key t = b

/-- The items of the result have the keys that are found from the given items, each once, and where there is no cycle
every key comes before those that `R` puts after it. -/
structure Collects (R : K → K → Prop) (items result : List T) : Prop where
  nodup : (result.map key).Nodup
  exact : ∀ k, k ∈ result.map key ↔ ∃ i ∈ items, ReflTransGen R (key i) k
  ordered : (∀ k, ¬ TransGen R k k) → ∀ a b, R a b → a ∈ result.map key → [a, b].Sublist (result.map key)

/-- The key `b` is one of the successors of `a`. -/
def Follows (succs : K → Option (List T)) (a b : K) : Prop :=
  a ≠ b ∧ ∃ l, succs a = some l ∧ ∃ t ∈ l, key t = b

/-- On the stack, `k` waits below all that it still needs. -/
def Waits (succs : K → Option (List T)) (done : List K) (k : K) (stack : List T) : Prop :=
  ∃ pre x post, stack = pre ++ x :: post ∧ key x = k ∧ (∀ y ∈ pre, TransGen (Follows key succs) k (key y)) ∧
    ∀ b, Follows key succs k b → b ∈ done ∨ b ∈ pre.map key

/-- What the loop keeps. The successors of a key are there until it is visited. -/
structure Visiting (succs : K → Option (List T)) (items : List T) (s : Visit T K) : Prop where
  keys : s.result.map key = s.done
  nodup : s.done.Nodup
  adj : ∀ k l, s.adj k = some l → succs k = some l
  closed : ∀ k, s.adj k = none → ∀ b, Follows key succs k b → b ∈ s.done ∨ b ∈ s.stack.map key
  visited : ∀ k ∈ s.done, s.adj k = none
  roots : ∀ i ∈ items, key i ∈ s.done ∨ key i ∈ s.stack.map key
  found : ∀ k, k ∈ s.done ∨ k ∈ s.stack.map key → ∃ i ∈ items, ReflTransGen (Follows key succs) (key i) k
  waits : (∀ k, ¬ TransGen (Follows key succs) k k) → ∀ k, s.adj k ≠ succs k → k ∉ s.done → Waits key succs s.done k s.stack
  ordered : (∀ k, ¬ TransGen (Follows key succs) k k) → ∀ a b, Follows key succs a b → a ∈ s.done → [a, b].Sublist s.done

variable {key} {succs : K → Option (List T)} {items : List T} {s : Visit T K} {item : T} {stack : List T}

namespace Visiting

/-- The top of the stack is dropped once it is done. -/
theorem skip (h : Visiting key succs items s) (top : s.stack = item :: stack) (known : key item ∈ s.done) :
    Visiting key succs items { s with stack := stack } := by
  have rest : ∀ {b}, b ∈ s.done ∨ b ∈ s.stack.map key → b ∈ s.done ∨ b ∈ stack.map key := by
    rintro b (done | mem)
    · exact .inl done
    · rw [top, List.map_cons] at mem
      rcases List.mem_cons.mp mem with rfl | mem
      · exact .inl known
      · exact .inr mem
  refine ⟨h.keys, h.nodup, h.adj, fun k none b edge => rest (h.closed k none b edge), h.visited,
    fun i hi => rest (h.roots i hi), fun k hk => h.found k (hk.imp_right fun mem => ?_), fun acyclic k opened new => ?_, h.ordered⟩
  · rw [top]
    exact List.mem_cons_of_mem _ mem
  · obtain ⟨pre, x, post, split, same, above, need⟩ := h.waits acyclic k opened new
    rw [top] at split
    cases pre with
    | nil =>
      obtain ⟨rfl, -⟩ := List.cons.inj split
      exact absurd (same ▸ known) new
    | cons y pre =>
      obtain ⟨rfl, rfl⟩ := List.cons.inj split
      refine ⟨pre, x, post, rfl, same, fun z hz => above z (List.mem_cons_of_mem _ hz), fun b edge => ?_⟩
      rcases need b edge with done | mem
      · exact .inl done
      · rcases List.mem_cons.mp mem with rfl | mem
        · exact .inl known
        · exact .inr mem

/-- The top of the stack is done when nothing that follows it is unvisited. -/
theorem emit (h : Visiting key succs items s) (top : s.stack = item :: stack) (new : key item ∉ s.done)
    (none : s.adj (key item) = none) :
    Visiting key succs items { s with stack := stack, done := key item :: s.done, result := item :: s.result } := by
  have rest : ∀ {b}, b ∈ s.done ∨ b ∈ s.stack.map key → b ∈ key item :: s.done ∨ b ∈ stack.map key := by
    rintro b (done | mem)
    · exact .inl (List.mem_cons_of_mem _ done)
    · rw [top, List.map_cons] at mem
      rcases List.mem_cons.mp mem with rfl | mem
      · exact .inl List.mem_cons_self
      · exact .inr mem
  have back : ∀ {b}, b ∈ key item :: s.done ∨ b ∈ stack.map key → b ∈ s.done ∨ b ∈ s.stack.map key := by
    rintro b (done | mem)
    · rcases List.mem_cons.mp done with rfl | done
      · rw [top]
        exact .inr List.mem_cons_self
      · exact .inl done
    · rw [top]
      exact .inr (List.mem_cons_of_mem _ mem)
  refine ⟨by rw [List.map_cons, h.keys], List.nodup_cons.mpr ⟨new, h.nodup⟩, h.adj,
    fun k none b edge => rest (h.closed k none b edge), List.forall_mem_cons.mpr ⟨none, h.visited⟩,
    fun i hi => rest (h.roots i hi), fun k hk => h.found k (back hk), fun acyclic k opened other => ?_,
    fun acyclic a b edge done => ?_⟩
  · rw [List.mem_cons, not_or] at other
    obtain ⟨pre, x, post, split, same, above, need⟩ := h.waits acyclic k opened other.2
    rw [top] at split
    cases pre with
    | nil =>
      obtain ⟨rfl, -⟩ := List.cons.inj split
      exact absurd same.symm other.1
    | cons y pre =>
      obtain ⟨rfl, rfl⟩ := List.cons.inj split
      refine ⟨pre, x, post, rfl, same, fun z hz => above z (List.mem_cons_of_mem _ hz), fun b edge => ?_⟩
      rcases need b edge with done | mem
      · exact .inl (List.mem_cons_of_mem _ done)
      · rcases List.mem_cons.mp mem with rfl | mem
        · exact .inl List.mem_cons_self
        · exact .inr mem
  · rcases List.mem_cons.mp done with rfl | old
    · -- nothing above the item was left, for in an acyclic order the item itself is not among what it waits for
      obtain ⟨-, l, hl, -⟩ := id edge
      obtain ⟨pre, x, post, split, same, above, need⟩ := h.waits acyclic (key item) (by simp [none, hl]) new
      have empty : pre = [] := by
        cases pre with
        | nil => rfl
        | cons y pre =>
          rw [top] at split
          obtain ⟨rfl, -⟩ := List.cons.inj split
          exact absurd (above item List.mem_cons_self) (acyclic _)
      have mem : b ∈ s.done := (need b edge).resolve_right (by simp [empty])
      exact List.cons_sublist_cons.mpr (List.singleton_sublist.mpr mem)
    · exact (h.ordered acyclic a b edge old).cons _

/-- The successors of the top of the stack are put above it. -/
theorem expand (h : Visiting key succs items s) (top : s.stack = item :: stack) (new : key item ∉ s.done) {l : List T}
    (some : s.adj (key item) = some l) :
    Visiting key succs items { s with
      stack := (l.filter fun t => key t ≠ key item).reverse ++ item :: stack
      adj := Function.update s.adj (key item) none } := by
  have listed := h.adj _ _ some
  have pushed : ∀ b, b ∈ ((l.filter fun t => key t ≠ key item).reverse).map key ↔ Follows key succs (key item) b := by
    intro b
    simp only [List.mem_map, List.mem_reverse, List.mem_filter, decide_eq_true_eq, Follows, listed, Option.some.injEq,
      exists_eq_left']
    constructor
    · rintro ⟨t, ⟨ht, other⟩, rfl⟩
      exact ⟨Ne.symm other, t, ht, rfl⟩
    · rintro ⟨other, t, ht, rfl⟩
      exact ⟨t, ⟨ht, Ne.symm other⟩, rfl⟩
  have grows : ∀ {b}, b ∈ s.done ∨ b ∈ s.stack.map key →
      b ∈ s.done ∨ b ∈ ((l.filter fun t => key t ≠ key item).reverse ++ item :: stack).map key := by
    rintro b (done | mem)
    · exact .inl done
    · rw [top] at mem
      rw [List.map_append]
      exact .inr (List.mem_append_right _ mem)
  have adj : ∀ {k}, k ≠ key item → Function.update s.adj (key item) none k = s.adj k := fun other => by
    rw [Function.update_of_ne other]
  refine ⟨h.keys, h.nodup, fun k l' hl' => ?_, fun k none b edge => ?_, fun k hk => ?_, fun i hi => grows (h.roots i hi),
    fun k hk => ?_, fun acyclic k opened other => ?_, h.ordered⟩
  · by_cases same : k = key item
    · simp [same] at hl'
    · exact h.adj k l' ((adj same).symm.trans hl')
  · by_cases same : k = key item
    · subst same
      rw [List.map_append]
      exact .inr (List.mem_append_left _ ((pushed b).mpr edge))
    · exact grows (h.closed k ((adj same).symm.trans none) b edge)
  · have other : k ≠ key item := fun same => new (same ▸ hk)
    exact (adj other).trans (h.visited k hk)
  · rcases hk with done | mem
    · exact h.found k (.inl done)
    · rw [List.map_append, List.mem_append] at mem
      rcases mem with above | below
      · obtain ⟨i, hi, path⟩ := h.found (key item) (.inr (by rw [top]; exact List.mem_cons_self))
        exact ⟨i, hi, path.tail ((pushed k).mp above)⟩
      · exact h.found k (.inr (by rwa [top]))
  · by_cases same : k = key item
    · subst same
      refine ⟨_, item, stack, rfl, rfl, fun y hy => ?_, fun b edge => .inr ((pushed b).mpr edge)⟩
      exact .single ((pushed _).mp (List.mem_map_of_mem hy))
    · have opened : s.adj k ≠ succs k := fun eq => opened ((adj same).trans eq)
      obtain ⟨pre, x, post, split, here, above, need⟩ := h.waits acyclic k opened other
      rw [top] at split
      cases pre with
      | nil =>
        obtain ⟨rfl, -⟩ := List.cons.inj split
        exact absurd here.symm same
      | cons y pre =>
        obtain ⟨rfl, rfl⟩ := List.cons.inj split
        refine ⟨(l.filter fun t => key t ≠ key item).reverse ++ item :: pre, x, post, by simp, here, fun z hz => ?_, fun b edge => ?_⟩
        · rcases List.mem_append.mp hz with up | down
          · exact (above item List.mem_cons_self).tail ((pushed _).mp (List.mem_map_of_mem up))
          · exact above z down
        · rw [List.map_append]
          exact (need b edge).imp_right (List.mem_append_right _)

theorem collects (h : Visiting key succs items s) (empty : s.stack = []) :
    Collects key (Follows key succs) items s.result := by
  have onlyDone : ∀ {k}, k ∈ s.done ∨ k ∈ s.stack.map key → k ∈ s.done := by
    intro k hk
    exact hk.resolve_right (by simp [empty])
  refine ⟨h.keys ▸ h.nodup, fun k => ⟨fun hk => h.found k (.inl (h.keys ▸ hk)), ?_⟩, ?_⟩
  · rintro ⟨i, hi, path⟩
    rw [h.keys]
    induction path with
    | refl => exact onlyDone (h.roots i hi)
    | tail _ edge ih => exact onlyDone (h.closed _ (h.visited _ ih) _ edge)
  · rw [h.keys]
    exact h.ordered

end Visiting

theorem sortLoop_spec {fuel : Nat} {result : List T} (h : Visiting key succs items s)
    (returns : sortLoop key fuel s = some result) : Collects key (Follows key succs) items result := by
  induction fuel generalizing s with
  | zero => contradiction
  | succ fuel ih =>
    rw [sortLoop] at returns
    split at returns
    · rename_i empty
      cases returns
      exact h.collects empty
    · rename_i item stack top
      split at returns
      · rename_i known
        exact ih (h.skip top known) returns
      · rename_i new
        split at returns
        · rename_i l some
          exact ih (h.expand top new some) returns
        · rename_i none
          exact ih (h.emit top new none) returns

/-- The passes that are left: one for each item on the stack, and those for the keys that are not visited. -/
def passes (keys : Finset K) (s : Visit T K) : Nat :=
  s.stack.length + ∑ k ∈ keys, (s.adj k).elim 0 fun l => l.length + 1

theorem passes_pop (keys : Finset K) (top : s.stack = item :: stack) (done : List K) (result : List T) :
    passes keys ⟨stack, s.adj, done, result⟩ < passes keys s := by
  simp only [passes, top, List.length_cons]
  omega

theorem passes_expand {keys : Finset K} (inside : key item ∈ keys) {l pushed : List T} (some : s.adj (key item) = some l)
    (top : s.stack = item :: stack) (short : pushed.length ≤ l.length) :
    passes keys { s with stack := pushed ++ item :: stack, adj := Function.update s.adj (key item) none } < passes keys s := by
  rw [passes, passes, ← Finset.add_sum_erase keys _ inside, ← Finset.add_sum_erase keys _ inside]
  have others : ∑ k ∈ keys.erase (key item), ((Function.update s.adj (key item) none k).elim 0 fun l => l.length + 1) =
      ∑ k ∈ keys.erase (key item), ((s.adj k).elim 0 fun l => l.length + 1) := by
    refine Finset.sum_congr rfl fun k hk => ?_
    rw [Function.update_of_ne (Finset.ne_of_mem_erase hk)]
  simp only [others, Function.update_self, some, top, Option.elim_none, Option.elim_some, List.length_append, List.length_cons]
  omega

theorem sortLoop_some {keys : Finset K} {fuel : Nat} (stacked : ∀ t ∈ s.stack, key t ∈ keys)
    (closed : ∀ k ∈ keys, ∀ l, s.adj k = some l → ∀ t ∈ l, key t ∈ keys) (enough : passes keys s < fuel) :
    ∃ result, sortLoop key fuel s = some result := by
  induction fuel generalizing s with
  | zero => omega
  | succ fuel ih =>
    rw [sortLoop]
    split
    · exact ⟨_, rfl⟩
    · rename_i item stack top
      rw [top, List.forall_mem_cons] at stacked
      have popped := passes_pop keys top
      split
      · exact ih stacked.2 closed (lt_of_lt_of_le (popped _ _) (Nat.le_of_lt_succ enough))
      · split
        · rename_i l some
          have short : (l.filter fun t => key t ≠ key item).reverse.length ≤ l.length := by
            rw [List.length_reverse]
            exact List.length_filter_le _ _
          have less := passes_expand stacked.1 some top short
          refine ih (fun t ht => ?_) (fun k hk l' hl' => ?_) (lt_of_lt_of_le less (Nat.le_of_lt_succ enough))
          · rw [List.mem_append, List.mem_reverse, List.mem_filter, List.mem_cons] at ht
            rcases ht with ⟨mem, -⟩ | rfl | below
            · exact closed _ stacked.1 l some t mem
            · exact stacked.1
            · exact stacked.2 t below
          · by_cases same : k = key item
            · simp [same] at hl'
            · exact closed k hk l' ((Function.update_of_ne same _ _).symm.trans hl')
        · exact ih stacked.2 closed (lt_of_lt_of_le (popped _ _) (Nat.le_of_lt_succ enough))

theorem sortLoop_mono {fuel more : Nat} {result : List T} (returns : sortLoop key fuel s = some result) (le : fuel ≤ more) :
    sortLoop key more s = some result := by
  induction more generalizing fuel s with
  | zero =>
    obtain rfl := Nat.le_zero.mp le
    exact returns
  | succ more ih =>
    cases fuel with
    | zero => contradiction
    | succ fuel =>
      have le := Nat.le_of_succ_le_succ le
      rw [sortLoop] at returns ⊢
      split at returns
      · exact returns
      · split at returns
        · rw [if_pos ‹_›]
          exact ih returns le
        · rw [if_neg ‹_›]
          split at returns <;> exact ih returns le

/-- The loop ends where finitely many keys can be met. -/
theorem sortLoop_returns (keys : Finset K) (stacked : ∀ t ∈ s.stack, key t ∈ keys)
    (closed : ∀ k ∈ keys, ∀ l, s.adj k = some l → ∀ t ∈ l, key t ∈ keys) :
    ∃ result n, ∀ fuel ≥ n, sortLoop key fuel s = some result := by
  obtain ⟨result, returns⟩ := sortLoop_some stacked closed (Nat.lt_succ_self _)
  exact ⟨result, _, fun fuel le => sortLoop_mono returns le⟩

theorem sortLoop_start (adj : K → Option (List T)) (items : List T) :
    Visiting key adj items ⟨items.reverse, adj, [], []⟩ := by
  refine ⟨rfl, List.nodup_nil, fun _ _ h => h, ?_, by simp, ?_, ?_, fun _ k opened => absurd rfl opened, by simp⟩
  · rintro k none b ⟨-, l, some, -⟩
    exact absurd (none.symm.trans some) (by simp)
  · intro i hi
    exact .inr (List.mem_map_of_mem (List.mem_reverse.mpr hi))
  · rintro k (done | mem)
    · simp at done
    · simp only [List.mem_map, List.mem_reverse] at mem
      obtain ⟨i, hi, rfl⟩ := mem
      exact ⟨i, hi, .refl⟩

theorem mem_adjacency (order : List (T × T)) (k : K) (t : T) :
    (∃ l, adjacency key order k = some l ∧ t ∈ l) ↔ ∃ p ∈ order, key p.1 = k ∧ p.2 = t := by
  have fold : ∀ adj : K → Option (List T),
      (∃ l, order.foldl (fun adj p => Function.update adj (key p.1) (some ((adj (key p.1)).getD [] ++ [p.2]))) adj k = some l ∧ t ∈ l) ↔
        (∃ l, adj k = some l ∧ t ∈ l) ∨ ∃ p ∈ order, key p.1 = k ∧ p.2 = t := by
    induction order with
    | nil => simp
    | cons p order ih =>
      intro adj
      rw [List.foldl_cons, ih]
      by_cases here : k = key p.1
      · subst here
        cases known : adj (key p.1) with
        | none => simp [eq_comm]
        | some l => simp [or_assoc, eq_comm]
      · rw [Function.update_of_ne here]
        simp [Ne.symm here]
  simpa [adjacency] using fold fun _ => none

theorem follows_adjacency (order : List (T × T)) : Follows key (adjacency key order) = Before key order := by
  funext a b
  refine propext (and_congr_right fun _ => ?_)
  constructor
  · rintro ⟨l, some, t, ht, rfl⟩
    obtain ⟨p, hp, same, rfl⟩ := (mem_adjacency order a t).mp ⟨l, some, ht⟩
    exact ⟨p, hp, same, rfl⟩
  · rintro ⟨p, hp, same, rfl⟩
    obtain ⟨l, some, ht⟩ := (mem_adjacency order a p.2).mpr ⟨p, hp, same, rfl⟩
    exact ⟨l, some, p.2, ht, rfl⟩

/-- `TopologicalSort` returns. -/
theorem topologicalSort_returns (key : T → K) (items : List T) (order : List (T × T)) :
    ∃ result n, ∀ fuel ≥ n, topologicalSort key fuel items order = some result := by
  let keys := (items.map key ++ order.map fun p => key p.2).toFinset
  have stacked : ∀ t ∈ items.reverse, key t ∈ keys := by
    intro t ht
    rw [List.mem_toFinset]
    exact List.mem_append_left _ (List.mem_map_of_mem (List.mem_reverse.mp ht))
  have closed : ∀ k ∈ keys, ∀ l, adjacency key order k = some l → ∀ t ∈ l, key t ∈ keys := by
    intro k _ l some t ht
    obtain ⟨p, hp, -, rfl⟩ := (mem_adjacency order k t).mp ⟨l, some, ht⟩
    rw [List.mem_toFinset]
    exact List.mem_append_right _ (List.mem_map.mpr ⟨p, hp, rfl⟩)
  exact sortLoop_returns keys stacked closed

theorem topologicalSort_collects {fuel : Nat} {items result : List T} {order : List (T × T)}
    (returns : topologicalSort key fuel items order = some result) : Collects key (Before key order) items result := by
  rw [← follows_adjacency]
  exact sortLoop_spec (sortLoop_start _ items) returns

/-- `Reachable` is the same loop over a map that has an entry for every key. -/
theorem reachLoop_eq (iterSucc : K → List T) (fuel : Nat) (s : Expansion T K) :
    reachLoop key iterSucc fuel s = sortLoop key fuel
      ⟨s.stack, fun k => if k ∈ s.expanded then none else some (iterSucc k), s.visited, s.result⟩ := by
  induction fuel generalizing s with
  | zero => rfl
  | succ fuel ih =>
    rw [reachLoop, sortLoop]
    cases top : s.stack with
    | nil => rfl
    | cons item stack =>
      by_cases known : key item ∈ s.visited
      · simp only [if_pos known, ih]
      · by_cases opened : key item ∈ s.expanded
        · simp only [if_neg known, opened, not_true, if_false, if_true, ih]
        · have expanded : (fun k => if k ∈ key item :: s.expanded then none else some (iterSucc k)) =
              Function.update (fun k => if k ∈ s.expanded then none else some (iterSucc k)) (key item) none := by
            funext k
            by_cases same : k = key item
            · simp [same]
            · simp [same]
          simp only [if_neg known, opened, not_false_eq_true, if_true, if_false, ih, expanded]

theorem follows_total (iterSucc : K → List T) :
    Follows key (fun k => if k ∈ ([] : List K) then none else some (iterSucc k)) = Succeeds key iterSucc := by
  ext a b
  simp [Follows, Succeeds]

theorem reachable_collects {fuel : Nat} {items result : List T} {iterSucc : K → List T}
    (returns : reachable key fuel items iterSucc = some result) : Collects key (Succeeds key iterSucc) items result := by
  rw [reachable, reachLoop_eq] at returns
  exact follows_total iterSucc ▸ sortLoop_spec (sortLoop_start _ items) returns

theorem reachable_returns {items : List T} {iterSucc : K → List T}
    (finite : {k | ∃ i ∈ items, ReflTransGen (Succeeds key iterSucc) (key i) k}.Finite) :
    ∃ result n, ∀ fuel ≥ n, reachable key fuel items iterSucc = some result := by
  have stacked : ∀ t ∈ items.reverse, key t ∈ finite.toFinset := by
    intro t ht
    exact finite.mem_toFinset.mpr ⟨t, List.mem_reverse.mp ht, .refl⟩
  have closed : ∀ k ∈ finite.toFinset, ∀ l, (if k ∈ ([] : List K) then none else some (iterSucc k)) = some l →
      ∀ t ∈ l, key t ∈ finite.toFinset := by
    intro k hk l some t ht
    obtain rfl : iterSucc k = l := by simpa using some
    obtain ⟨i, hi, path⟩ := finite.mem_toFinset.mp hk
    rw [finite.mem_toFinset]
    by_cases same : k = key t
    · exact ⟨i, hi, same ▸ path⟩
    · exact ⟨i, hi, path.tail ⟨same, t, ht, rfl⟩⟩
  simp only [reachable, reachLoop_eq]
  exact sortLoop_returns finite.toFinset stacked closed

/-- `TopologicalSort` always returns the keys of the items and what follows them, in order, and so does `Reachable`
whenever there are finitely many such keys. -/
theorem topologicalSort_reachable_spec {T K : Type} [DecidableEq K] (key : T → K) (items : List T) :
    (∀ order : List (T × T), ∃ result n, (∀ fuel ≥ n, topologicalSort key fuel items order = some result) ∧
      Collects key (Before key order) items result) ∧
    ∀ iterSucc : K → List T,
      ({k | ∃ i ∈ items, ReflTransGen (Succeeds key iterSucc) (key i) k}.Finite →
        ∃ result n, ∀ fuel ≥ n, reachable key fuel items iterSucc = some result) ∧
      ∀ fuel result, reachable key fuel items iterSucc = some result → Collects key (Succeeds key iterSucc) items result := by
  refine ⟨fun order => ?_, fun iterSucc => ⟨reachable_returns, fun _ _ => reachable_collects⟩⟩
  obtain ⟨result, n, returns⟩ := topologicalSort_returns key items order
  exact ⟨result, n, returns, topologicalSort_collects (returns n le_rfl)⟩

theorem topologicalSort_reachable_spec_diamond :
    ∃ result n, (∀ fuel ≥ n, reachable id fuel [0] (fun k : Fin 4 => if k = 0 then [1, 2] else if k = 3 then [] else [3]) = some result) ∧
      Collects id (Succeeds id fun k : Fin 4 => if k = 0 then [1, 2] else if k = 3 then [] else [3]) [0] result := by
  obtain ⟨returns, collects⟩ := (topologicalSort_reachable_spec id [(0 : Fin 4)]).2
    fun k => if k = 0 then [1, 2] else if k = 3 then [] else [3]
  obtain ⟨result, n, enough⟩ := returns (Set.toFinite _)
  exact ⟨result, n, enough, collects n result (enough n le_rfl)⟩

end Goivy
