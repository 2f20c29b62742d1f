import Mathlib.Data.List.Basic
import Mathlib.Logic.Relation

/-! Search of a graph with a worklist: what it visits is what the edges lead to. -/
namespace Goivy.Worklist

open Relation

variable {α : Type*} [DecidableEq α]

/-- A new node is marked and queued. -/
def visit (state : List α × List α) (s : α) : List α × List α :=
  if s ∈ state.1 then state else (state.1 ++ [s], state.2 ++ [s])

/-- The search: the marked nodes, and those whose successors are still to be seen. -/
def search (succ : α → List α) : Nat → List α × List α → List α
  | 0, (visited, _) => visited
  | _ + 1, (visited, []) => visited
  | fuel + 1, (visited, node :: queue) => search succ fuel ((succ node).foldl visit (visited, queue))

variable {succ : α → List α} {starts nodes : List α} {state : List α × List α} {s : α}

/-- The nodes that are not marked yet. -/
def unvisited (nodes visited : List α) : List α := nodes.filter (· ∉ visited)

theorem unvisited_lt {visited : List α} (mem : s ∈ nodes) (new : s ∉ visited) :
    (unvisited nodes (visited ++ [s])).length < (unvisited nodes visited).length := by
  have again : unvisited nodes (visited ++ [s]) = (unvisited nodes visited).filter (· ≠ s) := by
    simp [unvisited, List.filter_filter, and_comm]
  rw [again]
  refine List.length_filter_lt_length_iff_exists.mpr ⟨s, ?_, by simp⟩
  simp [unvisited, mem, new]

/-- Visits mark the nodes, and a node is queued when it is marked. -/
theorem mem_visits {succs : List α} {v : α} :
    (v ∈ (succs.foldl visit state).1 ↔ v ∈ state.1 ∨ v ∈ succs) ∧
    (v ∈ (succs.foldl visit state).2 ↔ v ∈ state.2 ∨ v ∈ succs ∧ v ∉ state.1) := by
  induction succs generalizing state with
  | nil => simp
  | cons s succs ih =>
    rw [List.foldl_cons, ih.1, ih.2, visit]
    split
    · rename_i old
      grind
    · rename_i new
      grind

/-- A visit queues a node only where one node less is left. -/
theorem length_visits {succs : List α} (sub : succs ⊆ nodes) :
    (succs.foldl visit state).2.length + (unvisited nodes (succs.foldl visit state).1).length ≤
      state.2.length + (unvisited nodes state.1).length := by
  induction succs generalizing state with
  | nil => exact Nat.le_refl _
  | cons s succs ih =>
    rw [List.cons_subset] at sub
    refine Nat.le_trans (ih sub.2) ?_
    unfold visit
    split
    · exact Nat.le_refl _
    · rename_i new
      have fewer := unvisited_lt sub.1 new
      simp only [List.length_append, List.length_singleton]
      omega

/-- The nodes that the edges lead to. -/
def Reaches (succ : α → List α) (starts : List α) (v : α) : Prop :=
  ∃ s ∈ starts, ReflTransGen (fun a b => b ∈ succ a) s v

/-- What the search has done: the starts are marked, what is marked is reached, and the
successors of a marked node are marked unless it is still queued. -/
structure Searching (succ : α → List α) (starts : List α) (state : List α × List α) : Prop where
  marked : starts ⊆ state.1
  queued : state.2 ⊆ state.1
  reached : ∀ v ∈ state.1, Reaches succ starts v
  seen : ∀ v ∈ state.1, v ∉ state.2 → succ v ⊆ state.1

omit [DecidableEq α] in
theorem searching_start : Searching succ starts (starts, starts) :=
  ⟨List.Subset.refl _, List.Subset.refl _, fun v hv => ⟨v, hv, .refl⟩, fun _ hv new => absurd hv new⟩

/-- The successors of the first node of the queue are visited. -/
theorem Searching.step {visited queue : List α} {node : α}
    (h : Searching succ starts (visited, node :: queue)) :
    Searching succ starts ((succ node).foldl visit (visited, queue)) := by
  refine ⟨fun v hv => mem_visits.1.mpr (.inl (h.marked hv)), fun v hv => ?_, fun v hv => ?_, fun v hv done => ?_⟩
  · obtain hv | ⟨hv, -⟩ := mem_visits.2.mp hv
    · exact mem_visits.1.mpr (.inl (h.queued (List.mem_cons_of_mem _ hv)))
    · exact mem_visits.1.mpr (.inr hv)
  · obtain hv | hv := mem_visits.1.mp hv
    · exact h.reached v hv
    · obtain ⟨s, hs, path⟩ := h.reached node (h.queued List.mem_cons_self)
      exact ⟨s, hs, path.tail hv⟩
  · intro w hw
    rw [mem_visits.2] at done
    rw [mem_visits.1] at hv ⊢
    by_cases same : v = node
    · exact .inr (same ▸ hw)
    · refine .inl (h.seen v (by tauto) ?_ hw)
      simp only [List.mem_cons]
      tauto

omit [DecidableEq α] in
/-- Without a queue the marked nodes are those that are reached. -/
theorem Searching.mem_iff {visited : List α} (h : Searching succ starts (visited, [])) {v : α} :
    v ∈ visited ↔ Reaches succ starts v := by
  refine ⟨h.reached v, ?_⟩
  rintro ⟨s, hs, path⟩
  induction path with
  | refl => exact h.marked hs
  | tail _ edge ih => exact h.seen _ ih List.not_mem_nil edge

/-- With enough fuel the search marks the nodes that the edges lead to from the starts. -/
theorem mem_search (edges : ∀ a, succ a ⊆ nodes) (fuel : Nat) (h : Searching succ starts state)
    (enough : state.2.length + (unvisited nodes state.1).length ≤ fuel) {v : α} :
    v ∈ search succ fuel state ↔ Reaches succ starts v := by
  induction fuel generalizing state with
  | zero =>
    obtain ⟨visited, queue⟩ := state
    obtain rfl : queue = [] := List.length_eq_zero_iff.mp (by simp only at enough; omega)
    exact h.mem_iff
  | succ fuel ih =>
    obtain ⟨visited, queue⟩ := state
    cases queue with
    | nil => exact h.mem_iff
    | cons node queue =>
      refine ih h.step ?_
      have bound := @length_visits _ _ _ (visited, queue) _ (edges node)
      simp only [List.length_cons] at enough bound
      omega

end Goivy.Worklist
