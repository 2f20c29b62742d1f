import Goivy.Util.Tarjan

/-! What the steps of Tarjan's algorithm keep. -/
namespace Goivy

open Relation

variable {graph : SuccMap} {gray : List String} {s s' : TarjanState} {v w : String}

namespace TarjanState

theorem visited_push : (s.push v).Visited w ↔ w = v ∨ s.Visited w := by
  by_cases same : w = v
  · simp [Visited, push, same]
  · simp [Visited, push, same]

theorem num_push_self : (s.push v).num v = s.index := by simp [num, push]

theorem num_push (other : w ≠ v) : (s.push v).num w = s.num w := by simp [num, push, other]

theorem grows_push (new : ¬ s.Visited v) : Grows [v] s (s.push v) := by
  have other : ∀ w, s.Visited w → w ≠ v := fun w mem same => new (same ▸ mem)
  refine ⟨Nat.le_succ _, fun w i hi => ?_, fun w mem fresh => ?_, fun w mem hw => ?_⟩
  · exact (Function.update_of_ne (other w ⟨i, hi⟩) _ _).trans hi
  · rw [(visited_push.mp mem).resolve_right fresh, num_push_self]
  · exact Function.update_of_ne (other w mem) _ _

@[simp] theorem lower_stack (s : TarjanState) (v : String) (i : Nat) : (s.lower v i).stack = s.stack := by
  rw [lower]
  split <;> rfl

theorem lower_lowlinks (s : TarjanState) (v : String) (i : Nat) : (s.lower v i).lowlinks v = min (s.lowlinks v) i := by
  rw [lower]
  split
  · rename_i less
    exact (Function.update_self _ _ _).trans (Nat.min_eq_right less.le).symm
  · rename_i more
    rw [Nat.min_eq_left (not_lt.mp more)]

theorem grows_lower (s : TarjanState) (v : String) (i : Nat) : Grows [v] s (s.lower v i) := by
  rw [lower]
  split
  · refine ⟨le_rfl, fun _ _ h => h, fun w h h' => absurd h h', fun w _ other => ?_⟩
    exact Function.update_of_ne (by simpa using other) _ _
  · exact .refl s

theorem num_lower (s : TarjanState) (v w : String) (i : Nat) : (s.lower v i).num w = s.num w := by
  rw [lower]
  split <;> rfl

end TarjanState

open TarjanState

namespace Connecting

/-- The lowlinks are not part of the invariant. -/
theorem lower (h : Connecting graph gray s) (v : String) (i : Nat) : Connecting graph gray (s.lower v i) := by
  rw [TarjanState.lower]
  split
  · exact ⟨h.fresh, h.injective, h.sorted, h.stacked, h.onStack, h.grayStacked, h.finished, h.nodup, h.nonempty, h.component,
      h.closed, h.black, h.down, h.up⟩
  · exact h

theorem push (h : Connecting graph gray s) (new : ¬ s.Visited v) (reached : ∀ u ∈ gray, graph.Reach u v) :
    Connecting graph (v :: gray) (s.push v) := by
  have other : ∀ {w}, s.Visited w → w ≠ v := fun mem same => new (same ▸ mem)
  have num : ∀ {w}, s.Visited w → (s.push v).num w = s.num w := fun mem => num_push (other mem)
  have less : ∀ {w}, s.Visited w → (s.push v).num w < (s.push v).num v := by
    intro w mem
    rw [num mem, num_push_self]
    exact h.fresh w mem
  refine ⟨?_, ?_, ?_, ?_, ?_, ?_, ?_, h.nodup, h.nonempty, h.component, h.closed, ?_, ?_, ?_⟩
  · intro w mem
    rcases visited_push.mp mem with rfl | old
    · rw [num_push_self]
      exact Nat.lt_succ_self _
    · rw [num old]
      exact (h.fresh w old).trans (Nat.lt_succ_self _)
  · intro a b ha hb same
    rcases visited_push.mp ha with rfl | oldA <;> rcases visited_push.mp hb with rfl | oldB
    · rfl
    · exact absurd same (less oldB).ne'
    · exact absurd same (less oldA).ne
    · rw [num oldA, num oldB] at same
      exact h.injective a b oldA oldB same
  · refine List.pairwise_cons.mpr ⟨fun w hw => less (h.stacked w hw), ?_⟩
    refine h.sorted.imp_of_mem fun {a b} ha hb le => ?_
    rwa [num (h.stacked a ha), num (h.stacked b hb)]
  · exact List.forall_mem_cons.mpr ⟨visited_push.mpr (.inl rfl), fun w hw => visited_push.mpr (.inr (h.stacked w hw))⟩
  · intro w
    by_cases same : w = v
    · simp [TarjanState.push, same]
    · simp [TarjanState.push, same, h.onStack]
  · exact List.forall_mem_cons.mpr ⟨List.mem_cons_self, fun u hu => List.mem_cons_of_mem _ (h.grayStacked u hu)⟩
  · intro w
    rw [visited_push]
    show w ∈ s.result.flatten ↔ (w = v ∨ s.Visited w) ∧ w ∉ v :: s.stack
    rw [h.finished, List.mem_cons, not_or]
    constructor
    · rintro ⟨mem, off⟩
      exact ⟨.inr mem, other mem, off⟩
    · rintro ⟨mem, ne, off⟩
      exact ⟨mem.resolve_left ne, off⟩
  · intro u mem hu w edge
    rw [List.mem_cons, not_or] at hu
    exact visited_push.mpr (.inr (h.black u ((visited_push.mp mem).resolve_left hu.1) hu.2 w edge))
  · intro u hu w hw le
    rcases List.mem_cons.mp hw with rfl | below
    · rcases List.mem_cons.mp hu with rfl | outer
      · exact .refl
      · exact reached u outer
    · rcases List.mem_cons.mp hu with rfl | outer
      · exact absurd (less (h.stacked w below)) (not_lt.mpr le)
      · rw [num (h.stacked u (h.grayStacked u outer)), num (h.stacked w below)] at le
        exact h.down u outer w below le
  · intro w hw
    rcases List.mem_cons.mp hw with rfl | hw
    · exact ⟨w, List.mem_cons_self, le_rfl, .refl⟩
    · obtain ⟨u, hu, le, path⟩ := h.up w hw
      refine ⟨u, List.mem_cons_of_mem _ hu, ?_, path⟩
      rwa [num (h.stacked u (h.grayStacked u hu)), num (h.stacked w hw)]

/-- What is finished leads to finished vertices only. -/
theorem finished_of_reach (h : Connecting graph gray s) (done : v ∈ s.result.flatten) (path : graph.Reach v w) :
    w ∈ s.result.flatten := by
  induction path with
  | refl => exact done
  | tail _ edge ih =>
    obtain ⟨scc, hscc, mem⟩ := List.mem_flatten.mp ih
    obtain ⟨pre, post, split⟩ := List.append_of_mem hscc
    rw [split, List.flatten_append, List.flatten_cons]
    rcases h.closed pre scc post split _ mem _ edge with here | before
    · exact List.mem_append_right _ (List.mem_append_left _ here)
    · exact List.mem_append_left _ before

theorem stack_nodup (h : Connecting graph gray s) : s.stack.Nodup :=
  h.sorted.imp fun less same => absurd (congrArg s.num same) less.ne'

end Connecting

end Goivy
