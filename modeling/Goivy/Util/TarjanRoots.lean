import Goivy.Util.TarjanComponents

/-! The end of `strongConnect`. -/
namespace Goivy

open Relation TarjanState

variable {graph : SuccMap} {gray stack₀ seen new : List String} {s t : TarjanState} {v : String}

namespace TarjanState

/-- The component `scc` leaves the stack. -/
def close (t : TarjanState) (scc stack : List String) : TarjanState :=
  { t with stack := stack, onStack := fun w => t.onStack w && w ∉ scc, result := t.result ++ [scc] }

end TarjanState

/-- All successors of `v` are done, and `v` is a root. The vertices above it on the stack are `new`. -/
structure Rooted (graph : SuccMap) (gray : List String) (v : String) (stack₀ new : List String) (t : TarjanState) :
    Prop where
  inv : Connecting graph (v :: gray) t
  stack : t.stack = (new ++ [v]) ++ stack₀
  gray : ∀ u ∈ gray, u ∈ stack₀
  edges : ∀ y ∈ new ++ [v], ∀ z, graph.Edge y z → z ∈ new ++ [v] ∨ z ∈ t.result.flatten
  succs : ∀ w, graph.Edge v w → t.Visited w

namespace Rooted

theorem nodup (h : Rooted graph gray v stack₀ new t) : ((new ++ [v]) ++ stack₀).Nodup := h.stack ▸ h.inv.stack_nodup

theorem disjoint (h : Rooted graph gray v stack₀ new t) {w : String} (hw : w ∈ new ++ [v]) : w ∉ stack₀ :=
  List.disjoint_of_nodup_append h.nodup hw

theorem mem_stack (h : Rooted graph gray v stack₀ new t) {w : String} : w ∈ t.stack ↔ w ∈ new ++ [v] ∨ w ∈ stack₀ := by
  rw [h.stack, List.mem_append]

theorem not_finished (h : Rooted graph gray v stack₀ new t) {w : String} (hw : w ∈ new ++ [v]) : w ∉ t.result.flatten :=
  fun done => ((h.inv.finished w).mp done).2 (h.mem_stack.mpr (.inl hw))

theorem num_le (h : Rooted graph gray v stack₀ new t) {w : String} (hw : w ∈ new ++ [v]) : t.num v ≤ t.num w := by
  have sorted := h.inv.sorted
  rw [h.stack, List.append_assoc, List.pairwise_append] at sorted
  rcases List.mem_append.mp hw with above | self
  · exact (sorted.2.2 w above v (by simp)).le
  · rw [List.mem_singleton.mp self]

theorem num_lt (h : Rooted graph gray v stack₀ new t) {w : String} (hw : w ∈ stack₀) : t.num w < t.num v := by
  have sorted := h.inv.sorted
  rw [h.stack, List.pairwise_append] at sorted
  exact sorted.2.2 v (by simp) w hw

theorem of_reach (h : Rooted graph gray v stack₀ new t) {y z : String} (hy : y ∈ new ++ [v]) (path : graph.Reach y z) :
    z ∈ new ++ [v] ∨ z ∈ t.result.flatten := by
  induction path with
  | refl => exact .inl hy
  | tail _ edge ih =>
    rcases ih with here | done
    · exact h.edges _ here _ edge
    · exact .inr (h.inv.finished_of_reach done (.single edge))

theorem reach_from (h : Rooted graph gray v stack₀ new t) {y : String} (hy : y ∈ new ++ [v]) : graph.Reach v y :=
  h.inv.down v List.mem_cons_self y (h.mem_stack.mpr (.inl hy)) (h.num_le hy)

theorem reach_to (h : Rooted graph gray v stack₀ new t) {y : String} (hy : y ∈ new ++ [v]) : graph.Reach y v := by
  obtain ⟨u, hu, -, path⟩ := h.inv.up y (h.mem_stack.mpr (.inl hy))
  rcases List.mem_cons.mp hu with rfl | outer
  · exact path
  · -- nothing leads from the component down the stack
    have below := h.gray u outer
    rcases h.of_reach hy path with here | done
    · exact absurd below (h.disjoint here)
    · exact absurd (h.mem_stack.mpr (.inr below)) ((h.inv.finished u).mp done).2

theorem component (h : Rooted graph gray v stack₀ new t) {y : String} (hy : y ∈ new ++ [v]) (w : String) :
    w ∈ new ++ [v] ↔ graph.Reach y w ∧ graph.Reach w y := by
  constructor
  · intro hw
    exact ⟨(h.reach_to hy).trans (h.reach_from hw), (h.reach_to hw).trans (h.reach_from hy)⟩
  · rintro ⟨out, back⟩
    rcases h.of_reach hy out with here | done
    · exact here
    · exact absurd (h.inv.finished_of_reach done back) (h.not_finished hy)

/-- The component is closed. -/
theorem close (h : Rooted graph gray v stack₀ new t) : Connecting graph gray (t.close (new ++ [v]) stack₀) := by
  have flat : (t.close (new ++ [v]) stack₀).result.flatten = t.result.flatten ++ (new ++ [v]) := by
    simp [TarjanState.close]
  have below : ∀ {w}, w ∈ stack₀ → w ∈ t.stack := fun hw => h.mem_stack.mpr (.inr hw)
  refine ⟨h.inv.fresh, h.inv.injective, ?_, fun w hw => h.inv.stacked w (below hw), fun w => ?_, h.gray, fun w => ?_, ?_, ?_, ?_, ?_,
    ?_, ?_, ?_⟩
  · exact h.inv.sorted.sublist (h.stack ▸ List.sublist_append_right _ _)
  · show (t.onStack w && decide (w ∉ new ++ [v])) = true ↔ w ∈ stack₀
    rw [Bool.and_eq_true, h.inv.onStack, h.mem_stack, decide_eq_true_eq]
    exact ⟨fun ⟨mem, off⟩ => mem.resolve_left off, fun mem => ⟨.inr mem, fun here => h.disjoint here mem⟩⟩
  · rw [flat, List.mem_append, h.inv.finished, h.mem_stack, not_or]
    show _ ↔ t.Visited w ∧ w ∉ stack₀
    constructor
    · rintro (⟨mem, -, off⟩ | here)
      · exact ⟨mem, off⟩
      · exact ⟨h.inv.stacked w (h.mem_stack.mpr (.inl here)), h.disjoint here⟩
    · rintro ⟨mem, off⟩
      by_cases here : w ∈ new ++ [v]
      · exact .inr here
      · exact .inl ⟨mem, here, off⟩
  · rw [flat]
    refine h.inv.nodup.append (h.nodup.sublist (List.sublist_append_left _ _)) ?_
    exact fun w done here => h.not_finished here done
  · intro scc mem
    rcases List.mem_append.mp mem with old | last
    · exact h.inv.nonempty scc old
    · rw [List.mem_singleton.mp last]
      simp
  · intro scc mem
    rcases List.mem_append.mp mem with old | last
    · exact h.inv.component scc old
    · rw [List.mem_singleton.mp last]
      exact fun y hy => h.component hy
  · intro pre scc post split y hy w edge
    rcases List.eq_nil_or_concat post with rfl | ⟨post', last, rfl⟩
    · obtain ⟨before, last⟩ := List.append_inj' split rfl
      obtain rfl := (List.cons.inj last).1
      rw [← before]
      exact h.edges y hy w edge
    · rw [List.concat_eq_append, ← List.cons_append, ← List.append_assoc] at split
      exact h.inv.closed pre scc post' (List.append_inj' split rfl).1 y hy w edge
  · intro u mem hu w edge
    by_cases same : u = v
    · exact h.succs w (same ▸ edge)
    · refine h.inv.black u mem ?_ w edge
      rw [List.mem_cons, not_or]
      exact ⟨same, hu⟩
  · exact fun u hu w hw => h.inv.down u (List.mem_cons_of_mem _ hu) w (below hw)
  · intro w hw
    obtain ⟨u, hu, le, path⟩ := h.inv.up w (below hw)
    rcases List.mem_cons.mp hu with rfl | outer
    · exact absurd (h.num_lt hw) (not_lt.mpr le)
    · exact ⟨u, outer, le, path⟩

end Rooted

namespace Exploring

/-- The lowlink of `v` is its own number. -/
theorem rooted (e : Exploring graph gray v stack₀ seen t) (outer : ∀ u ∈ gray, u ∈ stack₀) (all : ∀ w, graph.Edge v w → w ∈ seen)
    (root : t.lowlinks v = t.num v) : ∃ new, Rooted graph gray v stack₀ new t := by
  obtain ⟨new, split, cross⟩ := e.stack
  have stack : t.stack = (new ++ [v]) ++ stack₀ := by rw [split, List.append_assoc, List.singleton_append]
  have disjoint := List.disjoint_of_nodup_append (stack ▸ e.inv.stack_nodup)
  have sorted := e.inv.sorted
  rw [stack, List.pairwise_append] at sorted
  have less : ∀ z ∈ stack₀, t.num z < t.num v := sorted.2.2 v (by simp)
  have succs : ∀ w, graph.Edge v w → t.Visited w := fun w edge => (e.seen w (all w edge)).1
  refine ⟨new, e.inv, stack, outer, fun y hy z edge => ?_, succs⟩
  have step : t.Visited z ∧ (z ∈ stack₀ → t.lowlinks v ≤ t.num z) := by
    rcases List.mem_append.mp hy with above | self
    · refine ⟨e.inv.black y (e.inv.stacked y (stack ▸ List.mem_append_left _ hy)) ?_ z edge, fun hz => cross y above z hz edge⟩
      rw [List.mem_cons, not_or]
      constructor
      · rintro rfl
        have nodup := stack ▸ e.inv.stack_nodup
        rw [List.append_assoc, List.nodup_append] at nodup
        exact nodup.2.2 y above y (by simp) rfl
      · exact fun gray => disjoint hy (outer y gray)
    · rw [List.mem_singleton.mp self] at edge
      exact e.seen z (all z edge)
  by_cases on : z ∈ t.stack
  · rw [stack, List.mem_append] at on
    refine .inl (on.resolve_right fun hz => ?_)
    have low := step.2 hz
    have high := less z hz
    omega
  · exact .inr ((e.inv.finished z).mpr ⟨step.1, on⟩)

/-- A vertex that is no root stays on the stack. -/
theorem unrooted (e : Exploring graph gray v stack₀ seen t) (all : ∀ w, graph.Edge v w → w ∈ seen)
    (inner : t.lowlinks v ≠ t.num v) : Connecting graph gray t := by
  have i := e.inv
  refine ⟨i.fresh, i.injective, i.sorted, i.stacked, i.onStack, fun u hu => i.grayStacked u (List.mem_cons_of_mem _ hu), i.finished,
    i.nodup, i.nonempty, i.component, i.closed, ?_, fun u hu => i.down u (List.mem_cons_of_mem _ hu), ?_⟩
  · intro u mem hu w edge
    by_cases same : u = v
    · exact (e.seen w (all w (same ▸ edge))).1
    · refine i.black u mem ?_ w edge
      rw [List.mem_cons, not_or]
      exact ⟨same, hu⟩
  · intro y hy
    obtain ⟨u, hu, le, path⟩ := i.up y hy
    rcases List.mem_cons.mp hu with rfl | outer
    · -- `v` itself reaches an earlier vertex
      obtain ⟨x, hx, eq, back⟩ := e.low
      obtain ⟨u', hu', le', path'⟩ := i.up x hx
      have low := e.low_le
      rcases List.mem_cons.mp hu' with rfl | outer
      · omega
      · exact ⟨u', outer, by omega, path.trans (back.trans path')⟩
    · exact ⟨u, outer, le, path⟩

/-- After the loop over the successors. -/
theorem closeVertex_spec (e : Exploring graph gray v s.stack seen t) (h : Connecting graph gray s) (new : ¬ s.Visited v)
    (grows : Grows [v] s t) (all : ∀ w, graph.Edge v w → w ∈ seen) :
    ∃ s', closeVertex v t = some s' ∧ Connected graph gray v s s' := by
  have visited : t.Visited v := e.inv.stacked v e.self_mem
  have number : t.indices v = some (t.num v) := by
    obtain ⟨i, hi⟩ := visited
    rw [TarjanState.num, hi, Option.getD_some]
  rw [closeVertex, number]
  by_cases root : t.lowlinks v = t.num v
  · obtain ⟨above, r⟩ := e.rooted h.grayStacked all root
    have other : v ∉ above := by
      have nodup := r.nodup
      rw [List.append_assoc, List.nodup_append] at nodup
      exact fun mem => nodup.2.2 v mem v (by simp) rfl
    have pop : popComponent v t.stack = some (above ++ [v], s.stack) := by
      rw [r.stack, List.append_assoc, List.singleton_append, popComponent_eq other]
    rw [if_pos (by rw [root]), pop]
    refine ⟨t.close (above ++ [v]) s.stack, rfl, r.close, ?_, visited, ⟨[], rfl, by simp⟩, fun _ => ?_, fun mem => ?_⟩
    · exact Grows.shrink ⟨grows.index, grows.indices, grows.new, grows.lowlinks⟩ new
    · show s.index ≤ t.lowlinks v
      rw [root]
      exact grows.new v visited new
    · exact absurd (h.stacked v mem) new
  · rw [if_neg (fun same => root (Option.some.inj same).symm)]
    obtain ⟨above, split, cross⟩ := e.stack
    refine ⟨t, rfl, e.unrooted all root, grows.shrink new, visited, ⟨above ++ [v], by simp [split], fun y hy z hz edge => ?_⟩,
      fun gone => absurd e.self_mem gone, fun _ => e.low⟩
    rcases List.mem_append.mp hy with inner | self
    · exact cross y inner z hz edge
    · rw [List.mem_singleton.mp self] at edge
      exact (e.seen z (all z edge)).2 hz

end Exploring

end Goivy
