import Goivy.Util.TarjanInvariant

/-! Tarjan's algorithm finds the strongly connected components. -/
namespace Goivy

open Relation TarjanState

variable {graph : SuccMap} {gray stack₀ seen : List String} {s s' : TarjanState} {v : String}

/-- The loop over the successors of `v`, of which those in `seen` are done. The stack was `stack₀` before `v`. -/
structure Exploring (graph : SuccMap) (gray : List String) (v : String) (stack₀ seen : List String) (s : TarjanState) :
    Prop where
  inv : Connecting graph (v :: gray) s
  stack : ∃ new, s.stack = new ++ v :: stack₀ ∧ ∀ y ∈ new, ∀ z ∈ stack₀, graph.Edge y z → s.lowlinks v ≤ s.num z
  low : ∃ x ∈ s.stack, s.num x = s.lowlinks v ∧ graph.Reach v x
  low_le : s.lowlinks v ≤ s.num v
  seen : ∀ w ∈ seen, s.Visited w ∧ (w ∈ stack₀ → s.lowlinks v ≤ s.num w)

/-- What `strongConnect` does for a vertex that has not been visited. -/
structure Connected (graph : SuccMap) (gray : List String) (v : String) (s s' : TarjanState) : Prop where
  inv : Connecting graph gray s'
  grows : Grows [] s s'
  visited : s'.Visited v
  stack : ∃ new, s'.stack = new ++ s.stack ∧ ∀ y ∈ new, ∀ z ∈ s.stack, graph.Edge y z → s'.lowlinks v ≤ s'.num z
  off : v ∉ s'.stack → s.index ≤ s'.lowlinks v
  low : v ∈ s'.stack → ∃ x ∈ s'.stack, s'.num x = s'.lowlinks v ∧ graph.Reach v x

namespace Exploring

theorem self_mem (h : Exploring graph gray v stack₀ seen s) : v ∈ s.stack := h.inv.grayStacked v List.mem_cons_self

theorem below (h : Exploring graph gray v stack₀ seen s) {w : String} (hw : w ∈ stack₀) : w ∈ s.stack := by
  obtain ⟨new, split, -⟩ := h.stack
  rw [split]
  exact List.mem_append_right _ (List.mem_cons_of_mem _ hw)

theorem see (h : Exploring graph gray v stack₀ seen s) {w : String} (visited : s.Visited w)
    (low : w ∈ stack₀ → s.lowlinks v ≤ s.num w) : Exploring graph gray v stack₀ (w :: seen) s :=
  ⟨h.inv, h.stack, h.low, h.low_le, List.forall_mem_cons.mpr ⟨⟨visited, low⟩, h.seen⟩⟩

/-- The lowlink is lowered to the number of a vertex on the stack that `v` reaches. -/
theorem lower (h : Exploring graph gray v stack₀ seen s) {x : String} (mem : x ∈ s.stack) (path : graph.Reach v x) :
    Exploring graph gray v stack₀ seen (s.lower v (s.num x)) := by
  have le : (s.lower v (s.num x)).lowlinks v ≤ s.lowlinks v := by
    rw [lower_lowlinks]
    exact min_le_left _ _
  obtain ⟨new, split, cross⟩ := h.stack
  refine ⟨h.inv.lower v _, ⟨new, by rw [lower_stack, split], fun y hy z hz edge => ?_⟩, ?_, ?_, fun w hw => ?_⟩
  · rw [num_lower]
    exact le.trans (cross y hy z hz edge)
  · rw [lower_stack, lower_lowlinks]
    rcases le_total (s.lowlinks v) (s.num x) with keep | less
    · rw [min_eq_left keep]
      simpa only [num_lower] using h.low
    · rw [min_eq_right less]
      exact ⟨x, mem, num_lower s v x _, path⟩
  · rw [num_lower]
    exact le.trans h.low_le
  · obtain ⟨visited, low⟩ := h.seen w hw
    refine ⟨(grows_lower s v _).visited visited, fun mem => ?_⟩
    rw [num_lower]
    exact le.trans (low mem)

/-- After a successor has been connected, the lowlink is lowered to its. -/
theorem connect (h : Exploring graph gray v stack₀ seen s) {w : String} {t : TarjanState} (new : ¬ s.Visited w)
    (edge : graph.Edge v w) (c : Connected graph (v :: gray) w s t) :
    Exploring graph gray v stack₀ (w :: seen) (t.lower v (t.lowlinks w)) := by
  have visited : s.Visited v := h.inv.stacked v h.self_mem
  have same : t.lowlinks v = s.lowlinks v := c.grows.lowlinks v visited List.not_mem_nil
  have num : ∀ {z}, z ∈ s.stack → t.num z = s.num z := fun hz => c.grows.num (h.inv.stacked _ hz)
  have leV : (t.lower v (t.lowlinks w)).lowlinks v ≤ s.lowlinks v := by
    rw [lower_lowlinks, same]
    exact min_le_left _ _
  have leW : (t.lower v (t.lowlinks w)).lowlinks v ≤ t.lowlinks w := by
    rw [lower_lowlinks]
    exact min_le_right _ _
  obtain ⟨inner, splitS, crossS⟩ := h.stack
  obtain ⟨outer, splitT, crossT⟩ := c.stack
  have onT : ∀ {z}, z ∈ s.stack → z ∈ t.stack := fun hz => splitT ▸ List.mem_append_right _ hz
  refine ⟨c.inv.lower v _, ⟨outer ++ inner, by simp [splitT, splitS], fun y hy z hz edge => ?_⟩, ?_, ?_, ?_⟩
  · rw [num_lower]
    rcases List.mem_append.mp hy with later | before
    · exact leW.trans (crossT y later z (h.below hz) edge)
    · rw [num (h.below hz)]
      exact leV.trans (crossS y before z hz edge)
  · rw [lower_stack, lower_lowlinks]
    rcases le_or_gt (t.lowlinks v) (t.lowlinks w) with keep | less
    · obtain ⟨x, hx, eq, path⟩ := h.low
      refine ⟨x, onT hx, ?_, path⟩
      rw [num_lower, num hx, eq, min_eq_left keep, same]
    · -- a successor that has left the stack has a higher lowlink
      have on : w ∈ t.stack := by
        by_contra gone
        have high := c.off gone
        have start := h.inv.fresh v visited
        have low := h.low_le
        omega
      obtain ⟨x, hx, eq, path⟩ := c.low on
      refine ⟨x, hx, ?_, .head edge path⟩
      rw [num_lower, eq, min_eq_right less.le]
  · rw [num_lower, num h.self_mem]
    exact leV.trans h.low_le
  · refine List.forall_mem_cons.mpr ⟨⟨(grows_lower t v _).visited c.visited, fun mem => ?_⟩, fun z hz => ?_⟩
    · exact absurd (h.inv.stacked w (h.below mem)) new
    · obtain ⟨vis, low⟩ := h.seen z hz
      refine ⟨(grows_lower t v _).visited (c.grows.visited vis), fun mem => ?_⟩
      rw [num_lower, c.grows.num vis]
      exact leV.trans (low mem)

end Exploring

/-- The loop over the successors, where `strongConnect` does what it should for them. -/
theorem visitSuccs_spec {strongConnect : String → TarjanState → Option TarjanState} {succs : List String}
    (h : Exploring graph gray v stack₀ seen s) (edges : ∀ w ∈ succs, graph.Edge v w)
    (spec : ∀ w ∈ succs, ∀ t, Grows [v] s t → Connecting graph (v :: gray) t → ¬ t.Visited w →
      ∃ t', strongConnect w t = some t' ∧ Connected graph (v :: gray) w t t') :
    ∃ s', visitSuccs strongConnect v succs s = some s' ∧ Grows [v] s s' ∧
      Exploring graph gray v stack₀ (succs ++ seen) s' := by
  induction succs generalizing s seen with
  | nil => exact ⟨s, rfl, .refl s, h⟩
  | cons w succs ih =>
    rw [List.forall_mem_cons] at edges
    have next : ∀ {t}, Grows [v] s t → Exploring graph gray v stack₀ (w :: seen) t →
        ∃ s', visitSuccs strongConnect v succs t = some s' ∧ Grows [v] s s' ∧
          Exploring graph gray v stack₀ (w :: succs ++ seen) s' := by
      intro t grows h'
      obtain ⟨s', returns, more, e⟩ := ih h' edges.2 fun u hu t' grows' => spec u (List.mem_cons_of_mem _ hu) t' (grows.trans grows')
      refine ⟨s', returns, grows.trans more, e.inv, e.stack, e.low, e.low_le, fun u hu => e.seen u ?_⟩
      simp only [List.mem_append, List.mem_cons] at hu ⊢
      tauto
    rw [visitSuccs]
    cases known : s.indices w with
    | none =>
      have new : ¬ s.Visited w := fun ⟨i, hi⟩ => by simp [known] at hi
      obtain ⟨t, connects, c⟩ := spec w List.mem_cons_self s (.refl s) h.inv new
      simp only [connects]
      exact next ((c.grows.mono (List.nil_subset _)).trans (grows_lower t v _)) (h.connect new edges.1 c)
    | some i =>
      have visited : s.Visited w := ⟨i, known⟩
      have num : s.num w = i := by rw [TarjanState.num, known, Option.getD_some]
      by_cases on : s.onStack w = true
      · have mem := (h.inv.onStack w).mp on
        simp only [on, if_true]
        rw [← num]
        refine next (grows_lower s v _) ((h.lower mem (.single edges.1)).see ((grows_lower s v _).visited visited) fun _ => ?_)
        rw [lower_lowlinks, num_lower]
        exact min_le_right _ _
      · rw [Bool.not_eq_true] at on
        simp only [on, Bool.false_eq_true, if_false]
        refine next (.refl s) (h.see visited fun mem => ?_)
        exact absurd ((h.inv.onStack w).mpr (h.below mem)) (by simp [on])

theorem popComponent_eq {new rest : List String} (other : v ∉ new) : popComponent v (new ++ v :: rest) = some (new ++ [v], rest) := by
  induction new with
  | nil => simp [popComponent]
  | cons w new ih =>
    rw [List.mem_cons, not_or] at other
    rw [List.cons_append, popComponent, if_neg (Ne.symm other.1), ih other.2]
    rfl

end Goivy
