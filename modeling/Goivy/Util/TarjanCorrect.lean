import Goivy.Util.InsMap
import Goivy.Util.TarjanRoots

/-! Tarjan's algorithm is correct. -/
namespace Goivy

open Relation TarjanState

variable {graph : SuccMap} {gray : List String} {s s' t : TarjanState} {v w : String}

namespace SuccMap

theorem mem_vertices : v ∈ graph.vertices ↔ ∃ p ∈ graph, v = p.1 ∨ v ∈ p.2 := by
  simp [vertices, List.mem_insertionSort]

theorem Edge.mem_vertices (edge : graph.Edge v w) : w ∈ graph.vertices := by
  rw [Edge, succs] at edge
  cases found : graph.lookup v with
  | none => simp [found] at edge
  | some ws =>
    rw [found, Option.getD_some] at edge
    exact SuccMap.mem_vertices.mpr ⟨(v, ws), InsMap.mem_of_lookup found, .inr edge⟩

/-- How many vertices are still to be visited. -/
def unvisited (graph : SuccMap) (s : TarjanState) : Nat := (graph.vertices.filter fun v => s.indices v = none).length

theorem unvisited_le (grows : ∀ v i, s.indices v = some i → t.indices v = some i) : graph.unvisited t ≤ graph.unvisited s := by
  refine (List.monotone_filter_right _ fun v new => ?_).length_le
  rw [decide_eq_true_eq] at new ⊢
  cases old : s.indices v with
  | none => rfl
  | some i => simp [grows v i old] at new

theorem unvisited_push (new : ¬ s.Visited v) (mem : v ∈ graph.vertices) : graph.unvisited (s.push v) < graph.unvisited s := by
  have sub : (graph.vertices.filter fun w => (s.push v).indices w = none).Sublist
      ((graph.vertices.filter fun w => s.indices w = none).filter (· ≠ v)) := by
    rw [List.filter_filter]
    refine List.monotone_filter_right _ fun w hw => ?_
    rw [decide_eq_true_eq] at hw
    have other : w ≠ v := by
      rintro rfl
      simp [TarjanState.push] at hw
    simpa [TarjanState.push, other] using hw
  have fresh : s.indices v = none := by
    cases h : s.indices v with
    | none => rfl
    | some i => exact absurd ⟨i, h⟩ new
  refine sub.length_le.trans_lt (List.length_filter_lt_length_iff_exists.mpr ⟨v, ?_, by simp⟩)
  exact List.mem_filter.mpr ⟨mem, by simp [fresh]⟩

end SuccMap

open SuccMap

theorem Connecting.explore (h : Connecting graph gray s) (new : ¬ s.Visited v) (reached : ∀ u ∈ gray, graph.Reach u v) :
    Exploring graph gray v s.stack [] (s.push v) := by
  have low : (s.push v).lowlinks v = s.index := Function.update_self _ _ _
  refine ⟨h.push new reached, ⟨[], rfl, by simp⟩, ⟨v, List.mem_cons_self, ?_, .refl⟩, ?_, by simp⟩
  · rw [num_push_self, low]
  · rw [num_push_self, low]

theorem strongConnect_spec {depth : Nat} (h : Connecting graph gray s) (new : ¬ s.Visited v) (mem : v ∈ graph.vertices)
    (reached : ∀ u ∈ gray, graph.Reach u v) (bound : graph.unvisited s ≤ depth) :
    ∃ s', strongConnect graph depth v s = some s' ∧ Connected graph gray v s s' := by
  have less := unvisited_push new mem
  induction depth generalizing v gray s with
  | zero => omega
  | succ depth ih =>
    have spec : ∀ w ∈ graph.succs v, ∀ t, Grows [v] (s.push v) t → Connecting graph (v :: gray) t → ¬ t.Visited w →
        ∃ t', strongConnect graph depth w t = some t' ∧ Connected graph (v :: gray) w t t' := by
      intro w edge t grows inv fresh
      have target : w ∈ graph.vertices := Edge.mem_vertices edge
      refine ih inv fresh target ?_ ?_ (unvisited_push fresh target)
      · exact List.forall_mem_cons.mpr ⟨.single edge, fun u hu => (reached u hu).tail edge⟩
      · have le : graph.unvisited t ≤ graph.unvisited (s.push v) := unvisited_le grows.indices
        omega
    obtain ⟨t, returns, grows, e⟩ := visitSuccs_spec (h.explore new reached) (fun w hw => hw) spec
    obtain ⟨s', closes, c⟩ := e.closeVertex_spec h new ((grows_push new).trans grows) fun w edge => by rwa [List.append_nil]
    exact ⟨s', by rw [strongConnect, returns, Option.bind_some, closes], c⟩

theorem connectAll_spec {depth : Nat} {vs : List String} (h : Connecting graph [] s) (sub : ∀ v ∈ vs, v ∈ graph.vertices)
    (bound : graph.unvisited s ≤ depth) :
    ∃ s', connectAll graph depth vs s = some s' ∧ Connecting graph [] s' ∧ (∀ v, s.Visited v → s'.Visited v) ∧
      ∀ v ∈ vs, s'.Visited v := by
  induction vs generalizing s with
  | nil => exact ⟨s, rfl, h, fun _ mem => mem, by simp⟩
  | cons v vs ih =>
    rw [List.forall_mem_cons] at sub
    rw [connectAll]
    cases known : s.indices v with
    | some i =>
      obtain ⟨s', returns, inv, keep, all⟩ := ih h sub.2 bound
      exact ⟨s', returns, inv, keep, List.forall_mem_cons.mpr ⟨keep v ⟨i, known⟩, all⟩⟩
    | none =>
      obtain ⟨t, connects, c⟩ := strongConnect_spec h (fun ⟨i, hi⟩ => by simp [known] at hi) sub.1 (by simp) bound
      obtain ⟨s', returns, inv, keep, all⟩ := ih c.inv sub.2 ((unvisited_le c.grows.indices).trans bound)
      refine ⟨s', ?_, inv, fun w mem => keep w (c.grows.visited mem), List.forall_mem_cons.mpr ⟨keep v c.visited, all⟩⟩
      simp only [connects, Option.bind_some, returns]

/-- Only vertices are visited. -/
def Within (graph : SuccMap) (s : TarjanState) : Prop := ∀ v, s.Visited v → v ∈ graph.vertices

theorem visitSuccs_within {strongConnect : String → TarjanState → Option TarjanState} {succs : List String}
    (h : Within graph s) (returns : visitSuccs strongConnect v succs s = some s') (sub : ∀ w ∈ succs, w ∈ graph.vertices)
    (spec : ∀ w ∈ succs, ∀ t t', Within graph t → strongConnect w t = some t' → Within graph t') : Within graph s' := by
  have lowered : ∀ {t : TarjanState} {i}, Within graph t → Within graph (t.lower v i) := by
    intro t i ht
    rw [TarjanState.lower]
    split
    · exact ht
    · exact ht
  induction succs generalizing s with
  | nil => rwa [← Option.some.inj returns]
  | cons w succs ih =>
    rw [List.forall_mem_cons] at sub spec
    rw [visitSuccs] at returns
    split at returns
    · split at returns
      · contradiction
      · rename_i t connects
        exact ih (lowered (spec.1 s t h connects)) returns sub.2 spec.2
    · split at returns
      · exact ih (lowered h) returns sub.2 spec.2
      · exact ih h returns sub.2 spec.2

theorem strongConnect_within {depth : Nat} (h : Within graph s) (returns : strongConnect graph depth v s = some s')
    (mem : v ∈ graph.vertices) : Within graph s' := by
  induction depth generalizing v s s' with
  | zero => contradiction
  | succ depth ih =>
    obtain ⟨t, visits, closes⟩ := Option.bind_eq_some_iff.mp returns
    have pushed : Within graph (s.push v) := fun w hw => (visited_push.mp hw).elim (fun same => same ▸ mem) (h w)
    have edges : ∀ w ∈ graph.succs v, w ∈ graph.vertices := fun w hw => Edge.mem_vertices hw
    have visited : Within graph t := visitSuccs_within pushed visits edges fun w hw t t' ht connects => ih ht connects (edges w hw)
    rw [closeVertex] at closes
    split at closes
    · obtain ⟨pop, -, rfl⟩ := Option.map_eq_some_iff.mp closes
      exact visited
    · rwa [← Option.some.inj closes]

theorem connectAll_within {depth : Nat} {vs : List String} (h : Within graph s) (returns : connectAll graph depth vs s = some s')
    (sub : ∀ v ∈ vs, v ∈ graph.vertices) : Within graph s' := by
  induction vs generalizing s with
  | nil => rwa [← Option.some.inj returns]
  | cons v vs ih =>
    rw [List.forall_mem_cons] at sub
    rw [connectAll] at returns
    split at returns
    · exact ih h returns sub.2
    · obtain ⟨t, connects, rest⟩ := Option.bind_eq_some_iff.mp returns
      exact ih (strongConnect_within h connects sub.1) rest sub.2

/-- A component leads to itself and to the components before it. -/
theorem Connecting.before (h : Connecting graph gray s) {pre post : List (List String)} {scc : List String}
    (split : s.result = pre ++ scc :: post) (mem : v ∈ scc) (path : graph.Reach v w) : w ∈ (pre ++ [scc]).flatten := by
  induction path with
  | refl => exact List.mem_flatten.mpr ⟨scc, by simp, mem⟩
  | tail _ edge ih =>
    obtain ⟨scc', hscc', here⟩ := List.mem_flatten.mp ih
    obtain ⟨pre', post', split'⟩ := List.append_of_mem hscc'
    have whole : s.result = pre' ++ scc' :: (post' ++ post) := by
      rw [split, ← List.singleton_append, ← List.append_assoc, split', List.append_assoc, List.cons_append]
    rw [split', List.flatten_append, List.flatten_cons]
    rcases h.closed pre' scc' _ whole _ here _ edge with inside | earlier
    · exact List.mem_append_right _ (List.mem_append_left _ inside)
    · exact List.mem_append_left _ earlier

theorem Connecting.ordered (h : Connecting graph gray s) : s.result.Pairwise fun C D => ∀ c ∈ C, ∀ d ∈ D, ¬ graph.Reach c d := by
  rw [List.pairwise_iff_forall_sublist]
  intro C D sub c hc d hd path
  obtain ⟨pre, post, split, before⟩ : ∃ pre post, s.result = pre ++ C :: post ∧ D ∈ post := by
    obtain ⟨pre, rest, whole, mem, tail⟩ := List.cons_sublist_iff.mp sub
    obtain ⟨left, right, parts⟩ := List.append_of_mem mem
    refine ⟨left, right ++ rest, by simp [whole, parts], List.mem_append_right _ (List.singleton_sublist.mp tail)⟩
  have early := h.before split hc path
  have nodup := h.nodup
  rw [split, ← List.singleton_append, ← List.append_assoc, List.flatten_append] at nodup
  exact List.disjoint_of_nodup_append nodup early (List.mem_flatten.mpr ⟨D, before, hd⟩)

/-- `Tarjan` returns a partition of the vertices into strongly connected components, each before the others from which it
can be reached. -/
theorem tarjan_spec (graph : SuccMap) :
    ∃ result, tarjan graph = some result ∧
      (∀ scc ∈ result, scc ≠ []) ∧ result.flatten.Nodup ∧ (∀ v, v ∈ result.flatten ↔ v ∈ graph.vertices) ∧
      (∀ scc ∈ result, ∀ v ∈ scc, ∀ w, w ∈ scc ↔ graph.Reach v w ∧ graph.Reach w v) ∧
      result.Pairwise fun C D => ∀ c ∈ C, ∀ d ∈ D, ¬ graph.Reach c d := by
  have start : Connecting graph [] ⟨0, [], fun _ => false, fun _ => none, fun _ => 0, []⟩ := by
    refine ⟨?_, ?_, .nil, ?_, ?_, ?_, ?_, .nil, ?_, ?_, ?_, ?_, ?_, ?_⟩ <;> simp [Visited]
  obtain ⟨s, returns, inv, -, all⟩ := connectAll_spec start (fun v hv => hv) (List.length_filter_le _ _)
  have nothing : Within graph ⟨0, [], fun _ => false, fun _ => none, fun _ => 0, []⟩ := by
    rintro v ⟨i, hi⟩
    simp at hi
  have within : Within graph s := connectAll_within nothing returns fun v hv => hv
  have empty : s.stack = [] := by
    rw [List.eq_nil_iff_forall_not_mem]
    intro v hv
    obtain ⟨u, hu, -⟩ := inv.up v hv
    exact absurd hu List.not_mem_nil
  refine ⟨s.result, ?_, inv.nonempty, inv.nodup, fun v => ?_, inv.component, inv.ordered⟩
  · rw [tarjan, returns, Option.map_some]
  · rw [inv.finished, empty]
    exact ⟨fun h => within v h.1, fun h => ⟨all v h, List.not_mem_nil⟩⟩

end Goivy
