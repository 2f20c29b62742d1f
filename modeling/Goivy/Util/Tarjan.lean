import Mathlib

/-! Strongly connected components by Tarjan's algorithm. -/
namespace Goivy

open Relation

/-- The successors of the vertices that have an entry, in the order in which their maps are visited. -/
abbrev SuccMap := List (String × List String)

structure TarjanState where
  index : Nat
  stack : List String
  onStack : String → Bool
  indices : String → Option Nat
  lowlinks : String → Nat
  result : List (List String)

namespace TarjanState

/-- What `strongConnect` does first. -/
def push (s : TarjanState) (v : String) : TarjanState :=
  { s with
    indices := Function.update s.indices v (some s.index)
    lowlinks := Function.update s.lowlinks v s.index
    index := s.index + 1
    stack := v :: s.stack
    onStack := Function.update s.onStack v true }

/-- The lowlink of `v` is lowered to `i`. -/
def lower (s : TarjanState) (v : String) (i : Nat) : TarjanState :=
  if i < s.lowlinks v then { s with lowlinks := Function.update s.lowlinks v i } else s

end TarjanState

/-- Takes vertices off the stack down to `v`. -/
def popComponent (v : String) : List String → Option (List String × List String)
  | [] => none
  | w :: stack => if w = v then some ([w], stack) else (popComponent v stack).map fun (scc, rest) => (w :: scc, rest)

/-- The loop over the successors of `v`. -/
def visitSuccs (strongConnect : String → TarjanState → Option TarjanState) (v : String) :
    List String → TarjanState → Option TarjanState
  | [], s => some s
  | w :: succs, s =>
    match s.indices w with
    | none =>
      match strongConnect w s with
      | none => none
      | some s => visitSuccs strongConnect v succs (s.lower v (s.lowlinks w))
    | some i => visitSuccs strongConnect v succs (if s.onStack w then s.lower v i else s)

/-- The end of `strongConnect`: a root takes its component off the stack. -/
def closeVertex (v : String) (s : TarjanState) : Option TarjanState :=
  if s.indices v = some (s.lowlinks v) then
    (popComponent v s.stack).map fun (scc, stack) =>
      { s with stack := stack, onStack := fun w => s.onStack w && w ∉ scc, result := s.result ++ [scc] }
  else some s

variable (graph : SuccMap)

def SuccMap.succs (v : String) : List String := (graph.lookup v).getD []

/-- `strongConnect`, with a bound on the depth. -/
def strongConnect : Nat → String → TarjanState → Option TarjanState
  | 0, _, _ => none
  | depth + 1, v, s => (visitSuccs (strongConnect depth) v (graph.succs v) (s.push v)).bind (closeVertex v)

/-- The vertices in sorted order. -/
def SuccMap.vertices : List String := (graph.flatMap fun p => p.1 :: p.2).dedup.insertionSort (· ≤ ·)

/-- The loop over the vertices. -/
def connectAll (depth : Nat) : List String → TarjanState → Option TarjanState
  | [], s => some s
  | v :: vs, s =>
    match s.indices v with
    | some _ => connectAll depth vs s
    | none => (strongConnect graph depth v s).bind (connectAll depth vs)

/-- `Tarjan`. The recursion is never deeper than there are vertices. -/
def tarjan : Option (List (List String)) :=
  (connectAll graph graph.vertices.length graph.vertices ⟨0, [], fun _ => false, fun _ => none, fun _ => 0, []⟩).map
    TarjanState.result

def SuccMap.Edge (v w : String) : Prop := w ∈ graph.succs v

abbrev SuccMap.Reach : String → String → Prop := ReflTransGen graph.Edge

namespace TarjanState

/-- The number of a visited vertex. -/
def num (s : TarjanState) (v : String) : Nat := (s.indices v).getD 0

def Visited (s : TarjanState) (v : String) : Prop := ∃ i, s.indices v = some i

end TarjanState

/-- What holds while the vertices of `gray` are being visited. -/
structure Connecting (gray : List String) (s : TarjanState) : Prop where
  fresh : ∀ v, s.Visited v → s.num v < s.index
  injective : ∀ v w, s.Visited v → s.Visited w → s.num v = s.num w → v = w
  sorted : s.stack.Pairwise fun v w => s.num w < s.num v
  stacked : ∀ v ∈ s.stack, s.Visited v
  onStack : ∀ v, s.onStack v = true ↔ v ∈ s.stack
  grayStacked : ∀ v ∈ gray, v ∈ s.stack
  finished : ∀ v, v ∈ s.result.flatten ↔ s.Visited v ∧ v ∉ s.stack
  nodup : s.result.flatten.Nodup
  nonempty : ∀ scc ∈ s.result, scc ≠ []
  component : ∀ scc ∈ s.result, ∀ v ∈ scc, ∀ w, w ∈ scc ↔ graph.Reach v w ∧ graph.Reach w v
  closed : ∀ pre scc post, s.result = pre ++ scc :: post → ∀ v ∈ scc, ∀ w, graph.Edge v w → w ∈ scc ∨ w ∈ pre.flatten
  black : ∀ v, s.Visited v → v ∉ gray → ∀ w, graph.Edge v w → s.Visited w
  /-- A vertex that is being visited reaches every later one on the stack. -/
  down : ∀ v ∈ gray, ∀ w ∈ s.stack, s.num v ≤ s.num w → graph.Reach v w
  /-- A vertex on the stack reaches an earlier one that is being visited. -/
  up : ∀ v ∈ s.stack, ∃ w ∈ gray, s.num w ≤ s.num v ∧ graph.Reach v w

/-- How the state grows. The lowlinks of the vertices outside `own` stay. -/
structure Grows (own : List String) (s s' : TarjanState) : Prop where
  index : s.index ≤ s'.index
  indices : ∀ v i, s.indices v = some i → s'.indices v = some i
  new : ∀ v, s'.Visited v → ¬ s.Visited v → s.index ≤ s'.num v
  lowlinks : ∀ v, s.Visited v → v ∉ own → s'.lowlinks v = s.lowlinks v

variable {graph} {gray : List String} {s s' s'' : TarjanState} {v w : String}

namespace Grows

variable {own : List String}

theorem refl (s : TarjanState) : Grows own s s := ⟨le_rfl, fun _ _ h => h, fun _ h h' => absurd h h', fun _ _ _ => rfl⟩

theorem visited (h : Grows own s s') (mem : s.Visited v) : s'.Visited v := mem.imp fun i => h.indices v i

theorem num (h : Grows own s s') (mem : s.Visited v) : s'.num v = s.num v := by
  obtain ⟨i, hi⟩ := mem
  rw [TarjanState.num, TarjanState.num, h.indices v i hi, hi]

theorem trans (h : Grows own s s') (h' : Grows own s' s'') : Grows own s s'' := by
  refine ⟨h.index.trans h'.index, fun v i hi => h'.indices v i (h.indices v i hi), fun v mem new => ?_, fun v mem other => ?_⟩
  · by_cases old : s'.Visited v
    · rw [h'.num old]
      exact h.new v old new
    · exact h.index.trans (h'.new v mem old)
  · rw [h'.lowlinks v (h.visited mem) other, h.lowlinks v mem other]

theorem mono {more : List String} (h : Grows own s s') (sub : own ⊆ more) : Grows more s s' :=
  ⟨h.index, h.indices, h.new, fun v mem other => h.lowlinks v mem fun hv => other (sub hv)⟩

/-- The lowlinks of vertices that are not there yet do not count. -/
theorem shrink {v : String} (h : Grows [v] s s') (new : ¬ s.Visited v) : Grows [] s s' :=
  ⟨h.index, h.indices, h.new, fun w mem _ => h.lowlinks w mem fun hw => new (List.mem_singleton.mp hw ▸ mem)⟩

end Grows

end Goivy
