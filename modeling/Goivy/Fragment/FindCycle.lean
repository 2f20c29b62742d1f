import Goivy.Fragment.UnionFind
import Mathlib.Data.Finset.Card
import Mathlib.Data.Finset.Insert
import Mathlib.Data.List.Chain

/-! The search for a cycle in the stratification graph of the fragment checker. -/
namespace Goivy

/-- An arc between two nodes, without the formula it is reported with. -/
structure Arc where
  fromNode : Nat
  toNode : Nat
deriving DecidableEq

/-- The state of the search: nodes that are done, nodes on the way to the current one, and the path that is collected
backwards. -/
structure Search where
  heap : List Nat
  stack : List Nat
  path : List Arc

namespace FindCycle

variable (u : UFNodes) (arcs : List Arc)

/-- The arcs that leave a root. Compressing paths changes no root, so that the search reads roots only. -/
def adj (node : Nat) : List Arc := arcs.filter fun a => u.root a.fromNode = node

/-- The loop over the arcs of one node. -/
def dfsArcs (dfs : Nat → Search → Option (Bool × Search)) : List Arc → Search → Option (Bool × Search)
  | [], s => some (false, s)
  | a :: rest, s =>
    match dfs (u.root a.toNode) s with
    | none => none
    | some (true, s) => some (true, { s with path := s.path ++ [a] })
    | some (false, s) => dfsArcs dfs rest s

/-- `dfs`, with a bound on the depth. -/
def dfs : Nat → Nat → Search → Option (Bool × Search)
  | 0, _, _ => none
  | depth + 1, node, s =>
    if node ∈ s.heap then some (false, s)
    else if node ∈ s.stack then some (true, s)
    else
      match dfsArcs u (dfs depth) (adj u arcs node) { s with stack := node :: s.stack } with
      | none => none
      | some (true, s) => some (true, s)
      | some (false, s) => some (false, { s with stack := s.stack.erase node, heap := node :: s.heap })

/-- The loop that cuts the cycle out of the path. -/
def cutCycle (path : List Arc) (endID : Nat) : List Arc → List Arc → List Arc
  | _, [] => path
  | cycle, pa :: rest =>
    if u.root pa.fromNode = endID then (cycle ++ [pa]).reverse
    else cutCycle path endID (cycle ++ [pa]) rest

/-- The loop over all arcs. -/
def findFrom (depth : Nat) : List Arc → Search → Option (Option (List Arc))
  | [], _ => some none
  | a :: rest, s =>
    match dfs u arcs depth (u.root a.fromNode) s with
    | none => none
    | some (false, s) => findFrom depth rest s
    | some (true, s) =>
      match s.path with
      | [] => some none
      | pa :: _ => some (some (cutCycle u s.path (u.root pa.toNode) [] s.path))

/-- `findCycle`. The search is never deeper than there are ends of arcs. -/
def findCycle : Option (Option (List Arc)) :=
  findFrom u arcs (2 * arcs.length + 1) arcs ⟨[], [], []⟩

end FindCycle

namespace UFNodes

variable {u : UFNodes} {arcs : List Arc}

/-- A walk along arcs between classes. -/
def Walk (u : UFNodes) : Nat → List Arc → Nat → Prop
  | m, [], e => m = e
  | m, a :: as, e => u.root a.fromNode = m ∧ Walk u (u.root a.toNode) as e

def Edge (u : UFNodes) (arcs : List Arc) (m n : Nat) : Prop :=
  ∃ a ∈ arcs, u.root a.fromNode = m ∧ u.root a.toNode = n

theorem Walk.transGen {m e : Nat} {a : Arc} {as : List Arc} (walk : u.Walk m (a :: as) e)
    (inside : ∀ b ∈ a :: as, b ∈ arcs) : Relation.TransGen (u.Edge arcs) m e := by
  induction as generalizing m a with
  | nil => exact .single ⟨a, inside a List.mem_cons_self, walk⟩
  | cons b as ih =>
    rw [List.forall_mem_cons] at inside
    exact .head ⟨a, inside.1, walk.1, rfl⟩ (ih walk.2 inside.2)

/-- A walk from an arc on starts where that arc does. -/
theorem Walk.suffix {m e : Nat} {pre as : List Arc} {a : Arc} (walk : u.Walk m (pre ++ a :: as) e) :
    u.Walk (u.root a.fromNode) (a :: as) e := by
  induction pre generalizing m with
  | nil => exact ⟨rfl, walk.2⟩
  | cons b pre ih => exact ih walk.2

/-- The last arc of a walk ends where the walk does. -/
theorem Walk.last {m e : Nat} {as : List Arc} {a : Arc} (walk : u.Walk m (as ++ [a]) e) : u.root a.toNode = e :=
  walk.suffix.2

theorem Walk.isChain {m e : Nat} {as : List Arc} (walk : u.Walk m as e) :
    as.IsChain fun a b => u.root a.toNode = u.root b.fromNode := by
  induction as generalizing m with
  | nil => exact .nil
  | cons a as ih =>
    cases as with
    | nil => exact .singleton a
    | cons b as => exact List.isChain_cons_cons.mpr ⟨walk.2.1.symm, ih walk.2⟩

/-- Nodes that are done lead only to such nodes, and are on no cycle. -/
structure Done (u : UFNodes) (arcs : List Arc) (heap : List Nat) : Prop where
  closed : ∀ m ∈ heap, ∀ n, u.Edge arcs m n → n ∈ heap
  acyclic : ∀ m ∈ heap, ¬ Relation.TransGen (u.Edge arcs) m m

theorem Done.reach {heap : List Nat} (h : Done u arcs heap) {m n : Nat} (mem : m ∈ heap)
    (path : Relation.ReflTransGen (u.Edge arcs) m n) : n ∈ heap := by
  induction path with
  | refl => exact mem
  | tail _ edge ih => exact h.closed _ ih _ edge

/-- A node is done when all its successors are. -/
theorem Done.cons {heap : List Nat} (h : Done u arcs heap) {m : Nat} (fresh : m ∉ heap)
    (successors : ∀ n, u.Edge arcs m n → n ∈ heap) : Done u arcs (m :: heap) where
  closed := by
    intro k hk n edge
    rcases List.mem_cons.mp hk with rfl | old
    · exact List.mem_cons_of_mem _ (successors n edge)
    · exact List.mem_cons_of_mem _ (h.closed k old n edge)
  acyclic := by
    intro k hk cycle
    rcases List.mem_cons.mp hk with rfl | old
    · obtain ⟨n, edge, rest⟩ := Relation.TransGen.head'_iff.mp cycle
      exact fresh (h.reach (successors n edge) rest)
    · exact h.acyclic k old cycle

end UFNodes

namespace FindCycle

variable {u : UFNodes} {arcs : List Arc}

/-- What a search without a cycle leaves. -/
structure Explored (u : UFNodes) (arcs : List Arc) (s s' : Search) : Prop where
  done : u.Done arcs s'.heap
  more : s.heap ⊆ s'.heap
  apart : ∀ n ∈ s'.stack, n ∉ s'.heap
  stack : s'.stack = s.stack
  path : s'.path = s.path

/-- The path of a search that has met the stack leads from the node to an end on the stack or on the path. -/
def Meets (u : UFNodes) (arcs : List Arc) (node : Nat) (stack : List Nat) (path : List Arc) : Prop :=
  (∀ a ∈ path, a ∈ arcs) ∧ ∃ e, u.Walk node path.reverse e ∧ (e ∈ stack ∨ ∃ a ∈ path, u.root a.fromNode = e)

/-- What a search from a node does. -/
def Searches (u : UFNodes) (arcs : List Arc) (node : Nat) (s : Search) (result : Bool × Search) : Prop :=
  match result with
  | (false, s') => Explored u arcs s s' ∧ node ∈ s'.heap
  | (true, s') => Meets u arcs node s.stack s'.path

/-- A state in which the search goes on. -/
structure Searching (u : UFNodes) (arcs : List Arc) (s : Search) : Prop where
  done : u.Done arcs s.heap
  apart : ∀ n ∈ s.stack, n ∉ s.heap
  path : s.path = []

theorem Explored.searching {s s' : Search} (h : Explored u arcs s s') (start : Searching u arcs s) : Searching u arcs s' :=
  ⟨h.done, h.apart, h.path.trans start.path⟩

theorem Explored.trans {s s' s'' : Search} (h : Explored u arcs s s') (h' : Explored u arcs s' s'') : Explored u arcs s s'' :=
  ⟨h'.done, List.Subset.trans h.more h'.more, h'.apart, h'.stack.trans h.stack, h'.path.trans h.path⟩

theorem Searching.refl {s : Search} (h : Searching u arcs s) : Explored u arcs s s :=
  ⟨h.done, List.Subset.refl _, h.apart, rfl, rfl⟩

/-- The loop over the arcs of a node, where the search from their targets does what it should. -/
theorem dfsArcs_spec {search : Nat → Search → Option (Bool × Search)} {node : Nat} {s : Search} {out : List Arc}
    (start : Searching u arcs s) (leave : ∀ a ∈ out, a ∈ arcs ∧ u.root a.fromNode = node)
    (spec : ∀ a ∈ out, ∀ s', Searching u arcs s' → s'.stack = s.stack →
      ∃ result, search (u.root a.toNode) s' = some result ∧ Searches u arcs (u.root a.toNode) s' result) :
    ∃ found s', dfsArcs u search out s = some (found, s') ∧
      if found then ∃ a path, Meets u arcs (u.root a.toNode) s.stack path ∧ a ∈ out ∧ s'.path = path ++ [a]
      else Explored u arcs s s' ∧ ∀ a ∈ out, u.root a.toNode ∈ s'.heap := by
  induction out generalizing s with
  | nil => exact ⟨false, s, rfl, start.refl, by simp⟩
  | cons a out ih =>
    obtain ⟨⟨found, s'⟩, searched, result⟩ := spec a List.mem_cons_self s start rfl
    rw [dfsArcs, searched]
    cases found with
    | true => exact ⟨true, _, rfl, a, s'.path, result, List.mem_cons_self, rfl⟩
    | false =>
      obtain ⟨explored, mem⟩ := result
      have next := explored.searching start
      obtain ⟨found, s'', looped, result⟩ := ih next (fun b hb => leave b (List.mem_cons_of_mem _ hb))
        fun b hb t ht same => spec b (List.mem_cons_of_mem _ hb) t ht (same.trans explored.stack)
      refine ⟨found, s'', looped, ?_⟩
      cases found with
      | true =>
        obtain ⟨b, path, meets, hb, eq⟩ := result
        exact ⟨b, path, explored.stack ▸ meets, List.mem_cons_of_mem _ hb, eq⟩
      | false =>
        obtain ⟨explored', all⟩ := result
        refine ⟨explored.trans explored', List.forall_mem_cons.mpr ⟨explored'.more mem, all⟩⟩

/-- The ends of the arcs. -/
def ends (u : UFNodes) (arcs : List Arc) : List Nat :=
  arcs.map (fun a => u.root a.fromNode) ++ arcs.map (fun a => u.root a.toNode)

theorem length_ends (u : UFNodes) (arcs : List Arc) : (ends u arcs).length = 2 * arcs.length := by
  simp [ends]
  omega

/-- The stack holds each end of an arc at most once. -/
structure Stacked (u : UFNodes) (arcs : List Arc) (stack : List Nat) : Prop where
  nodup : stack.Nodup
  inside : stack ⊆ ends u arcs

theorem Stacked.length_le {stack : List Nat} (h : Stacked u arcs stack) : stack.length ≤ 2 * arcs.length := by
  rw [← length_ends u arcs]
  exact (List.subperm_of_subset h.nodup h.inside).length_le

theorem dfs_spec (depth node : Nat) (s : Search) (start : Searching u arcs s) (stacked : Stacked u arcs s.stack)
    (inside : node ∈ ends u arcs) (deep : 2 * arcs.length < depth + s.stack.length) :
    ∃ result, dfs u arcs depth node s = some result ∧ Searches u arcs node s result := by
  induction depth generalizing node s with
  | zero =>
    have le := stacked.length_le
    omega
  | succ depth ih =>
    rw [dfs]
    by_cases known : node ∈ s.heap
    · exact ⟨_, if_pos known, start.refl, known⟩
    rw [if_neg known]
    by_cases onStack : node ∈ s.stack
    · refine ⟨_, if_pos onStack, ?_⟩
      rw [Searches, start.path]
      exact ⟨by simp, node, rfl, .inl onStack⟩
    rw [if_neg onStack]
    have pushed : Searching u arcs { s with stack := node :: s.stack } :=
      ⟨start.done, List.forall_mem_cons.mpr ⟨known, start.apart⟩, start.path⟩
    have stacked' : Stacked u arcs (node :: s.stack) :=
      ⟨List.nodup_cons.mpr ⟨onStack, stacked.nodup⟩, List.cons_subset.mpr ⟨inside, stacked.inside⟩⟩
    have leave : ∀ a ∈ adj u arcs node, a ∈ arcs ∧ u.root a.fromNode = node := by
      intro a ha
      simpa [adj] using ha
    obtain ⟨found, s', looped, result⟩ := dfsArcs_spec pushed leave fun a ha s' start' same =>
      ih _ _ start' (same ▸ stacked') (by
        refine List.mem_append_right _ (List.mem_map.mpr ⟨a, (leave a ha).1, rfl⟩)) (by
        rw [same, List.length_cons]
        omega)
    rw [looped]
    cases found with
    | true =>
      obtain ⟨a, path, ⟨members, e, walk, met⟩, ha, eq⟩ := result
      refine ⟨_, rfl, ?_⟩
      obtain ⟨mem, leaves⟩ := leave a ha
      rw [Searches, eq]
      refine ⟨List.forall_mem_append.mpr ⟨members, List.forall_mem_singleton.mpr mem⟩, e, ?_, ?_⟩
      · rw [List.reverse_append]
        exact ⟨leaves, walk⟩
      · rcases met with stacked | ⟨b, hb, same⟩
        · rcases List.mem_cons.mp stacked with rfl | old
          · exact .inr ⟨a, List.mem_append_right _ (List.mem_singleton_self a), leaves⟩
          · exact .inl old
        · exact .inr ⟨b, List.mem_append_left _ hb, same⟩
    | false =>
      obtain ⟨explored, all⟩ := result
      refine ⟨_, rfl, ?_⟩
      have stack : s'.stack = node :: s.stack := explored.stack
      have fresh : node ∉ s'.heap := explored.apart node (stack ▸ List.mem_cons_self)
      refine ⟨⟨explored.done.cons fresh ?_, ?_, ?_, ?_, explored.path⟩, List.mem_cons_self⟩
      · rintro n ⟨a, ha, leaves, rfl⟩
        exact all a (by simp [adj, ha, leaves])
      · exact List.Subset.trans explored.more (List.subset_cons_self _ _)
      · intro n hn
        simp only [stack, List.erase_cons_head] at hn
        have ne : n ≠ node := fun same => onStack (same ▸ hn)
        have old : n ∉ s'.heap := explored.apart n (stack ▸ List.mem_cons_of_mem _ hn)
        simp [ne, old]
      · simp [stack]

/-- The cut is the path up to the first arc that starts at the end, backwards. -/
theorem cutCycle_spec (path cycle : List Arc) {rest : List Arc} {e : Nat} (met : ∃ a ∈ rest, u.root a.fromNode = e) :
    ∃ pre a post, rest = pre ++ a :: post ∧ u.root a.fromNode = e ∧
      cutCycle u path e cycle rest = a :: (cycle ++ pre).reverse := by
  induction rest generalizing cycle with
  | nil => simp at met
  | cons b rest ih =>
    rw [cutCycle]
    by_cases here : u.root b.fromNode = e
    · exact ⟨[], b, rest, rfl, here, by simp [here]⟩
    · have later : ∃ a ∈ rest, u.root a.fromNode = e := by simpa [here] using met
      obtain ⟨pre, a, post, eq, same, cut⟩ := ih (cycle ++ [b]) later
      refine ⟨b :: pre, a, post, by rw [eq]; rfl, same, ?_⟩
      rw [if_neg here, cut, List.append_assoc]
      rfl

/-- A closed walk along arcs. -/
structure Closed (u : UFNodes) (arcs cycle : List Arc) : Prop where
  inside : ∀ a ∈ cycle, a ∈ arcs
  walk : ∃ a as e, cycle = a :: as ∧ u.Walk e cycle e ∧ ∀ b ∈ cycle.getLast?, u.root b.toNode = e

theorem cutCycle_closed {node : Nat} {pa : Arc} {path : List Arc} (meets : Meets u arcs node [] (pa :: path)) :
    Closed u arcs (cutCycle u (pa :: path) (u.root pa.toNode) [] (pa :: path)) := by
  obtain ⟨members, e, walk, met⟩ := meets
  have stop : u.root pa.toNode = e := by
    rw [List.reverse_cons] at walk
    exact walk.last
  obtain ⟨pre, a, post, eq, same, cut⟩ :=
    cutCycle_spec (pa :: path) [] (met.resolve_left List.not_mem_nil)
  rw [stop, cut, List.nil_append]
  rw [eq, List.reverse_append, List.reverse_cons, List.append_assoc] at walk
  have closed : u.Walk e (a :: pre.reverse) e := same ▸ walk.suffix
  refine ⟨fun b hb => members b ?_, a, pre.reverse, e, rfl, closed, fun b hb => ?_⟩
  · rw [eq]
    simp only [List.mem_cons, List.mem_reverse] at hb
    simp only [List.mem_append, List.mem_cons]
    tauto
  · obtain ⟨init, split⟩ := List.getLast?_eq_some_iff.mp hb
    rw [split] at closed
    exact closed.last

/-- The loop over the arcs finds a closed walk, or every class of an arc is done. -/
theorem findFrom_spec (u : UFNodes) (arcs : List Arc) {depth : Nat} (deep : 2 * arcs.length < depth) {rest : List Arc} (inside : ∀ a ∈ rest, a ∈ arcs)
    {s : Search} (start : Searching u arcs s) (empty : s.stack = []) :
    (∃ cycle, findFrom u arcs depth rest s = some (some cycle) ∧ Closed u arcs cycle) ∨
      findFrom u arcs depth rest s = some none ∧
        ∃ heap, s.heap ⊆ heap ∧ u.Done arcs heap ∧ ∀ a ∈ rest, u.root a.fromNode ∈ heap := by
  induction rest generalizing s with
  | nil => exact .inr ⟨rfl, s.heap, List.Subset.refl _, start.done, by simp⟩
  | cons a rest ih =>
    rw [List.forall_mem_cons] at inside
    obtain ⟨⟨found, s'⟩, searched, result⟩ := dfs_spec depth (u.root a.fromNode) s start
      (empty ▸ ⟨List.nodup_nil, List.nil_subset _⟩)
      (List.mem_append_left _ (List.mem_map.mpr ⟨a, inside.1, rfl⟩)) (by omega)
    rw [findFrom, searched]
    cases found with
    | true =>
      have meets : Meets u arcs (u.root a.fromNode) [] s'.path := empty ▸ result
      cases path : s'.path with
      | nil =>
        rw [path] at meets
        obtain ⟨-, e, -, met⟩ := meets
        simp at met
      | cons pa pas =>
        rw [path] at meets
        simp only [path]
        exact .inl ⟨_, rfl, cutCycle_closed meets⟩
    | false =>
      obtain ⟨explored, mem⟩ := result
      have next := ih inside.2 (explored.searching start) (explored.stack.trans empty)
      refine next.imp id fun ⟨absent, heap, more, done, all⟩ => ⟨absent, heap, List.Subset.trans explored.more more, done, ?_⟩
      exact List.forall_mem_cons.mpr ⟨more mem, all⟩

end FindCycle

/-- An arc leads from one class to another. -/
def ClassArc (ops : List UFOp) (arcs : List Arc) (m n : Nat) : Prop :=
  ∃ a ∈ arcs, SameClass ops m a.fromNode ∧ SameClass ops a.toNode n

/-- A cycle of arcs: each one leads to the class where the next one starts, and the last one to where the first does. -/
structure ArcCycle (ops : List UFOp) (arcs cycle : List Arc) : Prop where
  nonempty : cycle ≠ []
  inside : ∀ a ∈ cycle, a ∈ arcs
  linked : cycle.IsChain fun a b => SameClass ops a.toNode b.fromNode
  closed : ∀ a ∈ cycle.getLast?, ∀ b ∈ cycle.head?, SameClass ops a.toNode b.fromNode

theorem edge_iff_classArc {ops : List UFOp} {arcs : List Arc} {m n : Nat} :
    (UFNodes.run ops).Edge arcs ((UFNodes.run ops).root m) ((UFNodes.run ops).root n) ↔ ClassArc ops arcs m n := by
  refine exists_congr fun a => and_congr_right fun _ => ?_
  rw [UFNodes.root_run, UFNodes.root_run]
  exact and_congr_left fun _ => ⟨.symm _ _, .symm _ _⟩

theorem classArc_of_edge {ops : List UFOp} {arcs : List Arc} {m n : Nat} (edge : (UFNodes.run ops).Edge arcs m n) :
    ClassArc ops arcs m n := by
  obtain ⟨a, ha, rfl, rfl⟩ := edge
  refine ⟨a, ha, (UFNodes.root_run ..).mp ?_, (UFNodes.root_run ..).mp ?_⟩
  · rw [UFNodes.root_root]
  · rw [UFNodes.root_root]

theorem transGen_classArc {ops : List UFOp} {arcs : List Arc} {m n : Nat} (path : Relation.TransGen (ClassArc ops arcs) m n) :
    Relation.TransGen ((UFNodes.run ops).Edge arcs) ((UFNodes.run ops).root m) ((UFNodes.run ops).root n) :=
  path.lift _ fun _ _ arc => edge_iff_classArc.mpr arc

theorem FindCycle.Closed.arcCycle {ops : List UFOp} {arcs cycle : List Arc}
    (h : FindCycle.Closed (UFNodes.run ops) arcs cycle) : ArcCycle ops arcs cycle := by
  obtain ⟨inside, a, as, e, rfl, walk, last⟩ := h
  refine ⟨List.cons_ne_nil _ _, inside, walk.isChain.imp fun _ _ same => (UFNodes.root_run ..).mp same, fun b hb c hc => ?_⟩
  cases hc
  exact (UFNodes.root_run ..).mp ((last b hb).trans walk.1.symm)

/-- After any unions and searches, the search for a cycle ends, finds a cycle of arcs if there is one, and else nothing. -/
theorem findCycle_exact (ops : List UFOp) (arcs : List Arc) :
    ∃ found, FindCycle.findCycle (.run ops) arcs = some found ∧
      (found = none ↔ ∀ n, ¬ Relation.TransGen (ClassArc ops arcs) n n) ∧
      ∀ cycle, found = some cycle → ArcCycle ops arcs cycle := by
  have start : FindCycle.Searching (.run ops) arcs ⟨[], [], []⟩ := ⟨⟨by simp, by simp⟩, by simp, rfl⟩
  obtain ⟨cycle, found, closed⟩ | ⟨absent, heap, -, done, all⟩ :=
    FindCycle.findFrom_spec (.run ops) arcs (Nat.lt_succ_self (2 * arcs.length))
      (fun _ mem => mem) start rfl
  · refine ⟨_, found, ⟨nofun, fun acyclic => ?_⟩, fun _ same => Option.some.inj same ▸ closed.arcCycle⟩
    obtain ⟨inside, a, as, e, rfl, walk, -⟩ := closed
    refine absurd ?_ (acyclic e)
    exact Relation.TransGen.mono (fun _ _ edge => classArc_of_edge edge) _ _ (walk.transGen inside)
  · refine ⟨_, absent, ⟨fun _ n cycle => ?_, fun _ => rfl⟩, nofun⟩
    have here : (UFNodes.run ops).root n ∈ heap := by
      obtain ⟨k, ⟨a, ha, same, -⟩, -⟩ := Relation.TransGen.head'_iff.mp cycle
      rw [(UFNodes.root_run ..).mpr same]
      exact all a ha
    exact done.acyclic _ here (transGen_classArc cycle)

end Goivy
