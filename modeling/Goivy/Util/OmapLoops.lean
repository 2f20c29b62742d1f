import Goivy.Util.OmapRefines

/-! The loops of the ordered maps, over the operations of any of them. -/
namespace Goivy

open SortedEntries

variable {C K V : Type} [LinearOrder C] {T : Rbtree C (Okv C K) Okv.id} {keys : Keys C K}
  {σ : Type}

theorem Omap.getokv_congr {s s' : Omap T V} (tree : s'.tree = s.tree) (key : K) :
    s'.getokv keys key = s.getokv keys key := by
  rw [Omap.getokv, Omap.getokv, tree]

theorem Omap.Refines.present_iff {s : Omap T V} {m : List (C × K × V)} (h : s.Refines keys m)
    (key : K) : (s.getokv keys key).isSome = (Entries.get keys m key).isSome := by
  cases found : Entries.get keys m key with
  | none => rw [h.getokv_none found]; rfl
  | some entry =>
    obtain ⟨kv, eq, _⟩ := h.getokv_some found
    rw [eq]; rfl

namespace MapOps

/-- The operations act on the shared fields as an `omap`'s do, and keep `P`. -/
structure Implements (ops : MapOps T V σ) (keys : Keys C K) (P : σ → Prop) : Prop where
  set : ∀ s m key val, (ops.omap s).Refines keys m → P s → ∃ s',
    ops.set s key val = some (((ops.omap s).set keys key val).1, s') ∧
      ops.omap s' = ((ops.omap s).set keys key val).2 ∧ P s'
  delkey : ∀ s m key, (ops.omap s).Refines keys m → P s →
    (ops.delkey s key).1.1 = ((ops.omap s).delkey keys key).1.1 ∧
      ops.omap (ops.delkey s key).2 = ((ops.omap s).delkey keys key).2 ∧ P (ops.delkey s key).2
  deleteAll : ∀ s, P s → ops.omap (ops.deleteAll s) = (ops.omap s).deleteAll ∧ P (ops.deleteAll s)
  getokv : ∀ s m key, (ops.omap s).Refines keys m → P s →
    ops.getokv s key = (ops.omap s).getokv keys key
  len : ∀ s m, (ops.omap s).Refines keys m → P s → ops.len s = (ops.omap s).len
  nextit : ∀ s n, P s → n ∈ T.nodes (ops.omap s).tree →
    ops.nextit s (T.item n) (some n) = some (T.next (ops.omap s).tree n)
  withOmap : ∀ s o, P s → o.tree = (ops.omap s).tree → o.vals.length = (ops.omap s).vals.length →
    ops.omap (ops.withOmap s o) = o ∧ P (ops.withOmap s o)

variable {ops : MapOps T V σ} {P : σ → Prop}

/-- A state of a map, with the entries it stands for. -/
structure Sim (ops : MapOps T V σ) (keys : Keys C K) (P : σ → Prop) (s : σ) (m : List (C × K × V)) :
    Prop where
  refines : (ops.omap s).Refines keys m
  keeps : P s

/-- What a body may have done to the map at the node `n`. -/
structure Acted (ops : MapOps T V σ) (pre : List T.Node) (n : T.Node) (post : List T.Node)
    (loud deleted : Bool) (s s' : σ) : Prop where
  nodes : if deleted then T.nodes (ops.omap s').tree = pre ++ post
    else (ops.omap s').tree = (ops.omap s).tree
  later : (ops.omap s).version ≤ (ops.omap s').version
  changed : loud → T.nodes (ops.omap s).tree = pre ++ n :: post →
    (ops.omap s).version < (ops.omap s').version
  quiet : loud = false → (ops.omap s').version = (ops.omap s).version ∧
    (ops.omap s').tree = (ops.omap s).tree ∧ (ops.omap s').ordercache = (ops.omap s).ordercache

theorem Acted.same {pre post : List T.Node} {n : T.Node} {s s' : σ}
    (same : ops.omap s' = ops.omap s) : ops.Acted pre n post false false s s' :=
  ⟨congrArg Omap.tree same, Nat.le_of_eq (congrArg Omap.version same).symm, by simp, fun _ => by simp [same]⟩

variable {s : σ} {m : List (C × K × V)}

theorem touches_congr {s' : σ} {m' : List (C × K × V)} (sim : ops.Sim keys P s m)
    (sim' : ops.Sim keys P s' m') (tree : (ops.omap s').tree = (ops.omap s).tree) :
    Entries.touches keys m' = Entries.touches (V := V) keys m := by
  funext act
  cases act with
  | delete | write => rfl
  | update key val =>
    rw [Entries.touches, Entries.touches, ← sim.refines.present_iff, ← sim'.refines.present_iff,
      Omap.getokv_congr tree]

variable (imp : ops.Implements keys P)
include imp

theorem perform_spec (sim : ops.Sim keys P s m) {pre post : List T.Node} {n : T.Node}
    (order : (pre ++ n :: post).Pairwise fun n n' => (T.item n).id < (T.item n').id)
    (here : T.nodes (ops.omap s).tree = pre ++ n :: post ∨ T.nodes (ops.omap s).tree = pre ++ post)
    (canon : (T.item n).id = keys.canon (T.item n).key) (act : Act K V) :
    ∃ s', ops.perform (T.item n) s act = some s' ∧
      ops.Sim keys P s' (Entries.perform keys (T.item n).key m act) ∧
      ops.Acted pre n post (Entries.touches keys m act) (Entries.deletes act) s s' := by
  cases act with
  | delete =>
    obtain ⟨_, eq, keep⟩ := imp.delkey s m (T.item n).key sim.refines sim.keeps
    refine ⟨_, rfl, ?_⟩
    cases found : Entries.get keys m (T.item n).key with
    | none =>
      have same := (sim.refines.delkey_absent found).1
      have gone : T.nodes (ops.omap s).tree = pre ++ post := by
        refine here.resolve_left fun split => ?_
        obtain ⟨before, val, after, rfl, _⟩ := sim.refines.read split
        have sorted := sim.refines.sorted
        rw [canon] at sorted found
        have nil := (sim.refines.canon n (by simp [split])).2
        rw [Omap.Refines.get_cons nil sorted] at found
        cases found
      rw [same] at eq
      refine ⟨⟨?_, keep⟩, ?_, Nat.le_of_eq (congrArg Omap.version eq).symm, ?_, by simp [Entries.touches]⟩
      · rw [Entries.perform, Entries.delkey, found, eq]
        exact sim.refines
      · rwa [Entries.deletes, if_pos rfl, eq]
      · intro _ split
        simp [gone] at split
    | some entry =>
      obtain split | gone := here
      · have nil := (sim.refines.canon n (by simp [split])).2
        obtain ⟨_, version, _, refines, _, nodes⟩ := sim.refines.delkey_present split canon nil
        rw [← eq] at version refines nodes
        refine ⟨⟨refines, keep⟩, ?_, by omega, fun _ _ => by omega, by simp [Entries.touches]⟩
        rwa [Entries.deletes, if_pos rfl]
      · -- the current entry is gone already
        obtain ⟨_, pre', n', post', split, id⟩ := sim.refines.present_split (Option.isSome_of_eq_some found)
        have mem : n' ∈ pre ++ post := by rw [← gone, split]; simp
        obtain ⟨_, back, across⟩ := List.pairwise_append.mp order
        rw [← canon] at id
        obtain mem | mem := List.mem_append.mp mem
        · exact absurd id (across n' mem n List.mem_cons_self).ne
        · exact absurd id ((List.pairwise_cons.mp back).1 n' mem).ne'
  | update key val =>
    rw [MapOps.perform, imp.getokv s m key sim.refines sim.keeps, sim.refines.present_iff,
      Entries.perform]
    simp only [Entries.touches, Entries.deletes]
    split
    · rename_i present
      obtain ⟨s', run, eq, keep⟩ := imp.set s m key val sim.refines sim.keeps
      obtain ⟨_, refines, tree, version⟩ := sim.refines.set_present val present
      rw [← eq] at refines tree version
      exact ⟨s', by rw [run]; rfl, ⟨refines, keep⟩, tree, by omega, fun _ _ => by omega,
        by simp [present]⟩
    · rename_i absent
      rw [Bool.not_eq_true] at absent
      exact ⟨s, rfl, sim, by rw [absent]; exact .same rfl⟩
  | write key val =>
    rw [MapOps.perform, imp.getokv s m key sim.refines sim.keeps, Entries.perform]
    cases found : Entries.get keys m key with
    | none =>
      rw [sim.refines.getokv_none found]
      exact ⟨s, rfl, sim, .same rfl⟩
    | some entry =>
      obtain ⟨kv, eq, _, refines⟩ := sim.refines.getokv_some found
      obtain ⟨same, keep⟩ := imp.withOmap s
        { ops.omap s with vals := (ops.omap s).vals.set kv.ref val } sim.keeps rfl (by simp)
      rw [eq]
      refine ⟨_, rfl, ⟨by rw [same]; exact refines val, keep⟩, ?_, ?_, ?_, ?_⟩ <;>
        simp [same, Entries.deletes, Entries.touches]

omit imp in
theorem Acted.trans {pre post : List T.Node} {n : T.Node} {loud loud' deleted deleted' : Bool}
    {s s' s'' : σ} (h : ops.Acted pre n post loud deleted s s')
    (h' : ops.Acted pre n post loud' deleted' s' s'') :
    ops.Acted pre n post (loud || loud') (deleted || deleted') s s'' where
  nodes := by
    have first := h.nodes
    have second := h'.nodes
    cases deleted' with
    | true => simpa using second
    | false =>
      rw [if_neg (by simp)] at second
      rwa [Bool.or_false, second]
  later := Nat.le_trans h.later h'.later
  changed either split := by
    cases loud with
    | true => exact Nat.lt_of_lt_of_le (h.changed rfl split) h'.later
    | false =>
      obtain ⟨version, tree, _⟩ := h.quiet rfl
      exact version ▸ h'.changed (by simpa using either) (tree ▸ split)
  quiet neither := by
    rw [Bool.or_eq_false_iff] at neither
    obtain ⟨version, tree, cache⟩ := h.quiet neither.1
    obtain ⟨version', tree', cache'⟩ := h'.quiet neither.2
    exact ⟨version'.trans version, tree'.trans tree, cache'.trans cache⟩

omit imp in
theorem Acted.here {pre post : List T.Node} {n : T.Node} {loud deleted : Bool} {s s' : σ}
    (h : ops.Acted pre n post loud deleted s s')
    (here : T.nodes (ops.omap s).tree = pre ++ n :: post ∨ T.nodes (ops.omap s).tree = pre ++ post) :
    T.nodes (ops.omap s').tree = pre ++ n :: post ∨ T.nodes (ops.omap s').tree = pre ++ post := by
  have nodes := h.nodes
  cases deleted with
  | true => exact .inr nodes
  | false =>
    rw [if_neg (by simp)] at nodes
    rwa [nodes]

theorem performs_spec {pre post : List T.Node} {n : T.Node}
    (order : (pre ++ n :: post).Pairwise fun n n' => (T.item n).id < (T.item n').id)
    (canon : (T.item n).id = keys.canon (T.item n).key) (acts : List (Act K V))
    (sim : ops.Sim keys P s m)
    (here : T.nodes (ops.omap s).tree = pre ++ n :: post ∨ T.nodes (ops.omap s).tree = pre ++ post) :
    ∃ s', acts.foldlM (ops.perform (T.item n)) s = some s' ∧
      ops.Sim keys P s' (acts.foldl (Entries.perform keys (T.item n).key) m) ∧
      ops.Acted pre n post (acts.any (Entries.touches keys m)) (acts.any Entries.deletes) s s' := by
  induction acts generalizing s m with
  | nil => exact ⟨s, rfl, sim, .same rfl⟩
  | cons act acts ih =>
    obtain ⟨s', run, sim', acted⟩ := perform_spec imp sim order here canon act
    obtain ⟨s'', runs, sim'', acted'⟩ := ih sim' (acted.here here)
    refine ⟨s'', by rw [List.foldlM_cons, run]; exact runs, sim'', ?_⟩
    have both := acted.trans acted'
    rw [List.any_cons, List.any_cons]
    cases gone : Entries.deletes act with
    | true =>
      have loud : Entries.touches keys m act = true := by
        cases act <;> simp_all [Entries.deletes, Entries.touches]
      simpa [gone, loud] using both
    | false =>
      have tree := acted.nodes
      rw [gone, if_neg (by simp)] at tree
      rwa [touches_congr sim sim' tree, gone] at both

/-- One turn of a loop at the node `n`. -/
theorem yield_spec (body : Body K V) (seen : List (K × V)) {pre post : List T.Node} {n : T.Node}
    (sim : ops.Sim keys P s m) (split : T.nodes (ops.omap s).tree = pre ++ n :: post) :
    ∃ val s', m.lookup (T.item n).id = some ((T.item n).key, val) ∧
      let seen' := seen ++ [((T.item n).key, val)]
      let acts := (body seen').1
      ops.yield body s seen (T.item n) = some (s', seen', (body seen').2) ∧
        ops.Sim keys P s' (acts.foldl (Entries.perform keys (T.item n).key) m) ∧
        ops.Acted pre n post (acts.any (Entries.touches keys m)) (acts.any Entries.deletes) s s' := by
  obtain ⟨before, val, after, eq, _, read, _⟩ := sim.refines.read split
  have found : m.lookup (T.item n).id = some ((T.item n).key, val) := by
    have sorted := sim.refines.sorted
    rw [eq] at sorted ⊢
    exact lookup_split sorted
  have canon := (sim.refines.canon n (by simp [split])).1
  have order := T.sorted (ops.omap s).tree
  rw [split] at order
  obtain ⟨s', run, sim', acted⟩ := performs_spec imp order canon
    (body (seen ++ [((T.item n).key, val)])).1 sim (.inl split)
  refine ⟨val, s', found, ?_, sim', acted⟩
  rw [MapOps.yield, read.val]
  simp only [Option.bind_eq_bind, Option.bind_some, run]
  rfl

omit imp in
/-- The nodes still to come are where they were. -/
theorem Acted.rest {pre post : List T.Node} {n : T.Node} {loud deleted : Bool} {s s' : σ}
    (h : ops.Acted pre n post loud deleted s s')
    (split : T.nodes (ops.omap s).tree = pre ++ n :: post) :
    ∃ pre', T.nodes (ops.omap s').tree = pre' ++ post := by
  obtain nodes | nodes := h.here (.inl split)
  · exact ⟨pre ++ [n], by rw [nodes, List.append_assoc, List.singleton_append]⟩
  · exact ⟨pre, nodes⟩

theorem treeLoop_spec (body : Body K V) (fuel : Nat) {pre post : List T.Node} (seen : List (K × V))
    (enough : post.length ≤ fuel) (sim : ops.Sim keys P s m)
    (split : T.nodes (ops.omap s).tree = pre ++ post) :
    ∃ s', ops.treeLoop body fuel post.head? s seen =
        some (s', (Entries.loop keys body (post.map fun n => (T.item n).id) m seen).2) ∧
      ops.Sim keys P s' (Entries.loop keys body (post.map fun n => (T.item n).id) m seen).1 := by
  induction post generalizing fuel pre s m seen with
  | nil => exact ⟨s, by unfold MapOps.treeLoop; rfl, sim⟩
  | cons n post ih =>
    obtain ⟨fuel, rfl⟩ : ∃ k, fuel = k + 1 := Nat.exists_eq_succ_of_ne_zero (by simp at enough; omega)
    obtain ⟨val, s', found, run, sim', acted⟩ := yield_spec imp body seen sim split
    rw [List.head?_cons, MapOps.treeLoop, List.map_cons, Entries.loop, found, T.next_eq _ _ _ _ split]
    simp only [Option.bind_eq_bind, run, Option.bind_some]
    split
    · obtain ⟨pre', split'⟩ := acted.rest split
      exact ih fuel _ (by simpa using enough) sim' split'
    · exact ⟨s', rfl, sim'⟩

/-- After a change of the map at index `i`: the early exit looks at the index and at what is left
of the tree. -/
theorem handOver_spec (body : Body K V) {i : Nat} {pre post : List T.Node} (seen : List (K × V))
    {deleted : Bool} (index : i = pre.length) (sim : ops.Sim keys P s m) (n : T.Node)
    (nodes : T.nodes (ops.omap s).tree = if deleted then pre ++ post else pre ++ n :: post) :
    ∃ s' seen', (if i + 1 ≥ T.len (ops.omap s).tree then some (s, seen)
        else ops.treeLoop body (T.len (ops.omap s).tree) post.head? s seen) = some (s', seen') ∧
      if (post.map fun n => (T.item n).id).length = 1 && deleted then
        seen' ≠ (Entries.loop keys body (post.map fun n => (T.item n).id) m seen).2
      else seen' = (Entries.loop keys body (post.map fun n => (T.item n).id) m seen).2 ∧
        ops.Sim keys P s' (Entries.loop keys body (post.map fun n => (T.item n).id) m seen).1 := by
  have exit : i + 1 ≥ T.len (ops.omap s).tree ↔ post.length ≤ if deleted then 1 else 0 := by
    rw [T.len_eq, nodes, index]
    cases deleted <;> simp
  have split : ∃ pre', T.nodes (ops.omap s).tree = pre' ++ post := by
    cases deleted with
    | true => exact ⟨pre, nodes⟩
    | false => exact ⟨pre ++ [n], by rw [nodes]; simp⟩
  obtain ⟨pre', split⟩ := split
  obtain ⟨s', tree, sim'⟩ := treeLoop_spec imp body (T.len (ops.omap s).tree) seen
    (by simp [T.len_eq, split]) sim split
  rw [List.length_map]
  match post, deleted with
  | [], _ =>
    rw [if_pos (exit.mpr (Nat.zero_le _))]
    exact ⟨s, seen, rfl, rfl, sim⟩
  | [n'], true =>
    -- the last entry is still in the tree
    obtain ⟨val, _, found, _⟩ := yield_spec imp body seen sim split
    obtain ⟨more, eq⟩ := Entries.loop_stays keys body []
      ((body (seen ++ [((T.item n').key, val)])).1.foldl (Entries.perform keys (T.item n').key) m)
      (seen ++ [((T.item n').key, val)])
    rw [if_pos (exit.mpr (Nat.le_refl _))]
    refine ⟨s, seen, rfl, fun same => ?_⟩
    rw [List.map_cons, Entries.loop, found] at same
    dsimp only at same
    split at same
    · rw [List.map_nil, eq] at same
      simp at same
    · simp at same
  | [n'], false =>
    rw [if_neg (mt exit.mp (by simp))]
    exact ⟨s', _, tree, rfl, sim'⟩
  | _ :: _ :: _, deleted =>
    rw [if_neg (mt exit.mp (by cases deleted <;> simp))]
    refine ⟨s', _, tree, ?_⟩
    rw [if_neg (by simp)]
    exact ⟨rfl, sim'⟩

/-- The pass over the cache is the loop, unless it loses the last entry. -/
theorem cacheLoop_spec (body : Body K V) {vers i : Nat} {pre post : List T.Node}
    {seen : List (K × V)} (index : i = pre.length) (sim : ops.Sim keys P s m)
    (split : T.nodes (ops.omap s).tree = pre ++ post) (version : (ops.omap s).version = vers) :
    ∃ s' seen', ops.cacheLoop body vers (post.map T.item) i post.head? s seen = some (s', seen') ∧
      if Entries.losesLast keys body (post.map fun n => (T.item n).id) m seen then
        seen' ≠ (Entries.loop keys body (post.map fun n => (T.item n).id) m seen).2
      else seen' = (Entries.loop keys body (post.map fun n => (T.item n).id) m seen).2 ∧
        ops.Sim keys P s' (Entries.loop keys body (post.map fun n => (T.item n).id) m seen).1 := by
  induction post generalizing i pre s m seen with
  | nil => exact ⟨s, seen, rfl, rfl, sim⟩
  | cons n post ih =>
    obtain ⟨val, s', found, run, sim', acted⟩ := yield_spec imp body seen sim split
    have next := imp.nextit s n sim.keeps (by simp [split])
    rw [T.next_eq _ _ _ _ split] at next
    rw [List.head?_cons, List.map_cons, List.map_cons, MapOps.cacheLoop, Entries.loop,
      Entries.losesLast, found, next]
    simp only [Option.bind_eq_bind, run, Option.bind_some]
    generalize seen ++ [((T.item n).key, val)] = seen at *
    cases more : (body seen).2 with
    | false => exact ⟨s', seen, rfl, rfl, sim'⟩
    | true =>
      cases loud : (body seen).1.any (Entries.touches keys m) with
      | false =>
        obtain ⟨same, tree, _⟩ := acted.quiet loud
        have split' : T.nodes (ops.omap s').tree = (pre ++ [n]) ++ post := by
          rw [tree, split, List.append_assoc, List.singleton_append]
        simpa [same, version] using ih (by simp [index]) sim' split' (same.trans version)
      | true =>
        have later := acted.changed loud split
        have changed : (ops.omap s').version ≠ vers := by omega
        simp only [Bool.not_true, if_neg changed, Bool.true_and, if_true, reduceCtorEq, if_false]
        refine handOver_spec imp body seen index sim' n ?_
        have nodes := acted.nodes
        split <;> rename_i gone
        · rwa [if_pos gone] at nodes
        · rw [if_neg gone] at nodes
          rw [nodes, split]

theorem fillLoop_spec (body : Body K V) (reset : Bool) (vers fuel : Nat) (pre post : List T.Node)
    (seen : List (K × V)) (cachegood : Bool) (enough : post.length ≤ fuel)
    (sim : ops.Sim keys P s m) (split : T.nodes (ops.omap s).tree = pre ++ post)
    (good : cachegood → (ops.omap s).version = vers ∧ (ops.omap s).ordercache = pre.map T.item) :
    ∃ s', ops.fillLoop body reset vers fuel post.head? cachegood s seen =
        some (s', (Entries.loop keys body (post.map fun n => (T.item n).id) m seen).2) ∧
      ops.Sim keys P s' (Entries.loop keys body (post.map fun n => (T.item n).id) m seen).1 := by
  induction post generalizing fuel pre s m seen cachegood with
  | nil => exact ⟨s, by unfold MapOps.fillLoop; rfl, sim⟩
  | cons n post ih =>
    obtain ⟨fuel, rfl⟩ : ∃ k, fuel = k + 1 := Nat.exists_eq_succ_of_ne_zero (by simp at enough; omega)
    have enough : post.length ≤ fuel := by simpa using enough
    rw [List.head?_cons, MapOps.fillLoop, List.map_cons, Entries.loop, T.next_eq _ _ _ _ split]
    -- the state in which the body runs
    obtain ⟨t, filled, same, kept⟩ : ∃ t, t = (if cachegood then ops.withOmap s { ops.omap s with
        ordercache := (ops.omap s).ordercache ++ [T.item n] } else s) ∧
        (ops.omap t).tree = (ops.omap s).tree ∧ ops.Sim keys P t m ∧ (cachegood →
          (ops.omap t).version = vers ∧ (ops.omap t).ordercache = (pre ++ [n]).map T.item) := by
      refine ⟨_, rfl, ?_⟩
      cases cachegood with
      | false => exact ⟨rfl, sim, by simp⟩
      | true =>
        obtain ⟨version, cache⟩ := good rfl
        obtain ⟨eq, keep⟩ := imp.withOmap s { ops.omap s with
          ordercache := (ops.omap s).ordercache ++ [T.item n] } sim.keeps rfl rfl
        rw [if_pos rfl, eq]
        refine ⟨rfl, ⟨?_, keep⟩, fun _ => ⟨version, by simp [cache]⟩⟩
        rw [eq]
        refine ⟨sim.refines.entries, sim.refines.refs, sim.refines.canon, ?_⟩
        simp [split, cache]
    have split' : T.nodes (ops.omap t).tree = pre ++ n :: post := by rw [same, split]
    obtain ⟨kept, good⟩ := kept
    obtain ⟨val, s', found, run, sim', acted⟩ := yield_spec imp body seen kept split'
    simp only [← filled, Option.bind_eq_bind, found, run, Option.bind_some]
    generalize seen ++ [((T.item n).key, val)] = seen at *
    obtain ⟨pre', rest⟩ := acted.rest split'
    cases more : (body seen).2 with
    | false => exact ⟨s', rfl, sim'⟩
    | true =>
      simp only [Bool.not_true, reduceCtorEq, if_false, if_true]
      split
      · rename_i version
        cases cachegood with
        | false => exact ih fuel pre' seen false enough sim' rest (by simp)
        | true =>
          obtain ⟨before, cache⟩ := good rfl
          have quiet : (body seen).1.any (Entries.touches keys m) = false := by
            by_contra loud
            have later := acted.changed (by simpa using loud) split'
            omega
          obtain ⟨_, tree, kept⟩ := acted.quiet quiet
          exact ih fuel (pre ++ [n]) seen true enough sim' (by rw [tree, split']; simp)
            fun _ => ⟨version, kept.trans cache⟩
      · obtain ⟨eq, keep⟩ := imp.withOmap s' { ops.omap s' with
          ordercache := [], cacheversion := if reset then 0 else (ops.omap s').cacheversion } sim'.keeps rfl rfl
        refine ih fuel pre' seen false enough ⟨?_, keep⟩ (by rw [eq]; exact rest) (by simp)
        rw [eq]
        exact ⟨sim'.refines.entries, sim'.refines.refs, sim'.refines.canon, List.nil_prefix⟩

omit imp in
theorem ids_of_sim (sim : ops.Sim keys P s m) :
    (T.nodes (ops.omap s).tree).map (fun n => (T.item n).id) = m.map Prod.fst := by
  have entries := sim.refines.entries
  clear sim
  generalize T.nodes (ops.omap s).tree = nodes at entries
  induction entries with
  | nil => rfl
  | cons head _ ih => rw [List.map_cons, List.map_cons, ih, head.id]

omit imp in
theorem full_of_usable (sim : ops.Sim keys P s m) (usable : (ops.omap s).usable) :
    (ops.omap s).ordercache = (T.nodes (ops.omap s).tree).map T.item := by
  refine sim.refines.cache.eq_of_length ?_
  rw [Omap.usable, Bool.and_eq_true, decide_eq_true_eq, T.len_eq] at usable
  rw [usable.1, List.length_map]

/-- A loop is the loop over the entries, unless it runs on the cache and loses the last one. -/
theorem loop_spec (body : Body K V) (reset : Bool) (sim : ops.Sim keys P s m) :
    ∃ s' seen', ops.loop body reset s = some (s', seen') ∧
      if (ops.omap s).usable && Entries.losesLast keys body (m.map Prod.fst) m [] then
        seen' ≠ (Entries.all keys body m).2
      else seen' = (Entries.all keys body m).2 ∧ ops.Sim keys P s' (Entries.all keys body m).1 := by
  unfold MapOps.loop Entries.all
  rw [← ids_of_sim sim]
  have start : T.nodes (ops.omap s).tree = [] ++ T.nodes (ops.omap s).tree := rfl
  dsimp only
  split
  · rename_i usable
    rw [full_of_usable sim usable, T.min_eq, usable, Bool.true_and]
    exact cacheLoop_spec imp body rfl sim start rfl
  · rename_i unusable
    rw [Bool.not_eq_true] at unusable
    obtain ⟨eq, keep⟩ := imp.withOmap s { ops.omap s with
      ordercache := [], cacheversion := (ops.omap s).version } sim.keeps rfl rfl
    have fresh : ops.Sim keys P (ops.withOmap s { ops.omap s with
        ordercache := [], cacheversion := (ops.omap s).version }) m := by
      refine ⟨?_, keep⟩
      rw [eq]
      exact ⟨sim.refines.entries, sim.refines.refs, sim.refines.canon, List.nil_prefix⟩
    obtain ⟨s', run, sim'⟩ := fillLoop_spec imp body reset (ops.omap s).version
      (T.len (ops.omap s).tree) [] (T.nodes (ops.omap s).tree) [] true
      (Nat.le_of_eq (T.len_eq _).symm) fresh
      (by rw [eq]; rfl) (by rw [eq]; simp)
    rw [T.min_eq, run, unusable]
    exact ⟨s', _, rfl, rfl, sim'⟩

omit imp in
theorem entries_of_sim (sim : ops.Sim keys P s m) : ops.entries s = m := by
  have entries := sim.refines.entries
  unfold MapOps.entries
  clear sim
  generalize T.nodes (ops.omap s).tree = nodes at entries
  induction entries with
  | nil => rfl
  | cons head _ ih =>
    rw [List.filterMap_cons, head.val, ih, head.id, head.key]
    rfl

omit imp in
theorem scan_spec (o : Omap T V) (fuel : Nat) (pre post : List T.Node) (enough : post.length ≤ fuel)
    (split : T.nodes o.tree = pre ++ post) : o.scan fuel post.head? = some (post.map T.item) := by
  induction post generalizing fuel pre with
  | nil => unfold Omap.scan; rfl
  | cons n post ih =>
    obtain ⟨fuel, rfl⟩ : ∃ k, fuel = k + 1 := Nat.exists_eq_succ_of_ne_zero (by simp at enough; omega)
    have rest := ih fuel (pre ++ [n]) (by simpa using enough) (by simp [split])
    rw [List.head?_cons, Omap.scan, T.next_eq _ _ _ _ split, rest]
    rfl

theorem cached_spec (sim : ops.Sim keys P s m) : ∃ s',
    ops.cached s = some (m.map fun p => (p.2.1, some p.2.2), s') ∧ ops.Sim keys P s' m := by
  have listing : ((T.nodes (ops.omap s).tree).map T.item).map
      (fun kv => (kv.key, (ops.omap s).vals[kv.ref]?)) = m.map fun p => (p.2.1, some p.2.2) := by
    have entries := sim.refines.entries
    clear sim
    generalize T.nodes (ops.omap s).tree = nodes at entries
    induction entries with
    | nil => rfl
    | cons head _ ih => simp only [List.map_cons, ih, head.key, head.val]
  unfold MapOps.cached Omap.cached
  split
  · rename_i usable
    obtain ⟨eq, keep⟩ := imp.withOmap s (ops.omap s) sim.keeps rfl rfl
    rw [full_of_usable sim usable]
    exact ⟨_, by simp [listing], by rw [eq]; exact sim.refines, keep⟩
  · have scan := scan_spec (ops.omap s) (T.len (ops.omap s).tree) []
      (T.nodes (ops.omap s).tree) (Nat.le_of_eq (T.len_eq _).symm) rfl
    obtain ⟨eq, keep⟩ := imp.withOmap s { ops.omap s with
      ordercache := (T.nodes (ops.omap s).tree).map T.item
      cacheversion := (ops.omap s).version } sim.keeps rfl rfl
    rw [T.min_eq, scan]
    refine ⟨_, by simp [listing], ?_, keep⟩
    rw [eq]
    exact ⟨sim.refines.entries, sim.refines.refs, sim.refines.canon, List.prefix_rfl⟩

theorem get2_spec (sim : ops.Sim keys P s m) (key : K) :
    ops.get2 s key = (Entries.get keys m key).map Prod.snd := by
  rw [MapOps.get2, imp.getokv s m key sim.refines sim.keeps]
  cases found : Entries.get keys m key with
  | none => rw [sim.refines.getokv_none found]; rfl
  | some entry =>
    obtain ⟨kv, eq, val, _⟩ := sim.refines.getokv_some found
    rw [eq]
    exact val

theorem loop_step (body : Body K V) (reset : Bool) (sim : ops.Sim keys P s m) :
    ∃ answer s', (ops.loop body reset s).map (fun r => (Answer.listing r.2, r.1)) = some (answer, s') ∧
      (¬ ops.Skips keys s (.all body) → answer = .listing (Entries.all keys body m).2 ∧
        ops.Sim keys P s' (Entries.all keys body m).1) ∧
      (ops.Skips keys s (.all body) → answer ≠ .listing (Entries.all keys body m).2) := by
  obtain ⟨s', seen, run, spec⟩ := loop_spec imp body reset sim
  rw [run]
  refine ⟨_, s', rfl, ?_⟩
  rw [MapOps.Skips, entries_of_sim sim, ← Bool.and_eq_true]
  split at spec <;> rename_i skips
  · exact ⟨fun not => absurd skips not, fun _ same => spec (Answer.listing.inj same)⟩
  · exact ⟨fun _ => ⟨congrArg _ spec.1, spec.2⟩, fun yes => absurd yes skips⟩

theorem step_spec (sim : ops.Sim keys P s m) (op : Op K V) :
    ∃ answer s', ops.step s op = some (answer, s') ∧
      (¬ ops.Skips keys s op → answer = (Entries.step keys m op).1 ∧
        ops.Sim keys P s' (Entries.step keys m op).2) ∧
      (ops.Skips keys s op → answer ≠ (Entries.step keys m op).1) := by
  cases op with
  | set key val =>
    obtain ⟨s', run, eq, keep⟩ := imp.set s m key val sim.refines sim.keeps
    obtain ⟨flag, refines⟩ := sim.refines.set key val
    exact ⟨.flag _, s', by rw [MapOps.step, run]; rfl,
      fun _ => ⟨congrArg Answer.flag flag, eq ▸ refines, keep⟩, nofun⟩
  | delkey key =>
    obtain ⟨flag, eq, keep⟩ := imp.delkey s m key sim.refines sim.keeps
    obtain ⟨flag', refines⟩ := sim.refines.delkey key
    exact ⟨_, _, rfl, fun _ => ⟨congrArg _ (flag.trans flag'), eq ▸ refines, keep⟩, nofun⟩
  | deleteAll =>
    obtain ⟨eq, keep⟩ := imp.deleteAll s sim.keeps
    exact ⟨_, _, rfl, fun _ => ⟨rfl, eq ▸ Omap.Refines.deleteAll, keep⟩, nofun⟩
  | get2 key => exact ⟨_, s, rfl, fun _ => ⟨congrArg _ (get2_spec imp sim key), sim⟩, nofun⟩
  | len =>
    have length := (imp.len s m sim.refines sim.keeps).trans sim.refines.len
    exact ⟨_, s, rfl, fun _ => ⟨congrArg _ length, sim⟩, nofun⟩
  | cached =>
    obtain ⟨s', run, sim'⟩ := cached_spec imp sim
    have values : (m.map fun p => (p.2.1, some p.2.2)).mapM (fun kv => kv.2.map (kv.1, ·)) =
        some (m.map Prod.snd) := by
      clear sim sim' run
      induction m with
      | nil => rfl
      | cons p m ih => simp_all
    exact ⟨.listing (m.map Prod.snd), s', by simp [MapOps.step, run, values],
      fun _ => ⟨rfl, sim'⟩, nofun⟩
  | all body => exact loop_step imp body true sim
  | allokv body => exact loop_step imp body false sim

/-- The answers are those of the sorted entries exactly when no loop of the run skips an entry. -/
theorem run_spec (sim : ops.Sim keys P s m) (script : List (Op K V)) :
    ops.run script s = some (Entries.run keys script m) ↔ ops.Clean keys script s := by
  induction script generalizing s m with
  | nil => exact ⟨fun _ => trivial, fun _ => rfl⟩
  | cons op script ih =>
    obtain ⟨answer, s', step, right, wrong⟩ := step_spec imp sim op
    have unfolded : ops.run (op :: script) s = (ops.run script s').map (answer :: ·) := by
      rw [MapOps.run, step]
      cases run : ops.run script s' <;> simp [run]
    rw [unfolded, Entries.run, Option.map_eq_some_iff, MapOps.Clean]
    by_cases skips : ops.Skips keys s op
    · refine ⟨?_, fun clean => absurd skips clean.1⟩
      rintro ⟨answers, _, same⟩
      exact absurd (List.cons.inj same).1 (wrong skips)
    · obtain ⟨rfl, sim'⟩ := right skips
      constructor
      · rintro ⟨answers, run, same⟩
        rw [(List.cons.inj same).2] at run
        refine ⟨skips, fun answer s'' step' => ?_⟩
        rw [step] at step'
        cases step'
        exact (ih sim').mp run
      · exact fun clean => ⟨_, (ih sim').mpr (clean.2 _ _ step), rfl⟩

end MapOps

end Goivy
