import Goivy.Logic.KeyIdentity
import Goivy.Util.OmapRuns

/-! Which expressions share a key, and the maps and sets keyed by them. -/
namespace Goivy

theorem sortVars_perm (vars : List LogicVariable) : (sortVars vars).Perm vars :=
  List.mergeSort_perm _ _

theorem sortVars_pairwise (vars : List LogicVariable) :
    (sortVars vars).Pairwise fun v w => v.sexp ≤ w.sexp := by
  have order : (sortVars vars).Pairwise fun v w => decide (v.sexp ≤ w.sexp) := List.pairwise_mergeSort
    (fun a b c hab hbc => by simpa using le_trans (of_decide_eq_true hab) (of_decide_eq_true hbc))
    (fun a b => by simpa using le_total a.sexp b.sexp) vars
  simpa using order

theorem sortVars_sortVars (vars : List LogicVariable) : sortVars (sortVars vars) = sortVars vars :=
  List.mergeSort_of_pairwise (by simpa using sortVars_pairwise vars)

theorem varsTree_sortVars (vars : List LogicVariable) : varsTree (sortVars vars) = varsTree vars := by
  rw [varsTree, sortVars_sortVars, varsTree]

theorem tree_eq_of_sexp {a b : Sexp} {s t : String} (hs : s.toList = a.print) (ht : t.toList = b.print)
    (ha : a.Proper isSortTag) (hb : b.Proper isSortTag) (same : s = t) : a = b := by
  have ends : Sexp.Ends Sexp.space [] := fun c mem => by simp at mem
  have printed : a.print ++ [] = b.print ++ [] := by rw [← hs, ← ht, same]
  exact (Sexp.print_inj a b ha hb (fun _ => ends) (fun _ => ends) printed).1

/-- Variables are sorted alike exactly when they are the same up to their order. -/
theorem sortVars_eq_iff {vars vars' : List LogicVariable} (plain : ∀ v ∈ vars, v.Plain) :
    sortVars vars = sortVars vars' ↔ vars.Perm vars' := by
  constructor
  · intro same
    exact (sortVars_perm vars).symm.trans (same ▸ sortVars_perm vars')
  · intro perm
    have sorted := ((sortVars_perm vars).trans perm).trans (sortVars_perm vars').symm
    refine sorted.eq_of_pairwise (fun v w hv hw le le' => ?_) (sortVars_pairwise vars)
      (sortVars_pairwise vars')
    have pv := plain v ((sortVars_perm vars).mem_iff.mp hv)
    have pw := plain w (perm.mem_iff.mpr ((sortVars_perm vars').mem_iff.mp hw))
    have trees := tree_eq_of_sexp v.toList_sexp w.toList_sexp (LogicVariable.proper pv)
      (LogicVariable.proper pw) (le_antisymm le le')
    exact LogicVariable.tree_inj pv pw trees

namespace LogicExpr

mutual
/-- The key does not see how an expression is arranged. -/
theorem tree_arrange (loose : Bool) : ∀ e : LogicExpr, (e.arrange loose).tree = e.tree
  | var _ => rfl
  | const _ _ => rfl
  | apply func terms => by rw [arrange, tree, tree, tree_arrange loose func, trees_arrange loose terms]
  | eq t1 t2 | implies t1 t2 | iff t1 t2 | cond t1 t2 | definition t1 t2 | definitionSchema t1 t2 => by
    rw [arrange, tree, tree, tree_arrange loose t1, tree_arrange loose t2]
  | not body => by rw [arrange, tree, tree, tree_arrange loose body]
  | and terms | or terms => by rw [arrange, tree, tree, trees_arrange loose terms]
  | ite c t e => by
    rw [arrange, tree, tree, tree_arrange loose c, tree_arrange loose t, tree_arrange loose e]
  | globally environ body | eventually environ body => by
    rw [arrange, tree, tree, tree_arrange loose body]
    cases loose <;> rfl
  | whenOperator _ t1 t2 => by
    rw [arrange, tree, tree, tree_arrange loose t1, tree_arrange loose t2]
  | forAll vars body | exists_ vars body => by
    rw [arrange, tree, tree, varsTree_sortVars, tree_arrange loose body]
  | rawForAll _ vars body | lambda vars body => by
    rw [arrange, tree, tree, tree_arrange loose body]
    cases loose
    · rfl
    · rw [if_pos rfl, varsTree_sortVars]
  | namedBinder _ vars environ body => by
    rw [arrange, tree, tree, tree_arrange loose body]
    cases loose
    · rfl
    · rw [if_pos rfl, if_pos rfl, varsTree_sortVars]; rfl

theorem trees_arrange (loose : Bool) : ∀ ts : List LogicExpr, trees (arrangeList loose ts) = trees ts
  | [] => rfl
  | t :: ts => by rw [arrangeList, trees, trees, tree_arrange loose t, trees_arrange loose ts]
end

variable {a b : LogicExpr}

theorem key_eq_of_tree (same : a.tree = b.tree) : nodeKey a = nodeKey b :=
  String.toList_inj.mp (by rw [nodeKey, nodeKey, a.toList_sexp, b.toList_sexp, same])

/-- Expressions that are the same up to the order of bound variables share their key. -/
theorem Same.key_eq (same : a.Same b) : nodeKey a = nodeKey b :=
  key_eq_of_tree (by rw [← tree_arrange false a, same, tree_arrange])

theorem key_eq_iff (ha : a.Plain) (hb : b.Plain) :
    nodeKey a = nodeKey b ↔ a.arrange true = b.arrange true := by
  constructor
  · intro same
    exact tree_inj ha hb (tree_eq_of_sexp a.toList_sexp b.toList_sexp (proper ha) (proper hb) same)
  · intro same
    exact key_eq_of_tree (by rw [← tree_arrange true a, same, tree_arrange])

/-- A key identifies an expression, but for those that can be confused. -/
theorem key_identifies_iff (ha : a.Plain) (hb : b.Plain) :
    (nodeKey a = nodeKey b ↔ a.Same b) ↔ ¬ a.Confusable b := by
  rw [key_eq_iff ha hb, Confusable]
  have same : a.Same b → a.arrange true = b.arrange true :=
    fun same => (key_eq_iff ha hb).mp same.key_eq
  tauto

end LogicExpr

/-! ### Maps and sets -/

variable {T : Rbtree String (Okv String String) Okv.id}

/-- The maps inside, from keys to expressions. -/
abbrev Tab (T : Rbtree String (Okv String String) Okv.id) := Omap T LogicExpr

def tabOps : MapOps T LogicExpr (Tab T) := Omap.ops (.plain String)

structure NodeMap (T : Rbtree String (Okv String String) Okv.id) where
  m : Tab T
  keys : Tab T

structure NodeSet (T : Rbtree String (Okv String String) Okv.id) where
  m : Tab T

inductive NodeOp where
  | put (key value : LogicExpr)
  | get (key : LogicExpr)
  | has (key : LogicExpr)
  | delete (key : LogicExpr)
  | len
  | range (fn : List (Option LogicExpr × LogicExpr) → Bool)

inductive NodeSetOp where
  | add (n : LogicExpr)
  | has (n : LogicExpr)
  | remove (n : LogicExpr)
  | len
  | range (fn : List LogicExpr → Bool)

inductive NodeAnswer where
  | done
  | value (v : Option LogicExpr)
  | flag (b : Bool)
  | number (n : Nat)
  | pairs (seen : List (Option LogicExpr × LogicExpr))
  | members (seen : List LogicExpr)

namespace NodeMap

def new (T : Rbtree String (Okv String String) Okv.id) : NodeMap T := ⟨.newOmap T _, .newOmap T _⟩

def put (nm : NodeMap T) (key value : LogicExpr) : NodeMap T :=
  ⟨(nm.m.set (.plain String) (nodeKey key) value).2, (nm.keys.set (.plain String) (nodeKey key) key).2⟩

def get (nm : NodeMap T) (key : LogicExpr) : Option LogicExpr := tabOps.get2 nm.m (nodeKey key)

def delete (nm : NodeMap T) (key : LogicExpr) : NodeMap T :=
  ⟨(nm.m.delkey (.plain String) (nodeKey key)).2, (nm.keys.delkey (.plain String) (nodeKey key)).2⟩

/-- What `Range` passes to `fn`, which looks at all it has been given so far. -/
def range (nm : NodeMap T) (fn : List (Option LogicExpr × LogicExpr) → Bool) :
    Option (List (Option LogicExpr × LogicExpr) × NodeMap T) := do
  let pair (p : String × LogicExpr) := (tabOps.get2 nm.keys p.1, p.2)
  let (m, seen) ← tabOps.all (fun seen => ([], fn (seen.map pair))) nm.m
  return (seen.map pair, { nm with m })

def step (nm : NodeMap T) : NodeOp → Option (NodeAnswer × NodeMap T)
  | .put key value => some (.done, nm.put key value)
  | .get key => some (.value (nm.get key), nm)
  | .has key => some (.flag (nm.get key).isSome, nm)
  | .delete key => some (.done, nm.delete key)
  | .len => some (.number nm.m.len, nm)
  | .range fn => (nm.range fn).map fun r => (.pairs r.1, r.2)

def run : List NodeOp → NodeMap T → Option (List NodeAnswer)
  | [], _ => some []
  | op :: ops, nm => do
    let (answer, nm) ← nm.step op
    return answer :: (← run ops nm)

end NodeMap

namespace NodeSet

def new (T : Rbtree String (Okv String String) Okv.id) : NodeSet T := ⟨.newOmap T _⟩

def step (ns : NodeSet T) : NodeSetOp → Option (NodeAnswer × NodeSet T)
  | .add n => some (.done, ⟨(ns.m.set (.plain String) (nodeKey n) n).2⟩)
  | .has n => some (.flag (tabOps.get2 ns.m (nodeKey n)).isSome, ns)
  | .remove n => some (.done, ⟨(ns.m.delkey (.plain String) (nodeKey n)).2⟩)
  | .len => some (.number ns.m.len, ns)
  | .range fn => (tabOps.all (fun seen => ([], fn (seen.map Prod.snd))) ns.m).map fun r =>
      (.members (r.2.map Prod.snd), ⟨r.1⟩)

def run : List NodeSetOp → NodeSet T → Option (List NodeAnswer)
  | [], _ => some []
  | op :: ops, ns => do
    let (answer, ns) ← ns.step op
    return answer :: (← run ops ns)

end NodeSet

/-! ### What they are for -/

/-- The items a loop sees that stops when it has seen enough. -/
def visit {α : Type} (fn : List α → Bool) : List α → List α → List α
  | [], seen => seen
  | x :: xs, seen => if fn (seen ++ [x]) then visit fn xs (seen ++ [x]) else seen ++ [x]

/-- A map on expressions that are the same up to the order of bound variables. -/
abbrev Assoc := List (LogicExpr × LogicExpr)

namespace Assoc

open Classical in
noncomputable def without (m : Assoc) (key : LogicExpr) : Assoc := m.filter fun p => ¬ p.1.Same key

noncomputable def put (m : Assoc) (key value : LogicExpr) : Assoc := (key, value) :: m.without key

open Classical in
noncomputable def get (m : Assoc) (key : LogicExpr) : Option LogicExpr :=
  (m.find? fun p => p.1.Same key).map Prod.snd

noncomputable def after (m : Assoc) : NodeOp → Assoc
  | .put key value => m.put key value
  | .delete key => m.without key
  | .get _ | .has _ | .len | .range _ => m

/-- The answers a map may give; the order of `Range` is open. -/
def Allows (m : Assoc) : NodeOp → NodeAnswer → Prop
  | .put _ _, answer | .delete _, answer => answer = .done
  | .get key, answer => answer = .value (m.get key)
  | .has key, answer => answer = .flag (m.get key).isSome
  | .len, answer => answer = .number m.length
  | .range fn, answer => ∃ order : List (Option LogicExpr × LogicExpr),
      order.Perm (m.map fun p => (some p.1, p.2)) ∧ answer = .pairs (visit fn order [])

noncomputable def afterSet (m : Assoc) : NodeSetOp → Assoc
  | .add n => m.put n n
  | .remove n => m.without n
  | .has _ | .len | .range _ => m

def AllowsSet (m : Assoc) : NodeSetOp → NodeAnswer → Prop
  | .add _, answer | .remove _, answer => answer = .done
  | .has n, answer => answer = .flag (m.get n).isSome
  | .len, answer => answer = .number m.length
  | .range fn, answer => ∃ order : List LogicExpr,
      order.Perm (m.map Prod.snd) ∧ answer = .members (visit fn order [])

/-- Answers of a map, one for each operation. -/
def Answers : Assoc → List NodeOp → List NodeAnswer → Prop
  | _, [], answers => answers = []
  | m, op :: ops, answers => ∃ answer rest, answers = answer :: rest ∧ m.Allows op answer ∧
      Answers (m.after op) ops rest

def AnswersSet : Assoc → List NodeSetOp → List NodeAnswer → Prop
  | _, [], answers => answers = []
  | m, op :: ops, answers => ∃ answer rest, answers = answer :: rest ∧ m.AllowsSet op answer ∧
      AnswersSet (m.afterSet op) ops rest

end Assoc

/-- The expressions that the operation looks up. -/
def NodeOp.node : NodeOp → List LogicExpr
  | .put key _ | .get key | .has key | .delete key => [key]
  | .len | .range _ => []

def NodeSetOp.node : NodeSetOp → List LogicExpr
  | .add n | .has n | .remove n => [n]
  | .len | .range _ => []

/-- Keys tell these expressions apart up to the order of bound variables. -/
def Distinct (ns : List LogicExpr) : Prop :=
  ∀ a ∈ ns, ∀ b ∈ ns, nodeKey a = nodeKey b ↔ a.Same b

def keyEntry (p : LogicExpr × LogicExpr) : String × String × LogicExpr :=
  (nodeKey p.1, nodeKey p.1, p.2)

/-- The table holds these expressions under their keys. -/
def Tab.Holds (s : Tab T) (m : Assoc) : Prop :=
  ∃ entries, s.Refines (.plain String) entries ∧ entries.Perm (m.map keyEntry)

section Holds

variable {s : Tab T} {m : Assoc} {ns : List LogicExpr} {key : LogicExpr}

theorem without_eq (distinct : Distinct ns) (mem : ∀ p ∈ m, p.1 ∈ ns) (here : key ∈ ns) :
    m.without key = m.filter fun p => nodeKey p.1 ≠ nodeKey key := by
  refine List.filter_congr fun p hp => ?_
  simp [distinct p.1 (mem p hp) key here]

theorem map_keyEntry_filter (m : Assoc) (k : String) :
    (m.map keyEntry).filter (fun p => p.1 ≠ k) = (m.filter fun p => nodeKey p.1 ≠ k).map keyEntry := by
  rw [List.filter_map]
  rfl

theorem put_perm {C W : Type} [LinearOrder C] (m : List (C × W)) (c : C) (w : W) :
    (SortedEntries.put m c w).Perm ((c, w) :: SortedEntries.remove m c) := by
  have below : (SortedEntries.remove m c).filter (fun p => p.1 < c) = m.filter fun p => p.1 < c := by
    rw [SortedEntries.remove, List.filter_filter]
    refine List.filter_congr fun p _ => ?_
    by_cases less : p.1 < c
    · simp [less, less.ne]
    · simp [less]
  have above : (SortedEntries.remove m c).filter (fun p => !decide (p.1 < c)) =
      m.filter fun p => c < p.1 := by
    rw [SortedEntries.remove, List.filter_filter]
    refine List.filter_congr fun p _ => ?_
    obtain less | eq | greater := lt_trichotomy p.1 c
    · simp [less, less.not_gt]
    · simp [eq]
    · simp [greater, greater.ne', greater.le]
  have parts := List.filter_append_perm (fun p : C × W => decide (p.1 < c)) (SortedEntries.remove m c)
  rw [below, above] at parts
  exact List.perm_middle.trans (parts.cons _)

theorem Tab.Holds.new : Tab.Holds (Omap.newOmap T LogicExpr) [] :=
  ⟨[], .newOmap, .refl _⟩

theorem Tab.Holds.set (h : s.Holds m) (distinct : Distinct ns) (mem : ∀ p ∈ m, p.1 ∈ ns)
    (here : key ∈ ns) (val : LogicExpr) :
    Tab.Holds (s.set (.plain String) (nodeKey key) val).2 (m.put key val) := by
  obtain ⟨entries, refines, perm⟩ := h
  refine ⟨_, (refines.set (nodeKey key) val).2, ?_⟩
  have kept : (SortedEntries.remove entries (nodeKey key)).Perm ((m.without key).map keyEntry) := by
    rw [without_eq distinct mem here, ← map_keyEntry_filter]
    exact perm.filter _
  have first : ∀ w, entries.lookup (nodeKey key) = some w → w.1 = nodeKey key := by
    intro w found
    have listed := perm.mem_iff.mp ((InsMap.mem_iff_lookup refines.sorted.nodup).mpr found)
    obtain ⟨p, _, eq⟩ := List.mem_map.mp listed
    obtain ⟨keys, rest⟩ := Prod.mk.inj eq
    rw [← rest, keys]
  have result : (Entries.set (.plain String) entries (nodeKey key) val).2 =
      SortedEntries.put entries (nodeKey key) (nodeKey key, val) := by
    unfold Entries.set
    rw [if_neg (by simp [Keys.plain])]
    split
    · rename_i found
      exact congrArg (fun k => SortedEntries.put entries (nodeKey key) (k, val)) (first _ found)
    · rfl
  rw [result]
  exact (put_perm _ _ _).trans (kept.cons _)

theorem Tab.Holds.delkey (h : s.Holds m) (distinct : Distinct ns) (mem : ∀ p ∈ m, p.1 ∈ ns)
    (here : key ∈ ns) :
    Tab.Holds (s.delkey (.plain String) (nodeKey key)).2 (m.without key) := by
  obtain ⟨entries, refines, perm⟩ := h
  refine ⟨_, (refines.delkey (nodeKey key)).2, ?_⟩
  have result : (Entries.delkey (.plain String) entries (nodeKey key)).2 =
      SortedEntries.remove entries (nodeKey key) := by
    unfold Entries.delkey
    split
    · rfl
    · rename_i missing
      have absent : entries.lookup (nodeKey key) = none := Option.not_isSome_iff_eq_none.mp missing
      exact (SortedEntries.remove_absent fun p hp same => by
        simpa [same] using List.lookup_eq_none_iff.mp absent p hp).symm
  rw [result, without_eq distinct mem here, ← map_keyEntry_filter]
  exact perm.filter _

theorem lookup_keyEntry (m : Assoc) (k : String) :
    ((m.map keyEntry).lookup k).map Prod.snd =
      (m.find? fun p => nodeKey p.1 = k).map Prod.snd := by
  induction m with
  | nil => rfl
  | cons p m ih =>
    rw [List.map_cons, keyEntry, List.lookup_cons, List.find?_cons]
    by_cases same : nodeKey p.1 = k
    · simp [same]
    · rw [beq_false_of_ne (Ne.symm same), decide_eq_false same]
      exact ih

theorem get_eq (distinct : Distinct ns) (mem : ∀ p ∈ m, p.1 ∈ ns) (here : key ∈ ns) :
    m.get key = (m.find? fun p => nodeKey p.1 = nodeKey key).map Prod.snd := by
  refine congrArg _ (List.find?_congr fun p hp => ?_)
  simp [distinct p.1 (mem p hp) key here]

theorem Tab.Holds.nodup (h : s.Holds m) : ((m.map keyEntry).map Prod.fst).Nodup := by
  obtain ⟨entries, refines, perm⟩ := h
  exact (perm.map Prod.fst).nodup_iff.mp refines.sorted.nodup

theorem Tab.Holds.get2_lookup (h : s.Holds m) (k : String) :
    tabOps.get2 s k = ((m.map keyEntry).lookup k).map Prod.snd := by
  obtain ⟨entries, refines, perm⟩ := id h
  have sim : MapOps.Sim tabOps (.plain String) (fun _ => True) s entries := ⟨refines, trivial⟩
  have found : entries.lookup k = (m.map keyEntry).lookup k := by
    refine Option.ext fun w => ?_
    rw [← InsMap.mem_iff_lookup refines.sorted.nodup, ← InsMap.mem_iff_lookup h.nodup, perm.mem_iff]
  rw [← found]
  exact MapOps.get2_spec Omap.implements sim k

theorem Tab.Holds.get2 (h : s.Holds m) (distinct : Distinct ns) (mem : ∀ p ∈ m, p.1 ∈ ns)
    (here : key ∈ ns) : tabOps.get2 s (nodeKey key) = m.get key := by
  rw [get_eq distinct mem here, ← lookup_keyEntry, h.get2_lookup]

theorem Tab.Holds.len (h : s.Holds m) : s.len = m.length := by
  obtain ⟨entries, refines, perm⟩ := h
  rw [refines.len, perm.length_eq, List.length_map]

/-- A loop that only looks. -/
theorem losesLast_quiet {C K V : Type} [LinearOrder C] (keys : Keys C K) (fn : List (K × V) → Bool)
    (cs : List C) (m : List (C × K × V)) (seen : List (K × V)) :
    Entries.losesLast keys (fun seen => ([], fn seen)) cs m seen = false := by
  induction cs generalizing seen with
  | nil => rfl
  | cons c cs ih =>
    rw [Entries.losesLast]
    split
    · rfl
    · simp [ih]

theorem loop_quiet {C K V : Type} [LinearOrder C] (keys : Keys C K) (fn : List (K × V) → Bool)
    {rest m : List (C × K × V)} (found : ∀ q ∈ rest, m.lookup q.1 = some q.2) (seen : List (K × V)) :
    Entries.loop keys (fun seen => ([], fn seen)) (rest.map Prod.fst) m seen =
      (m, visit fn (rest.map Prod.snd) seen) := by
  induction rest generalizing seen with
  | nil => rfl
  | cons q rest ih =>
    obtain ⟨here, found⟩ := List.forall_mem_cons.mp found
    rw [List.map_cons, List.map_cons, Entries.loop, here, visit]
    simp only [List.foldl_nil, ih found]
    split <;> rfl

theorem Tab.Holds.all (h : s.Holds m) (fn : List (String × LogicExpr) → Bool) :
    ∃ s' order, tabOps.all (fun seen => ([], fn seen)) s = some (s', visit fn order []) ∧
      Tab.Holds s' m ∧ order.Perm (m.map fun p => (nodeKey p.1, p.2)) := by
  obtain ⟨entries, refines, perm⟩ := h
  have sim : MapOps.Sim tabOps (.plain String) (fun _ => True) s entries := ⟨refines, trivial⟩
  obtain ⟨s', seen, run, spec⟩ := MapOps.loop_spec Omap.implements (fun seen => ([], fn seen)) true sim
  rw [losesLast_quiet, Bool.and_false, if_neg (by simp), Entries.all, loop_quiet _ _ fun q hq =>
    (InsMap.mem_iff_lookup refines.sorted.nodup).mp hq] at spec
  refine ⟨s', entries.map Prod.snd, run.trans (by rw [spec.1]), ⟨entries, spec.2.refines, perm⟩, ?_⟩
  have seconds := perm.map Prod.snd
  rwa [List.map_map] at seconds

end Holds

theorem visit_map {α β : Type} (g : α → β) (fn : List β → Bool) (xs seen : List α) :
    (visit (fun l => fn (l.map g)) xs seen).map g = visit fn (xs.map g) (seen.map g) := by
  induction xs generalizing seen with
  | nil => rfl
  | cons x xs ih =>
    rw [visit, List.map_cons, visit, List.map_append, List.map_cons, List.map_nil]
    split
    · rw [ih, List.map_append, List.map_cons, List.map_nil]
    · rw [List.map_append, List.map_cons, List.map_nil]

theorem mem_after {m : Assoc} {ns : List LogicExpr} (mem : ∀ p ∈ m, p.1 ∈ ns) {op : NodeOp}
    (here : ∀ a ∈ op.node, a ∈ ns) : ∀ p ∈ m.after op, p.1 ∈ ns := by
  cases op with
  | put key value =>
    exact List.forall_mem_cons.mpr ⟨here key List.mem_cons_self, fun p hp => mem p (List.mem_of_mem_filter hp)⟩
  | delete key => exact fun p hp => mem p (List.mem_of_mem_filter hp)
  | get | has | len | range => exact mem

theorem mem_afterSet {m : Assoc} {ns : List LogicExpr} (mem : ∀ p ∈ m, p.1 ∈ ns) {op : NodeSetOp}
    (here : ∀ a ∈ op.node, a ∈ ns) : ∀ p ∈ m.afterSet op, p.1 ∈ ns := by
  cases op with
  | add n =>
    exact List.forall_mem_cons.mpr ⟨here n List.mem_cons_self, fun p hp => mem p (List.mem_of_mem_filter hp)⟩
  | remove n => exact fun p hp => mem p (List.mem_of_mem_filter hp)
  | has | len | range => exact mem

namespace NodeMap

variable {nm : NodeMap T} {m : Assoc} {ns : List LogicExpr}

/-- Each entry is in the one table with its value, in the other with its expression. -/
structure Holds (nm : NodeMap T) (m : Assoc) : Prop where
  values : Tab.Holds nm.m m
  keys : Tab.Holds nm.keys (m.map fun p => (p.1, p.1))

theorem without_dup (m : Assoc) (key : LogicExpr) :
    Assoc.without (m.map fun p => (p.1, p.1)) key = (m.without key).map fun p => (p.1, p.1) := by
  rw [Assoc.without, List.filter_map]
  rfl

theorem Holds.range (h : nm.Holds m) (fn : List (Option LogicExpr × LogicExpr) → Bool) :
    ∃ nm' order, nm.range fn = some (visit fn order [], nm') ∧ nm'.Holds m ∧
      order.Perm (m.map fun p => (some p.1, p.2)) := by
  let pair (p : String × LogicExpr) := (tabOps.get2 nm.keys p.1, p.2)
  obtain ⟨s', order, run, holds, perm⟩ := h.values.all fun seen => fn (seen.map pair)
  have found : ∀ p ∈ m, pair (nodeKey p.1, p.2) = (some p.1, p.2) := by
    intro p hp
    have listed : keyEntry (p.1, p.1) ∈ (m.map fun p => (p.1, p.1)).map keyEntry :=
      List.mem_map_of_mem (List.mem_map_of_mem (f := fun p => (p.1, p.1)) hp)
    have lookup := (InsMap.mem_iff_lookup h.keys.nodup).mp listed
    exact congrArg (·, p.2) (by rw [h.keys.get2_lookup, lookup]; rfl)
  refine ⟨⟨s', nm.keys⟩, order.map pair, ?_, ⟨holds, h.keys⟩, ?_⟩
  · have seen := visit_map pair fn order []
    rw [List.map_nil] at seen
    rw [← seen, NodeMap.range]
    exact congrArg (Option.bind · fun r => some (r.2.map pair, (⟨r.1, nm.keys⟩ : NodeMap T))) run
  · have pairs := perm.map pair
    have listed : (m.map fun p => (nodeKey p.1, p.2)).map pair = m.map fun p => (some p.1, p.2) := by
      rw [List.map_map]
      exact List.map_congr_left found
    rwa [listed] at pairs

theorem Holds.step (h : nm.Holds m) (distinct : Distinct ns) (mem : ∀ p ∈ m, p.1 ∈ ns) {op : NodeOp}
    (here : ∀ a ∈ op.node, a ∈ ns) : ∃ answer nm', nm.step op = some (answer, nm') ∧
      m.Allows op answer ∧ nm'.Holds (m.after op) := by
  have dups : ∀ p ∈ m.map (fun p => (p.1, p.1)), p.1 ∈ ns := by
    intro p hp
    obtain ⟨q, hq, rfl⟩ := List.mem_map.mp hp
    exact mem q hq
  cases op with
  | put key value =>
    have mine := here key List.mem_cons_self
    refine ⟨_, _, rfl, rfl, h.values.set distinct mem mine value, ?_⟩
    have keys := h.keys.set distinct dups mine key
    rwa [Assoc.put, without_dup] at keys
  | get key =>
    have mine := here key List.mem_cons_self
    exact ⟨_, _, rfl, congrArg _ (h.values.get2 distinct mem mine), h⟩
  | has key =>
    have mine := here key List.mem_cons_self
    have found : nm.get key = m.get key := h.values.get2 distinct mem mine
    exact ⟨_, _, rfl, by rw [found]; rfl, h⟩
  | delete key =>
    have mine := here key List.mem_cons_self
    refine ⟨_, _, rfl, rfl, h.values.delkey distinct mem mine, ?_⟩
    have keys := h.keys.delkey distinct dups mine
    rwa [without_dup] at keys
  | len => exact ⟨_, _, rfl, congrArg _ h.values.len, h⟩
  | range fn =>
    obtain ⟨nm', order, run, holds, perm⟩ := h.range fn
    exact ⟨_, nm', by rw [NodeMap.step, run]; rfl, ⟨order, perm, rfl⟩, holds⟩

theorem Holds.run (h : nm.Holds m) (distinct : Distinct ns) (mem : ∀ p ∈ m, p.1 ∈ ns)
    {script : List NodeOp} (here : ∀ op ∈ script, ∀ a ∈ op.node, a ∈ ns) :
    ∃ answers, nm.run script = some answers ∧ m.Answers script answers := by
  induction script generalizing nm m with
  | nil => exact ⟨[], rfl, rfl⟩
  | cons op script ih =>
    obtain ⟨first, later⟩ := List.forall_mem_cons.mp here
    obtain ⟨answer, nm', step, allowed, holds⟩ := h.step distinct mem first
    obtain ⟨rest, run, answers⟩ := ih holds (mem_after mem first) later
    exact ⟨answer :: rest, by rw [NodeMap.run, step]; simp [run], answer, rest, rfl, allowed, answers⟩

end NodeMap

namespace NodeSet

variable {set : NodeSet T} {m : Assoc} {ns : List LogicExpr}

theorem step_spec (h : Tab.Holds set.m m) (distinct : Distinct ns) (mem : ∀ p ∈ m, p.1 ∈ ns)
    {op : NodeSetOp} (here : ∀ a ∈ op.node, a ∈ ns) : ∃ answer set',
      set.step op = some (answer, set') ∧ m.AllowsSet op answer ∧ Tab.Holds set'.m (m.afterSet op) := by
  cases op with
  | add n => exact ⟨_, _, rfl, rfl, h.set distinct mem (here n List.mem_cons_self) n⟩
  | has n =>
    have found := h.get2 distinct mem (here n List.mem_cons_self)
    exact ⟨_, _, rfl, by rw [found]; rfl, h⟩
  | remove n => exact ⟨_, _, rfl, rfl, h.delkey distinct mem (here n List.mem_cons_self)⟩
  | len => exact ⟨_, _, rfl, congrArg _ h.len, h⟩
  | range fn =>
    obtain ⟨s', order, run, holds, perm⟩ := h.all fun seen => fn (seen.map Prod.snd)
    have seen := visit_map Prod.snd fn order []
    rw [List.map_nil] at seen
    refine ⟨_, ⟨s'⟩, by rw [NodeSet.step, run]; rfl, ⟨order.map Prod.snd, ?_, by rw [← seen]⟩, holds⟩
    have seconds := perm.map Prod.snd
    rwa [List.map_map] at seconds

theorem run_spec (h : Tab.Holds set.m m) (distinct : Distinct ns) (mem : ∀ p ∈ m, p.1 ∈ ns)
    {script : List NodeSetOp} (here : ∀ op ∈ script, ∀ a ∈ op.node, a ∈ ns) :
    ∃ answers, set.run script = some answers ∧ m.AnswersSet script answers := by
  induction script generalizing set m with
  | nil => exact ⟨[], rfl, rfl⟩
  | cons op script ih =>
    obtain ⟨first, later⟩ := List.forall_mem_cons.mp here
    obtain ⟨answer, set', step, allowed, holds⟩ := step_spec h distinct mem first
    obtain ⟨rest, run, answers⟩ := ih holds (mem_afterSet mem first) later
    exact ⟨answer :: rest, by rw [NodeSet.run, step]; simp [run], answer, rest, rfl, allowed, answers⟩

end NodeSet

/-- Keys identify expressions with plain names, and the maps and sets keyed by them are maps and
sets of expressions up to the order of bound variables, exactly when no two of the expressions can
be confused. -/
theorem nodeKey_identifies_iff (ns : List LogicExpr) (plain : ∀ n ∈ ns, n.Plain) :
    ((∀ a ∈ ns, ∀ b ∈ ns, nodeKey a = nodeKey b ↔ a.Same b) ∧
      ∀ T : Rbtree String (Okv String String) Okv.id,
        (∀ script : List NodeOp, (∀ op ∈ script, ∀ a ∈ op.node, a ∈ ns) →
          ∃ answers, (NodeMap.new T).run script = some answers ∧ Assoc.Answers [] script answers) ∧
        ∀ script : List NodeSetOp, (∀ op ∈ script, ∀ a ∈ op.node, a ∈ ns) →
          ∃ answers, (NodeSet.new T).run script = some answers ∧ Assoc.AnswersSet [] script answers) ↔
      ∀ a ∈ ns, ∀ b ∈ ns, ¬ a.Confusable b := by
  constructor
  · intro holds a ha b hb
    exact (LogicExpr.key_identifies_iff (plain a ha) (plain b hb)).mp (holds.1 a ha b hb)
  · intro clear
    have distinct : Distinct ns := fun a ha b hb =>
      (LogicExpr.key_identifies_iff (plain a ha) (plain b hb)).mpr (clear a ha b hb)
    have empty : ∀ p ∈ ([] : Assoc), p.1 ∈ ns := fun p mem => by cases mem
    refine ⟨distinct, fun T => ⟨fun script here => ?_, fun script here => ?_⟩⟩
    · exact NodeMap.Holds.run ⟨.new, .new⟩ distinct empty here
    · exact NodeSet.run_spec .new distinct empty here

def paramX : LogicVariable := ⟨"X", .first .boolean⟩

def paramY : LogicVariable := ⟨"Y", .first .boolean⟩

theorem params_plain : ∀ v ∈ [paramX, paramY], v.Plain := by
  have x : PlainName "X" := plainName_word (by simp) (by simp)
  have y : PlainName "Y" := plainName_word (by simp) (by simp)
  simp only [List.forall_mem_cons, LogicVariable.Plain]
  exact ⟨⟨x, trivial⟩, ⟨y, trivial⟩, fun v mem => absurd mem List.not_mem_nil⟩

/-- A string constant. -/
def quotedConst : LogicExpr := .const "\"a )\"" (.first .boolean)

theorem quotedConst_plain : quotedConst.Plain :=
  ⟨plainName_quoted (show "\"a )\"".toList = '"' :: ['a', ' ', ')'] ++ ['"'] from by simp) (by decide),
    trivial⟩

/-- A variable and a string constant are told apart. -/
theorem nodeKey_identifies_quoted :
    nodeKey (.var paramX) = nodeKey quotedConst ↔ (LogicExpr.var paramX).Same quotedConst :=
  ((nodeKey_identifies_iff [.var paramX, quotedConst] (by
    have plain : (LogicExpr.var paramX).Plain := params_plain paramX List.mem_cons_self
    simpa using ⟨plain, quotedConst_plain⟩)).mpr (by
    simp [LogicExpr.Confusable, LogicExpr.Same, LogicExpr.arrange, quotedConst])).1
    _ List.mem_cons_self _ (List.mem_cons_of_mem _ List.mem_cons_self)

/-- Functions that differ in the order of their parameters are not, though they give different
results. -/
theorem nodeKey_confuses_lambdas :
    let first := LogicExpr.lambda [paramX, paramY] (.var paramX)
    let second := LogicExpr.lambda [paramY, paramX] (.var paramX)
    first.Plain ∧ second.Plain ∧ nodeKey first = nodeKey second ∧ ¬ first.Same second := by
  have swap : [paramX, paramY].Perm [paramY, paramX] := .swap _ _ _
  have vars : varsTree [paramX, paramY] = varsTree [paramY, paramX] := by
    rw [varsTree, (sortVars_eq_iff params_plain).mpr swap, varsTree]
  have plain : (LogicExpr.var paramX).Plain := params_plain paramX List.mem_cons_self
  refine ⟨⟨params_plain, plain⟩, ⟨fun v mem => params_plain v (swap.mem_iff.mpr mem), plain⟩, ?_, ?_⟩
  · exact LogicExpr.key_eq_of_tree (by rw [LogicExpr.tree, vars]; rfl)
  · simp [LogicExpr.Same, LogicExpr.arrange, paramX, paramY]

end Goivy
