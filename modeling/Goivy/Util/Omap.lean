import Goivy.Util.SortedEntries

/-! The ordered maps, over any red-black tree that keeps its nodes in the order of their keys. -/
namespace Goivy

/-- A pointer to an `okv` or `ikv`: its identity and key, which never change, and the place of
its value. -/
structure Okv (C K : Type) where
  id : C
  key : K
  ref : Nat
  deriving DecidableEq

/-- The tree package: `nodes` lists the tree in order, an iterator is a node or the limit. -/
structure Rbtree (C I : Type) [LinearOrder C] (id : I → C) where
  Tree : Type
  Node : Type
  item : Node → I
  nodes : Tree → List Node
  newTree : Tree
  len : Tree → Nat
  min : Tree → Option Node
  next : Tree → Node → Option Node
  findGE_isEqual : Tree → C → Option Node × Bool
  insertGetIt : Tree → I → Tree × Bool × Option Node
  deleteWithIterator : Tree → Node → Tree
  deleteAll : Tree → Tree
  sorted : ∀ t, (nodes t).Pairwise fun n n' => id (item n) < id (item n')
  nodes_newTree : nodes newTree = []
  len_eq : ∀ t, len t = (nodes t).length
  min_eq : ∀ t, min t = (nodes t).head?
  next_eq : ∀ t pre n post, nodes t = pre ++ n :: post → next t n = post.head?
  find_node : ∀ t, ∀ n ∈ nodes t, findGE_isEqual t (id (item n)) = (some n, true)
  find_none : ∀ t c, (∀ n ∈ nodes t, id (item n) ≠ c) → (findGE_isEqual t c).2 = false
  insert_new : ∀ t x, (∀ n ∈ nodes t, id (item n) ≠ id x) → ∃ t' n pre post,
    insertGetIt t x = (t', true, some n) ∧ item n = x ∧ nodes t = pre ++ post ∧
      nodes t' = pre ++ n :: post
  delete_node : ∀ t pre n post, nodes t = pre ++ n :: post →
    nodes (deleteWithIterator t n) = pre ++ post
  nodes_deleteAll : ∀ t, nodes (deleteAll t) = []

variable {C K V : Type} [LinearOrder C]

/-- The maps differ in what identifies a key, and in which keys are nil: `omap` and `Omap` have
`canon = id` and no nil keys. -/
structure Keys (C K : Type) where
  canon : K → C
  isNil : K → Bool

/-- The fields of a map and, in `vals`, the values its pointers lead to. -/
structure Omap (T : Rbtree C (Okv C K) Okv.id) (V : Type) where
  version : Nat
  tree : T.Tree
  ordercache : List (Okv C K)
  cacheversion : Nat
  vals : List V

namespace Omap

variable {T : Rbtree C (Okv C K) Okv.id}

def newOmap (T : Rbtree C (Okv C K) Okv.id) (V : Type) : Omap T V := ⟨0, T.newTree, [], 0, []⟩

def usable (s : Omap T V) : Bool :=
  s.ordercache.length = T.len s.tree && s.cacheversion = s.version

def scan (s : Omap T V) : Nat → Option T.Node → Option (List (Okv C K))
  | _, none => some []
  | 0, some _ => none
  | fuel + 1, some it => (T.item it :: ·) <$> scan s fuel (T.next s.tree it)

def cached (s : Omap T V) : Option (List (Okv C K) × Omap T V) :=
  if s.usable then some (s.ordercache, s)
  else do
    let ordercache ← s.scan (T.len s.tree) (T.min s.tree)
    return (ordercache, { s with ordercache, cacheversion := s.version })

def len (s : Omap T V) : Nat := T.len s.tree

def touched (s : Omap T V) : Omap T V :=
  { s with version := s.version + 1, ordercache := [], cacheversion := 0 }

variable (keys : Keys C K)

def delkey (s : Omap T V) (key : K) : (Bool × Option T.Node) × Omap T V :=
  if keys.isNil key then ((false, none), s)
  else match T.findGE_isEqual s.tree (keys.canon key) with
    | (some it, true) =>
      ((true, T.next s.tree it), { s.touched with tree := T.deleteWithIterator s.tree it })
    | (it, _) => ((false, it), s)

def deleteAll (s : Omap T V) : Omap T V := { s.touched with tree := T.deleteAll s.tree }

def set (s : Omap T V) (key : K) (val : V) : Bool × Omap T V :=
  if keys.isNil key then (false, s)
  else match T.findGE_isEqual s.tree (keys.canon key) with
    | (some it, true) => (false, { s.touched with vals := s.vals.set (T.item it).ref val })
    | _ => (true, { s.touched with
        tree := (T.insertGetIt s.tree ⟨keys.canon key, key, s.vals.length⟩).1
        vals := s.vals ++ [val] })

def getokv (s : Omap T V) (key : K) : Option (Okv C K) :=
  if keys.isNil key then none
  else match T.findGE_isEqual s.tree (keys.canon key) with
    | (some it, true) => some (T.item it)
    | _ => none

end Omap

/-- The fields of a `dmap`: also the index (`none` is the nil map) and the `it` fields that its
pointers lead to. -/
structure Dmap (T : Rbtree C (Okv C K) Okv.id) (V : Type) extends Omap T V where
  idx : Option (List (C × T.Node))
  its : List (Option T.Node)

namespace Dmap

variable {T : Rbtree C (Okv C K) Okv.id} (keys : Keys C K)

def newDmap (T : Rbtree C (Okv C K) Okv.id) (V : Type) : Dmap T V := ⟨.newOmap T V, some [], []⟩

def len (s : Dmap T V) : Nat := (s.idx.getD []).length

def find (s : Dmap T V) (key : K) : Option T.Node := s.idx.bind (·.lookup (keys.canon key))

def delkey (s : Dmap T V) (key : K) : (Bool × Option T.Node) × Dmap T V :=
  if keys.isNil key then ((false, none), s)
  else match s.find keys key with
    | some it =>
      ((true, T.next s.tree it), { s with
        toOmap := { s.touched with tree := T.deleteWithIterator s.tree it }
        idx := s.idx.map (·.filter (·.1 ≠ keys.canon key)) })
    | none => ((false, none), s)

def deleteAll (s : Dmap T V) : Dmap T V :=
  { s with toOmap := { s.touched with tree := T.deleteAll s.tree }, idx := none }

/-- `none` is the panic where index and tree are out of step. -/
def set (s : Dmap T V) (key : K) (val : V) : Option (Bool × Dmap T V) :=
  if keys.isNil key then some (false, s)
  else match s.find keys key with
    | some it => some (false, { s with
        toOmap := { s.touched with vals := s.vals.set (T.item it).ref val }
        idx := some (s.idx.getD []) })
    | none => match T.insertGetIt s.tree ⟨keys.canon key, key, s.vals.length⟩ with
      | (tree, true, some it) => some (true, { s with
          toOmap := { s.touched with tree, vals := s.vals ++ [val] }
          idx := some ((keys.canon key, it) :: s.idx.getD [])
          its := s.its ++ [some it] })
      | _ => none

def getikv (s : Dmap T V) (key : K) : Option (Okv C K) :=
  if keys.isNil key then none else T.item <$> s.find keys key

end Dmap

/-- What a loop's body does to the map between two yields: delete the key it was given, set an
existing key, or write through the pointer of an existing key. -/
inductive Act (K V : Type) where
  | delete
  | update (key : K) (val : V)
  | write (key : K) (val : V)

/-- From the entries seen so far: what to do, and whether to go on. -/
abbrev Body (K V : Type) := List (K × V) → List (Act K V) × Bool

/-- What the loops use of a map of type `σ`. -/
structure MapOps (T : Rbtree C (Okv C K) Okv.id) (V σ : Type) where
  omap : σ → Omap T V
  withOmap : σ → Omap T V → σ
  set : σ → K → V → Option (Bool × σ)
  delkey : σ → K → (Bool × Option T.Node) × σ
  deleteAll : σ → σ
  getokv : σ → K → Option (Okv C K)
  len : σ → Nat
  nextit : σ → Okv C K → Option T.Node → Option (Option T.Node)

variable {T : Rbtree C (Okv C K) Okv.id}

/-- The next node is reached from the one before. -/
def Omap.ops (keys : Keys C K) : MapOps T V (Omap T V) where
  omap s := s
  withOmap _ s := s
  set s key val := some (s.set keys key val)
  delkey s := s.delkey keys
  deleteAll s := s.deleteAll
  getokv s := s.getokv keys
  len s := s.len
  nextit s _ nextit := do return T.next s.tree (← nextit)

/-- The next node is reached from the entry's own iterator. -/
def Dmap.ops (keys : Keys C K) : MapOps T V (Dmap T V) where
  omap s := s.toOmap
  withOmap s o := { s with toOmap := o }
  set s := s.set keys
  delkey s := s.delkey keys
  deleteAll s := s.deleteAll
  getokv s := s.getikv keys
  len s := s.len
  nextit s kv _ := do
    let it ← s.its[kv.ref]?
    return T.next s.tree (← it)

namespace MapOps

variable {σ : Type} (ops : MapOps T V σ)

def get2 (s : σ) (key : K) : Option V := do
  let kv ← ops.getokv s key
  (ops.omap s).vals[kv.ref]?

def cached (s : σ) : Option (List (K × Option V) × σ) := do
  let (kvs, o) ← (ops.omap s).cached
  return (kvs.map fun kv => (kv.key, o.vals[kv.ref]?), ops.withOmap s o)

def perform (kv : Okv C K) (s : σ) : Act K V → Option σ
  | .delete => some (ops.delkey s kv.key).2
  | .update key val =>
    if (ops.getokv s key).isSome then (ops.set s key val).map Prod.snd else some s
  | .write key val => match ops.getokv s key with
    | some kv => some (ops.withOmap s
        { ops.omap s with vals := (ops.omap s).vals.set kv.ref val })
    | none => some s

/-- One call of `yield`: the body sees the entry, acts, and answers whether to go on. -/
def yield (body : Body K V) (s : σ) (seen : List (K × V)) (kv : Okv C K) :
    Option (σ × List (K × V) × Bool) := do
  let val ← (ops.omap s).vals[kv.ref]?
  let seen := seen ++ [(kv.key, val)]
  let s ← (body seen).1.foldlM (ops.perform kv) s
  return (s, seen, (body seen).2)

def treeLoop (body : Body K V) :
    Nat → Option T.Node → σ → List (K × V) → Option (σ × List (K × V))
  | _, none, s, seen => some (s, seen)
  | 0, some _, _, _ => none
  | fuel + 1, some it, s, seen => do
    let nextit := T.next (ops.omap s).tree it
    let (s, seen, more) ← ops.yield body s seen (T.item it)
    if more then treeLoop body fuel nextit s seen else return (s, seen)

/-- The pass over the cache, up to the first change of the map. -/
def cacheLoop (body : Body K V) (vers : Nat) :
    List (Okv C K) → Nat → Option T.Node → σ → List (K × V) → Option (σ × List (K × V))
  | [], _, _, s, seen => some (s, seen)
  | kv :: rest, i, nextit, s, seen => do
    let nextit ← ops.nextit s kv nextit
    let (s, seen, more) ← ops.yield body s seen kv
    if !more then return (s, seen)
    if (ops.omap s).version = vers then cacheLoop body vers rest (i + 1) nextit s seen
    else
      let n2 := T.len (ops.omap s).tree
      if i + 1 ≥ n2 then return (s, seen)
      ops.treeLoop body n2 nextit s seen

/-- The pass over the tree that fills the cache; `reset` is whether a change of the map also
clears the cache's version. -/
def fillLoop (body : Body K V) (reset : Bool) (vers : Nat) :
    Nat → Option T.Node → Bool → σ → List (K × V) → Option (σ × List (K × V))
  | _, none, _, s, seen => some (s, seen)
  | 0, some _, _, _, _ => none
  | fuel + 1, some it, cachegood, s, seen => do
    let kv := T.item it
    let o := ops.omap s
    let nextit := T.next o.tree it
    let s := if cachegood then ops.withOmap s { o with ordercache := o.ordercache ++ [kv] } else s
    let (s, seen, more) ← ops.yield body s seen kv
    if !more then return (s, seen)
    let o := ops.omap s
    if o.version = vers then fillLoop body reset vers fuel nextit cachegood s seen
    else
      let cacheversion := if reset then 0 else o.cacheversion
      let s := ops.withOmap s { o with ordercache := [], cacheversion }
      fillLoop body reset vers fuel nextit false s seen

def loop (body : Body K V) (reset : Bool) (s : σ) : Option (σ × List (K × V)) :=
  let o := ops.omap s
  if o.usable then ops.cacheLoop body o.version o.ordercache 0 (T.min o.tree) s []
  else ops.fillLoop body reset o.version (T.len o.tree) (T.min o.tree) true
    (ops.withOmap s { o with ordercache := [], cacheversion := o.version }) []

def all (body : Body K V) (s : σ) : Option (σ × List (K × V)) := ops.loop body true s

def allokv (body : Body K V) (s : σ) : Option (σ × List (K × V)) := ops.loop body false s

end MapOps

end Goivy
