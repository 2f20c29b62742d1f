import Goivy.Util.InsMap

/-! The insertion-ordered hash map: an index table probed by hash into a list of entries. -/
namespace Goivy.Hashed

structure Entry (K V : Type) where
  hash : Nat
  key : K
  val : V
  live : Bool

def slotEmpty : Int := -1

def slotDummy : Int := -2

def minSize : Nat := 8

def tagEmpty : Nat := 0

def tagDummy : Nat := 1

def tagUsed : Nat := 0x80

/-- `cap` is the capacity of `entries`; the hash function is a parameter of the operations. -/
structure InsMap (K V : Type) where
  indices : List Int
  entries : List (Entry K V)
  cap : Nat
  live : Nat
  mask : Nat
  tags : List Nat

/-- What the map is given: the hash function, and what the allocator chooses when `append` grows
a slice of some length. -/
structure Env (K : Type) where
  hash : K → Nat
  grow : Nat → Nat

/-- Hashes are 64 bits. -/
def Env.hashOf {K : Type} (env : Env K) (k : K) : Nat := env.hash k % 2 ^ 64

/-- Occupied tags have the high bit and the high hash bits. -/
def hashTag (h : Nat) : Nat := tagUsed ||| (h >>> 57) % 256

/-- The probe loops: `visit` is what one does at a slot, `none` when it reads out of range, and
`some none` when it goes on. The masking hides that the sum wraps around. -/
def probe {α : Type} (mask : Nat) (visit : Nat → Option (Option α)) : Nat → Nat → Nat → Option α
  | 0, _, _ => none
  | fuel + 1, i, perturb => do
    match ← visit i with
    | some result => return result
    | none => probe mask visit fuel ((i * 5 + (perturb >>> 5) + 1) &&& mask) (perturb >>> 5)

namespace InsMap

variable {K V : Type} [DecidableEq K] [Inhabited K] [Inhabited V] (env : Env K)

def new : InsMap K V := ⟨[], [], 0, 0, 0, []⟩

/-- Enough steps for the longest probe sequence. -/
def steps (d : InsMap K V) : Nat := 14 + d.indices.length

def get2 (d : InsMap K V) (k : K) : Option (Option V) :=
  if d.live = 0 then some none
  else
    let h := env.hashOf k
    probe d.mask (fun i => do
      let ctrl ← d.tags[i]?
      if ctrl = hashTag h then
        let ix ← d.indices[i]?
        let e ← d.entries[ix.toNat]?
        if 0 ≤ ix then return if e.hash = h ∧ e.key = k then some (some e.val) else none
        else none
      else return if ctrl = tagEmpty then some none else none) d.steps (h &&& d.mask) h

/-- The slot and the entry of a key, or the empty slot where the probe ends. -/
def find (d : InsMap K V) (k : K) (h tag : Nat) : Option (Nat × Option Nat) :=
  probe d.mask (fun i => do
    let ctrl ← d.tags[i]?
    if ctrl = tagEmpty then return some (i, none)
    else if ctrl = tag then
      let ix ← d.indices[i]?
      let e ← d.entries[ix.toNat]?
      if 0 ≤ ix then return if e.hash = h ∧ e.key = k then some (i, some ix.toNat) else none
      else none
    else return none) d.steps (h &&& d.mask) h

def usable (d : InsMap K V) : Nat := d.indices.length * 2 / 3

def freeSlot (d : InsMap K V) (h : Nat) : Option Nat :=
  probe d.mask (fun i => do
    let ctrl ← d.tags[i]?
    return if tagUsed ≤ ctrl then none else some i) d.steps (h &&& d.mask) h

/-- `append`: an entry, and the capacity it takes. -/
def append (d : InsMap K V) (e : Entry K V) : InsMap K V :=
  { d with
    entries := d.entries ++ [e]
    cap := if d.entries.length < d.cap then d.cap else env.grow d.entries.length }

/-- Enters the next entry at a slot. -/
def place (d : InsMap K V) (slot : Nat) (e : Entry K V) : InsMap K V :=
  { d.append env e with
    indices := d.indices.set slot d.entries.length
    tags := d.tags.set slot (hashTag e.hash) }

/-- The copying loop of a rebuild, at the places that are left. When the entries share the storage
of the old ones, appending overwrites them. -/
def copy (shared : Bool) : List Nat → List (Entry K V) → InsMap K V → Option (InsMap K V)
  | [], _, d => some d
  | i :: is, old, d => do
    let e ← old[i]?
    if !e.live then copy shared is old d
    else
      let slot ← d.freeSlot e.hash
      copy shared is (if shared then old.set d.entries.length e else old) (d.place env slot e)

def rebuildEntries (d : InsMap K V) (size capacity : Nat) : Option (InsMap K V) :=
  let reuse := size = d.indices.length
  let reuseEntries := reuse ∧ capacity ≤ d.cap
  copy env reuseEntries (List.range d.entries.length) d.entries { d with
    indices := List.replicate size slotEmpty
    tags := List.replicate size tagEmpty
    mask := size - 1
    entries := []
    cap := if reuseEntries then d.cap else capacity }

def rebuild (d : InsMap K V) (size : Nat) : Option (InsMap K V) := d.rebuildEntries env size (size * 2 / 3)

/-- Doubles a size until it is large enough. -/
def doubling (enough : Nat → Bool) : Nat → Nat → Nat
  | 0, size => size
  | fuel + 1, size => if enough size then size else doubling enough fuel (size * 2)

def presizeFor (n : Nat) : Nat := doubling (fun size => n ≤ size * 2 / 3) (n + 1) minSize

def sizeFor (live : Nat) : Nat := doubling (fun size => live * 3 ≤ size) (live * 3) minSize

/-- `NewInsMapSize` and `NewInsMapFuncSize`. -/
def newSize (hint : Int) : Option (InsMap K V) :=
  if 0 < hint then new.rebuildEntries env (presizeFor hint.toNat) hint.toNat else some new

/-- The first `Put` makes the table. -/
def made (d : InsMap K V) : Option (InsMap K V) :=
  if d.indices.isEmpty then d.rebuild env minSize else some d

def put (d : InsMap K V) (k : K) (v : V) : Option (Bool × InsMap K V) := do
  let d ← d.made env
  let h := env.hashOf k
  let tag := hashTag h
  match ← d.find k h tag with
  | (_, some ix) =>
    return (false, { d with entries := d.entries.modify ix fun e => { e with val := v } })
  | (slot, none) =>
    if d.usable ≤ d.entries.length then
      let d ← d.rebuild env (sizeFor d.live)
      let slot ← d.freeSlot h
      return (true, { d.place env slot ⟨h, k, v, true⟩ with live := d.live + 1 })
    else
      let slot ← if d.live ≠ d.entries.length then d.freeSlot h else some slot
      return (true, { d.place env slot ⟨h, k, v, true⟩ with live := d.live + 1 })

def set (d : InsMap K V) (k : K) (v : V) : Option (Bool × InsMap K V) := d.put env k v

def deleteAll (_ : InsMap K V) : InsMap K V := new

def delkey (d : InsMap K V) (k : K) : Option (Bool × InsMap K V) :=
  if d.live = 0 then some (false, d)
  else do
    let h := env.hashOf k
    match ← d.find k h (hashTag h) with
    | (_, none) => return (false, d)
    | (slot, some ix) => return (true, { d with
        indices := d.indices.set slot slotDummy
        tags := d.tags.set slot tagDummy
        entries := d.entries.set ix ⟨0, default, default, false⟩
        live := d.live - 1 })

def pack (d : InsMap K V) (force : Bool) : Option (InsMap K V) :=
  if d.live = d.entries.length then some d
  else if force || (32 < d.entries.length && d.live < d.entries.length / 4) then
    d.rebuild env (sizeFor d.live)
  else some d

def delPackMaybe (d : InsMap K V) (k : K) : Option (Bool × InsMap K V) := do
  let (found, d) ← d.delkey env k
  return (found, ← d.pack env false)

def clone (d : InsMap K V) : InsMap K V := { d with cap := env.grow d.entries.length }

def len (d : InsMap K V) : Nat := d.live

end InsMap

/-- What a loop body may do to the map. -/
inductive Removal (K : Type) where
  | delkey (k : K)
  | delPackMaybe (k : K)
  | deleteAll

/-- From what it has been given, a body removes keys and says whether to go on. -/
abbrev Body (K V : Type) := List (K × V) → List (Removal K) × Bool

namespace InsMap

variable {K V : Type} [DecidableEq K] [Inhabited K] [Inhabited V] (env : Env K)

def remove (d : InsMap K V) : Removal K → Option (InsMap K V)
  | .delkey k => (d.delkey env k).map Prod.snd
  | .delPackMaybe k => (d.delPackMaybe env k).map Prod.snd
  | .deleteAll => some d.deleteAll

/-- `All`, from an entry on. -/
def allFrom (body : Body K V) : Nat → Nat → InsMap K V → List (K × V) →
    Option (InsMap K V × List (K × V))
  | 0, _, _, _ => none
  | fuel + 1, i, d, seen =>
    match d.entries[i]? with
    | none => some (d, seen)
    | some e =>
      if !e.live then allFrom body fuel (i + 1) d seen
      else do
        let seen := seen ++ [(e.key, e.val)]
        let d ← (body seen).1.foldlM (remove env) d
        if (body seen).2 then allFrom body fuel (i + 1) d seen else return (d, seen)

/-- No removal makes the entries more than they are. -/
def all (d : InsMap K V) (body : Body K V) : Option (InsMap K V × List (K × V)) :=
  allFrom env body (d.entries.length + 1) 0 d []

end InsMap

end Goivy.Hashed
