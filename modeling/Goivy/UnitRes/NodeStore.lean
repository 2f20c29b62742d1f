import Goivy.Util.PointerForest
import Mathlib

/-! The store of equal terms with its nodes as pointers. Terms with one key share a node. -/
namespace Goivy

/-- A node: its term, and a pointer to another node unless it is its own representative. -/
structure TermNode (τ : Type) where
  term : τ
  rep : Option Nat

/-- `nodes` is the memory that the pointers lead into; the last change is the first one of the
trail. -/
structure NodeStore (τ κ : Type) where
  tab : List (κ × Nat)
  nodes : List (TermNode τ)
  trail : List (Nat × Option Nat)
  pushes : List Nat

namespace NodeStore

variable {τ κ Ω : Type} [DecidableEq κ] [LinearOrder Ω] (key : τ → κ) (orderKey : τ → Ω)

/-- `NewCongClos`. -/
def new : NodeStore τ κ := ⟨[], [], [], []⟩

def rep (cc : NodeStore τ κ) (n : Nat) : Option Nat := cc.nodes[n]?.bind TermNode.rep

def assign (cc : NodeStore τ κ) (n : Nat) (rep : Option Nat) : NodeStore τ κ :=
  { cc with nodes := cc.nodes.modify n ({ · with rep }) }

def setRep (cc : NodeStore τ κ) (n rep : Nat) : NodeStore τ κ :=
  if cc.rep n = some rep then cc
  else { cc.assign n (some rep) with trail := (n, cc.rep n) :: cc.trail }

/-- `none` when the pointers do not end. -/
def getRepRec : Nat → NodeStore τ κ → Nat → Option (Nat × NodeStore τ κ)
  | 0, _, _ => none
  | fuel + 1, cc, n =>
    match cc.rep n with
    | none => some (n, cc)
    | some next => do
      let (rep, cc) ← getRepRec fuel cc next
      return (rep, cc.setRep n rep)

def register (cc : NodeStore τ κ) (term : τ) : Nat × NodeStore τ κ :=
  match cc.tab.lookup (key term) with
  | some n => (n, cc)
  | none => (cc.nodes.length, { cc with
      tab := (key term, cc.nodes.length) :: cc.tab
      nodes := cc.nodes ++ [⟨term, none⟩] })

def getRepNode (cc : NodeStore τ κ) (term : τ) : Option (Nat × NodeStore τ κ) :=
  let (n, cc) := cc.register key term
  getRepRec (cc.nodes.length + 1) cc n

def find (cc : NodeStore τ κ) (term : τ) : Option (τ × NodeStore τ κ) := do
  let (n, cc) ← cc.getRepNode key term
  return ((← cc.nodes[n]?).term, cc)

def union (cc : NodeStore τ κ) (term1 term2 : τ) : Option (Bool × NodeStore τ κ) := do
  let (rep1, cc) ← cc.getRepNode key term1
  let (rep2, cc) ← cc.getRepNode key term2
  if rep1 = rep2 then return (false, cc)
  let name1 := orderKey (← cc.nodes[rep1]?).term
  let name2 := orderKey (← cc.nodes[rep2]?).term
  if name1 < name2 then return (true, cc.setRep rep2 rep1)
  else return (true, cc.setRep rep1 rep2)

/-- The equalities between nodes and their representatives, in the order in which the map of the
nodes is gone through. -/
def theory : List Nat → NodeStore τ κ → Option (List (τ × τ) × NodeStore τ κ)
  | [], cc => some ([], cc)
  | n :: order, cc => do
    let (rep, cc) ← getRepRec (cc.nodes.length + 1) cc n
    let equality := ((← cc.nodes[n]?).term, (← cc.nodes[rep]?).term)
    let (result, cc) ← theory order cc
    return (if n = rep then result else equality :: result, cc)

def push (cc : NodeStore τ κ) : NodeStore τ κ := { cc with pushes := cc.trail.length :: cc.pushes }

/-- Undoes the changes of the trail down to a length. -/
def undoTo (newLen : Nat) : List (Nat × Option Nat) → NodeStore τ κ → NodeStore τ κ
  | [], cc => { cc with trail := [] }
  | (n, oldRep) :: rest, cc =>
    if newLen ≤ rest.length then undoTo newLen rest (cc.assign n oldRep)
    else { cc with trail := (n, oldRep) :: rest }

def pop (cc : NodeStore τ κ) : NodeStore τ κ :=
  match cc.pushes with
  | [] => cc
  | newLen :: pushes => undoTo newLen cc.trail { cc with pushes }

inductive Op (τ : Type) where
  | find (term : τ)
  | union (term1 term2 : τ)
  | theory (order : List Nat)
  | push
  | pop

/-- `theory` goes through the nodes there are. -/
def step (cc : NodeStore τ κ) : Op τ → Option (NodeStore τ κ)
  | .find term => (cc.find key term).map Prod.snd
  | .union term1 term2 => (cc.union key orderKey term1 term2).map Prod.snd
  | .theory order => (theory (order.filter (· < cc.nodes.length)) cc).map Prod.snd
  | .push => some cc.push
  | .pop => some cc.pop

def run (script : List (Op τ)) : Option (NodeStore τ κ) := script.foldlM (step key orderKey) new

/-- What the store is for: a stack of unions, one list for each push that is not popped. -/
structure Unions (τ : Type) where
  current : List (τ × τ)
  saved : List (List (τ × τ))

def Unions.step (u : Unions τ) : Op τ → Unions τ
  | .find _ | .theory _ => u
  | .union term1 term2 => { u with current := (term1, term2) :: u.current }
  | .push => { u with saved := u.current :: u.saved }
  | .pop => match u.saved with
    | [] => u
    | current :: saved => ⟨current, saved⟩

def Unions.run (script : List (Op τ)) : Unions τ := script.foldl Unions.step ⟨[], []⟩

/-- The equivalence closure of some unions, of terms up to their keys. -/
def Joined (live : List (τ × τ)) : τ → τ → Prop :=
  Relation.EqvGen fun s t => key s = key t ∨ (s, t) ∈ live

end NodeStore

end Goivy
