import Goivy.UnitRes.CongClos

/-! The unit resolution engine: its clauses and unit queue, the literal index, the
equational theory, and propagation. -/
namespace Goivy

/-- Why an operation does not return: a slice access out of range, or more recursion
than the fuel allows. -/
inductive Fault where
  | outOfRange
  | outOfFuel
deriving DecidableEq

/-- A node of the literal index: polarity, relation name, and the key of each argument,
which is `none` for every variable. -/
structure IndexPath where
  polarity : Bool
  relName : String
  keys : List (Option Expr)
deriving DecidableEq

/-- The trie as the list of its nodes, with the contents of each. -/
structure Index where
  nodes : List IndexPath
  units : IndexPath → List Nat
  watching : IndexPath → List (Nat × Nat)

structure StackFrame where
  numClauses : Nat
  numUnits : Nat
  usedUnits : Nat
  numSubsumed : Nat
  unsat : Bool

/-- `searches` is no field of the engine: it counts the searches for resolvents, so that the
maps of the trie can be iterated in another order at each of them. -/
structure UnitRes where
  clauses : List UnitResClause
  index : Index
  unitQueue : List UnitResLiteral
  subsumed : List Nat
  unsat : Bool
  usedUnits : Nat
  stack : List StackFrame
  equationalTheory : CongClos
  unitTermIndex : Expr ⊕ String → List Nat
  searches : Nat

namespace Index

def empty : Index := ⟨[], fun _ => [], fun _ => []⟩

/-- `indexLookup` creates the nodes down to the literal. -/
def create (idx : Index) (p : IndexPath) : Index :=
  { idx with nodes := idx.nodes ++
      (p.keys.inits.map (fun ks => { p with keys := ks })).filter (fun q => q ∉ idx.nodes) }

def addUnit (idx : Index) (p : IndexPath) (i : Nat) : Index :=
  { idx.create p with units := Function.update idx.units p (idx.units p ++ [i]) }

def setWatching (idx : Index) (p : IndexPath) (entries : List (Nat × Nat)) : Index :=
  { idx.create p with watching := Function.update idx.watching p entries }

end Index

/-- Where a literal is indexed. -/
def UnitResLiteral.path (l : UnitResLiteral) : IndexPath :=
  ⟨l.polarity, l.atom.relName, l.atom.args.map (fun t => if isVar t then none else some t)⟩

/-- The order in which the nodes that a search finds come out of the maps of the trie. -/
structure IterationOrder where
  visit : UnitRes → UnitResLiteral → List IndexPath → List IndexPath
  perm : ∀ ur l ps, (visit ur l ps).Perm ps

def IterationOrder.insertion : IterationOrder := ⟨fun _ _ ps => ps, fun _ _ ps => .refl ps⟩

/-- The result of a loop: the state, and whether it returned early. -/
abbrev Loop := Except Fault (UnitRes × Bool)

/-- A loop over a list that stops where its body returns early. -/
def loopOver {α : Type} (body : UnitRes → α → Loop) : List α → UnitRes → Loop
  | [], ur => .ok (ur, false)
  | a :: as, ur => do
    let (ur', stop) ← body ur a
    if stop then .ok (ur', true) else loopOver body as ur'

namespace UnitRes

variable (order : IterationOrder)

def findTerm (ur : UnitRes) (t : Expr) : Expr := ur.equationalTheory.find t

/-- `litRep`. -/
def litRep (ur : UnitRes) (l : UnitResLiteral) : UnitResLiteral :=
  l.withArgs (l.atom.args.map (fun a => if isVar a then a else ur.findTerm a))

/-- `groundMatch`: the keys with the representative of the term. -/
def groundMatch (ur : UnitRes) (t : Expr) : Option Expr → Bool
  | none => false
  | some key => key = ur.findTerm t || ur.findTerm key = ur.findTerm t

/-- The keys by which `findSubsumingRec` goes down at a term. -/
def subsumingKey (ur : UnitRes) (t : Expr) (key : Option Expr) : Bool :=
  key = none || (!isVar t && ur.groundMatch t key)

/-- The keys by which `findUnifyingRec` goes down at a term. -/
def unifyingKey (ur : UnitRes) (t : Expr) (key : Option Expr) : Bool :=
  isVar t || isCanonicalVarConst t || key = none || ur.groundMatch t key

/-- The nodes at the depth of the literal that are reached by accepted keys. -/
def findNodes (ur : UnitRes) (accepts : Expr → Option Expr → Bool) (l : UnitResLiteral) :
    List IndexPath :=
  order.visit ur l (ur.index.nodes.filter (fun p => p.polarity = l.polarity && p.relName = l.atom.relName &&
    p.keys.length = l.atom.args.length && (l.atom.args.zip p.keys).all (fun q => accepts q.1 q.2)))

/-- `FindSubsuming`. -/
def findSubsuming (ur : UnitRes) (l : UnitResLiteral) : List IndexPath :=
  ur.findNodes order ur.subsumingKey l

/-- `FindUnifying`. -/
def findUnifying (ur : UnitRes) (l : UnitResLiteral) : List IndexPath :=
  ur.findNodes order ur.unifyingKey l

/-- One of the units, looked up in turn, subsumes the literal modulo equality. -/
def anySubsumes (ur : UnitRes) (l : UnitResLiteral) : List Nat → Except Fault Bool
  | [] => .ok false
  | i :: is =>
    match ur.unitQueue[i]? with
    | none => .error .outOfRange
    | some l2 => if litSubsume (ur.litRep l2) (ur.litRep l) then .ok true else ur.anySubsumes l is

def unitSubsumedBasic (ur : UnitRes) (l : UnitResLiteral) : Except Fault Bool :=
  ur.anySubsumes l ((ur.findSubsuming order l).flatMap ur.index.units)

def unitSubsumed (ur : UnitRes) (l : UnitResLiteral) : Except Fault Bool := do
  if ← ur.unitSubsumedBasic order l then return true
  if l.isDisequalityLit && l.atom.args.length = 2 then ur.unitSubsumedBasic order l.swapArgs
  else return false

def unitSubsumedByUsed (ur : UnitRes) (l : UnitResLiteral) : Except Fault Bool :=
  ur.anySubsumes l (((ur.findSubsuming order l).flatMap ur.index.units).filter (· < ur.usedUnits))

/-- `subsumedByUsedLit`. -/
def subsumedByUsedLit (ur : UnitRes) : UnitResClause → Except Fault Bool
  | [] => .ok false
  | l :: ls => do
    if ← ur.unitSubsumedByUsed order l then return true
    if ← ur.unitSubsumedByUsed order l.invert then return true
    ur.subsumedByUsedLit ls

/-- Appends a unit to the queue and indexes it. -/
def appendUnit (ur : UnitRes) (l : UnitResLiteral) : UnitRes :=
  { ur with
    index := ur.index.addUnit l.path ur.unitQueue.length
    unitQueue := ur.unitQueue ++ [l] }

/-- `reindex`: watches every literal of a clause. -/
def reindex (ur : UnitRes) (i : Nat) (cl : UnitResClause) : UnitRes :=
  { ur with index := cl.zipIdx.foldl (fun idx (p : UnitResLiteral × Nat) =>
      idx.setWatching p.1.path (idx.watching p.1.path ++ [(i, p.2)])) ur.index }

/-- `deindex`: watches no literal of a clause. -/
def deindex (ur : UnitRes) (i : Nat) (cl : UnitResClause) : UnitRes :=
  { ur with index := cl.foldl (fun idx l =>
      idx.setWatching l.path ((idx.watching l.path).filter (fun e => e.1 ≠ i))) ur.index }

def appendClause (ur : UnitRes) (cl : UnitResClause) : UnitRes :=
  { ur with clauses := ur.clauses ++ [cl] }.reindex ur.clauses.length cl

def setUnsat (ur : UnitRes) : UnitRes :=
  { ur with unsat := true, usedUnits := ur.unitQueue.length }

/-- `addClauseBasic`. -/
def addClauseBasic (ur : UnitRes) : UnitResClause → Except Fault UnitRes
  | [] => .ok ur.setUnsat
  | [l] => do
    let lit := ur.litRep (canonizeLiteral "V" l)
    if lit.isTautLit then return ur
    if ← ur.unitSubsumed order lit then return ur
    return ur.appendUnit lit
  | cl => .ok (ur.appendClause cl)

end UnitRes

/-- The clauses that `AddClause` gets from a ground clause of a disequality and an
equality by the transitivity axiom. -/
def transitivityClauses (lhs rhs : UnitResLiteral) : List UnitResClause :=
  match lhs.atom.args with
  | [a, b] =>
    if lhs.isDisequalityLit && rhs.isEqualityLit then
      ([rhs.substituteConstants [(a, b)], rhs.substituteConstants [(b, a)]].filter (· ≠ rhs)).map
        (fun newRHS => [lhs, newRHS])
    else []
  | _ => []

/-- The clauses that `AddClause` adds. -/
def addedClauses (cl : UnitResClause) : List UnitResClause :=
  cl :: match cl with
  | [l1, l2] =>
    if l1.isGroundLit && l2.isGroundLit then transitivityClauses l1 l2 ++ transitivityClauses l2 l1
    else []
  | _ => []

/-- `allowEqs`, with `NewSpecialization` on as it always is. -/
def allowEqs (lit : UnitResLiteral) (eqs : List ResolutionAtom) (isUnit : Bool) : Bool :=
  eqs.isEmpty || (lit.atom.relName ≠ "=" && isUnit && eqs.all fun eq =>
    match eq.args with
    | a :: b :: _ => isCanonicalVarConst a && !isCanonicalVarConst b
    | _ => false)

/-- The disequalities that a resolvent has for the collected equalities. -/
def disequalities (eqs : List ResolutionAtom) : UnitResClause := eqs.map (fun eq => ⟨false, eq⟩)

namespace UnitRes

variable (order : IterationOrder)

/-- `AddClause`. -/
def addClause (ur : UnitRes) (cl : UnitResClause) : Except Fault UnitRes :=
  (addedClauses cl).foldlM (fun ur cl => ur.addClauseBasic order cl) ur

/-- Adds a clause, and returns early when there is no model. -/
def addAndStop (ur : UnitRes) (cl : UnitResClause) : Loop := do
  let ur' ← ur.addClause order cl
  return (ur', ur'.unsat)

/-- The resolvent of a unit with a clause, unless it is a tautology or subsumed. -/
def resolveClause (lit : UnitResLiteral) (ur : UnitRes) (entry : Nat × Nat) : Loop :=
  match ur.clauses[entry.1]? with
  | none => .ok (ur, false)
  | some cl =>
    match cl[entry.2]? with
    | none => .ok (ur, false)
    | some l =>
      let lit2 := ur.litRep l
      if lit2.polarity = lit.polarity || lit2.atom.relName ≠ lit.atom.relName then .ok (ur, false)
      else if lit2.isEqualityLit && lit2.atom.args.length = 2 && lit2.atom.args.all isVar then
        .ok (ur, false)
      else
        match mguEq lit.atom lit2.atom with
        | none => .ok (ur, false)
        | some (subs, eqs) =>
          if allowEqs lit eqs false then do
            let ur := if atomSubsume lit.atom lit2.atom then
              { ur.deindex entry.1 cl with subsumed := ur.subsumed ++ [entry.1] } else ur
            let newCl := simplifyClause
              ((cl.eraseIdx entry.2).map (·.substitute subs) ++ disequalities eqs)
            if isTautology newCl then return (ur, false)
            if ← ur.subsumedByUsedLit order newCl then return (ur, false)
            ur.addAndStop order newCl
          else .ok (ur, false)

/-- The clause of disequalities that two units leave, unless it is subsumed. -/
def resolveUnit (lit : UnitResLiteral) (allowUnitDiseqs : Bool) (ur : UnitRes) (i : Nat) : Loop :=
  match ur.unitQueue[i]? with
  | none => .ok (ur, false)
  | some l =>
    let lit2 := ur.litRep l
    match mguEq lit.atom lit2.atom with
    | none => .ok (ur, false)
    | some (_, eqs) =>
      if allowEqs lit eqs true || (allowUnitDiseqs && eqs.length = 1 && eqs.all keepAtom) then do
        if ← ur.subsumedByUsedLit order (disequalities eqs) then return (ur, false)
        ur.addAndStop order (disequalities eqs)
      else .ok (ur, false)

def resolveUnits (lit : UnitResLiteral) (units : List Nat) (allowUnitDiseqs : Bool) (ur : UnitRes) :
    Loop := loopOver (resolveUnit order lit allowUnitDiseqs) units ur

/-- The resolutions of a unit at one node of the index. -/
def resolveAtNode (lit : UnitResLiteral) (keep : Bool) (ur : UnitRes) (p : IndexPath) : Loop := do
  let (ur, stop) ← loopOver (resolveClause order lit) (ur.index.watching p) ur
  if stop then return (ur, true)
  if keep then do
    let (ur, _) ← ur.resolveUnits order lit (ur.index.units p) false
    return (ur, ur.unsat)
  return (ur, false)

/-- The units of the other polarity that the term index has for a relation name. -/
def otherUnits (ur : UnitRes) (polarity : Bool) : List Nat → Except Fault (List Nat)
  | [] => .ok []
  | i :: is =>
    match ur.unitQueue[i]? with
    | none => .error .outOfRange
    | some l => do
      let rest ← ur.otherUnits polarity is
      return if l.polarity ≠ polarity then i :: rest else rest

/-- The body of `PropagateLit` for one orientation of the literal. -/
def propagateOriented (ur : UnitRes) (l : UnitResLiteral) : Loop := do
  let indices := ur.findUnifying order l.invert
  let ur := { ur with searches := ur.searches + 1 }
  let lit := ur.litRep (canonizeLiteral "W" l)
  let (ur, stop) ← loopOver (resolveAtNode order lit (keepLit l)) indices ur
  if stop then return (ur, true)
  if keepLit l then return (ur, false)
  let others ← ur.otherUnits lit.polarity (ur.unitTermIndex (.inr lit.atom.relName))
  let (ur, _) ← ur.resolveUnits order lit others true
  return (ur, ur.unsat)

/-- Rewrites a unit by an equality. -/
def rewriteUnit (t0 t1 : Expr) (ur : UnitRes) (i : Nat) : Loop :=
  match ur.unitQueue[i]? with
  | none => .error .outOfRange
  | some lit2 =>
    let lit3 := lit2.substituteConstants [(t0, t1)]
    if lit2 = lit3 then .ok (ur, false) else ur.addAndStop order [lit3]

/-- `updateEquationalTheory`. -/
def updateEquationalTheory (ur : UnitRes) (l : UnitResLiteral) : UnitRes × Bool :=
  match l.isEqualityLit, l.atom.args with
  | true, [t0, t1] =>
    if isConst t0 && isConst t1 then
      let (theory, changed) := ur.equationalTheory.union t0 t1
      ({ ur with equationalTheory := theory }, changed)
    else (ur, false)
  | _, _ => (ur, false)

/-- Propagates a unit again, and returns early when there is no model. -/
def repropagate (again : UnitRes → UnitResLiteral → Except Fault UnitRes) (ur : UnitRes) (i : Nat) :
    Loop :=
  match ur.unitQueue[i]? with
  | none => .error .outOfRange
  | some lit2 => do
    let ur' ← again ur lit2
    return (ur', ur'.unsat)

/-- `PropagateEquality`. -/
def propagateEquality (again : UnitRes → UnitResLiteral → Except Fault UnitRes) (ur : UnitRes)
    (l : UnitResLiteral) : Except Fault UnitRes :=
  let lit := ur.litRep l
  if lit.isTautLit then .ok ur
  else
    match lit.atom.args with
    | a :: b :: _ => do
      let (t0, t1) := if a.termSexp < b.termSexp then (b, a) else (a, b)
      let (ur, stop) ← loopOver (rewriteUnit order t0 t1) (ur.unitTermIndex (.inl t0)) ur
      if stop then return ur
      let (ur, changed) := ur.updateEquationalTheory lit
      if !changed then return ur
      let (ur, _) ← loopOver (repropagate again) (ur.unitTermIndex (.inl t1)) ur
      return ur
    | _ => .error .outOfRange

/-- `PropagateLit`. -/
def propagateLit : Nat → UnitRes → UnitResLiteral → Except Fault UnitRes
  | 0, _, _ => .error .outOfFuel
  | fuel + 1, ur, l =>
    if l.isGroundEqualityLit then ur.propagateEquality order (propagateLit fuel) l
    else do
      let lits := if l.atom.relName = "=" && l.atom.args.length = 2 then [l, l.swapArgs] else [l]
      let (ur, _) ← loopOver (propagateOriented order) lits ur
      return ur

/-- `indexUnitTerms`: by the constants of the unit and by its relation name. -/
def indexUnitTerms (ur : UnitRes) (i : Nat) : Except Fault UnitRes :=
  match ur.unitQueue[i]? with
  | none => .error .outOfRange
  | some l =>
    let terms : List (Expr ⊕ String) :=
      (l.atom.args.filter (fun t => !isVar t)).eraseDups.map .inl ++ [.inr l.atom.relName]
    let termIndex := terms.foldl (fun idx t => Function.update idx t (idx t ++ [i])) ur.unitTermIndex
    .ok { ur with unitTermIndex := termIndex }

/-- `deindexUnitTerms`. -/
def deindexUnitTerms (ur : UnitRes) (i : Nat) : UnitRes :=
  match ur.unitQueue[i]? with
  | none => ur
  | some l =>
    let terms : List (Expr ⊕ String) :=
      (l.atom.args.filter (fun t => !isVar t)).eraseDups.map .inl ++ [.inr l.atom.relName]
    let termIndex := terms.foldl (fun idx t => Function.update idx t ((idx t).erase i)) ur.unitTermIndex
    { ur with unitTermIndex := termIndex }

/-- The range of units from one number up to another one. -/
def unitRange (first last : Nat) : List Nat := (List.range (last - first)).map (first + ·)

/-- `Propagate`. -/
def propagate : Nat → UnitRes → Except Fault UnitRes
  | fuel, ur =>
    if ur.usedUnits < ur.unitQueue.length then
      match fuel with
      | 0 => .error .outOfFuel
      | fuel + 1 =>
        match ur.unitQueue[ur.usedUnits]? with
        | none => .error .outOfRange
        | some l => do
          let ur' ← ur.propagateLit order fuel l
          let ur' := { ur' with usedUnits := max (ur.usedUnits + 1) ur'.usedUnits }
          let ur' ← (unitRange ur.usedUnits ur'.usedUnits).foldlM indexUnitTerms ur'
          propagate fuel ur'
    else .ok ur

def empty : UnitRes :=
  ⟨[], .empty, [], [], false, 0, [], .new, fun _ => [], 0⟩

/-- `NewUnitRes`. -/
def new (clauses : List UnitResClause) : Except Fault UnitRes :=
  clauses.foldlM (fun ur cl => ur.addClause order cl) empty

/-- `Push`. -/
def push (ur : UnitRes) : UnitRes :=
  { ur with
    stack := ⟨ur.clauses.length, ur.unitQueue.length, ur.usedUnits, ur.subsumed.length, ur.unsat⟩ ::
      ur.stack
    equationalTheory := ur.equationalTheory.push }

/-- `Pop`, which truncates the arrays and leaves the literal index as it is. -/
def pop (ur : UnitRes) : UnitRes :=
  match ur.stack with
  | [] => ur
  | frame :: stack =>
    let ur := (unitRange frame.numUnits ur.unitQueue.length).foldl deindexUnitTerms { ur with stack }
    { ur with
      clauses := ur.clauses.take frame.numClauses
      unitQueue := ur.unitQueue.take frame.numUnits
      usedUnits := frame.usedUnits
      subsumed := ur.subsumed.take frame.numSubsumed
      unsat := frame.unsat
      equationalTheory := ur.equationalTheory.pop }

end UnitRes

end Goivy
