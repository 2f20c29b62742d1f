import Goivy.Logic.Rename

/-! Sort checks of the constructors, substitution for variables, and the
constraint that a definition stands for. -/
namespace Goivy

/-- `deduplicateAndSortVars`. -/
def deduplicateAndSortVars (vs : List Variable) : List Variable :=
  vs.dedup.insertionSort (fun v w => v.name ≤ w.name)

def LSort.isTop : LSort → Bool
  | .first (.top _) => true
  | _ => false

/-- `IsBooleanOrTop`. -/
def LSort.isBooleanOrTop (s : LSort) : Bool := s = .first .boolean || s.isTop

/-- The argument check of `NewApply` at one position. -/
def argumentFits (s : FSort) (t : Expr) : Bool :=
  t.nodeSort = .first s || t.nodeSort.isTop || (LSort.first s).isTop

namespace Expr

/-- `NewApply` accepts any arguments of a symbol of unknown sort, and arguments of
the declared sorts otherwise; a symbol that is no function is refused. -/
def newApply (f : Const) (ts : List Expr) : Option Expr :=
  match f.sort with
  | .first (.top _) => .some (.apply f ts)
  | .first _ => none
  | .function dom _ =>
    if dom.length = ts.length ∧ (dom.zip ts).all (fun p => argumentFits p.1 p.2) then
      .some (.apply f ts) else none

def newEq (a b : Expr) : Option Expr :=
  if a.nodeSort.isTop || b.nodeSort.isTop then .some (.eq a b)
  else if a.nodeSort ≠ b.nodeSort then none
  else match a.nodeSort with
    | .first _ => .some (.eq a b)
    | .function _ _ => none

def newIte (c a b : Expr) : Option Expr :=
  if !c.nodeSort.isBooleanOrTop then none
  else if !a.nodeSort.isTop && !b.nodeSort.isTop && a.nodeSort ≠ b.nodeSort then none
  else .some (.ite c a b)

def newNot (a : Expr) : Option Expr :=
  if a.nodeSort.isBooleanOrTop then .some (.not a) else none

def newAnd (ts : List Expr) : Option Expr :=
  if ts.all (fun t => t.nodeSort.isBooleanOrTop) then .some (.and ts) else none

def newOr (ts : List Expr) : Option Expr :=
  if ts.all (fun t => t.nodeSort.isBooleanOrTop) then .some (.or ts) else none

def newImplies (a b : Expr) : Option Expr :=
  if a.nodeSort.isBooleanOrTop && b.nodeSort.isBooleanOrTop then .some (.implies a b) else none

def newIff (a b : Expr) : Option Expr :=
  if a.nodeSort.isBooleanOrTop && b.nodeSort.isBooleanOrTop then .some (.iff a b) else none

def newForAll (vs : List Variable) (a : Expr) : Option Expr :=
  if vs.isEmpty || !a.nodeSort.isBooleanOrTop then none
  else .some (.forAll (deduplicateAndSortVars vs) a)

def newExists (vs : List Variable) (a : Expr) : Option Expr :=
  if vs.isEmpty || !a.nodeSort.isBooleanOrTop then none
  else .some (.exists (deduplicateAndSortVars vs) a)

mutual
/-- `FreeVariables`. The parameters of an indefinite description count as free:
the source has no case for it and walks its children. -/
def freeVariables : Expr → List Variable
  | .var v => [v]
  | .const _ => []
  | .apply _ ts | .and ts | .or ts => freeVariablesList ts
  | .eq a b | .implies a b | .iff a b => a.freeVariables ++ b.freeVariables
  | .not a => a.freeVariables
  | .ite a b c => a.freeVariables ++ b.freeVariables ++ c.freeVariables
  | .forAll vs a | .exists vs a => a.freeVariables.filter (· ∉ vs)
  | .some vs a => vs ++ a.freeVariables
  | .someElse vs a b c => vs ++ a.freeVariables ++ b.freeVariables ++ c.freeVariables
def freeVariablesList : List Expr → List Variable
  | [] => []
  | t :: ts => t.freeVariables ++ freeVariablesList ts
end

theorem freeVariablesList_eq_flatMap (ts : List Expr) :
    freeVariablesList ts = ts.flatMap freeVariables := by
  induction ts with
  | nil => rfl
  | cons t ts ih => simp [freeVariablesList, ih]

/-- `substituteWithoutBoundVariables`: nothing is returned where a bound variable
would capture a variable of a substituted term. -/
def substituteWithoutBoundVariables (vs : List Variable) (subs : List (Variable × Expr)) :
    Option (List (Variable × Expr)) :=
  let newsubs := subs.filter (·.1 ∉ vs)
  if vs.any (fun v => newsubs.any (fun p => v ∈ p.2.freeVariables)) then none
  else .some newsubs

mutual
/-- `Substitute` for variables. It fails on capture and on a sort error. -/
def substitute : Expr → List (Variable × Expr) → Option Expr
  | .var v, subs => .some ((subs.lookup v).getD (.var v))
  | .const c, _ => .some (.const c)
  | .apply f ts, subs => (substituteList ts subs).bind (newApply f)
  | .eq a b, subs => (a.substitute subs).bind fun a => (b.substitute subs).bind (newEq a)
  | .not a, subs => (a.substitute subs).bind newNot
  | .and ts, subs => (substituteList ts subs).bind newAnd
  | .or ts, subs => (substituteList ts subs).bind newOr
  | .implies a b, subs =>
    (a.substitute subs).bind fun a => (b.substitute subs).bind (newImplies a)
  | .iff a b, subs => (a.substitute subs).bind fun a => (b.substitute subs).bind (newIff a)
  | .ite c a b, subs => (c.substitute subs).bind fun c => (a.substitute subs).bind fun a =>
    (b.substitute subs).bind (newIte c a)
  | .forAll vs a, subs =>
    (substituteWithoutBoundVariables vs subs).bind fun subs => (a.substitute subs).bind (newForAll vs)
  | .exists vs a, subs =>
    (substituteWithoutBoundVariables vs subs).bind fun subs => (a.substitute subs).bind (newExists vs)
  | .some vs a, subs =>
    (substituteWithoutBoundVariables vs subs).bind fun subs => (a.substitute subs).map (.some vs)
  | .someElse vs a b c, subs =>
    (substituteWithoutBoundVariables vs subs).bind fun subs => (a.substitute subs).bind fun a =>
      (b.substitute subs).bind fun b => (c.substitute subs).map (.someElse vs a b)
def substituteList : List Expr → List (Variable × Expr) → Option (List Expr)
  | [], _ => .some []
  | t :: ts, subs => (t.substitute subs).bind fun t => (substituteList ts subs).map (t :: ·)
end

end Expr

/-- `DefinitionToConstraint`, with the fallback of the source where the
substitution fails. -/
def Definition.toConstraint (d : Definition) : Expr :=
  match d.rhs with
  | .some [] phi | .someElse [] phi _ _ => .eq d.lhs phi
  | .some (x :: _) phi =>
    match phi.substitute [(x, d.lhs)] with
    | some psi => .forAll [x] (.implies phi psi)
    | none => .eq d.lhs d.rhs
  | .someElse (x :: _) phi ifVal elseVal =>
    .and [.implies phi (.exists [x] (.and [phi, .eq d.lhs ifVal])),
      .or [.exists [x] phi, .eq d.lhs elseVal]]
  | rhs => if d.lhs.isIndividual then .eq d.lhs rhs else .iff d.lhs rhs

def Definition.rename (ρ : Renaming) (d : Definition) : Definition :=
  ⟨d.lhs.rename ρ, d.rhs.rename ρ⟩

def Definition.symbols (d : Definition) : List Const := d.lhs.symbols ++ d.rhs.symbols

end Goivy
