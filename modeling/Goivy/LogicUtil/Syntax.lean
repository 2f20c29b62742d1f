import Goivy.Logic.Key
import Goivy.Logic.Substitute

/-! Expressions with all connectives and binders, and simultaneous substitution for variables and constants. -/
namespace Goivy.LogicUtil

/-- A variable or a constant, with its sort. -/
inductive Symbol
  | var (v : LogicVariable)
  | const (c : Const)
  deriving DecidableEq

def Symbol.sort : Symbol → LSort
  | .var v => v.sort
  | .const c => c.sort

/-- The nodes that bind nothing. -/
inductive Connective
  | eq
  | ite
  | not
  | and
  | or
  | implies
  | iff
  | globally (environ : Option String)
  | eventually (environ : Option String)
  | whenOperator (name : String)
  | cond
  deriving DecidableEq

/-- The nodes that bind variables in their parts. The parts of `some` are its formula and, where it has them, its values. -/
inductive Binder
  | forAll
  | rawForAll (rawNames : Bool)
  | exists
  | lambda
  | namedBinder (name : String) (environ : Option String)
  | some (ifVal elseVal : Bool)
  deriving DecidableEq

def Binder.isDescription : Binder → Bool
  | .some _ _ => true
  | _ => false

inductive Expr
  | symbol (x : Symbol)
  | apply (func : Expr) (terms : List Expr)
  | node (op : Connective) (args : List Expr)
  | bind (b : Binder) (vs : List LogicVariable) (parts : List Expr)

namespace Expr

/-- Structural induction, with one hypothesis for all members of a list. -/
@[elab_as_elim, induction_eliminator]
theorem induct {motive : Expr → Prop} (symbol : ∀ x, motive (.symbol x))
    (apply : ∀ f ts, motive f → (∀ t ∈ ts, motive t) → motive (.apply f ts))
    (node : ∀ op ts, (∀ t ∈ ts, motive t) → motive (.node op ts))
    (bind : ∀ b vs ts, (∀ t ∈ ts, motive t) → motive (.bind b vs ts)) (e : Expr) : motive e :=
  Expr.rec (motive_1 := motive) (motive_2 := fun ts => ∀ t ∈ ts, motive t)
    symbol apply node bind
    (fun _ h => absurd h List.not_mem_nil)
    (fun _ _ head tail _ h => (List.mem_cons.mp h).elim (fun e => e ▸ head) (tail _)) e

end Expr

section Sorts

/-- `FirstOrderSort`. -/
def firstOrder? : LSort → Option FSort
  | .first s => some s
  | .function _ _ => none

/-- The sort of a named binder. -/
def binderSort (vs : List LogicVariable) (body : LSort) : LSort :=
  match vs with
  | [] => body
  | _ =>
    match vs.mapM fun v => firstOrder? v.sort, firstOrder? body with
    | some domain, some range => .function domain range
    | _, _ => body

def Connective.nodeSort : Connective → List LSort → LSort
  | .ite, [_, s, _] | .whenOperator _, [s, _] | .cond, [_, s] => s
  | _, _ => .first .boolean

def Binder.nodeSort : Binder → List LogicVariable → List LSort → LSort
  | .namedBinder _ _, vs, [s] => binderSort vs s
  | .some _ _, v :: _, _ => v.sort
  | .some _ _, [], _ => .first (.top "TopSort")
  | _, _, _ => .first .boolean

/-- The sort of an application. -/
def applySort : LSort → LSort
  | .function _ range => .first range
  | s => s

mutual
/-- `NodeSort`. -/
def Expr.nodeSort : Expr → LSort
  | .symbol x => x.sort
  | .apply f _ => applySort f.nodeSort
  | .node op ts => op.nodeSort (nodeSorts ts)
  | .bind b vs ts => b.nodeSort vs (nodeSorts ts)
def nodeSorts : List Expr → List LSort
  | [] => []
  | t :: ts => t.nodeSort :: nodeSorts ts
end

theorem nodeSorts_eq (ts : List Expr) : nodeSorts ts = ts.map Expr.nodeSort := by
  induction ts with
  | nil => rfl
  | cons t ts ih => rw [nodeSorts, ih, List.map_cons]

end Sorts

section Constructors

/-- The sort check of `NewApply`. -/
def applyAccepts : LSort → List LSort → Bool
  | .first (.top _), _ => true
  | .first _, _ => false
  | .function domain _, ss =>
    domain.length = ss.length && (domain.zip ss).all fun (d, s) => s = .first d || s.isTop || (LSort.first d).isTop

/-- The sort checks of the constructors. -/
def Connective.accepts : Connective → List LSort → Bool
  | .eq, [s, s'] => s.isTop || s'.isTop || s = s' && (firstOrder? s).isSome
  | .ite, [c, s, s'] => c.isBooleanOrTop && (s.isTop || s'.isTop || s = s')
  | .not, [s] | .globally _, [s] | .eventually _, [s] => s.isBooleanOrTop
  | .and, ss | .or, ss => ss.all LSort.isBooleanOrTop
  | .implies, [s, s'] | .iff, [s, s'] => s.isBooleanOrTop && s'.isBooleanOrTop
  | .whenOperator _, [_, s] => s.isBooleanOrTop
  | .cond, [_, _] => true
  | _, _ => false

/-- What the constructors of the binders check. -/
def Binder.accepts : Binder → List LogicVariable → List LSort → Bool
  | .forAll, vs, [s] | .exists, vs, [s] => !vs.isEmpty && s.isBooleanOrTop
  | .rawForAll _, _, [_] | .lambda, _, [_] | .namedBinder _ _, _, [_] => true
  | .some ifVal elseVal, _, ss => ss.length = 1 + ifVal.toNat + elseVal.toNat
  | _, _, _ => false

/-- `deduplicateAndSortVars`. -/
def deduplicateAndSort (vs : List LogicVariable) : List LogicVariable := vs.dedup.insertionSort fun v w => v.name ≤ w.name

/-- The variables that a constructor keeps: a quantifier has each once, in the order of the names. -/
def Binder.variables : Binder → List LogicVariable → List LogicVariable
  | .forAll, vs | .rawForAll _, vs | .exists, vs => deduplicateAndSort vs
  | _, vs => vs

def newApply (f : Expr) (ts : List Expr) : Option Expr :=
  if applyAccepts f.nodeSort (ts.map Expr.nodeSort) then some (.apply f ts) else none

def newNode (op : Connective) (ts : List Expr) : Option Expr :=
  if op.accepts (ts.map Expr.nodeSort) then some (.node op ts) else none

def newBinder (b : Binder) (vs : List LogicVariable) (ts : List Expr) : Option Expr :=
  if b.accepts vs (ts.map Expr.nodeSort) then some (.bind b (b.variables vs) ts) else none

end Constructors

section Variables

mutual
/-- `FreeVariables`. It does not look into the heads of applications, and takes the parameters of `some` for free. -/
def Expr.freeVariables : Expr → List LogicVariable
  | .symbol (.var v) => [v]
  | .symbol (.const _) => []
  | .apply _ ts | .node _ ts => freeVariablesList ts
  | .bind (.some _ _) vs ts => vs ++ freeVariablesList ts
  | .bind _ vs ts => (freeVariablesList ts).filter (· ∉ vs)
def freeVariablesList : List Expr → List LogicVariable
  | [] => []
  | t :: ts => t.freeVariables ++ freeVariablesList ts
end

mutual
/-- The variables bound where substitution comes. -/
def Expr.boundVariables : Expr → List LogicVariable
  | .symbol _ => []
  | .apply _ ts | .node _ ts => boundVariablesList ts
  | .bind _ vs ts => vs ++ boundVariablesList ts
def boundVariablesList : List Expr → List LogicVariable
  | [] => []
  | t :: ts => t.boundVariables ++ boundVariablesList ts
end

theorem freeVariablesList_eq (ts : List Expr) : freeVariablesList ts = ts.flatMap Expr.freeVariables := by
  induction ts with
  | nil => rfl
  | cons t ts ih => rw [freeVariablesList, ih, List.flatMap_cons]

theorem boundVariablesList_eq (ts : List Expr) : boundVariablesList ts = ts.flatMap Expr.boundVariables := by
  induction ts with
  | nil => rfl
  | cons t ts ih => rw [boundVariablesList, ih, List.flatMap_cons]

end Variables

section Substitution

abbrev Subs := List (Symbol × Expr)

/-- `substituteWithoutBoundVariables`. -/
def substituteWithoutBoundVariables (vs : List LogicVariable) (subs : Subs) : Option Subs :=
  let newsubs := subs.filter fun p => p.1 ∉ vs.map Symbol.var
  let forbidden := newsubs.flatMap fun p => p.2.freeVariables
  if vs.any (· ∈ forbidden) then none else some newsubs

mutual
/-- `substituteRec`: the head of an application stays as it is, and a `Cond` is not supported. -/
def Expr.substituteRec : Expr → Subs → Option Expr
  | .symbol x, subs => some ((subs.lookup x).getD (.symbol x))
  | .apply f ts, subs => (substituteList ts subs).bind (newApply f)
  | .node .cond _, _ => none
  | .node op ts, subs => (substituteList ts subs).bind (newNode op)
  | .bind b vs ts, subs => (substituteWithoutBoundVariables vs subs).bind fun newsubs => (substituteList ts newsubs).bind (newBinder b vs)
def substituteList : List Expr → Subs → Option (List Expr)
  | [], _ => some []
  | t :: ts, subs => (t.substituteRec subs).bind fun t => (substituteList ts subs).map (t :: ·)
end

/-- `Substitute`. -/
def Expr.substitute (e : Expr) (subs : Subs) : Option Expr := if subs.isEmpty then some e else e.substituteRec subs

theorem substituteList_eq (ts : List Expr) (subs : Subs) : substituteList ts subs = ts.mapM fun t => t.substituteRec subs := by
  induction ts with
  | nil => rfl
  | cons t ts ih =>
    rw [substituteList, List.mapM_cons, ih]
    cases t.substituteRec subs with
    | none => rfl
    | some t' => cases ts.mapM fun t => t.substituteRec subs <;> rfl

end Substitution

end Goivy.LogicUtil
