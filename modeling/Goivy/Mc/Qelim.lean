import Goivy.Logic.Pretty

/-! Elimination of quantifiers by instantiation. A quantifier over finite sorts is expanded;
any other becomes a fresh proposition, constrained by its instances in one direction. -/
namespace Goivy

/-- `IsFiniteSortWithInterp`. -/
def isFiniteSortWithInterp (s : FSort) (interp : Interpretation) : Bool :=
  match s with
  | .boolean | .enumerated _ _ | .range _ _ _ => true
  | _ =>
    match getSortTheory s interp with
    | .sort (.enumerated _ _) | .sort (.range _ _ _) | .sort .boolean => true
    | .theory (.bitVector _) => true
    | _ => false

/-- The numerals of the sort from `lb` on. -/
def numerals (s : FSort) (lb : Int) (n : Nat) : List Expr :=
  (List.range n).map fun i => .const ⟨itoa (lb + i), .first s⟩

/-- `sortValuesAsExprs`. Nothing is returned where it panics, or where the loop passes the
greatest integer and does not end. -/
def sortValuesAsExprs (s : FSort) (interp : Interpretation) : Option (List Expr) :=
  match getSortTheory s interp with
  | .sort (.enumerated _ extension) => some (extension.map fun n => .const ⟨n, .first s⟩)
  | .sort (.range _ lb ub) =>
    if !(atoi lb).2 || !(atoi ub).2 then some []
    else if machineInt ((atoi ub).1 - (atoi lb).1 + 1) < 0 ∨ (atoi ub).1 = 2 ^ 63 - 1 then none
    else some (numerals s (atoi lb).1 ((atoi ub).1 - (atoi lb).1 + 1).toNat)
  | .sort .boolean => some [.fls, .tru]
  | .theory (.bitVector bits) => if 8 < bits then none else some (numerals s 0 (2 ^ bits))
  | _ => some []

/-- `mcCartesianProduct`. -/
def mcCartesianProduct : List (List Expr) → List (List Expr)
  | [] => [[]]
  | first :: rest => first.flatMap fun v => (mcCartesianProduct rest).map (v :: ·)

/-- `removeBoundNames`. -/
def removeBoundNames (subs : List (String × Expr)) (vs : List Variable) : List (String × Expr) :=
  subs.filter fun p => p.1 ∉ vs.map Variable.name

mutual
/-- `SubstituteByName`. An indefinite description stays as it is. -/
def Expr.substituteByName : Expr → List (String × Expr) → Expr
  | .var v, subs => (subs.lookup v.name).getD (.var v)
  | .const c, _ => .const c
  | .apply f ts, subs => .apply f (substituteListByName ts subs)
  | .eq a b, subs => .eq (a.substituteByName subs) (b.substituteByName subs)
  | .not a, subs => .not (a.substituteByName subs)
  | .and ts, subs => .and (substituteListByName ts subs)
  | .or ts, subs => .or (substituteListByName ts subs)
  | .implies a b, subs => .implies (a.substituteByName subs) (b.substituteByName subs)
  | .iff a b, subs => .iff (a.substituteByName subs) (b.substituteByName subs)
  | .ite c a b, subs =>
    .ite (c.substituteByName subs) (a.substituteByName subs) (b.substituteByName subs)
  | .forAll vs a, subs => .forAll vs (a.substituteByName (removeBoundNames subs vs))
  | .exists vs a, subs => .exists vs (a.substituteByName (removeBoundNames subs vs))
  | .some vs a, _ => .some vs a
  | .someElse vs a b c, _ => .someElse vs a b c
def substituteListByName : List Expr → List (String × Expr) → List Expr
  | [], _ => []
  | t :: ts, subs => t.substituteByName subs :: substituteListByName ts subs
end

/-- The map from the names of bound variables to their values. The value set last is found
first. -/
def instanceMap (vs : List Variable) (combo : List Expr) : List (String × Expr) :=
  ((vs.map Variable.name).zip combo).reverse

namespace Expr

/-- `Children`, which `NodeArgs` agrees with. -/
def children : Expr → List Expr
  | .var _ | .const _ => []
  | .apply _ ts | .and ts | .or ts => ts
  | .eq a b | .implies a b | .iff a b => [a, b]
  | .not a | .forAll _ a | .exists _ a => [a]
  | .ite c a b => [c, a, b]
  | .some vs a => vs.map .var ++ [a]
  | .someElse vs a b c => vs.map .var ++ [a, b, c]

/-- The name of the type of a node. -/
def typeName : Expr → String
  | .var _ => "*goivy.LogicVariable"
  | .const _ => "*goivy.Const"
  | .apply _ _ => "*goivy.Apply"
  | .eq _ _ => "*goivy.Eq"
  | .not _ => "*goivy.LogicNot"
  | .and _ => "*goivy.LogicAnd"
  | .or _ => "*goivy.LogicOr"
  | .implies _ _ => "*goivy.LogicImplies"
  | .iff _ _ => "*goivy.LogicIff"
  | .ite _ _ _ => "*goivy.LogicIte"
  | .forAll _ _ => "*goivy.ForAll"
  | .exists _ _ => "*goivy.LogicExists"
  | .some _ _ | .someElse _ _ _ _ => "*goivy.LogicSome"

/-- The name of a symbol or an application. -/
def appName : Expr → String
  | .const c => c.name
  | .apply f _ => f.name
  | _ => ""

def compareNames (a b : String) : Int := if a < b then -1 else if b < a then 1 else 0

/-- The first result that is not zero. -/
def firstNonzero (results : List Int) : Int := (results.find? (· ≠ 0)).getD 0

/-- A node compared with another one, given how its children compare. -/
def compareNode (x : Expr) (ords : List (Expr → Int)) (y : Expr) : Int :=
  firstNonzero ([compareNames x.typeName y.typeName, compareNames x.appName y.appName,
    ((ords.length : Int) - y.children.length).sign] ++
    List.zipWith (fun ord y => ord y) ords y.children)

mutual
/-- How the children of a node compare with other nodes. -/
def childOrds : Expr → List (Expr → Int)
  | .var _ | .const _ => []
  | .apply _ ts | .and ts | .or ts => childOrdsList ts
  | .eq a b | .implies a b | .iff a b => [compareNode a (childOrds a), compareNode b (childOrds b)]
  | .not a | .forAll _ a | .exists _ a => [compareNode a (childOrds a)]
  | .ite c a b =>
    [compareNode c (childOrds c), compareNode a (childOrds a), compareNode b (childOrds b)]
  | .some vs a => vs.map (fun v => compareNode (.var v) []) ++ [compareNode a (childOrds a)]
  | .someElse vs a b c => vs.map (fun v => compareNode (.var v) []) ++
    [compareNode a (childOrds a), compareNode b (childOrds b), compareNode c (childOrds c)]
def childOrdsList : List Expr → List (Expr → Int)
  | [] => []
  | t :: ts => compareNode t (childOrds t) :: childOrdsList ts
end

/-- `termOrd`. -/
def termOrd (x : Expr) : Expr → Int := compareNode x (childOrds x)

/-- `cloneNormal`: an equation of a term with itself is true, and the lesser term of an
equation comes first. -/
def cloneNormal : Expr → List Expr → Expr
  | .eq _ _, [x, y] => if x.equal y then tru else if termOrd x y = 1 then .eq y x else .eq x y
  | .apply f _, t :: ts => .apply f (t :: ts)
  | .not _, [a] => .not a
  | .and _, ts => .and ts
  | .or _, ts => .or ts
  | .implies _ _, [a, b] => .implies a b
  | .iff _ _, [a, b] => .iff a b
  | .ite _ _ _, [c, a, b] => .ite c a b
  | .forAll vs _, [a] => .forAll vs a
  | .exists vs _, [a] => .exists vs a
  | .some vs a, ts =>
    match ts.drop vs.length with
    | [a] => .some vs a
    | _ => .some vs a
  | .someElse vs a b c, ts =>
    match ts.drop vs.length with
    | [a, b, c] => .someElse vs a b c
    | _ => .someElse vs a b c
  | e, _ => e

/-- The names of `macroExpansions`. -/
def macroNames : List String := ["<=", ">", ">="]

/-- `IsMacro`, where polymorphic macros are used. -/
def isMacro : Expr → Bool
  | .apply f _ => f.name ∈ macroNames
  | _ => false

/-- `ExpandMacro`. Nothing is returned where `MustApply` panics. -/
def expandMacro : Expr → Option Expr
  | .apply f [a, b] =>
    if f.name = "<=" then (newApply ⟨"<", f.sort⟩ [a, b]).map fun lt => .or [lt, .eq a b]
    else if f.name = ">" then newApply ⟨"<", f.sort⟩ [b, a]
    else if f.name = ">=" then (newApply ⟨"<", f.sort⟩ [b, a]).map fun lt => .or [lt, .eq a b]
    else Option.some (.apply f [a, b])
  | e => Option.some e

end Expr

/-- The text under which a quantifier is cached. -/
def quantifierKey (vs : List Variable) (body : Expr) (isForall : Bool) : String :=
  "[" ++ " ".intercalate (vs.map varUgly) ++ "]:" ++ prettyFmla body ++ ":" ++
    (if isForall then "true" else "false")

/-- The part of a `Qelim` that does not change. -/
structure QelimConfig where
  sortConstants : InsMap String (List Const)
  sortConstants2 : InsMap String (List Const)
  usePolymorphicMacros : Bool
  fullQI : Bool
  interp : Interpretation

/-- A `Qelim`: the propositions by their keys, the counter and the constraints. -/
structure Qelim where
  syms : List (String × Const)
  symsCtr : Nat
  fmlas : List Expr

def Qelim.new : Qelim := ⟨[], 0, []⟩

/-- The name of a fresh proposition. -/
def qeName (n : Nat) : String := "__qe[" ++ itoa n ++ "]"

def qeConst (n : Nat) : Const := boolConst (qeName n)

/-- `Fresh`. -/
def Qelim.fresh (key : String) (q : Qelim) : Const × Qelim :=
  (qeConst q.symsCtr,
    { q with syms := (key, qeConst q.symsCtr) :: q.syms, symsCtr := q.symsCtr + 1 })

def Qelim.constrain (constraints : List Expr) (q : Qelim) : Qelim :=
  { q with fmlas := q.fmlas ++ constraints }

/-- A loop over expressions. -/
def qeList (qe : Expr → Qelim → Option (Expr × Qelim)) :
    List Expr → Qelim → Option (List Expr × Qelim)
  | [], q => some ([], q)
  | t :: ts, q => do
    let (u, q) ← qe t q
    let (us, q) ← qeList qe ts q
    return (u :: us, q)

/-- The transition clauses and the invariant after quantifier elimination. -/
structure Qelim.Result where
  fmlas : List Expr
  defs : List Definition
  invariant : Expr
deriving DecidableEq

namespace QelimConfig

variable (cfg : QelimConfig) (table : InsMap String (List Const))

def isFiniteSort (s : FSort) : Bool := isFiniteSortWithInterp s cfg.interp

/-- `GetConsts`. -/
def getConsts (s : FSort) : Option (List Expr) :=
  if cfg.isFiniteSort s then sortValuesAsExprs s cfg.interp
  else some (((table.get s.string).getD []).map .const)

/-- The instances of the body of a quantifier. -/
def instances (vs : List Variable) (body : Expr) : Option (List Expr) := do
  let constSets ← vs.mapM fun v => cfg.getConsts table v.sort
  return (mcCartesianProduct constSets).map fun combo => body.substituteByName (instanceMap vs combo)

/-- `qeQuantifier`, with the elimination inside an instance. -/
def qeQuantifier (qe : Expr → Qelim → Option (Expr × Qelim)) (vs : List Variable) (body : Expr)
    (isForall : Bool) (q : Qelim) : Option (Expr × Qelim) :=
  match q.syms.lookup (quantifierKey vs body isForall) with
  | some old => some (.const old, q)
  | none => do
    let insts ← cfg.instances table vs body
    let (insts, q) ← qeList qe insts q
    if vs.all fun v => cfg.isFiniteSort v.sort then
      return (if isForall then .and insts else .or insts, q)
    else
      let (res, q) := q.fresh (quantifierKey vs body isForall)
      let constraint := fun inst =>
        if isForall then Expr.implies (.const res) inst else Expr.implies inst (.const res)
      return (.const res, q.constrain (insts.map constraint))

/-- `QE`. Nothing is returned where it panics, or where the expansion of macros does not end. -/
def qe : Nat → Expr → Qelim → Option (Expr × Qelim)
  | 0, _, _ => none
  | fuel + 1, .forAll vs a, q => cfg.qeQuantifier table (qe fuel) vs a true q
  | fuel + 1, .exists vs a, q => cfg.qeQuantifier table (qe fuel) vs a false q
  | fuel + 1, e, q =>
    if cfg.usePolymorphicMacros && e.isMacro then do
      let expansion ← e.expandMacro
      qe fuel expansion q
    else if e.children.isEmpty then some (e, q)
    else do
      let (children, q) ← qeList (qe fuel) e.children q
      return (e.cloneNormal children, q)

/-- `QE` of a definition, whose children are its two sides. -/
def qeDefs (fuel : Nat) : List Definition → Qelim → Option (List Definition × Qelim)
  | [], q => some ([], q)
  | d :: ds, q => do
    let (lhs, q) ← cfg.qe table fuel d.lhs q
    let (rhs, q) ← cfg.qe table fuel d.rhs q
    let (ds, q) ← qeDefs fuel ds q
    return (⟨lhs, rhs⟩ :: ds, q)

/-- The constants that the transition clauses are instantiated with. -/
def transConstants : InsMap String (List Const) :=
  if cfg.fullQI then cfg.sortConstants2 else cfg.sortConstants

/-- `Apply`. -/
def apply (fuel : Nat) (transFmlas : List Expr) (transDefs : List Definition) (invariant : Expr)
    (indhyps : List Expr) : Option Qelim.Result := do
  let (newDefs, q) ← cfg.qeDefs cfg.transConstants fuel transDefs .new
  let (newFmlas, q) ← qeList (cfg.qe cfg.transConstants fuel) (transFmlas.map closeFormula) q
  let (newInv, q) ← cfg.qe cfg.sortConstants fuel invariant q
  let (newHyps, q) ← qeList (cfg.qe cfg.sortConstants2 fuel) indhyps q
  return ⟨newFmlas ++ newHyps ++ q.fmlas, newDefs, newInv⟩

end QelimConfig

end Goivy
