import Goivy.Logic.Uniquify
import Goivy.Proof.GoalMeaning

/-! Unfolding definitions in a goal. -/
namespace Goivy

structure Lambda where
  vars : List Variable
  body : Expr

/-- `LambdaApply`. -/
def Lambda.apply (lam : Lambda) (args : List Expr) : Option Expr :=
  if args.length ≠ lam.vars.length then none
  else if lam.vars = [] then some lam.body
  else lam.body.substitute (lam.vars.zip args).reverse

namespace Expr

/-- The universal quantifiers that `MatchFromDefn` takes off. -/
def dropForAlls : Expr → Expr
  | .forAll _ a => a.dropForAlls
  | e => e

/-- `nodesToVarsPhase5`. -/
def toVars (ts : List Expr) : List Variable := ts.filterMap fun
  | .var v => Option.some v
  | _ => none

mutual
/-- `SortsAst`: the sorts of the symbols and of the variables that occur. -/
def sortsAst : Expr → List FSort
  | .var v => [v.sort]
  | .const c => c.sort.range :: c.sort.domain
  | .apply f ts => f.sort.range :: f.sort.domain ++ sortsAstList ts
  | .and ts | .or ts => sortsAstList ts
  | .eq a b | .implies a b | .iff a b => a.sortsAst ++ b.sortsAst
  | .not a | .forAll _ a | .exists _ a => a.sortsAst
  | .ite a b c => a.sortsAst ++ b.sortsAst ++ c.sortsAst
  | .some vs a => vs.map Variable.sort ++ a.sortsAst
  | .someElse vs a b c => vs.map Variable.sort ++ a.sortsAst ++ b.sortsAst ++ c.sortsAst
def sortsAstList : List Expr → List FSort
  | [] => []
  | t :: ts => t.sortsAst ++ sortsAstList ts
end

end Expr

/-- `MatchFromDefn`. An argument that is no variable gives no parameter. -/
def matchFromDefn (d : LabeledFormula) : Option (Const × Lambda) :=
  match d.conc with
  | .formula e =>
    match e.dropForAlls with
    | .eq (.apply f ts) rhs | .iff (.apply f ts) rhs =>
      if (Expr.toVars ts).Nodup then some (f, ⟨Expr.toVars ts, rhs⟩) else none
    | _ => none
  | _ => none

/-- `MatchFromDefns`: all the definitions are matched, and have one symbol. -/
def matchFromDefns (defns : List LabeledFormula) : Option (Const × List Lambda) :=
  match defns.mapM matchFromDefn with
  | some ((f, lam) :: rest) => if rest.all (·.1 = f) then some (f, lam :: rest.map Prod.snd) else none
  | _ => none

/-- The free variables of a lambda, the first of each name. -/
def Lambda.variablesAst (lam : Lambda) : List Variable :=
  (lam.body.usedVariables.filter fun v => v.name ∉ lam.vars.map Variable.name).foldl
    (fun seen v => if v.name ∈ seen.map Variable.name then seen else seen ++ [v]) []

/-- The names in `unfoldRhsVars`. -/
def unfoldRhsNames (lams : List Lambda) : List String :=
  let sorts := (lams.flatMap fun lam => lam.body.sortsAst).dedup.filterMap fun
    | .uninterpreted name => some name
    | _ => none
  sorts ++ (lams.flatMap fun lam => lam.body.symbols).dedup.map Const.name ++
    (lams.flatMap Lambda.variablesAst).dedup.map Variable.name

/-- `Pop`: the last lambda stays. -/
def popLambda : List Lambda → Option Lambda × List Lambda
  | [] => (none, [])
  | [lam] => (some lam, [lam])
  | lam :: lams => (some lam, lams)

namespace Expr

mutual
/-- `applyUnfoldRec`. The arguments are unfolded first; where the lambda cannot be applied to them, the original
application is returned. -/
def applyUnfold (key : Const) : Expr → List Lambda → Expr × List Lambda
  | .var v, lams => (.var v, lams)
  | .const c, lams => (.const c, lams)
  | .apply f ts, lams =>
    let (us, lams) := applyUnfoldList key ts lams
    if f = key then
      let (lam, lams) := popLambda lams
      (((lam.bind fun lam => lam.apply us).getD (.apply f ts)), lams)
    else (.apply f us, lams)
  | .and ts, lams => let (us, lams) := applyUnfoldList key ts lams; (.and us, lams)
  | .or ts, lams => let (us, lams) := applyUnfoldList key ts lams; (.or us, lams)
  | .eq a b, lams =>
    let (a, lams) := a.applyUnfold key lams; let (b, lams) := b.applyUnfold key lams; (.eq a b, lams)
  | .not a, lams => let (a, lams) := a.applyUnfold key lams; (.not a, lams)
  | .implies a b, lams =>
    let (a, lams) := a.applyUnfold key lams; let (b, lams) := b.applyUnfold key lams; (.implies a b, lams)
  | .iff a b, lams =>
    let (a, lams) := a.applyUnfold key lams; let (b, lams) := b.applyUnfold key lams; (.iff a b, lams)
  | .ite c a b, lams =>
    let (c, lams) := c.applyUnfold key lams; let (a, lams) := a.applyUnfold key lams
    let (b, lams) := b.applyUnfold key lams; (.ite c a b, lams)
  | .forAll vs a, lams => let (a, lams) := a.applyUnfold key lams; (.forAll (deduplicateAndSortVars vs) a, lams)
  | .exists vs a, lams => let (a, lams) := a.applyUnfold key lams; (.exists (deduplicateAndSortVars vs) a, lams)
  | .some vs a, lams => let (a, lams) := a.applyUnfold key lams; (.some vs a, lams)
  | .someElse vs a b c, lams =>
    let (a, lams) := a.applyUnfold key lams; let (b, lams) := b.applyUnfold key lams
    let (c, lams) := c.applyUnfold key lams; (.someElse vs a b c, lams)
def applyUnfoldList (key : Const) : List Expr → List Lambda → List Expr × List Lambda
  | [], lams => ([], lams)
  | t :: ts, lams =>
    let (t, lams) := t.applyUnfold key lams; let (ts, lams) := applyUnfoldList key ts lams; (t :: ts, lams)
end

end Expr

/-- A group of definitions that is unfolded: the symbol, and the names that `AlphaAvoidMap` is called with for a
conclusion, in the order in which their map is visited then. -/
structure Unfolding where
  key : Const
  names : Expr → List String

namespace Unfolding

variable (u : Unfolding)

def formula (e : Expr) (lams : List Lambda) : Expr × List Lambda := (e.alphaAvoidMap (u.names e)).applyUnfold u.key lams

/-- The conclusion. Both sides of a definition are traversed, like those of an equation. A schema is not rebuilt, but
the lambdas are taken from the list as if it were. -/
def conclusion : Conclusion → List Lambda → Conclusion × List Lambda
  | .formula e, lams => let (e, lams) := u.formula e lams; (.formula e, lams)
  | .definition d, lams =>
    match u.formula (.eq d.lhs d.rhs) lams with
    | (.eq lhs rhs, lams) => (.definition ⟨lhs, rhs⟩, lams)
    | (_, lams) => (.definition d, lams)
  | .definitionSchema d, lams => (.definitionSchema d, ((Expr.eq d.lhs d.rhs).applyUnfold u.key lams).2)

/-- A declaration of the symbol, unless the compiler has wrapped it. -/
def declares : Premise → Bool
  | .constantDecl false c => c = u.key
  | _ => false

mutual
/-- `applyUnfoldGoal` for a premise. -/
def premise : Premise → List Lambda → Premise × List Lambda
  | .sort name, lams => (.sort name, lams)
  | .constantDecl compiled c, lams => (.constantDecl compiled c, lams)
  | .goal label prems conc, lams =>
    let (prems, lams) := premises prems lams
    let (conc, lams) := u.conclusion conc lams
    (.goal label (prems.filter fun p => !u.declares p) conc, lams)
def premises : List Premise → List Lambda → List Premise × List Lambda
  | [], lams => ([], lams)
  | p :: ps, lams => let (p, lams) := premise p lams; let (ps, lams) := premises ps lams; (p :: ps, lams)
end

/-- `applyUnfoldGoal`. -/
def goal (g : LabeledFormula) (lams : List Lambda) : LabeledFormula :=
  let (prems, lams) := u.premises g.prems lams
  ⟨g.label, prems.filter fun p => !u.declares p, (u.conclusion g.conc lams).1⟩

end Unfolding

/-- `UnfoldGoal`: a group that does not match is left out. `visit` is the order in which the names for a conclusion
come. -/
def unfoldGoal (visit : Expr → List String → List String) (g : LabeledFormula) (defns : List (List LabeledFormula)) :
    LabeledFormula :=
  defns.foldl (fun g rdefs =>
    match matchFromDefns rdefs with
    | some (key, lams) => Unfolding.goal ⟨key, fun e => visit e (unfoldRhsNames lams)⟩ g lams
    | none => g) g

end Goivy
