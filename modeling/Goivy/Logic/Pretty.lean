import Goivy.Logic.Substitute
import Goivy.Mc.PropAbs

/-! The printed text of an expression. A sort is written at the first place where it
cannot be inferred, so a bound variable that has the name of an earlier one is printed
without its sort. -/
namespace Goivy

/-- `isPolymorphicSymbolName`. -/
def isPolymorphicSymbolName (name : String) : Bool :=
  name ∈ ["<", "<=", ">", ">=", "+", "-", "*", "/", "*>", "bvand", "bvor", "bvnot", "l2s_waiting",
    "l2s_frozen", "l2s_saved", "l2s_d", "l2s_a", "cast", "arrsel", "arrupd", "arrcst"] ||
  "bfe[".toList <+: name.toList

def infixSymbols : List String := ["<", "<=", ">", ">=", "+", "-", "*", "/"]

/-- `precSymbols`, with the precedence of a plain application elsewhere. -/
def precSymbol (name : String) : Nat :=
  if name ∈ ["<", "<=", ">", ">="] then 7
  else if name = "+" then 12
  else if name = "-" then 13
  else if name = "*" then 14
  else if name = "/" then 15
  else 1

def FSort.isTop : FSort → Bool
  | .top _ => true
  | _ => false

/-- `TopS`. -/
def topS : FSort := .top "TopSort"

/-- `varUgly`. -/
def varUgly (v : Variable) : String :=
  if v.sort.isTop then v.name else v.name ++ ":" ++ sortName v.sort

/-- `SortName` of the sort of a symbol. -/
def constSortName : LSort → String
  | .first s => sortName s
  | s => s.string

/-- `constUgly`. -/
def constUgly (c : Const) : String :=
  if isNumeralName c.name && !c.sort.isTop then c.name ++ ":" ++ constSortName c.sort else c.name

/-- The case of a variable in `dropAnnotations`, which alone changes the set. -/
def dropVariable (v : Variable) (inferred : Bool) (annotated : List String) :
    Variable × List String :=
  if inferred || v.name ∈ annotated then (⟨v.name, topS⟩, v.name :: annotated)
  else (v, if v.sort.isTop then annotated else v.name :: annotated)

/-- The bound variables, after the body. -/
def dropVariables : List Variable → List String → List Variable × List String
  | [], annotated => ([], annotated)
  | v :: vs, annotated =>
    let (v, annotated) := dropVariable v false annotated
    let (vs, annotated) := dropVariables vs annotated
    (v :: vs, annotated)

mutual
/-- `dropAnnotations`, with the set of the annotated names. An indefinite description prints
its parts on their own, each with a fresh set. -/
def dropAnnotations : Expr → Bool → List String → Expr × List String
  | .var v, inferred, annotated =>
    let (v, annotated) := dropVariable v inferred annotated
    (.var v, annotated)
  | .const c, inferred, annotated =>
    (.const (if inferred && isNumeralName c.name then ⟨c.name, .first topS⟩ else c), annotated)
  | .apply f ts, inferred, annotated =>
    let first := !isPolymorphicSymbolName f.name || inferred && f.sort.range ≠ .boolean
    let rest := !isPolymorphicSymbolName f.name || f.name ≠ "*>"
    let (ts, annotated) := dropTerms ts first rest annotated
    (.apply f ts, annotated)
  | .eq a b, _, annotated =>
    let (a, annotated) := dropAnnotations a false annotated
    let (b, annotated) := dropAnnotations b true annotated
    (.eq a b, annotated)
  | .ite c a b, inferred, annotated =>
    let (a, annotated) := dropAnnotations a inferred annotated
    let (b, annotated) := dropAnnotations b true annotated
    let (c, annotated) := dropAnnotations c true annotated
    (.ite c a b, annotated)
  | .forAll vs a, _, annotated =>
    let (a, annotated) := dropAnnotations a true annotated
    let (vs, annotated) := dropVariables vs annotated
    (.forAll vs a, annotated)
  | .exists vs a, _, annotated =>
    let (a, annotated) := dropAnnotations a true annotated
    let (vs, annotated) := dropVariables vs annotated
    (.exists vs a, annotated)
  | .not a, _, annotated =>
    let (a, annotated) := dropAnnotations a true annotated
    (.not a, annotated)
  | .and ts, _, annotated =>
    let (ts, annotated) := dropTerms ts true true annotated
    (.and ts, annotated)
  | .or ts, _, annotated =>
    let (ts, annotated) := dropTerms ts true true annotated
    (.or ts, annotated)
  | .implies a b, _, annotated =>
    let (a, annotated) := dropAnnotations a true annotated
    let (b, annotated) := dropAnnotations b true annotated
    (.implies a b, annotated)
  | .iff a b, _, annotated =>
    let (a, annotated) := dropAnnotations a true annotated
    let (b, annotated) := dropAnnotations b true annotated
    (.iff a b, annotated)
  | .some vs a, _, annotated => (.some vs (dropAnnotations a false []).1, annotated)
  | .someElse vs a b c, _, annotated =>
    (.someElse vs (dropAnnotations a false []).1 (dropAnnotations b false []).1
      (dropAnnotations c false []).1, annotated)
/-- The terms of an application or a connective: the first one may be treated apart. -/
def dropTerms : List Expr → Bool → Bool → List String → List Expr × List String
  | [], _, _, annotated => ([], annotated)
  | t :: ts, first, rest, annotated =>
    let (t, annotated) := dropAnnotations t first annotated
    let (ts, annotated) := dropTerms ts rest rest annotated
    (t :: ts, annotated)
end

def parenthesize (paren : Bool) (s : String) : String := if paren then "(" ++ s ++ ")" else s

/-- `quantUgly`, with the text of the body. -/
def quantUgly (keyword : String) (vs : List Variable) (body : String) (prec : Nat) : String :=
  parenthesize (1 ≤ prec) (keyword ++ " " ++ ",".intercalate (vs.map varUgly) ++ ". " ++ body)

/-- `String` of an indefinite description, with the texts of its parts. -/
def someUgly (vs : List Variable) (parts : String) : String :=
  "some " ++ (vs.head?.map varUgly).getD "" ++ ". " ++ parts

/-- The precedence that the first of these arguments is printed at. -/
def firstPrec (ts : List Expr) (myprec : Nat) : Nat := if ts.length = 2 then myprec - 1 else myprec

/-- `appUgly`, with the texts of the arguments. -/
def appText (name : String) (args : List String) (prec : Nat) : String :=
  if name ∈ infixSymbols then
    match args with
    | [arg] => if name = "-" then name ++ arg else parenthesize (precSymbol name ≤ prec) arg
    | _ => parenthesize (precSymbol name ≤ prec) ((" " ++ name ++ " ").intercalate args)
  else if args.isEmpty then name
  else name ++ "(" ++ ",".intercalate args ++ ")"

/-- `naryUgly`, with the texts of the arguments. -/
def naryText (op : String) (args : List String) (myprec prec : Nat) : String :=
  parenthesize (1 < args.length && myprec ≤ prec) ((" " ++ op ++ " ").intercalate args)

mutual
def ugly : Expr → Nat → String
  | .var v, _ => varUgly v
  | .const c, _ => constUgly c
  | .apply f ts, prec =>
    let first := if f.name ∈ infixSymbols then firstPrec ts (precSymbol f.name) else precSymbol f.name
    appText f.name (uglyTerms ts first (precSymbol f.name)) prec
  | .eq a b, prec => naryText "=" [ugly a 6, ugly b 7] 7 prec
  | .not (.eq a b), prec => naryText "~=" [ugly a 7, ugly b 8] 8 prec
  | .not a, _ => "~" ++ ugly a 6
  | .and ts, _ =>
    if ts.isEmpty then "true" else "(" ++ " & ".intercalate (uglyTerms ts 5 5) ++ ")"
  | .or ts, prec =>
    if ts.isEmpty then "false" else naryText "|" (uglyTerms ts (firstPrec ts 4) 4) 4 prec
  | .implies a b, prec => naryText "->" [ugly a 2, ugly b 3] 3 prec
  | .iff a b, prec => naryText "<->" [ugly a 2, ugly b 3] 3 prec
  | .ite c a b, _ => "(" ++ ugly a 9 ++ " if " ++ ugly c 9 ++ " else " ++ ugly b 9 ++ ")"
  | .forAll vs a, prec => quantUgly "forall" vs (ugly a 1) prec
  | .exists vs a, prec => quantUgly "exists" vs (ugly a 1) prec
  | .some vs a, _ => someUgly vs (ugly a 0)
  | .someElse vs a b c, _ => someUgly vs (ugly a 0 ++ " in " ++ ugly b 0 ++ " else " ++ ugly c 0)
def uglyTerms : List Expr → Nat → Nat → List String
  | [], _, _ => []
  | t :: ts, first, rest => ugly t first :: uglyTerms ts rest rest
end

/-- `PrettyFmla`, the `String` of an expression. -/
def prettyFmla (e : Expr) : String := ugly (dropAnnotations e false []).1 0

example : prettyFmla (.and [.apply ⟨"p", .function [.uninterpreted "s"] .boolean⟩
    [.var ⟨"X", .uninterpreted "s"⟩], .exists [⟨"X", .uninterpreted "t"⟩]
      (.not (.eq (.var ⟨"X", .uninterpreted "t"⟩) (.const ⟨"c", .first (.uninterpreted "t")⟩)))]) =
    "(p(X) & (exists X. X ~= c))" := by
  decide +kernel

end Goivy
