import Goivy.Logic.Instance
import Goivy.Logic.Key
import Goivy.TransRel.Update

/-! Models of the solver, and the facts that are read out of them. -/
namespace Goivy.Solver

/-- What is read of a signature: its interpreted sorts, and the constructors of the enumerations. -/
structure Sig where
  interp : List String
  constructors : List String

structure LogicLiteral where
  polarity : Bool
  atom : Expr

/-- A model of Z3, which evaluates a formula after values are substituted for variables and prints a value. The universes are
under the names of their sorts. -/
structure HerbrandModel (D : Domain) where
  eval : Expr → List (Variable × Val D) → Val D
  string : Val D → String
  constants : String → Option (List (Val D))
  sortMap : List (String × FSort)
  sig : Sig
  useZ3Enums : Bool

/-- `FreeVariables` of a literal: its variables in the order of their keys. -/
def LogicLiteral.vars (lit : LogicLiteral) : List Variable :=
  lit.atom.freeVariables.dedup.insertionSort fun v w =>
    (⟨v.name, .first v.sort⟩ : LogicVariable).sexp ≤ (⟨w.name, .first w.sort⟩ : LogicVariable).sexp

def enumerateAssignments {α : Type} : List (List α) → List (List α)
  | [] => [[]]
  | range :: ranges => range.flatMap fun val => (enumerateAssignments ranges).map (val :: ·)

namespace HerbrandModel

variable {D : Domain} (h : HerbrandModel D)

section Check

/-- `Sorts`. -/
def sorts : List FSort := h.sortMap.filterMap fun (name, sort) => if (h.constants name).isSome then some sort else none

def constantFromZ3 (sort : FSort) (z3val : Val D) : Const :=
  if h.string z3val = "true" then ⟨"true", .first .boolean⟩
  else if h.string z3val = "false" then ⟨"false", .first .boolean⟩
  else ⟨h.string z3val, .first sort⟩

def sortUniverse (sort : FSort) : List Const := ((h.constants sort.name).getD []).map (h.constantFromZ3 sort)

/-- `variableRange`: the values of an enumeration, the truth values, or the universe. -/
def variableRange (v : Variable) : List (Val D) :=
  match v.sort with
  | .enumerated n ext =>
    if ext.isEmpty then (h.constants n).getD []
    else ext.map fun name => h.eval (.const ⟨name, .first (.enumerated n ext)⟩) []
  | .boolean => [⟨.boolean, false⟩, ⟨.boolean, true⟩]
  | s => (h.constants s.name).getD []

def isTrue (e : Expr) (assignment : List (Variable × Val D)) : Bool := h.string (h.eval e assignment) = "true"

def holds (lit : LogicLiteral) (assignment : List (Variable × Val D)) : Bool :=
  h.isTrue (if lit.polarity then lit.atom else .not lit.atom) assignment

/-- `Check`: the variables of a literal, and the rows of constants for the assignments that satisfy it. -/
def check (lit : LogicLiteral) : List Variable × List (List Const) :=
  let vs := lit.vars
  if vs.isEmpty then (vs, if h.holds lit [] then [[]] else [])
  else
    let assignments := enumerateAssignments (vs.map h.variableRange)
    -- the substitution is refused where a value has not the sort of its variable
    let rows := assignments.filter fun row => row.map Sigma.fst = vs.map Variable.sort && h.holds lit (vs.zip row)
    (vs, rows.map fun row => (vs.zip row).map fun (v, val) => h.constantFromZ3 v.sort val)

/-- `getModelConstant`. -/
def getModelConstant (c : Const) : Const :=
  match c.sort.range, h.useZ3Enums with
  | .enumerated n (first :: ext), false =>
    let sort : LSort := .first (.enumerated n (first :: ext))
    ⟨((first :: ext).find? fun name => h.isTrue (.eq (.const c) (.const ⟨name, sort⟩)) []).getD first, sort⟩
  | sort, _ => h.constantFromZ3 sort (h.eval (.const c) [])

end Check

section Facts

def isInterpretedSort : FSort → Bool
  | .uninterpreted n | .enumerated n _ => n ∈ h.sig.interp
  | _ => false

def distinctness : List Const → List Expr
  | [] => []
  | c :: cs => cs.map (fun d => .not (.eq (.const c) (.const d))) ++ distinctness cs

/-- `ModelUniverseFacts`. -/
def modelUniverseFacts (sort : FSort) (upclose : Bool) : List Expr :=
  let elems := h.sortUniverse sort
  if h.isInterpretedSort sort || elems.isEmpty then []
  else (if upclose then [] else [.or (elems.map fun c => .eq (.var ⟨"X", sort⟩) (.const c))]) ++ distinctness elems

/-- The ground instances of a literal that hold in the model. -/
def getLitFacts (lit : LogicLiteral) : List Expr :=
  (h.check lit).2.filterMap fun row =>
    (lit.atom.substitute ((h.check lit).1.zip (row.map .const))).map fun newAtom =>
      if lit.polarity then newAtom else .not newAtom

def relationModelToClauses (rel : Const) : List Expr :=
  let app : Expr := .apply rel ((symPlaceholders rel).map .var)
  h.getLitFacts ⟨true, app⟩ ++ h.getLitFacts ⟨false, app⟩

def functionModelToClauses (f : Const) : List Expr :=
  let fTerm : Expr := .apply f ((symPlaceholders f).map .var)
  match f.sort.range, h.useZ3Enums with
  | .enumerated n ext, false =>
    ext.flatMap fun name => h.getLitFacts ⟨true, .eq fTerm (.const ⟨name, .first (.enumerated n ext)⟩)⟩
  | rng, _ => h.getLitFacts ⟨true, .eq (.var ⟨"Y", rng⟩) fTerm⟩

/-- What is said of a symbol, by its sort. -/
def constantFacts (sym : Const) : List Expr :=
  match sym.sort with
  | .first _ => if sym.name ∈ h.sig.constructors then [] else [.eq (.const sym) (.const (h.getModelConstant sym))]
  | .function _ _ => []

def relationFacts (sym : Const) : List Expr :=
  match sym.sort with
  | .function (_ :: _) .boolean => h.relationModelToClauses sym
  | _ => []

def functionFacts (sym : Const) : List Expr :=
  match sym.sort with
  | .function (_ :: _) .boolean => []
  | .function (_ :: _) _ => h.functionModelToClauses sym
  | _ => []

/-- `ModelFacts`. -/
def modelFacts (ignore : Const → Bool) (clauses : Clauses) (upclose : Bool) : Clauses :=
  let symSet := clauses.symbols.eraseDups.filter fun sym => !ignore sym
  .new (h.sorts.flatMap (h.modelUniverseFacts · upclose) ++ symSet.flatMap h.constantFacts ++ symSet.flatMap h.relationFacts ++
    symSet.flatMap h.functionFacts) []

end Facts

end HerbrandModel

end Goivy.Solver
