import Goivy.Logic.Key
import Goivy.Logic.Syntax

/-! Relational algebra on the instances of literals in a finite model. An access out of range is `none`. -/
namespace Goivy.Alpha

/-- The arguments of an application. -/
inductive Term where
  | var (v : Variable)
  | const (c : Const)
deriving DecidableEq

/-- A literal over an application. -/
structure LogicLiteral where
  polarity : Bool
  func : Const
  terms : List Term

/-- A finite model, whose values are named by constants. -/
structure HerbrandModel where
  variableRange : FSort → List Const
  nodup : ∀ s, (variableRange s).Nodup
  value : Const → Const
  rel : Const → List Const → Bool

structure RelTable where
  vars : List Term
  rows : List (List Const)

section Terms

def Term.asVariable : Term → Option Variable
  | .var v => some v
  | .const _ => none

/-- The last position of each variable, by its name. -/
def notePosition (d : String → Option Nat) : Term × Nat → String → Option Nat
  | (.var v, i) => Function.update d v.name (some i)
  | (.const _, _) => d

/-- `VarCorr`: the pairs of positions with one variable, of which the second list's last position counts. -/
def varCorr (terms1 terms2 : List Term) : List (Nat × Nat) :=
  let d := terms2.zipIdx.foldl notePosition fun _ => none
  terms1.zipIdx.filterMap fun (t, j) => t.asVariable.bind fun v => (d v.name).map (j, ·)

/-- The columns that `compactTable` keeps, with the names in `memo` seen before column `i`. -/
def goodCols (memo : List String) (i : Nat) : List Term → List Nat
  | [] => []
  | .var v :: ts => if v.name ∈ memo then goodCols memo (i + 1) ts else i :: goodCols (v.name :: memo) (i + 1) ts
  | .const _ :: ts => goodCols memo (i + 1) ts

end Terms

section Tables

def cutRow {α : Type} (row : List α) (cols : List Nat) : Option (List α) := cols.mapM fun col => row[col]?

def compactTable (tab : RelTable) : Option RelTable :=
  (cutRow tab.vars (goodCols [] 0 tab.vars)).bind fun vars =>
    (tab.rows.mapM fun row => cutRow row (goodCols [] 0 tab.vars)).map fun rows => ⟨vars, rows⟩

def allMatch (xr yr : List Const) : List (Nat × Nat) → Option Bool
  | [] => some true
  | (i, j) :: corr =>
    xr[i]?.bind fun a => yr[j]?.bind fun b => if a = b then allMatch xr yr corr else some false

/-- The row `xr` of the first table, combined with the rows that match it. -/
def matchRows (corr : List (Nat × Nat)) (xr : List Const) (rows : List (List Const)) : Option (List (List Const)) :=
  (rows.mapM fun yr => (allMatch xr yr corr).map fun b => if b then [xr ++ yr] else []).map List.flatten

/-- `Prod`: an index by the printed values of the first common column finds the rows to be compared. -/
def prod (print : Const → String) (x y : RelTable) : Option RelTable :=
  let corr := varCorr x.vars y.vars
  let rows : Option (List (List (List Const))) :=
    match corr with
    | (xc, yc) :: _ =>
      (y.rows.mapM fun ry => ry[yc]?.map fun c => (print c, ry)).bind fun index =>
        x.rows.mapM fun xr => xr[xc]?.bind fun c =>
          matchRows corr xr ((index.filter fun p => p.1 = print c).map Prod.snd)
    | [] => x.rows.mapM fun xr => matchRows corr xr y.rows
  rows.bind fun rows => compactTable ⟨x.vars ++ y.vars, rows.flatten⟩

/-- What a map of names does to a term. -/
def Term.subst (subs : String → Option Term) : Term → Term
  | .var v => (subs v.name).getD (.var v)
  | .const c => .const c

/-- `Subst`. -/
def RelTable.subst (tab : RelTable) (subs : String → Option Term) : RelTable := ⟨tab.vars.map (Term.subst subs), tab.rows⟩

end Tables

section Model

def LogicLiteral.subst (lit : LogicLiteral) (subs : String → Option Term) : LogicLiteral :=
  ⟨lit.polarity, lit.func, lit.terms.map (Term.subst subs)⟩

/-- `FreeVariables` of a literal: its variables in the order of their keys. -/
def LogicLiteral.vars (lit : LogicLiteral) : List Variable :=
  (lit.terms.filterMap Term.asVariable).dedup.insertionSort fun v w =>
    (⟨v.name, .first v.sort⟩ : LogicVariable).sexp ≤ (⟨w.name, .first w.sort⟩ : LogicVariable).sexp

variable (M : HerbrandModel)

/-- The value of a term under an assignment. -/
def HerbrandModel.eval (σ : Variable → Const) : Term → Const
  | .var v => σ v
  | .const c => M.value c

/-- A literal is true under an assignment. -/
def HerbrandModel.Holds (lit : LogicLiteral) (σ : Variable → Const) : Prop :=
  M.rel lit.func (lit.terms.map (M.eval σ)) = lit.polarity

instance (lit : LogicLiteral) (σ : Variable → Const) : Decidable (M.Holds lit σ) := inferInstanceAs (Decidable (_ = _))

def enumerateAssignments : List (List Const) → List (List Const)
  | [] => [[]]
  | range :: ranges => range.flatMap fun c => (enumerateAssignments ranges).map (c :: ·)

/-- The assignment of a row. -/
def assignment (vs : List Variable) (row : List Const) (v : Variable) : Const := ((vs.zip row).lookup v).getD default

/-- `Check`: the rows that satisfy a literal, indexed by its variables. -/
def HerbrandModel.check (lit : LogicLiteral) : List (List Const) :=
  (enumerateAssignments (lit.vars.map fun v => M.variableRange v.sort)).filter fun row => M.Holds lit (assignment lit.vars row)

/-- `Prim`, for the literal of an application. -/
def prim (lit : LogicLiteral) : Option RelTable := compactTable ⟨lit.terms, M.check lit⟩

/-- The product of the tables of the literals. -/
def joinAll (print : Const → String) (lit : LogicLiteral) (lits : List LogicLiteral) : Option RelTable :=
  (prim M lit).bind fun t => lits.foldlM (fun t lit => (prim M lit).bind (prod print t)) t

end Model

section Meaning

variable (M : HerbrandModel)

/-- An assignment in the model satisfies a literal. -/
structure HerbrandModel.Satisfies (σ : Variable → Const) (lit : LogicLiteral) : Prop where
  range : ∀ v ∈ lit.vars, σ v ∈ M.variableRange v.sort
  holds : M.Holds lit σ

/-- A table with one column for each of the variables, whose rows are the assignments with the property. -/
structure TableOf (vs : List Variable) (P : (Variable → Const) → Prop) (t : RelTable) : Prop where
  vars : t.vars = vs.map .var
  rows : ∀ row, row ∈ t.rows ↔ ∃ σ, P σ ∧ row = vs.map σ
  nodup : t.rows.Nodup

/-- The table of the assignments of the variables that satisfy all the literals. -/
def HerbrandModel.IsTable (lits : List LogicLiteral) (t : RelTable) : Prop :=
  ∃ vs : List Variable, vs.Nodup ∧ (∀ v, v ∈ vs ↔ ∃ lit ∈ lits, v ∈ lit.vars) ∧
    TableOf vs (fun σ => ∀ lit ∈ lits, M.Satisfies σ lit) t

/-- A property of assignments that depends on the given variables only. -/
def DependsOn (vs : List Variable) (P : (Variable → Const) → Prop) : Prop :=
  ∀ σ τ, (∀ v ∈ vs, σ v = τ v) → P σ → P τ

end Meaning

end Goivy.Alpha
