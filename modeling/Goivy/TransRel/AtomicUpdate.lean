import Goivy.TransRel.Update

/-! The updates of the atomic actions: assignments, also through destructors and to
variants, havoc and set. -/
namespace Goivy

namespace Expr

/-- `unwrapSingleton`. -/
def unwrapSingleton : Expr → Expr
  | .and [t] | .or [t] => t
  | e => e

/-- `Negate`. -/
def negate : Expr → Expr
  | .not a => a
  | e => .not e

/-- `constSym`. -/
def constSym : Expr → Option Const
  | .const c => .some c
  | .apply f _ => .some f
  | _ => none

/-- `nodeArgs`. -/
def nodeArgs : Expr → List Expr
  | .apply _ ts => ts
  | _ => []

/-- `applyToNodes`; nothing where `MustApply` panics. -/
def applyToNodes (f : Const) (args : List Expr) : Option Expr :=
  if args.isEmpty then .some (.const f) else newApply f args

/-- `addParametersAST`; nothing where the application is refused. -/
def addParameters (e : Expr) (params : List Expr) : Option Expr :=
  match e with
  | .const c => newApply c params
  | .apply f ts => newApply f (ts ++ params)
  | e => .some e

/-- `conjoin`. -/
def conjoin (ts : List Expr) : Expr :=
  if ts.any isFalse then fls
  else match ts.filter (fun t => !t.isTrue) with
    | [t] => t
    | us => .and us

/-- `disjoin`. -/
def disjoin (ts : List Expr) : Expr :=
  if ts.any isTrue then tru
  else match ts.filter (fun t => !t.isFalse) with
    | [t] => t
    | us => .or us

/-- `equivAST`. -/
def equiv (a b : Expr) : Expr :=
  if a.isIndividual then .eq a b
  else .and [.or [a, b.negate], .or [a.negate, b]]

/-- `Sign`. -/
def sign (polarity : Bool) (atom : Expr) : Expr := if polarity then atom else .not atom

/-- The polarity and the atom of a literal. -/
def polarity : Expr → Bool × Expr
  | .not a => (false, a)
  | e => (true, e)

mutual
/-- `UsedVariablesAST`: the variables whose names are not bound. -/
def usedVariables : Expr → List Variable
  | .var v => [v]
  | .const _ => []
  | .apply _ ts | .and ts | .or ts => usedVariablesList ts
  | .eq a b | .implies a b | .iff a b => a.usedVariables ++ b.usedVariables
  | .not a => a.usedVariables
  | .ite a b c => a.usedVariables ++ b.usedVariables ++ c.usedVariables
  | .forAll vs a | .exists vs a => a.usedVariables.filter (fun v => v.name ∉ vs.map Variable.name)
  | .some vs a => vs ++ a.usedVariables
  | .someElse vs a b c => vs ++ a.usedVariables ++ b.usedVariables ++ c.usedVariables
def usedVariablesList : List Expr → List Variable
  | [] => []
  | t :: ts => t.usedVariables ++ usedVariablesList ts
end

mutual
/-- `UsedVariables`: bound variables count as well. -/
def allVariables : Expr → List Variable
  | .var v => [v]
  | .const _ => []
  | .apply _ ts | .and ts | .or ts => allVariablesList ts
  | .eq a b | .implies a b | .iff a b => a.allVariables ++ b.allVariables
  | .not a => a.allVariables
  | .ite a b c => a.allVariables ++ b.allVariables ++ c.allVariables
  | .forAll vs a | .exists vs a | .some vs a => vs ++ a.allVariables
  | .someElse vs a b c => vs ++ a.allVariables ++ b.allVariables ++ c.allVariables
def allVariablesList : List Expr → List Variable
  | [] => []
  | t :: ts => t.allVariables ++ allVariablesList ts
end

theorem allVariablesList_eq_flatMap (ts : List Expr) : allVariablesList ts = ts.flatMap allVariables := by
  induction ts with
  | nil => rfl
  | cons t ts ih => simp [allVariablesList, ih]

theorem freeVariables_subset_allVariables (e : Expr) : e.freeVariables ⊆ e.allVariables := by
  induction e with
  | var v | const c => exact List.Subset.refl _
  | apply f ts ih | and ts ih | or ts ih =>
    intro x hx
    rw [freeVariables, freeVariablesList_eq_flatMap, List.mem_flatMap] at hx
    obtain ⟨t, ht, hx⟩ := hx
    rw [allVariables, allVariablesList_eq_flatMap, List.mem_flatMap]
    exact ⟨t, ht, ih t ht hx⟩
  | not a ha => exact ha
  | eq a b ha hb | implies a b ha hb | iff a b ha hb =>
    intro x hx
    simp only [freeVariables, allVariables, List.mem_append] at hx ⊢
    exact hx.imp (ha ·) (hb ·)
  | ite a b c ha hb hc =>
    intro x hx
    simp only [freeVariables, allVariables, List.mem_append] at hx ⊢
    exact hx.imp (Or.imp (ha ·) (hb ·)) (hc ·)
  | forAll vs a ha | «exists» vs a ha =>
    intro x hx
    exact List.mem_append_right _ (ha (List.mem_filter.mp hx).1)
  | some vs a ha =>
    intro x hx
    simp only [freeVariables, allVariables, List.mem_append] at hx ⊢
    exact hx.imp id (ha ·)
  | someElse vs a b c ha hb hc =>
    intro x hx
    simp only [freeVariables, allVariables, List.mem_append] at hx ⊢
    have := @ha x
    have := @hb x
    have := @hc x
    grind

mutual
/-- `SubstituteAstByName` with a nonempty map of names to variables. Nothing keeps a
quantifier from capturing a substituted variable. -/
def substituteAst : Expr → List (String × Variable) → Expr
  | .var v, subs => .var ((subs.lookup v.name).getD v)
  | .const c, _ => .const c
  | .apply f ts, subs => .apply f (substituteAstListByName ts subs)
  | .eq a b, subs => .eq (a.substituteAst subs) (b.substituteAst subs)
  | .not a, subs => .not (a.substituteAst subs)
  | .and ts, subs => .and (substituteAstListByName ts subs)
  | .or ts, subs => .or (substituteAstListByName ts subs)
  | .implies a b, subs => .implies (a.substituteAst subs) (b.substituteAst subs)
  | .iff a b, subs => .iff (a.substituteAst subs) (b.substituteAst subs)
  | .ite a b c, subs => .ite (a.substituteAst subs) (b.substituteAst subs) (c.substituteAst subs)
  | .forAll vs a, subs =>
    if (subs.filter (·.1 ∉ vs.map Variable.name)).isEmpty then .forAll vs a
    else .forAll (deduplicateAndSortVars vs) (a.substituteAst (subs.filter (·.1 ∉ vs.map Variable.name)))
  | .exists vs a, subs =>
    if (subs.filter (·.1 ∉ vs.map Variable.name)).isEmpty then .exists vs a
    else .exists (deduplicateAndSortVars vs) (a.substituteAst (subs.filter (·.1 ∉ vs.map Variable.name)))
  | .some vs a, subs => .some (vs.map fun v => (subs.lookup v.name).getD v) (a.substituteAst subs)
  | .someElse vs a b c, subs => .someElse (vs.map fun v => (subs.lookup v.name).getD v)
    (a.substituteAst subs) (b.substituteAst subs) (c.substituteAst subs)
def substituteAstListByName : List Expr → List (String × Variable) → List Expr
  | [], _ => []
  | t :: ts, subs => t.substituteAst subs :: substituteAstListByName ts subs
end

/-- `SubstituteAstByName`. -/
def substituteAstByName (e : Expr) (subs : List (String × Variable)) : Expr :=
  if subs.isEmpty then e else e.substituteAst subs

mutual
/-- `TypeCheck`: every application has as many arguments as its symbol takes. -/
def typeCheck : Expr → Bool
  | .var _ | .const _ => true
  | .apply f ts => (f.name = "-" && ts.length = 1 || ts.length = f.sort.domain.length) && typeCheckList ts
  | .and ts | .or ts => typeCheckList ts
  | .eq a b | .implies a b | .iff a b => a.typeCheck && b.typeCheck
  | .not a | .forAll _ a | .exists _ a | .some _ a => a.typeCheck
  | .ite a b c => a.typeCheck && b.typeCheck && c.typeCheck
  | .someElse _ a b c => a.typeCheck && b.typeCheck && c.typeCheck
def typeCheckList : List Expr → Bool
  | [] => true
  | t :: ts => t.typeCheck && typeCheckList ts
end

end Expr

/-- The primes that `ModuleDistinctVariableRenaming` appends to an unavailable name. -/
def unusedPrimed (used : List String) (name : String) : String :=
  ((List.range (used.length + 1)).map fun n => name ++ String.ofList (List.replicate n '\'')).find?
    (· ∉ used) |>.getD name

/-- `VariablesDistinctListAst` for a list of variables with distinct names. -/
def variablesDistinct : List Variable → List String → List Variable
  | [], _ => []
  | v :: vs, used =>
    ⟨unusedPrimed used v.name, v.sort⟩ :: variablesDistinct vs (unusedPrimed used v.name :: used)

/-- `FormulaToClauses`. -/
def Clauses.ofFormula (f : Expr) : Clauses := new [f.unwrapSingleton.dropUniversals] []

namespace Update

/-- `NullUpdate`. -/
def null : Update := ⟨[], false, .tru, .fls⟩

/-- `makeUpdate`. -/
def make (modified : List Const) (tr pre : Expr) : Update :=
  ⟨modified, false, .ofFormula tr, .ofFormula pre⟩

end Update

/-- What a module says of destructors and variants. -/
structure SortTables where
  destructorSorts : List String
  sortDestructors : List (String × List Const)
  variants : List (String × List FSort)

/-- The conditions that placeholders are the arguments which are no variables. -/
def matchConditions (phs : List Variable) (args : List Expr) : List Expr :=
  (phs.zip args).filterMap fun p => match p.2 with
    | .var _ => none
    | t => some (.eq (.var p.1) t)

/-- The placeholders for the arguments that are variables. Where a variable occurs
twice, the later entry overwrites the earlier one. -/
def matchRenaming (phs : List Variable) (args : List Expr) : List (String × Variable) :=
  ((phs.zip args).filterMap fun p => match p.2 with
    | .var v => some (v.name, p.1)
    | _ => none).reverse

/-- A condition as `mkVariantAssignClauses` and `destrAsgnVal` build it. -/
def guardOf : List Expr → Expr
  | [eq] => eq
  | eqs => .and eqs

/-- `mkAssignClauses`. -/
def mkAssignClauses (lhs rhs : Expr) : Option Update := do
  match lhs.constSym with
  | none => return .null
  | some sym =>
    let phs := (symPlaceholders sym).map Expr.var
    let dlhs ← Expr.applyToNodes (newActionConst sym) phs
    let eqs := matchConditions (symPlaceholders sym) lhs.nodeArgs
    let drhs := rhs.substituteAstByName (matchRenaming (symPlaceholders sym) lhs.nodeArgs)
    if eqs.isEmpty then return ⟨[sym], false, .new [] [⟨dlhs, drhs⟩], .fls⟩
    else
      let oldVal ← Expr.applyToNodes sym phs
      return ⟨[sym], false, .new [] [⟨dlhs, .ite (.and eqs) drhs oldVal⟩], .fls⟩

/-- The name of a nondeterministic copy. -/
def nondetConst (c : Const) : Const := ⟨"__" ++ c.name ++ "_nd", c.sort⟩

/-- `Pto` of two sorts. -/
def pto (lsort rsort : FSort) : Const := ⟨"*>", .function [lsort, rsort] .boolean⟩

/-- `mkVariantAssignClauses`. -/
def mkVariantAssignClauses (tables : SortTables) (lsort rsort : FSort) (lhs rhs : Expr) : Option Update := do
  match lhs.constSym with
  | none => return .null
  | some sym =>
    let phs := (symPlaceholders sym).map Expr.var
    let dlhs ← Expr.applyToNodes (newActionConst sym) phs
    let eqs := matchConditions (symPlaceholders sym) lhs.nodeArgs
    let drhs := rhs.substituteAstByName (matchRenaming (symPlaceholders sym) lhs.nodeArgs)
    let copy ← Expr.applyToNodes (nondetConst sym) phs
    let old ← Expr.applyToNodes sym phs
    let nondet := if eqs.isEmpty then copy else .ite (guardOf eqs) copy old
    let x := Expr.var ⟨"X", rsort⟩
    let isValue ← Expr.applyToNodes (pto lsort rsort) [dlhs, x]
    let others := ((tables.variants.lookup lsort.string).getD []).filter (· ≠ rsort)
    let none ← others.mapM fun s => Expr.applyToNodes (pto lsort s) [dlhs, .var ⟨"X", s⟩]
    return ⟨[sym], false, .new (.iff isValue (.eq x drhs) :: none.map .not) [⟨dlhs, nondet⟩], .fls⟩

/-- What `destrAsgnVal` returns, with the formulas so far. -/
structure Destructed where
  lval : Expr
  clauses : Clauses
  mutated : Option Const
  fmlas : List Expr

section Destructors

variable (tables : SortTables)

/-- `d` at a value and its placeholders for the other arguments. -/
def destructorAt (d : Const) (value : Expr) : Option Expr :=
  match symPlaceholders d with
  | [] => none
  | _ :: phs => Expr.applyToNodes d (value :: phs.map .var)

/-- The destructors of the sort of `value` other than `n`. -/
def siblings (n : Const) (value : Expr) : List Const :=
  ((tables.sortDestructors.lookup value.nodeSort.string).getD []).filter fun d => d.name ≠ n.name

/-- One level of `destrAsgnVal`: the frame of the other indices and of the other
destructors, for a copy `d.lval` of the value `target`. -/
def destrLevel (n : Const) (target : Expr) (rest : List Expr) (d : Destructed) : Option Destructed := do
  let dlhs ← destructorAt n d.lval
  let drhs ← destructorAt n target
  let eqs := matchConditions (symPlaceholders n).tail rest
  let indices := if eqs.isEmpty then [] else [Expr.disjoin [guardOf eqs, Expr.equiv dlhs drhs]]
  let frames ← (siblings tables n target).mapM fun destr => do
    return Expr.eq (← destructorAt destr d.lval) (← destructorAt destr target)
  let lval ← Expr.applyToNodes n (d.lval :: rest)
  return ⟨lval, d.clauses, d.mutated, d.fmlas ++ indices ++ frames⟩

/-- The root of a destructor assignment: a nondeterministic copy is assigned to it. -/
def destrRoot (target : Expr) (root : Const) (fmlas : List Expr) : Option Destructed := do
  let copy ← Expr.applyToNodes (nondetConst root) target.nodeArgs
  let u ← mkAssignClauses target copy
  return ⟨copy, u.tr, some root, fmlas⟩

mutual
/-- `destrAsgnVal`. -/
def destrAsgnVal : Expr → List Expr → Option Destructed
  | .apply n args, fmlas => destrAsgnArgs n args fmlas
  | lhs, fmlas => some ⟨lhs, .fls, none, fmlas⟩
def destrAsgnArgs (n : Const) : List Expr → List Expr → Option Destructed
  | [], fmlas => some ⟨.apply n [], .fls, none, fmlas⟩
  | target :: rest, fmlas =>
    match target.constSym with
    | none => some ⟨.apply n (target :: rest), .fls, none, fmlas⟩
    | some root =>
      if root.name ∈ tables.destructorSorts then
        (destrAsgnVal target fmlas).bind (destrLevel tables n target rest)
      else (destrRoot target root fmlas).bind (destrLevel tables n target rest)
end

/-- `destructorAssignUpdate`. -/
def destructorAssignUpdate (lhs rhs : Expr) : Option Update := do
  let d ← destrAsgnVal tables lhs []
  match d.mutated with
  | none => return .null
  | some root =>
    return ⟨[root], false, .and [d.clauses, .new (d.fmlas ++ [Expr.equiv d.lval rhs]) []], .fls⟩

end Destructors

/-- The arguments that a partial application lacks are added on both sides. -/
def extendAssign (sym : Const) (lhs rhs : Expr) : Option (Expr × Expr) :=
  if sym.sort.domain.length < lhs.nodeArgs.length then none
  else if sym.sort.domain.length = lhs.nodeArgs.length then some (lhs, rhs)
  else do
    let extend := variablesDistinct ((symPlaceholders sym).drop lhs.nodeArgs.length)
      ((lhs.allVariables ++ rhs.allVariables).map Variable.name)
    let lhs ← lhs.addParameters (extend.map .var)
    -- an individual becomes the relation that only it satisfies
    if rhs.isIndividual && !lhs.isIndividual then
      let last ← extend.getLast?
      let value ← rhs.addParameters (extend.dropLast.map .var)
      return (lhs, .eq (.var last) value)
    else
      let rhs ← rhs.addParameters (extend.map .var)
      return (lhs, rhs)

inductive AssignBranch where
  | null | destructor | variant | standard
deriving DecidableEq

/-- The sorts of the two sides of an assignment to a supertype. -/
def variantSorts (tables : SortTables) (lhs rhs : Expr) : Option (FSort × FSort) :=
  match lhs.nodeSort, rhs.nodeSort with
  | .first s, .first t =>
    if t ∈ (tables.variants.lookup s.name).getD [] then some (s, t) else none
  | _, _ => none

namespace Update

/-- `ActionUpdate` of an assignment, and the branch it takes. Nothing is returned where it panics. -/
def assign (tables : SortTables) (lhs rhs : Expr) : Option (AssignBranch × Update) := do
  match lhs.constSym with
  | none => return (.null, null)
  | some sym =>
    let (lhs, rhs) ← extendAssign sym lhs rhs
    if ¬ rhs.usedVariables ⊆ lhs.usedVariables then none
    else if rhs.typeCheck = false then none
    else if lhs.isIndividual ≠ rhs.isIndividual then none
    else if sym.name ∈ tables.destructorSorts then
      return (.destructor, ← destructorAssignUpdate tables lhs rhs)
    else match variantSorts tables lhs rhs with
      | some (s, t) => return (.variant, ← mkVariantAssignClauses tables s t lhs rhs)
      | none => return (.standard, ← mkAssignClauses lhs rhs)

/-- The variables of `HavocAction.ActionUpdate` for the arguments of a symbol. -/
def havocVariables (c : Const) : List Variable :=
  c.sort.domain.mapIdx fun i s => ⟨"X" ++ toString i, s⟩

/-- `ActionUpdate` of a havoc. -/
def havoc (lhs : Expr) : Option Update := do
  match lhs.constSym with
  | none => return null
  | some sym =>
    let vs := (havocVariables sym).map Expr.var
    let eqs := matchConditions (havocVariables sym) lhs.nodeArgs
    let newApp ← Expr.applyToNodes (newActionConst sym) vs
    let oldApp ← Expr.applyToNodes sym vs
    let terms := if sym.sort.range = .boolean then
        eqs.flatMap fun eq => [.or [.not newApp, oldApp, eq], .or [newApp, .not oldApp, eq]]
      else eqs.map fun eq => .or [.eq newApp oldApp, eq]
    return make [sym] (if terms.isEmpty then .tru else .conjoin terms) .fls

/-- `ActionUpdate` of a set: the literal is made true. -/
def set (literal : Expr) : Option Update := do
  let positive := literal.polarity.1
  let atom := literal.polarity.2
  match atom.constSym with
  | none => return null
  | some sym =>
    let vs := (symPlaceholders sym).map Expr.var
    let eqs := matchConditions (symPlaceholders sym) atom.nodeArgs
    let newVs ← Expr.applyToNodes (newActionConst sym) vs
    let oldVs ← Expr.applyToNodes sym vs
    let newArgs ← Expr.applyToNodes (newActionConst sym) atom.nodeArgs
    let frames := eqs.flatMap fun eq =>
      [Expr.disjoin [Expr.sign false newVs, Expr.sign true oldVs, eq],
        Expr.disjoin [Expr.sign true newVs, Expr.sign false oldVs, eq]]
    return make [sym] (.conjoin (Expr.disjoin [Expr.sign positive newVs, Expr.sign (!positive) oldVs] ::
      Expr.sign positive newArgs :: frames)) .fls

end Update

end Goivy
