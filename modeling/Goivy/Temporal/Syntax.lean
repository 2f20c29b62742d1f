import Goivy.Logic.Syntax

/-! Formulas with temporal operators and named binders, and the conversion of the first to the second. -/
namespace Goivy

/-- Expressions with `Globally`, `Eventually`, `WhenOperator`, `NamedBinder` and `Cond`. A named binder stands alone or
as the head of an application. -/
inductive TExpr
  | var (v : Variable)
  | const (c : Const)
  | apply (f : Const) (ts : List TExpr)
  | eq (a b : TExpr)
  | not (a : TExpr)
  | and (ts : List TExpr)
  | or (ts : List TExpr)
  | implies (a b : TExpr)
  | iff (a b : TExpr)
  | ite (c a b : TExpr)
  | forAll (vs : List Variable) (a : TExpr)
  | exists (vs : List Variable) (a : TExpr)
  | globally (environ : Option String) (a : TExpr)
  | eventually (environ : Option String) (a : TExpr)
  | whenOp (name : String) (a b : TExpr)
  | cond (a b : TExpr)
  | binder (name : String) (vs : List Variable) (environ : Option String) (body : TExpr)
  | applyBinder (name : String) (vs : List Variable) (environ : Option String) (body : TExpr) (ts : List TExpr)

namespace TExpr

/-- Structural induction, with one hypothesis for all terms of a list. -/
@[elab_as_elim, induction_eliminator]
theorem induct {motive : TExpr → Prop} (var : ∀ v, motive (.var v)) (const : ∀ c, motive (.const c))
    (apply : ∀ f ts, (∀ t ∈ ts, motive t) → motive (.apply f ts))
    (eq : ∀ a b, motive a → motive b → motive (.eq a b))
    (not : ∀ a, motive a → motive (.not a))
    (and : ∀ ts, (∀ t ∈ ts, motive t) → motive (.and ts))
    (or : ∀ ts, (∀ t ∈ ts, motive t) → motive (.or ts))
    (implies : ∀ a b, motive a → motive b → motive (.implies a b))
    (iff : ∀ a b, motive a → motive b → motive (.iff a b))
    (ite : ∀ c a b, motive c → motive a → motive b → motive (.ite c a b))
    (forAll : ∀ vs a, motive a → motive (.forAll vs a))
    («exists» : ∀ vs a, motive a → motive (.exists vs a))
    (globally : ∀ environ a, motive a → motive (.globally environ a))
    (eventually : ∀ environ a, motive a → motive (.eventually environ a))
    (whenOp : ∀ name a b, motive a → motive b → motive (.whenOp name a b))
    (cond : ∀ a b, motive a → motive b → motive (.cond a b))
    (binder : ∀ name vs environ body, motive body → motive (.binder name vs environ body))
    (applyBinder : ∀ name vs environ body ts, motive body → (∀ t ∈ ts, motive t) →
      motive (.applyBinder name vs environ body ts))
    (e : TExpr) : motive e :=
  TExpr.rec (motive_1 := motive) (motive_2 := fun ts => ∀ t ∈ ts, motive t)
    var const apply eq not and or implies iff ite forAll «exists» globally eventually whenOp cond binder applyBinder
    (fun _ h => absurd h List.not_mem_nil)
    (fun _ _ head tail _ h => (List.mem_cons.mp h).elim (fun e => e ▸ head) (tail _)) e

/-- The variables without those with the name of a bound one. -/
def unboundNames (vs : List Variable) (l : List Variable) : List Variable :=
  l.filter fun v => v.name ∉ vs.map Variable.name

mutual
/-- The free occurrences of variables, as `freeVariablesInOrderRec` and `freeVariablesByNameRec` come to them. The head of
an application is not gone into. -/
def occurrences : TExpr → List Variable
  | .var v => [v]
  | .const _ => []
  | .apply _ ts | .and ts | .or ts | .applyBinder _ _ _ _ ts => occurrencesList ts
  | .eq a b | .implies a b | .iff a b | .whenOp _ a b | .cond a b => a.occurrences ++ b.occurrences
  | .not a | .globally _ a | .eventually _ a => a.occurrences
  | .ite c a b => c.occurrences ++ a.occurrences ++ b.occurrences
  | .forAll vs a | .exists vs a | .binder _ vs _ a => unboundNames vs a.occurrences
def occurrencesList : List TExpr → List Variable
  | [] => []
  | t :: ts => t.occurrences ++ occurrencesList ts
end

/-- The first variable of each name. -/
def firstByName : List Variable → List Variable
  | [] => []
  | v :: vs => v :: (firstByName vs).filter (·.name ≠ v.name)

/-- `freeVariablesInOrder`. -/
def freeVariablesInOrder (e : TExpr) : List Variable := firstByName e.occurrences

/-- `removeBoundNames`. -/
def removeBoundNames (subs : List (String × Variable)) (vs : List Variable) : List (String × Variable) :=
  subs.filter fun p => p.1 ∉ vs.map Variable.name

mutual
/-- `SubstituteByName` by variables. A named binder does not shadow anything, and the head of an application is kept. -/
def substituteByName : TExpr → List (String × Variable) → TExpr
  | .var v, subs => .var ((subs.lookup v.name).getD v)
  | .const c, _ => .const c
  | .apply f ts, subs => .apply f (substituteByNameList ts subs)
  | .eq a b, subs => .eq (a.substituteByName subs) (b.substituteByName subs)
  | .not a, subs => .not (a.substituteByName subs)
  | .and ts, subs => .and (substituteByNameList ts subs)
  | .or ts, subs => .or (substituteByNameList ts subs)
  | .implies a b, subs => .implies (a.substituteByName subs) (b.substituteByName subs)
  | .iff a b, subs => .iff (a.substituteByName subs) (b.substituteByName subs)
  | .ite c a b, subs => .ite (c.substituteByName subs) (a.substituteByName subs) (b.substituteByName subs)
  | .forAll vs a, subs => .forAll vs (a.substituteByName (removeBoundNames subs vs))
  | .exists vs a, subs => .exists vs (a.substituteByName (removeBoundNames subs vs))
  | .globally environ a, subs => .globally environ (a.substituteByName subs)
  | .eventually environ a, subs => .eventually environ (a.substituteByName subs)
  | .whenOp name a b, subs => .whenOp name (a.substituteByName subs) (b.substituteByName subs)
  | .cond a b, subs => .cond (a.substituteByName subs) (b.substituteByName subs)
  | .binder name vs environ body, subs => .binder name vs environ (body.substituteByName subs)
  | .applyBinder name vs environ body ts, subs => .applyBinder name vs environ body (substituteByNameList ts subs)
def substituteByNameList : List TExpr → List (String × Variable) → List TExpr
  | [], _ => []
  | t :: ts, subs => t.substituteByName subs :: substituteByNameList ts subs
end

/-- The variables `V0`, `V1` and so on, of the sorts of `vs`, from the `i`th on. -/
def numberedVariables (i : Nat) : List Variable → List Variable
  | [] => []
  | v :: vs => ⟨"V" ++ toString i, v.sort⟩ :: numberedVariables (i + 1) vs

/-- `LogicUtilNormalizeFreeVariables`. -/
def normalizeFreeVariables (e : TExpr) : List Variable × List Variable × TExpr :=
  let vs := e.freeVariablesInOrder
  let nvs := numberedVariables 0 vs
  (vs, nvs, e.substituteByName ((vs.map Variable.name).zip nvs))

/-- The name that `DefaultGloballyBinder` gives. -/
def globallyName : Option String → String
  | none => "g"
  | some environ => "g[" ++ environ ++ "]"

/-- The name that `DefaultWhenBinder` gives. -/
def whenName (name : String) : String := "l2s_when" ++ name

/-- `applyNamedBinder`: without arguments, the binder itself. -/
def applyNamedBinder (name : String) (vs : List Variable) (body : TExpr) : List Variable → TExpr
  | [] => .binder name vs none body
  | v :: args => .applyBinder name vs none body ((v :: args).map .var)

/-- A temporal operator with the body `e` becomes a binder over the free variables of `e`. -/
def bindFreeVariables (name : String) (e : TExpr) : TExpr :=
  let (vs, nvs, body) := e.normalizeFreeVariables
  applyNamedBinder name nvs body vs

/-- Negation, of a formula that has been converted: a double negation is cancelled. -/
def cancelNot : TExpr → TExpr
  | .not a => a
  | a => .not a

mutual
/-- `ReplaceTemporalsByNamedBinder` with the default binders. -/
def replaceTemporals : TExpr → TExpr
  | .globally environ a => bindFreeVariables (globallyName environ) a.replaceTemporals
  | .eventually environ a => cancelNot (bindFreeVariables (globallyName environ) (cancelNot a.replaceTemporals))
  | .whenOp name a b => bindFreeVariables (whenName name) (.cond b.replaceTemporals a.replaceTemporals)
  | .applyBinder name vs environ body ts =>
    match name, body.replaceTemporals with
    | "l2s_init", .not body => .not (.applyBinder name vs environ body (replaceTemporalsList ts))
    | _, body => .applyBinder name vs environ body (replaceTemporalsList ts)
  | .binder name vs environ body =>
    match name, body.replaceTemporals with
    | "l2s_init", .not body => .not (.binder name vs environ body)
    | _, body => .binder name vs environ body
  | .not a => cancelNot a.replaceTemporals
  | .var v => .var v
  | .const c => .const c
  | .apply f ts => .apply f (replaceTemporalsList ts)
  | .eq a b => .eq a.replaceTemporals b.replaceTemporals
  | .and ts => .and (replaceTemporalsList ts)
  | .or ts => .or (replaceTemporalsList ts)
  | .implies a b => .implies a.replaceTemporals b.replaceTemporals
  | .iff a b => .iff a.replaceTemporals b.replaceTemporals
  | .ite c a b => .ite c.replaceTemporals a.replaceTemporals b.replaceTemporals
  | .forAll vs a => .forAll vs a.replaceTemporals
  | .exists vs a => .exists vs a.replaceTemporals
  | .cond a b => .cond a.replaceTemporals b.replaceTemporals
def replaceTemporalsList : List TExpr → List TExpr
  | [] => []
  | t :: ts => t.replaceTemporals :: replaceTemporalsList ts
end

section

/- The names of the binders to normalize, all of them for `none`. -/
variable (names : Option (List String))

/-- Whether a binder is one of those to normalize. -/
def normalizesBinder (name : String) : Bool := names.all (name ∈ ·)

mutual
/-- `NormalizeNamedBinders`. `none` stands for the panic on a clash with a free variable. -/
def normalizeNamedBinders : TExpr → Option TExpr
  | .binder name vs environ body => do
    if normalizesBinder names name then
      let nvs := numberedVariables 0 vs
      if nvs.any fun nv => nv.name ∈ (unboundNames vs body.occurrences).map Variable.name then none
      else
        let body ← body.normalizeNamedBinders
        some (.binder name nvs environ (body.substituteByName ((vs.map Variable.name).zip nvs).reverse))
    else
      let body ← body.normalizeNamedBinders
      some (.binder name vs environ body)
  | .applyBinder name vs environ body ts => do
    let ts ← normalizeNamedBindersList ts
    if normalizesBinder names name then
      let nvs := numberedVariables 0 vs
      if nvs.any fun nv => nv.name ∈ (unboundNames vs body.occurrences).map Variable.name then none
      else
        let body ← body.normalizeNamedBinders
        some (.applyBinder name nvs environ (body.substituteByName ((vs.map Variable.name).zip nvs).reverse) ts)
    else
      let body ← body.normalizeNamedBinders
      some (.applyBinder name vs environ body ts)
  | .var v => some (.var v)
  | .const c => some (.const c)
  | .apply f ts => do some (.apply f (← normalizeNamedBindersList ts))
  | .eq a b => do some (.eq (← a.normalizeNamedBinders) (← b.normalizeNamedBinders))
  | .not a => do some (.not (← a.normalizeNamedBinders))
  | .and ts => do some (.and (← normalizeNamedBindersList ts))
  | .or ts => do some (.or (← normalizeNamedBindersList ts))
  | .implies a b => do some (.implies (← a.normalizeNamedBinders) (← b.normalizeNamedBinders))
  | .iff a b => do some (.iff (← a.normalizeNamedBinders) (← b.normalizeNamedBinders))
  | .ite c a b => do
    some (.ite (← c.normalizeNamedBinders) (← a.normalizeNamedBinders) (← b.normalizeNamedBinders))
  | .forAll vs a => do some (.forAll vs (← a.normalizeNamedBinders))
  | .exists vs a => do some (.exists vs (← a.normalizeNamedBinders))
  | .globally environ a => do some (.globally environ (← a.normalizeNamedBinders))
  | .eventually environ a => do some (.eventually environ (← a.normalizeNamedBinders))
  | .whenOp name a b => do some (.whenOp name (← a.normalizeNamedBinders) (← b.normalizeNamedBinders))
  | .cond a b => do some (.cond (← a.normalizeNamedBinders) (← b.normalizeNamedBinders))
def normalizeNamedBindersList : List TExpr → Option (List TExpr)
  | [] => some []
  | t :: ts => do some ((← t.normalizeNamedBinders) :: (← normalizeNamedBindersList ts))
end

end

end TExpr

end Goivy
