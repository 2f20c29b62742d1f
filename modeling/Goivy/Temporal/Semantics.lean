import Goivy.Logic.Semantics
import Goivy.Temporal.Syntax

/-! The value of a temporal formula at a position of a sequence of structures. -/
namespace Goivy

/-- What the operators `when first`, `when next` and the like mean: the value at a position, from the values of the term
and the positions where the condition is true. -/
structure WhenReading (D : Domain) where
  value : String → (Nat → Val D) → (Nat → Prop) → Nat → Val D
  sort : ∀ name f c i s, (∀ j, (f j).1 = s) → (value name f c i).1 = s

/-- How a named binder is read. -/
inductive BinderKind
  | globally (environ : Option String)
  | whenOp (name : String)
  deriving DecidableEq

/-- The operator behind the name of a binder. -/
def binderKind (name : String) : BinderKind :=
  if "l2s_when".toList <+: name.toList then .whenOp (String.ofList (name.toList.drop 8))
  else .globally (if name = "g" then none else some (String.ofList (name.toList.drop 2).dropLast))

/-- The name of a `when` binder, if it is one. -/
def whenBinder (name : String) : Option String :=
  match binderKind name with
  | .whenOp name => some name
  | .globally _ => none

variable {D : Domain}

open Classical in
/-- The assignment in which the variables have the values of the arguments of a binder. -/
noncomputable def Env.bindArgs (env : Env D) : List Variable → List (Val D) → Env D
  | v :: vs, x :: xs => fun w => if h : w = v ∧ x.1 = w.sort then cast (congrArg (El D) h.2) x.2 else env.bindArgs vs xs w
  | _, _ => env

section

/- A sequence of structures over one domain, and the meaning of the `when` operators. -/
variable (M : Nat → Structure D) (W : WhenReading D)

namespace TExpr

mutual
/-- The value at position `i`. A binder is read as the operator that its name stands for, at the values of its arguments. -/
noncomputable def eval : TExpr → Nat → Env D → Val D
  | .var v, _, env => ⟨v.sort, env v⟩
  | .const c, i, _ => (M i).value c []
  | .apply f ts, i, env => (M i).value f (evalList ts i env)
  | .eq a b, i, env => .ofProp (a.eval i env = b.eval i env)
  | .not a, i, env => .ofProp (¬ (a.eval i env).Holds)
  | .and ts, i, env => .ofProp (∀ v ∈ evalList ts i env, v.Holds)
  | .or ts, i, env => .ofProp (∃ v ∈ evalList ts i env, v.Holds)
  | .implies a b, i, env => .ofProp ((a.eval i env).Holds → (b.eval i env).Holds)
  | .iff a b, i, env => .ofProp ((a.eval i env).Holds ↔ (b.eval i env).Holds)
  | .ite c a b, i, env => (c.eval i env).ite (a.eval i env) (b.eval i env)
  | .forAll vs a, i, env => .ofProp (∀ env', env.Off vs env' → (a.eval i env').Holds)
  | .exists vs a, i, env => .ofProp (∃ env', env.Off vs env' ∧ (a.eval i env').Holds)
  | .globally _ a, i, env => .ofProp (∀ j, i ≤ j → (a.eval j env).Holds)
  | .eventually _ a, i, env => .ofProp (∃ j, i ≤ j ∧ (a.eval j env).Holds)
  | .whenOp name a b, i, env => W.value name (fun j => a.eval j env) (fun j => (b.eval j env).Holds) i
  | .cond _ b, i, env => b.eval i env
  | .binder name _ _ body, i, env =>
    match whenBinder name with
    | some name => W.value name (fun j => body.eval j env) (fun j => body.guard j env) i
    | none => .ofProp (∀ j, i ≤ j → (body.eval j env).Holds)
  | .applyBinder name vs _ body ts, i, env =>
    let args := env.bindArgs vs (evalList ts i env)
    match whenBinder name with
    | some name => W.value name (fun j => body.eval j args) (fun j => body.guard j args) i
    | none => .ofProp (∀ j, i ≤ j → (body.eval j args).Holds)
/-- The condition of the body of a `when` binder. -/
noncomputable def guard : TExpr → Nat → Env D → Prop
  | .cond a _, i, env => (a.eval i env).Holds
  | _, _, _ => True
noncomputable def evalList : List TExpr → Nat → Env D → List (Val D)
  | [], _, _ => []
  | t :: ts, i, env => t.eval i env :: evalList ts i env
end

theorem evalList_eq_map (ts : List TExpr) (i : Nat) (env : Env D) :
    evalList M W ts i env = ts.map fun t => t.eval M W i env := by
  induction ts with
  | nil => rfl
  | cons t ts ih => simp [evalList, ih]

end TExpr

end

mutual
/-- A well-sorted formula with temporal operators and without binders. -/
def TExpr.OfSort : TExpr → FSort → Prop
  | .var v, s => v.sort = s
  | .const c, s => c.sort = .first s
  | .apply f ts, s => ∃ domain, f.sort = .function domain s ∧ OfSortsT ts domain
  | .eq a b, s => s = .boolean ∧ ∃ t, a.OfSort t ∧ b.OfSort t
  | .not a, s | .globally _ a, s | .eventually _ a, s => s = .boolean ∧ a.OfSort .boolean
  | .and ts, s | .or ts, s => s = .boolean ∧ OfSortsT ts (ts.map fun _ => .boolean)
  | .implies a b, s | .iff a b, s => s = .boolean ∧ a.OfSort .boolean ∧ b.OfSort .boolean
  | .ite c a b, s => c.OfSort .boolean ∧ a.OfSort s ∧ b.OfSort s
  | .forAll _ a, s | .exists _ a, s => s = .boolean ∧ a.OfSort .boolean
  | .whenOp _ a b, s => a.OfSort s ∧ b.OfSort .boolean
  | .cond _ _, _ | .binder _ _ _ _, _ | .applyBinder _ _ _ _ _, _ => False
def OfSortsT : List TExpr → List FSort → Prop
  | [], [] => True
  | t :: ts, s :: ss => t.OfSort s ∧ OfSortsT ts ss
  | _, _ => False
end

end Goivy
