import Mathlib

/-! First-order expressions of the logic package.
A sort, a symbol or a variable is identified by its structural key, so equality
of keys is equality of the values below. The bounds of a range sort are kept as
the strings that its key prints. -/
namespace Goivy

/-- The sorts a variable or an argument can have. -/
inductive FSort where
  | boolean
  | uninterpreted (name : String)
  | enumerated (name : String) (extension : List String)
  | range (name lb ub : String)
  | top (name : String)
deriving DecidableEq, Repr

instance : Inhabited FSort := ⟨.boolean⟩

/-- `LogicFunctionSort` keeps the domain and the range in one list; a symbol that
is no function has one of the sorts above. -/
inductive LSort where
  | first (s : FSort)
  | function (domain : List FSort) (range : FSort)
deriving DecidableEq, Repr, Inhabited

def LSort.range : LSort → FSort
  | .first s => s
  | .function _ r => r

/-- `SortDomain`. -/
def LSort.domain : LSort → List FSort
  | .first _ => []
  | .function d _ => d

/-- `String` of a sort. -/
def FSort.string : FSort → String
  | .boolean => "Boolean"
  | .uninterpreted name | .top name => name
  | .enumerated _ extension => "\x7b" ++ ",".intercalate extension ++ "\x7d"
  | .range _ lb ub => "\x7b" ++ lb ++ " .. " ++ ub ++ "\x7d"

def LSort.string : LSort → String
  | .first s => s.string
  | .function domain range => " * ".intercalate (domain.map FSort.string) ++ " -> " ++ range.string

/-- `IvySortName` of a sort that is no function sort. -/
def FSort.name : FSort → String
  | .boolean => "bool"
  | .uninterpreted name | .enumerated name _ | .range name _ _ | .top name => name

/-- A symbol: `Const` in the source. -/
structure Const where
  name : String
  sort : LSort
deriving DecidableEq, Repr, Inhabited

structure Variable where
  name : String
  sort : FSort
deriving DecidableEq, Repr

/-- The expressions that occur in transition relations. `some` is the indefinite
description without, `someElse` the one with its `in` and `else` values. -/
inductive Expr where
  | var (v : Variable)
  | const (c : Const)
  | apply (func : Const) (terms : List Expr)
  | eq (t1 t2 : Expr)
  | not (body : Expr)
  | and (terms : List Expr)
  | or (terms : List Expr)
  | implies (t1 t2 : Expr)
  | iff (t1 t2 : Expr)
  | ite (cond thenE elseE : Expr)
  | forAll (vars : List Variable) (body : Expr)
  | exists (vars : List Variable) (body : Expr)
  | some (params : List Variable) (fmla : Expr)
  | someElse (params : List Variable) (fmla ifVal elseVal : Expr)
deriving Repr, Inhabited

/-- `IvyDefinition`: lhs = rhs, or lhs ↔ rhs. -/
structure Definition where
  lhs : Expr
  rhs : Expr

namespace Expr

/-- The empty conjunction and the empty disjunction are the logical constants. -/
def tru : Expr := .and []
def fls : Expr := .or []

def isTrue : Expr → Bool
  | .and [] => true
  | _ => false

def isFalse : Expr → Bool
  | .or [] => true
  | _ => false

theorem isFalse_eq {e : Expr} (h : e.isFalse = true) : e = fls := by
  unfold isFalse at h
  split at h
  · rfl
  · contradiction

theorem isTrue_eq {e : Expr} (h : e.isTrue = true) : e = tru := by
  unfold isTrue at h
  split at h
  · rfl
  · contradiction

/-- `NodeSort`. -/
def nodeSort : Expr → LSort
  | .var v => .first v.sort
  | .const c => c.sort
  | .apply f _ => .first f.sort.range
  | .ite _ t _ => t.nodeSort
  | .some (x :: _) _ | .someElse (x :: _) _ _ _ => .first x.sort
  | .some [] _ | .someElse [] _ _ _ => .first (.top "TopSort")
  | _ => .first .boolean

/-- `IsIndividual`: anything whose sort is not Boolean. -/
def isIndividual (e : Expr) : Bool := e.nodeSort ≠ .first .boolean

mutual
/-- The `Equal` method. -/
def equal : Expr → Expr → Bool
  | .var v, .var w => v == w
  | .const c, .const d => c == d
  | .apply f ts, .apply g us => f == g && equalList ts us
  | .eq a b, .eq c d => equal a c && equal b d
  | .not a, .not b => equal a b
  | .and ts, .and us => equalList ts us
  | .or ts, .or us => equalList ts us
  | .implies a b, .implies c d => equal a c && equal b d
  | .iff a b, .iff c d => equal a c && equal b d
  | .ite a b c, .ite d e f => equal a d && equal b e && equal c f
  | .forAll vs a, .forAll ws b => vs == ws && equal a b
  | .exists vs a, .exists ws b => vs == ws && equal a b
  | .some vs a, .some ws b => vs == ws && equal a b
  | .someElse vs a b c, .someElse ws d e f =>
    vs == ws && equal a d && equal b e && equal c f
  | _, _ => false
def equalList : List Expr → List Expr → Bool
  | [], [] => true
  | t :: ts, u :: us => equal t u && equalList ts us
  | _, _ => false
end

/-- Structural induction, with one hypothesis for all terms of a list. -/
@[elab_as_elim, induction_eliminator]
theorem induct {motive : Expr → Prop} (var : ∀ v, motive (.var v)) (const : ∀ c, motive (.const c))
    (apply : ∀ f ts, (∀ t ∈ ts, motive t) → motive (.apply f ts))
    (eq : ∀ a b, motive a → motive b → motive (.eq a b))
    (not : ∀ a, motive a → motive (.not a))
    (and : ∀ ts, (∀ t ∈ ts, motive t) → motive (.and ts))
    (or : ∀ ts, (∀ t ∈ ts, motive t) → motive (.or ts))
    (implies : ∀ a b, motive a → motive b → motive (.implies a b))
    (iff : ∀ a b, motive a → motive b → motive (.iff a b))
    (ite : ∀ a b c, motive a → motive b → motive c → motive (.ite a b c))
    (forAll : ∀ vs a, motive a → motive (.forAll vs a))
    («exists» : ∀ vs a, motive a → motive (.exists vs a))
    (some : ∀ vs a, motive a → motive (.some vs a))
    (someElse : ∀ vs a b c, motive a → motive b → motive c → motive (.someElse vs a b c))
    (e : Expr) : motive e :=
  Expr.rec (motive_1 := motive) (motive_2 := fun ts => ∀ t ∈ ts, motive t)
    var const apply eq not and or implies iff ite forAll «exists» some someElse
    (fun _ h => absurd h List.not_mem_nil)
    (fun _ _ head tail _ h => (List.mem_cons.mp h).elim (fun e => e ▸ head) (tail _)) e

theorem equalList_iff (ts us : List Expr) (ih : ∀ t ∈ ts, ∀ u, equal t u = true ↔ t = u) :
    equalList ts us = true ↔ ts = us := by
  induction ts generalizing us with
  | nil => cases us <;> simp [equalList]
  | cons t ts tail =>
    cases us with
    | nil => simp [equalList]
    | cons u us =>
      simp [equalList, ih t List.mem_cons_self,
        tail us fun t ht => ih t (List.mem_cons_of_mem _ ht)]

theorem equal_iff (a b : Expr) : equal a b = true ↔ a = b := by
  induction a generalizing b with
  | apply f ts ih => cases b <;> simp [equal, equalList_iff ts _ ih]
  | and ts ih => cases b <;> simp [equal, equalList_iff ts _ ih]
  | or ts ih => cases b <;> simp [equal, equalList_iff ts _ ih]
  | _ => cases b <;> simp_all [equal, and_assoc]

instance : DecidableEq Expr := fun a b => decidable_of_iff _ (equal_iff a b)

end Expr

deriving instance DecidableEq for Definition

end Goivy
