import Goivy.Action.Guard
import Goivy.Logic.Vocabulary

/-! The conditions of `if` and `while`: formulas, and choices of witnesses. -/
namespace Goivy

inductive SomeKind where
  | some
  | someMin
  | someMax
deriving DecidableEq, Repr

/-- `SomeCondition`. -/
structure SomeCondition where
  params : List Const
  fmla : Expr
  kind : SomeKind
  index : Option Expr

inductive Condition where
  | formula (e : Expr)
  | witness (c : SomeCondition)

variable {D : Domain}

/-- The order of the index. -/
def indexLess (idx : Expr) : Const := ⟨"<", .function [idx.nodeSort.range, idx.nodeSort.range] .boolean⟩

namespace SomeCondition

variable (c : SomeCondition)

/-- A state with values for the parameters that satisfy the formula. -/
def Satisfies (s s' : Structure D) : Prop := AgreeOff (· ∈ c.params) s s' ∧ c.fmla.Valid s'

/-- The index of the chosen values is minimal or maximal. -/
def Extremal (s s' : Structure D) : Prop :=
  match c.index, c.kind with
  | none, _ | some _, .some => True
  | some idx, .someMin => ∀ u, c.Satisfies s u → ∀ env,
    ¬ (s'.value (indexLess idx) [idx.eval u env, idx.eval s' env]).Holds
  | some idx, .someMax => ∀ u, c.Satisfies s u → ∀ env,
    ¬ (s'.value (indexLess idx) [idx.eval s' env, idx.eval u env]).Holds

theorem satisfies_congr {s t u : Structure D} (same : AgreeOff (· ∈ c.params) s t) :
    c.Satisfies s u ↔ c.Satisfies t u :=
  and_congr_left fun _ => ⟨fun h x hx => (same x hx).symm.trans (h x hx), fun h x hx => (same x hx).trans (h x hx)⟩

theorem extremal_congr {s t u : Structure D} (same : AgreeOff (· ∈ c.params) s t) :
    c.Extremal s u ↔ c.Extremal t u := by
  unfold Extremal
  split <;> first | rfl | exact forall_congr' fun v => imp_congr_left (c.satisfies_congr same)

/-- The parameters as they were before. -/
noncomputable def restore (s t : Structure D) : Structure D := .patch {x | x ∈ c.params} s t

theorem agreeOff_restore (s t : Structure D) : AgreeOff (· ∈ c.params) (c.restore s t) t :=
  fun _ hx => Structure.patch_not_mem hx

theorem restore_restore (s t u : Structure D) :
    c.restore (c.restore s t) u = c.restore s u ∧ c.restore s (c.restore t u) = c.restore s u := by
  constructor <;> funext n sort <;> simp only [restore, Structure.patch] <;> split <;> rfl

end SomeCondition

/-- The guard of a condition. -/
noncomputable def Condition.guard : Condition → Guard (Structure D)
  | .formula e =>
    { enter := fun s u => u = s ∧ e.Valid s
      exit := fun s => ¬ e.Valid s
      leave := fun _ t => t
      enter_leave := fun _ _ _ => Iff.rfl
      exit_leave := fun _ _ => Iff.rfl
      leave_left := fun _ _ _ => rfl
      leave_right := fun _ _ _ => rfl }
  | .witness c =>
    { enter := fun s u => c.Satisfies s u ∧ c.Extremal s u
      exit := fun s => ∀ u, ¬ c.Satisfies s u
      leave := c.restore
      enter_leave := fun s t _ =>
        and_congr (c.satisfies_congr (c.agreeOff_restore s t)) (c.extremal_congr (c.agreeOff_restore s t))
      exit_leave := fun s t => forall_congr' fun _ => not_congr (c.satisfies_congr (c.agreeOff_restore s t))
      leave_left := fun s t u => (c.restore_restore s t u).1
      leave_right := fun s t u => (c.restore_restore s t u).2 }

end Goivy
