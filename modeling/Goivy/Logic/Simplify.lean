import Goivy.Logic.Rename

/-! Constructors that fold the logical constants. -/
namespace Goivy

namespace Expr

/-- `SimpAnd`. -/
def simpAnd (x y : Expr) : Expr :=
  if x.isTrue then y else if x.isFalse then x else if y.isTrue then x
  else if y.isFalse then y else .and [x, y]

/-- `SimpOr`. -/
def simpOr (x y : Expr) : Expr :=
  if x.isFalse then y else if x.isTrue then x else if y.isFalse then x
  else if y.isTrue then y else .or [x, y]

/-- `SimpNot`. -/
def simpNot (x : Expr) : Expr :=
  match x with
  | .not body => body
  | _ => if x.isTrue then fls else if x.isFalse then tru else .not x

/-- `SimpIte`. -/
def simpIte (i t e : Expr) : Expr :=
  if t = e then t else if i.isTrue then t else if i.isFalse then e
  else if t.isTrue then simpOr i e else if t.isFalse then simpAnd (simpNot i) e
  else if e.isTrue then simpOr (simpNot i) t else if e.isFalse then simpAnd i t
  else .ite i t e

/-- An indefinite description. -/
def isDescription : Expr → Bool
  | .some _ _ | .someElse _ _ _ _ => true
  | _ => false

/-- A logical constant. -/
def isConstant (e : Expr) : Bool := e.isTrue || e.isFalse

variable {D : Domain} {M : Structure D} {env : Env D}

theorem isTrue_iff {e : Expr} : e.isTrue = true ↔ e = tru :=
  ⟨isTrue_eq, fun h => h ▸ rfl⟩

theorem isFalse_iff {e : Expr} : e.isFalse = true ↔ e = fls :=
  ⟨isFalse_eq, fun h => h ▸ rfl⟩

theorem holds_simpAnd (x y : Expr) :
    (simpAnd x y).Holds M env ↔ x.Holds M env ∧ y.Holds M env := by
  simp only [simpAnd, isTrue_iff, isFalse_iff]
  split_ifs with h₁ h₂ h₃ h₄
  · simp [h₁]
  · simp [h₂]
  · simp [h₃]
  · simp [h₄]
  · simp

theorem holds_simpOr (x y : Expr) :
    (simpOr x y).Holds M env ↔ x.Holds M env ∨ y.Holds M env := by
  simp only [simpOr, isTrue_iff, isFalse_iff]
  split_ifs with h₁ h₂ h₃ h₄
  · simp [h₁]
  · simp [h₂]
  · simp [h₃]
  · simp [h₄]
  · simp

theorem holds_simpNot (x : Expr) : (simpNot x).Holds M env ↔ ¬ x.Holds M env := by
  unfold simpNot
  split
  · simp
  · split_ifs with h₁ h₂
    · simp [isTrue_eq h₁]
    · simp [isFalse_eq h₂]
    · simp

theorem holds_ite (i t e : Expr) : (Expr.ite i t e).Holds M env ↔
    (i.Holds M env ∧ t.Holds M env) ∨ (¬ i.Holds M env ∧ e.Holds M env) := by
  by_cases h : i.Holds M env
  · simp only [Holds, eval_ite_pos M env t e h] at *
    simp [h]
  · simp only [Holds, eval_ite_neg M env t e h] at *
    simp [h]

theorem holds_simpIte (i t e : Expr) : (simpIte i t e).Holds M env ↔
    (i.Holds M env ∧ t.Holds M env) ∨ (¬ i.Holds M env ∧ e.Holds M env) := by
  simp only [simpIte, isTrue_iff, isFalse_iff]
  split_ifs with h₁ h₂ h₃ h₄ h₅ h₆ h₇
  · subst h₁
    tauto
  · simp [h₂]
  · simp [h₃]
  · simp only [holds_simpOr, h₄, holds_tru]
    tauto
  · simp only [holds_simpAnd, holds_simpNot, h₅, not_holds_fls]
    tauto
  · simp only [holds_simpOr, holds_simpNot, h₆, holds_tru]
    tauto
  · simp only [holds_simpAnd, h₇, not_holds_fls]
    tauto
  · exact holds_ite i t e

/-- The value is the one of the branch, also where it is no truth value. -/
theorem eval_simpIte {i t e : Expr} (hi : i.isConstant = false) (ht : t.isConstant = false)
    (he : e.isConstant = false) :
    (simpIte i t e).eval M env = (i.eval M env).ite (t.eval M env) (e.eval M env) := by
  simp only [isConstant, Bool.or_eq_false_iff] at hi ht he
  simp only [simpIte, hi, ht, he, Bool.false_eq_true, if_false]
  split_ifs with h
  · rw [h, Val.ite, ite_self]
  · rw [eval]

/-- A conditional on a symbol is only an indefinite description where both branches
are the same one. -/
theorem isDescription_simpIte {v : Const} {t e : Expr} (h : t ≠ e) :
    (simpIte (.const v) t e).isDescription = false := by
  simp only [simpIte, if_neg h, simpNot, simpOr, simpAnd, isTrue_iff, isFalse_iff]
  split_ifs <;> first | rfl | simp_all [tru, fls]

end Expr

end Goivy
