import Goivy.TransRel.AtomicActions
import Goivy.Util.OptionList

/-! The path of a destructor assignment, and the frames that are stated along it. -/
namespace Goivy

/-- A destructor and its arguments after the first one. -/
abbrev PathLevel := Const × List Expr

section Path

variable (tables : SortTables)

mutual
/-- The root that `destrAsgnVal` reaches, and the destructors on the way, the innermost first. -/
def destrPath : Expr → Expr × List PathLevel
  | .apply n args => destrPathArgs n args
  | e => (e, [])
def destrPathArgs (n : Const) : List Expr → Expr × List PathLevel
  | [] => (.apply n [], [])
  | target :: rest =>
    match target.constSym with
    | none => (.apply n (target :: rest), [])
    | some root =>
      if root.name ∈ tables.destructorSorts then
        ((destrPath target).1, (destrPath target).2 ++ [(n, rest)])
      else (target, [(n, rest)])
end

end Path

/-- A path from an expression. -/
def applyPath (e : Expr) (levels : List PathLevel) : Expr :=
  levels.foldl (fun e level => .apply level.1 (e :: level.2)) e

theorem applyPath_append (e : Expr) (levels : List PathLevel) (level : PathLevel) :
    applyPath e (levels ++ [level]) = .apply level.1 (applyPath e levels :: level.2) := by
  rw [applyPath, List.foldl_append]
  rfl

variable {D : Domain} {M N : Structure D} {env : Env D} {tables : SortTables}

/-- Reads a field of a field of a value. -/
noncomputable def readPath (M : Structure D) (v : Val D) (fields : List (Const × List (Val D))) : Val D :=
  fields.foldl (fun v field => M.value field.1 (v :: field.2)) v

noncomputable def evalPath (M : Structure D) (env : Env D) (levels : List PathLevel) :
    List (Const × List (Val D)) :=
  levels.map fun level => (level.1, evalList M level.2 env)

theorem eval_applyPath (e : Expr) (levels : List PathLevel) :
    (applyPath e levels).eval M env = readPath M (e.eval M env) (evalPath M env levels) := by
  induction levels generalizing e with
  | nil => rfl
  | cons level levels ih =>
    rw [applyPath, List.foldl_cons]
    exact (ih _).trans (by rw [Expr.eval, evalList]; rfl)

/-- What is said of one level: the copy and the original agree on the arguments that the level
does not address, and under the other destructors. -/
structure LevelFrame (tables : SortTables) (N : Structure D) (n : Const) (idx : List Expr) (copy original : Expr) :
    Prop where
  index : ∀ w : Env D, (∀ c ∈ matchConditions (symPlaceholders n).tail idx, c.Holds N w) ∨
    N.value n (copy.eval N w :: w.values (symPlaceholders n).tail) =
      N.value n (original.eval N w :: w.values (symPlaceholders n).tail)
  sibling : ∀ d ∈ siblings tables n original, ∀ w : Env D,
    N.value d (copy.eval N w :: w.values (symPlaceholders d).tail) =
      N.value d (original.eval N w :: w.values (symPlaceholders d).tail)

/-- The frames of all levels. -/
def PathFrames (tables : SortTables) (N : Structure D) : Expr → Expr → List PathLevel → Prop
  | _, _, [] => True
  | copy, original, (n, idx) :: levels => LevelFrame tables N n idx copy original ∧
    PathFrames tables N (.apply n (copy :: idx)) (.apply n (original :: idx)) levels

theorem pathFrames_append {copy original : Expr} {levels : List PathLevel} {n : Const} {idx : List Expr} :
    PathFrames tables N copy original (levels ++ [(n, idx)]) ↔ PathFrames tables N copy original levels ∧
      LevelFrame tables N n idx (applyPath copy levels) (applyPath original levels) := by
  induction levels generalizing copy original with
  | nil => simp [PathFrames, applyPath]
  | cons level levels ih => simp [PathFrames, applyPath, ih, and_assoc]

namespace Expr

theorem holds_negate (a : Expr) : a.negate.Holds M env ↔ ¬ a.Holds M env := by
  unfold negate
  split <;> simp

theorem holds_guardOf (eqs : List Expr) : (guardOf eqs).Holds M env ↔ ∀ e ∈ eqs, e.Holds M env := by
  unfold guardOf
  split <;> simp

/-- The equivalence of values of one sort says that they are equal. -/
theorem holds_equiv {a b : Expr} {s : FSort} (boolean : a.isIndividual = false → s = .boolean)
    (left : (a.eval M env).1 = s) (right : (b.eval M env).1 = s) :
    (equiv a b).Holds M env ↔ a.eval M env = b.eval M env := by
  unfold equiv
  split
  · rw [holds_eq]
  · rename_i individual
    have sort := boolean (by simpa using individual)
    have truth : (Expr.and [.or [a, b.negate], .or [a.negate, b]]).Holds M env ↔
        (a.Holds M env ↔ b.Holds M env) := by
      rw [holds_and, List.forall_mem_cons, List.forall_mem_singleton]
      simp only [holds_or, List.mem_cons, List.not_mem_nil, or_false, exists_eq_or_imp, exists_eq_left,
        holds_negate]
      tauto
    rw [truth]
    exact ⟨Val.eq_of_holds_iff (left.trans sort) (right.trans sort), fun same => by rw [Holds, Holds, same]⟩

end Expr

theorem destructorAt_spec {d : Const} {value e : Expr} (h : destructorAt d value = some e) (M : Structure D)
    (env : Env D) : e.eval M env = M.value d (value.eval M env :: env.values (symPlaceholders d).tail) ∧
      (e.isIndividual = false → d.sort.range = .boolean) := by
  unfold destructorAt at h
  split at h
  · cases h
  · rename_i phs eq
    obtain ⟨val, -, boolean⟩ := Expr.applyToNodes_spec h M env
    rw [val, evalList, Expr.evalList_placeholders, eq]
    exact ⟨rfl, boolean⟩

/-- One round of `destrAsgnVal` adds the frames of one level. -/
theorem destrLevel_spec {n : Const} {target : Expr} {rest : List Expr} {d d' : Destructed}
    (h : destrLevel tables n target rest d = some d') :
    d'.lval = .apply n (d.lval :: rest) ∧ d'.clauses = d.clauses ∧ d'.mutated = d.mutated ∧
      ((∀ f ∈ d'.fmlas, f.Valid N) →
        (∀ f ∈ d.fmlas, f.Valid N) ∧ LevelFrame tables N n rest d.lval target) := by
  simp only [destrLevel, Option.bind_eq_bind, Option.bind_eq_some_iff] at h
  obtain ⟨dlhs, left, drhs, right, frames, made, lval, applied, same⟩ := h
  cases same
  refine ⟨?_, rfl, rfl, fun valid => ?_⟩
  · unfold Expr.applyToNodes at applied
    rw [if_neg (by simp)] at applied
    exact Expr.newApply_eq applied
  · simp only [List.forall_mem_append] at valid
    obtain ⟨⟨before, indices⟩, siblings⟩ := valid
    refine ⟨before, fun w => ?_, fun e mem w => ?_⟩
    · by_cases none : matchConditions (symPlaceholders n).tail rest = []
      · exact .inl (by simp [none])
      · rw [if_neg (by simpa using none), List.forall_mem_singleton] at indices
        have holds := indices w
        simp only [Expr.holds_disjoin, List.mem_cons, List.not_mem_nil, or_false, exists_eq_or_imp,
          exists_eq_left, Expr.holds_guardOf] at holds
        refine holds.imp id fun same => ?_
        obtain ⟨leftVal, boolean⟩ := destructorAt_spec left N w
        obtain ⟨rightVal, -⟩ := destructorAt_spec right N w
        rwa [Expr.holds_equiv boolean (by rw [leftVal]; rfl) (by rw [rightVal]; rfl), leftVal, rightVal] at same
    · obtain ⟨frame, there, eq⟩ := exists_of_mapM made e mem
      simp only [Option.bind_eq_some_iff] at eq
      obtain ⟨a, left, b, right, same⟩ := eq
      cases same
      have holds := (Expr.holds_eq N w a b).mp (siblings _ there w)
      rwa [(destructorAt_spec left N w).1, (destructorAt_spec right N w).1] at holds

/-- Without a level, the root is the expression itself. -/
theorem destrPath_nil {e root : Expr} (h : destrPath tables e = (root, [])) : root = e := by
  cases e with
  | apply n args =>
    cases args with
    | nil =>
      cases h
      rfl
    | cons target rest =>
      simp only [destrPath, destrPathArgs] at h
      split at h
      · cases h
        rfl
      · split at h <;> simp at h
  | _ =>
    cases h
    rfl

/-- `destrAsgnVal` assigns to a copy of the root, and frames it along the path. -/
theorem destrAsgnVal_spec {lhs root : Expr} {levels : List PathLevel} {fmlas : List Expr} {d : Destructed}
    {m : Const} (made : destrAsgnVal tables lhs fmlas = some d) (path : destrPath tables lhs = (root, levels))
    (head : root.constSym = some m) (isRoot : m.name ∉ tables.destructorSorts) (deep : levels ≠ []) :
    ∃ copy u, Expr.applyToNodes (nondetConst m) root.nodeArgs = some copy ∧
      mkAssignClauses root copy = some u ∧ lhs = applyPath root levels ∧ d.lval = applyPath copy levels ∧
      d.clauses = u.tr ∧ d.mutated = some m ∧ ((∀ f ∈ d.fmlas, f.Valid N) →
        (∀ f ∈ fmlas, f.Valid N) ∧ PathFrames tables N copy root levels) := by
  induction lhs generalizing d levels with
  | apply n args ih =>
    cases args with
    | nil =>
      cases path
      exact absurd rfl deep
    | cons target rest =>
      simp only [destrAsgnVal, destrAsgnArgs] at made
      simp only [destrPath, destrPathArgs] at path
      split at made
      · rename_i none
        rw [none] at path
        cases path
        exact absurd rfl deep
      · rename_i sym found
        rw [found] at path
        simp only at path
        split at made
        · rename_i inner
          rw [if_pos inner] at path
          obtain ⟨d₁, first, last⟩ := Option.bind_eq_some_iff.mp made
          obtain ⟨rfl, rfl⟩ := Prod.mk.inj path
          have below : (destrPath tables target).2 ≠ [] := by
            intro none
            have same := destrPath_nil (Prod.ext rfl none : destrPath tables target = (_, []))
            have here : target.constSym = some m := (congrArg Expr.constSym same).symm.trans head
            cases found.symm.trans here
            exact isRoot inner
          obtain ⟨copy, u, applied, assigned, eq, lval, clauses, mutated, frames⟩ :=
            ih target List.mem_cons_self first rfl below
          obtain ⟨lval', clauses', mutated', frames'⟩ := destrLevel_spec last (N := N)
          refine ⟨copy, u, applied, assigned, ?_, ?_, clauses'.trans clauses, mutated'.trans mutated,
            fun valid => ?_⟩
          · rw [applyPath_append, ← eq]
          · rw [applyPath_append, lval', lval]
          · obtain ⟨before, level⟩ := frames' valid
            obtain ⟨start, along⟩ := frames before
            rw [lval] at level
            exact ⟨start, pathFrames_append.mpr ⟨along, eq ▸ level⟩⟩
        · rename_i outer
          rw [if_neg outer] at path
          obtain ⟨d₁, first, last⟩ := Option.bind_eq_some_iff.mp made
          cases path
          obtain rfl : sym = m := Option.some.inj (found.symm.trans head)
          simp only [destrRoot, Option.bind_eq_bind, Option.bind_eq_some_iff] at first
          obtain ⟨copy, applied, u, assigned, same⟩ := first
          cases same
          obtain ⟨lval, clauses, mutated, frames⟩ := destrLevel_spec last (N := N)
          refine ⟨copy, u, applied, assigned, rfl, lval, clauses, mutated, fun valid => ?_⟩
          obtain ⟨before, level⟩ := frames valid
          exact ⟨before, level, trivial⟩
  | _ =>
    cases path
    exact absurd rfl deep

end Goivy
