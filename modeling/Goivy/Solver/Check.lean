import Goivy.Solver.Herbrand

/-! The models of a vocabulary, and the rows that are read out of them. -/
namespace Goivy.Solver

/-- The sorts of a vocabulary beside the Boolean one: names of uninterpreted sorts, and enumerations. -/
structure Vocabulary where
  uninterpreted : List String
  enumerated : List (String × List String)
  nonempty : ∀ p ∈ enumerated, p.2 ≠ []
  nodup : ∀ p ∈ enumerated, p.2.Nodup

def Vocabulary.Sorts (voc : Vocabulary) : FSort → Prop
  | .boolean => True
  | .uninterpreted n => n ∈ voc.uninterpreted
  | .enumerated n ext => (n, ext) ∈ voc.enumerated
  | _ => False

/-- The constant for a value of an enumeration. -/
def enumConst (n : String) (ext : List String) (e : String) : Const := ⟨e, .first (.enumerated n ext)⟩

variable {D : Domain} {voc : Vocabulary} {quote : String → String} {M : Structure D} {h : HerbrandModel D} {lit : LogicLiteral}
  {env : Env D} {v : Variable}

/-- The enumerations have their values, which are distinct. -/
structure Vocabulary.Standard (voc : Vocabulary) (M : Structure D) : Prop where
  onto : ∀ n ext, (n, ext) ∈ voc.enumerated → ∀ y : El D (.enumerated n ext), ∃ e ∈ ext, M.value (enumConst n ext e) [] = ⟨_, y⟩
  inj : ∀ n ext, (n, ext) ∈ voc.enumerated → ∀ e ∈ ext, ∀ e' ∈ ext,
    M.value (enumConst n ext e) [] = M.value (enumConst n ext e') [] → e = e'

/-- What Z3 has for a model of a vocabulary: formulas have their values in it, the universes of the uninterpreted sorts are listed,
and values are printed. The names of the constructors are printed as `quote` says; a printed value names the value. -/
structure HerbrandModel.Of (voc : Vocabulary) (quote : String → String) (M : Structure D) (h : HerbrandModel D) : Prop where
  standard : voc.Standard M
  eval : ∀ e assignment (env : Env D), (∀ p ∈ assignment, (⟨p.1.sort, env p.1⟩ : Val D) = p.2) →
    (∀ v ∈ e.freeVariables, v ∈ assignment.map Prod.fst) → h.eval e assignment = e.eval M env
  true_iff : ∀ val, h.string val = "true" ↔ val = ⟨.boolean, true⟩
  false_iff : ∀ val, h.string val = "false" ↔ val = ⟨.boolean, false⟩
  constructors : ∀ n ext, (n, ext) ∈ voc.enumerated → ∀ e ∈ ext, h.string (M.value (enumConst n ext e) []) = quote e
  string_inj : ∀ n ∈ voc.uninterpreted, ∀ x y : El D (.uninterpreted n), h.string ⟨_, x⟩ = h.string ⟨_, y⟩ → x = y
  named : ∀ s, voc.Sorts s → ∀ x : El D s, M.value (h.constantFromZ3 s ⟨s, x⟩) [] = ⟨s, x⟩
  sorts : ∀ s, s ∈ h.sorts ↔ ∃ n ∈ voc.uninterpreted, s = .uninterpreted n
  universes : ∀ n ∈ voc.uninterpreted, ∃ elems, h.constants n = some elems ∧ elems.Nodup ∧ ∀ x : Val D, x ∈ elems ↔ x.1 = .uninterpreted n
  uninterpreted : ∀ s, voc.Sorts s → h.isInterpretedSort s = false

section Assignments

variable {α : Type}

theorem mem_enumerateAssignments {ranges : List (List α)} {row : List α} :
    row ∈ enumerateAssignments ranges ↔ List.Forall₂ (· ∈ ·) row ranges := by
  induction ranges generalizing row with
  | nil => simp [enumerateAssignments]
  | cons range ranges ih =>
    simp only [enumerateAssignments, List.mem_flatMap, List.mem_map, ih]
    constructor
    · rintro ⟨c, hc, rest, hrest, rfl⟩
      exact .cons hc hrest
    · rintro (_ | ⟨hc, hrest⟩)
      exact ⟨_, hc, _, hrest, rfl⟩

theorem nodup_enumerateAssignments {ranges : List (List α)} (nodup : ∀ range ∈ ranges, range.Nodup) :
    (enumerateAssignments ranges).Nodup := by
  induction ranges with
  | nil => simp [enumerateAssignments]
  | cons range ranges ih =>
    rw [List.forall_mem_cons] at nodup
    rw [enumerateAssignments, List.nodup_flatMap]
    refine ⟨fun c _ => (ih nodup.2).map fun _ _ same => (List.cons.inj same).2, ?_⟩
    refine nodup.1.imp fun {a b} other row hrowA hrowB => ?_
    obtain ⟨ra, -, rfl⟩ := List.mem_map.mp hrowA
    obtain ⟨rb, -, same⟩ := List.mem_map.mp hrowB
    exact other (List.cons.inj same).1.symm

end Assignments

section Rows

theorem LogicLiteral.nodup_vars (lit : LogicLiteral) : lit.vars.Nodup :=
  (List.perm_insertionSort _ _).nodup_iff.mpr (List.nodup_dedup _)

theorem LogicLiteral.mem_vars : v ∈ lit.vars ↔ v ∈ lit.atom.freeVariables := by
  rw [vars, List.mem_insertionSort, List.mem_dedup]

/-- A literal is true under an assignment. -/
def LogicLiteral.Holds (lit : LogicLiteral) (M : Structure D) (env : Env D) : Prop :=
  if lit.polarity then lit.atom.Holds M env else ¬ lit.atom.Holds M env

/-- The constant that names the value of a variable. -/
def HerbrandModel.nameAt (h : HerbrandModel D) (env : Env D) (v : Variable) : Const := h.constantFromZ3 v.sort ⟨v.sort, env v⟩

namespace HerbrandModel.Of

variable (of : h.Of voc quote M)

include of

/-- The values of a variable are those of its sort, each once. -/
theorem variableRange (sort : voc.Sorts v.sort) : (h.variableRange v).Nodup ∧ ∀ x, x ∈ h.variableRange v ↔ x.1 = v.sort := by
  obtain ⟨name, s⟩ := v
  cases s with
  | boolean =>
    have other : (⟨.boolean, false⟩ : Val D) ≠ ⟨.boolean, true⟩ := fun same =>
      Bool.false_ne_true (eq_of_heq (Sigma.mk.inj same).2)
    refine ⟨List.nodup_cons.mpr ⟨fun mem => other (List.mem_singleton.mp mem), List.nodup_singleton _⟩, fun x => ?_⟩
    simp only [HerbrandModel.variableRange, List.mem_cons, List.not_mem_nil, or_false]
    constructor
    · rintro (rfl | rfl) <;> rfl
    · obtain ⟨s, x⟩ := x
      rintro (rfl : s = .boolean)
      cases (x : Bool)
      · exact .inl rfl
      · exact .inr rfl
  | uninterpreted n =>
    obtain ⟨elems, listed, nodup, mem⟩ := of.universes n sort
    simp only [HerbrandModel.variableRange, FSort.name, listed, Option.getD_some]
    exact ⟨nodup, mem⟩
  | enumerated n ext =>
    have some : ext.isEmpty = false := by
      cases ext with
      | nil => exact absurd rfl (voc.nonempty _ sort)
      | cons => rfl
    have eval : ∀ e, h.eval (.const ⟨e, .first (.enumerated n ext)⟩) [] = M.value (enumConst n ext e) [] := fun e =>
      of.eval _ [] (Classical.arbitrary _) (by simp) (by simp [Expr.freeVariables])
    simp only [HerbrandModel.variableRange, some, Bool.false_eq_true, if_false, eval]
    refine ⟨List.Nodup.map_on (fun e he e' he' => of.standard.inj n ext sort e he e' he') (voc.nodup _ sort), fun x => ?_⟩
    rw [List.mem_map]
    constructor
    · rintro ⟨e, he, rfl⟩
      rfl
    · obtain ⟨s, x⟩ := x
      rintro (rfl : s = .enumerated n ext)
      exact of.standard.onto n ext sort x
  | _ => exact absurd sort id

theorem isTrue_iff {e : Expr} {assignment : List (Variable × Val D)} (env : Env D)
    (same : ∀ p ∈ assignment, (⟨p.1.sort, env p.1⟩ : Val D) = p.2) (closed : ∀ v ∈ e.freeVariables, v ∈ assignment.map Prod.fst) :
    h.isTrue e assignment = true ↔ e.Holds M env := by
  rw [isTrue, decide_eq_true_eq, of.true_iff, of.eval e assignment env same closed]
  rfl

theorem holds_iff {assignment : List (Variable × Val D)} (env : Env D)
    (same : ∀ p ∈ assignment, (⟨p.1.sort, env p.1⟩ : Val D) = p.2) (closed : ∀ v ∈ lit.vars, v ∈ assignment.map Prod.fst) :
    h.holds lit assignment = true ↔ lit.Holds M env := by
  have free : ∀ v ∈ lit.atom.freeVariables, v ∈ assignment.map Prod.fst := fun v hv => closed v (LogicLiteral.mem_vars.mpr hv)
  cases polarity : lit.polarity with
  | true => simp only [holds, LogicLiteral.Holds, polarity, if_true, of.isTrue_iff env same free]
  | false =>
    simp only [holds, LogicLiteral.Holds, polarity, Bool.false_eq_true, if_false]
    rw [of.isTrue_iff env same (by simpa only [Expr.freeVariables] using free), Expr.holds_not]

theorem constantFromZ3_inj {s : FSort} (sort : voc.Sorts s) {x y : El D s}
    (same : h.constantFromZ3 s ⟨s, x⟩ = h.constantFromZ3 s ⟨s, y⟩) : x = y := by
  have values : (⟨s, x⟩ : Val D) = ⟨s, y⟩ := by rw [← of.named s sort x, same, of.named s sort y]
  exact eq_of_heq (Sigma.mk.inj values).2

end HerbrandModel.Of

theorem zip_graph {α β : Type} (f : α → β) (xs : List α) : xs.zip (xs.map f) = xs.map fun x => (x, f x) := by
  induction xs with
  | nil => rfl
  | cons x xs ih => exact congrArg (List.cons _) ih

theorem zip_values (vs : List Variable) (env : Env D) : vs.zip (env.values vs) = vs.map fun v => (v, ⟨v.sort, env v⟩) :=
  zip_graph _ vs

theorem map_fst_zip_values (vs : List Variable) (env : Env D) : (vs.zip (env.values vs)).map Prod.fst = vs := by
  rw [zip_values, List.map_map]
  exact List.map_id _

@[simp] theorem check_vars (h : HerbrandModel D) (lit : LogicLiteral) : (h.check lit).1 = lit.vars := by
  rw [HerbrandModel.check]
  split <;> rfl

/-- A row of the range of an assignment is kept where the assignment satisfies the literal. -/
theorem HerbrandModel.Of.keeps_iff (of : h.Of voc quote M) (env : Env D) :
    h.holds lit (lit.vars.zip (env.values lit.vars)) = true ↔ lit.Holds M env := by
  refine of.holds_iff env (fun p hp => ?_) fun v hv => ?_
  · rw [zip_values] at hp
    obtain ⟨v, -, rfl⟩ := List.mem_map.mp hp
    rfl
  · rwa [map_fst_zip_values]

/-- `Check` returns exactly the assignments that satisfy its literal, each once. -/
theorem HerbrandModel.Of.check_rows (of : h.Of voc quote M) (covered : ∀ v ∈ lit.vars, voc.Sorts v.sort) :
    (h.check lit).2.Nodup ∧ ∀ row, row ∈ (h.check lit).2 ↔ ∃ env : Env D, lit.Holds M env ∧ row = lit.vars.map (h.nameAt env) := by
  have names : ∀ env : Env D, (lit.vars.zip (env.values lit.vars)).map (fun p => h.constantFromZ3 p.1.sort p.2) =
      lit.vars.map (h.nameAt env) := by
    intro env
    rw [zip_values, List.map_map]
    rfl
  rw [check]
  split
  · rename_i closed
    have none := List.isEmpty_iff.mp closed
    have keeps : ∀ env : Env D, h.holds lit [] = true ↔ lit.Holds M env := by
      intro env
      rw [← of.keeps_iff env, none]
      rfl
    by_cases sat : h.holds lit [] = true
    · simp only [sat, if_true]
      refine ⟨List.nodup_singleton _, fun row => ?_⟩
      simp only [List.mem_singleton, none, List.map_nil]
      exact ⟨fun empty => ⟨Classical.arbitrary _, (keeps _).mp sat, empty⟩, fun ⟨_, _, empty⟩ => empty⟩
    · simp only [sat, Bool.false_eq_true, if_false]
      exact ⟨List.nodup_nil, fun row => iff_of_false List.not_mem_nil fun ⟨env, holds, _⟩ => sat ((keeps env).mpr holds)⟩
  · have mem : ∀ vals : List (Val D), vals ∈ (enumerateAssignments (lit.vars.map h.variableRange)).filter
        (fun row => row.map Sigma.fst = lit.vars.map Variable.sort && h.holds lit (lit.vars.zip row)) ↔
        ∃ env : Env D, lit.Holds M env ∧ env.values lit.vars = vals := by
      intro vals
      simp only [List.mem_filter, mem_enumerateAssignments, Bool.and_eq_true, decide_eq_true_eq]
      constructor
      · rintro ⟨-, fits, sat⟩
        obtain ⟨env, rfl⟩ := exists_env lit.nodup_vars fits
        exact ⟨env, (of.keeps_iff env).mp sat, rfl⟩
      · rintro ⟨env, sat, rfl⟩
        refine ⟨?_, by simp [Env.values], (of.keeps_iff env).mpr sat⟩
        rw [Env.values, List.forall₂_map_left_iff, List.forall₂_map_right_iff, List.forall₂_same]
        exact fun v hv => ((of.variableRange (covered v hv)).2 _).mpr rfl
    constructor
    · refine List.Nodup.map_on (fun a ha b hb same => ?_) ((nodup_enumerateAssignments fun range hrange => ?_).filter _)
      · obtain ⟨env, -, rfl⟩ := (mem a).mp ha
        obtain ⟨env', -, rfl⟩ := (mem b).mp hb
        have same := (names env).symm.trans (same.trans (names env'))
        refine List.map_congr_left fun v hv => ?_
        rw [of.constantFromZ3_inj (covered v hv) (List.map_inj_left.mp same v hv)]
      · obtain ⟨v, hv, rfl⟩ := List.mem_map.mp hrange
        exact (of.variableRange (covered v hv)).1
    · intro row
      rw [List.mem_map]
      constructor
      · rintro ⟨vals, hvals, rfl⟩
        obtain ⟨env, sat, rfl⟩ := (mem vals).mp hvals
        exact ⟨env, sat, names env⟩
      · rintro ⟨env, sat, rfl⟩
        exact ⟨_, (mem _).mpr ⟨env, sat, rfl⟩, names env⟩

end Rows

end Goivy.Solver
