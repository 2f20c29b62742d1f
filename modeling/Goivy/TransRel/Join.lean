import Goivy.TransRel.Relation
import Goivy.Module.Conditional

/-! `JoinAction` and `IteAction`: the choice between two updates. -/
namespace Goivy

/-- Erasing the repetitions of a list leaves none. -/
theorem nodup_eraseDups {α : Type} [DecidableEq α] (l : List α) : l.eraseDups.Nodup := by
  induction h : l.length using Nat.strong_induction_on generalizing l with
  | _ n ih =>
    cases l with
    | nil => simp
    | cons a l =>
      rw [List.eraseDups_cons, List.nodup_cons]
      have shorter : (l.filter (fun b => !b == a)).length < n := by
        have := List.length_filter_le (fun b => !b == a) l
        simp only [List.length_cons] at h
        omega
      exact ⟨by simp [List.mem_eraseDups], ih _ shorter _ rfl⟩

namespace Update

/-- `JoinAction`. -/
def join (u₁ u₂ : Update) (axioms : Clauses) : Update where
  modified :=
    if u₁.modifiedAll || u₂.modifiedAll then [] else updatedJoin u₁.modified u₂.modified
  modifiedAll := u₁.modifiedAll || u₂.modifiedAll
  tr := .or [framed u₁ u₂ axioms u₁.tr, framed u₂ u₁ axioms u₂.tr]
  pre := .or [framed u₁ u₂ axioms u₁.pre, framed u₂ u₁ axioms u₂.pre]

/-- `IteAction`. -/
def ite (cond : Expr) (u₁ u₂ : Update) (axioms : Clauses) : Update where
  modified :=
    if u₁.modifiedAll || u₂.modifiedAll then [] else updatedJoin u₁.modified u₂.modified
  modifiedAll := u₁.modifiedAll || u₂.modifiedAll
  tr := .ite cond (framed u₁ u₂ axioms u₁.tr) (framed u₂ u₁ axioms u₂.tr)
  pre := .ite cond (framed u₁ u₂ axioms u₁.pre) (framed u₂ u₁ axioms u₂.pre)

/-- Two clause sets whose disjunction `OrClauses` can take. -/
def CanJoin (a b : Clauses) : Prop :=
  2 ≤ (Clauses.nonFalse [a, b]).length → Clauses.Mergeable (Clauses.nonFalse [a, b])

/-- Two clause sets that `IteClauses` can choose between. -/
def CanChoose (a b : Clauses) : Prop :=
  a.isFalse = false ∨ b.isFalse = false →
    Clauses.IteMergeable (Clauses.iteBranches a b).1 (Clauses.iteBranches a b).2

/-- A closed formula over the symbols of a state. -/
structure StateCondition (cond : Expr) : Prop where
  formula : cond.isDescription = false
  closed : cond.freeVariables = []
  state : ∀ c ∈ cond.symbols, c.State

section Choice

variable {D : Domain} {u₁ u₂ : Update} {axioms : Clauses} {s s' : Structure D}
  (style₁ : u₁.ActionStyle) (style₂ : u₂.ActionStyle)

variable (axioms) in
include style₁ style₂ in
theorem modified_choice :
    (u₁.join u₂ axioms).modified = updatedJoin u₁.modified u₂.modified ∧
      ∀ cond, (ite cond u₁ u₂ axioms).modified = updatedJoin u₁.modified u₂.modified := by
  simp [join, ite, style₁.notAll, style₂.notAll]

include style₁ style₂ in
/-- The disjunction of two framed clause sets. -/
theorem satSkolem_join {a b : Clauses} (can : CanJoin (framed u₁ u₂ axioms a) (framed u₂ u₁ axioms b)) :
    (Clauses.or [framed u₁ u₂ axioms a, framed u₂ u₁ axioms b]).SatSkolem (s.joint s') ↔
      (a.SatSkolem (s.joint s') ∧ Unchanged u₁ u₂ axioms s s') ∨
        (b.SatSkolem (s.joint s') ∧ Unchanged u₂ u₁ axioms s s') := by
  rw [Clauses.satSkolem_or can]
  simp only [List.mem_cons, List.not_mem_nil, or_false, exists_eq_or_imp, exists_eq_left,
    satSkolem_framed style₁.notAll style₂, satSkolem_framed style₂.notAll style₁]

theorem valid_joint {cond : Expr} (state : StateCondition cond) :
    cond.Valid (s.joint s') ↔ cond.Valid s :=
  Clauses.valid_congr fun c hc => Structure.joint_state (state.state c hc).notNew

include style₁ style₂ in
theorem satSkolem_choose {a b : Clauses} {cond : Expr} (state : StateCondition cond)
    (can : CanChoose (framed u₁ u₂ axioms a) (framed u₂ u₁ axioms b)) :
    (Clauses.ite cond (framed u₁ u₂ axioms a) (framed u₂ u₁ axioms b)).SatSkolem (s.joint s') ↔
      (cond.Valid s ∧ a.SatSkolem (s.joint s') ∧ Unchanged u₁ u₂ axioms s s') ∨
        (¬ cond.Valid s ∧ b.SatSkolem (s.joint s') ∧ Unchanged u₂ u₁ axioms s s') := by
  rw [Clauses.satSkolem_ite can state.formula state.closed
      fun c hc => (state.state c hc).notSkolem,
    valid_joint state, satSkolem_framed style₁.notAll style₂, satSkolem_framed style₂.notAll style₁]

include style₁ style₂ in
/-- A join fails where one of the updates does. -/
theorem join_fails_iff
    (can : CanJoin (framed u₁ u₂ axioms u₁.pre) (framed u₂ u₁ axioms u₂.pre)) :
    (u₁.join u₂ axioms).Fails s ↔ u₁.Fails s ∨ u₂.Fails s := by
  rw [← framed_fails_iff axioms style₁ style₂,
    ← framed_fails_iff axioms style₂ style₁, ← exists_or]
  refine exists_congr fun s' => ?_
  simp only [join, Clauses.satSkolem_or can, List.mem_cons, List.not_mem_nil, or_false,
    exists_eq_or_imp, exists_eq_left]

include style₁ style₂ in
theorem ite_fails_iff {cond : Expr} (state : StateCondition cond)
    (can : CanChoose (framed u₁ u₂ axioms u₁.pre) (framed u₂ u₁ axioms u₂.pre)) :
    (ite cond u₁ u₂ axioms).Fails s ↔
      (cond.Valid s ∧ u₁.Fails s) ∨ (¬ cond.Valid s ∧ u₂.Fails s) := by
  have pre : ∀ s' : Structure D, (ite cond u₁ u₂ axioms).pre.SatSkolem (s.joint s') ↔
      (cond.Valid s ∧ (framed u₁ u₂ axioms u₁.pre).SatSkolem (s.joint s')) ∨
        (¬ cond.Valid s ∧ (framed u₂ u₁ axioms u₂.pre).SatSkolem (s.joint s')) := fun s' => by
    rw [ite, Clauses.satSkolem_ite can state.formula state.closed
      fun c hc => (state.state c hc).notSkolem, valid_joint state]
  rw [← framed_fails_iff axioms style₁ style₂,
    ← framed_fails_iff axioms style₂ style₁]
  simp only [Fails, pre, exists_or, exists_and_left]

end Choice

/-- The choices between two action-style updates have their relational meaning, where
their disjunctions and conditionals can be merged. -/
theorem choice_is_relational {u₁ u₂ : Update} {axioms : Clauses} {cond : Expr}
    (style₁ : u₁.ActionStyle) (style₂ : u₂.ActionStyle) (state : StateCondition cond)
    (joinTr : CanJoin (framed u₁ u₂ axioms u₁.tr) (framed u₂ u₁ axioms u₂.tr))
    (joinPre : CanJoin (framed u₁ u₂ axioms u₁.pre) (framed u₂ u₁ axioms u₂.pre))
    (iteTr : CanChoose (framed u₁ u₂ axioms u₁.tr) (framed u₂ u₁ axioms u₂.tr))
    (itePre : CanChoose (framed u₁ u₂ axioms u₁.pre) (framed u₂ u₁ axioms u₂.pre)) :
    (∀ (D : Domain) (s s' : Structure D),
      ((u₁.join u₂ axioms).tr.SatSkolem (s.joint s') ↔
        (u₁.tr.SatSkolem (s.joint s') ∧ Unchanged u₁ u₂ axioms s s') ∨
          (u₂.tr.SatSkolem (s.joint s') ∧ Unchanged u₂ u₁ axioms s s')) ∧
      ((u₁.join u₂ axioms).pre.SatSkolem (s.joint s') ↔
        (u₁.pre.SatSkolem (s.joint s') ∧ Unchanged u₁ u₂ axioms s s') ∨
          (u₂.pre.SatSkolem (s.joint s') ∧ Unchanged u₂ u₁ axioms s s')) ∧
      ((ite cond u₁ u₂ axioms).tr.SatSkolem (s.joint s') ↔
        (cond.Valid s ∧ u₁.tr.SatSkolem (s.joint s') ∧ Unchanged u₁ u₂ axioms s s') ∨
          (¬ cond.Valid s ∧ u₂.tr.SatSkolem (s.joint s') ∧ Unchanged u₂ u₁ axioms s s')) ∧
      ((ite cond u₁ u₂ axioms).pre.SatSkolem (s.joint s') ↔
        (cond.Valid s ∧ u₁.pre.SatSkolem (s.joint s') ∧ Unchanged u₁ u₂ axioms s s') ∨
          (¬ cond.Valid s ∧ u₂.pre.SatSkolem (s.joint s') ∧ Unchanged u₂ u₁ axioms s s')) ∧
      ((u₁.join u₂ axioms).Fails s ↔ u₁.Fails s ∨ u₂.Fails s) ∧
      ((ite cond u₁ u₂ axioms).Fails s ↔
        (cond.Valid s ∧ u₁.Fails s) ∨ (¬ cond.Valid s ∧ u₂.Fails s))) ∧
    ∀ u ∈ [u₁.join u₂ axioms, ite cond u₁ u₂ axioms],
      u.modified.Nodup ∧ ∀ c, c ∈ u.modified ↔ c ∈ u₁.modified ∨ c ∈ u₂.modified := by
  refine ⟨fun D s s' => ⟨satSkolem_join style₁ style₂ joinTr, satSkolem_join style₁ style₂ joinPre,
    satSkolem_choose style₁ style₂ state iteTr, satSkolem_choose style₁ style₂ state itePre,
    join_fails_iff style₁ style₂ joinPre, ite_fails_iff style₁ style₂ state itePre⟩, ?_⟩
  have modified := modified_choice axioms style₁ style₂
  simp only [List.forall_mem_cons, List.not_mem_nil, false_imp_iff, implies_true, and_true,
    modified.1, modified.2 cond]
  exact ⟨⟨nodup_eraseDups _, fun _ => mem_updatedJoin⟩, nodup_eraseDups _, fun _ => mem_updatedJoin⟩

/-- `x := a` and `y := b`. -/
def setX : Update := ⟨[boolConst "x"], false, .new [] [boolDef "new_x" "a"], .fls⟩

def setY : Update := ⟨[boolConst "y"], false, .new [] [boolDef "new_y" "b"], .fls⟩

theorem setX_style : setX.ActionStyle := by
  have state : ∀ c ∈ setX.modified, c.State := by
    simp only [setX, List.forall_mem_singleton]
    exact ⟨by decide, by decide⟩
  exact ⟨⟨state, by decide, by unfold NewOnly; decide⟩, rfl, by unfold NewOnly; decide⟩

theorem setY_style : setY.ActionStyle := by
  have state : ∀ c ∈ setY.modified, c.State := by
    simp only [setY, List.forall_mem_singleton]
    exact ⟨by decide, by decide⟩
  exact ⟨⟨state, by decide, by unfold NewOnly; decide⟩, rfl, by unfold NewOnly; decide⟩

theorem choice_is_relational_set :
    (setX.join setY .tru).Fails (.ofNames ["a"]) ↔
      setX.Fails (.ofNames ["a"]) ∨ setY.Fails (.ofNames ["a"]) := by
  let t : Clauses := ⟨[], [boolDef "new_x" "a", boolDef "new_y" "y"]⟩
  let e : Clauses := ⟨[], [boolDef "new_y" "b", boolDef "new_x" "x"]⟩
  have first : framed setX setY .tru setX.tr = t := by decide
  have second : framed setY setX .tru setY.tr = e := by decide
  have sep : Clauses.Separable [t, e] :=
    Clauses.separable_of_none (by decide) (by decide) (by decide)
  have plain : ∀ f ∈ e.defs, f.lhs.isIndividual = false ∧ ∀ a ∈ [t, e], ∀ d ∈ a.defs,
      d.defines = f.defines → constraintOf f.lhs d.rhs = d.toConstraint := by decide
  refine ((choice_is_relational setX_style setY_style
    (show StateCondition (.const (boolConst "p")) from ⟨rfl, rfl, fun c hc => ?_⟩) (fun _ => ?_) (fun two => ?_) (fun _ => ?_) (fun none => ?_)).1
      Domain.unit (.ofNames ["a"]) (.ofNames [])).2.2.2.2.1
  · obtain rfl := List.mem_singleton.mp hc
    exact ⟨by decide, by decide⟩
  · rw [first, second]
    refine ⟨sep, fun last hlast f hf _ a ha d hd same D M => ?_⟩
    cases hlast
    rw [(plain f hf).2 a ha d hd same]
  · exact absurd two (by decide)
  · rw [first, second]
    refine ⟨sep, fun d hd f hf same => .inr ⟨fun h => ?_, fun D M => ?_⟩⟩
    · rw [(plain f hf).1] at h
      contradiction
    · rw [(plain f hf).2 t (by simp) d hd same, (plain f hf).2 e (by simp) f hf rfl]
      exact ⟨Iff.rfl, Iff.rfl⟩
  · exact absurd none (by decide)

/-- Assignments of `a` and of `b` to `x` at once, next to an assumption of `p`. -/
def setTwice : Update :=
  ⟨[boolConst "x"], false, .and [.new [] [boolDef "new_x" "a"], .new [] [boolDef "new_x" "b"]], .fls⟩

def assumeP : Update := ⟨[], false, .new [.const (boolConst "p")] [], .fls⟩

/-- The join forgets the first of the two definitions. -/
theorem join_drops_definition : ¬ ((setTwice.join assumeP .tru).tr.SatSkolem
      ((Structure.ofNames ["b"]).joint (.ofNames ["b", "x"])) ↔
    (setTwice.tr.SatSkolem ((Structure.ofNames ["b"]).joint (.ofNames ["b", "x"])) ∧
        Unchanged setTwice assumeP .tru (Structure.ofNames ["b"]) (.ofNames ["b", "x"])) ∨
      (assumeP.tr.SatSkolem ((Structure.ofNames ["b"]).joint (.ofNames ["b", "x"])) ∧
        Unchanged assumeP setTwice .tru (Structure.ofNames ["b"]) (.ofNames ["b", "x"]))) := by
  have joined : (setTwice.join assumeP .tru).tr = ⟨[.or [.const (boolConst "__ts0_a"),
      .const (boolConst "__ts0_b")], .or [.not (.const (boolConst "__ts0_b")),
      .const (boolConst "p")]], [⟨.const (boolConst "new_x"), .ite (.const (boolConst "__ts0_b"))
        (.const (boolConst "x")) (.ite (.const (boolConst "__ts0_a")) (.const (boolConst "b"))
          (.const (boolConst "a")))⟩]⟩ := by decide
  rw [joint_ofNames]
  intro same
  have left : (setTwice.join assumeP .tru).tr.SatSkolem
      (.ofNames (["b"].filter (fun n => !isNew n) ++ ["b", "x"].map actionNewName)) := by
    refine ⟨.ofNames ["b", "new_b", "new_x", "__ts0_a"], agreeOff_ofNames (by decide), ?_⟩
    rw [joined]
    refine ⟨by simp [Expr.Valid, Expr.holds_ofNames], ?_⟩
    rw [List.forall_mem_singleton, Clauses.toConstraint_ite, constraintOf,
      if_neg (by decide)]
    simp [Expr.Valid, Expr.holds_ofNames, Expr.holds_ite]
  have ofNames : ∀ (N : Structure Domain.unit) (n : String) (env : Env Domain.unit),
      AgreeOff Const.Skolem (.ofNames ["b", "new_b", "new_x"]) N → isSkolem n = false →
      ((Expr.const (boolConst n)).Holds N env ↔ n ∈ ["b", "new_b", "new_x"]) := by
    intro N n env agree hn
    rw [← Expr.holds_ofNames ["b", "new_b", "new_x"] n env]
    exact ((agree (boolConst n) (by simp [Const.Skolem, boolConst, hn])).holds_const env).symm
  obtain ⟨⟨N, agree, sat⟩, -⟩ | ⟨⟨N, agree, sat⟩, -⟩ := same.mp left
  · have twice : setTwice.tr = ⟨[], [boolDef "new_x" "a", boolDef "new_x" "b"]⟩ := by decide
    rw [twice] at sat
    have := sat.2 (boolDef "new_x" "a") (by simp) (Classical.arbitrary _)
    rw [show (boolDef "new_x" "a").toConstraint =
      .iff (.const (boolConst "new_x")) (.const (boolConst "a")) by decide, Expr.holds_iff,
      ofNames N "new_x" _ agree (by decide), ofNames N "a" _ agree (by decide)] at this
    simp at this
  · have := sat.1 (.const (boolConst "p")) (by decide) (Classical.arbitrary _)
    rw [ofNames N "p" _ agree (by decide)] at this
    simp at this

end Update

end Goivy
