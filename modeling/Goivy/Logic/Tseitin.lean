import Goivy.Logic.Conservative
import Goivy.Logic.Simplify
import Goivy.TransRel.DestructorPath

/-! The Tseitin encoding. A conjunction is named by a new predicate over its variables, of which each name counts once. -/
namespace Goivy

section Expand

/-- `conditionConj`. -/
def conditionConj (c p : Expr) : List Expr :=
  let ps := match p with
    | .and ts => ts
    | p => [p]
  ps.map fun q => .or [c, q]

def expandIte (c a b : Expr) : Expr := .and (conditionConj c.negate a ++ conditionConj c b)

@[grind =] def expandIff (a : Expr) : Expr → Expr
  | .ite c t e => expandIte c (expandIff a t) (expandIff a e)
  | b => .and [.or [a.negate, b], .or [b.negate, a]]

/-- `ExpandAbbrevs`. -/
def expandAbbrevs : Expr → Expr
  | .implies a b => .or [a.negate, b]
  | .iff a b => expandIff a b
  | .ite c a b => expandIte c a b
  | e => e

mutual
/-- Nothing that the encoding of a formula is called for is as heavy as the formula. -/
@[grind =] def Expr.tseitinWeight : Expr → Nat
  | .not a => a.tseitinWeight + 1
  | .and ts => tseitinWeights ts + 1
  | .or ts => tseitinWeights ts + ts.length + 2
  | .implies a b => a.tseitinWeight + b.tseitinWeight + 5
  | .iff a b => (2 * a.tseitinWeight + 13) * b.tseitinWeight
  | .ite c a b => (c.tseitinWeight + 6) * (a.tseitinWeight + b.tseitinWeight) + 1
  | _ => 1
@[grind =] def tseitinWeights : List Expr → Nat
  | [] => 0
  | t :: ts => t.tseitinWeight + tseitinWeights ts
end

theorem tseitinWeight_pos (e : Expr) : 0 < e.tseitinWeight := by
  induction e with
  | iff a b ha hb => exact Nat.mul_pos (Nat.succ_pos _) hb
  | _ => simp [Expr.tseitinWeight]

theorem tseitinWeights_append (ts us : List Expr) : tseitinWeights (ts ++ us) = tseitinWeights ts + tseitinWeights us := by
  induction ts with
  | nil => simp [tseitinWeights]
  | cons t ts ih => simp [tseitinWeights, ih, Nat.add_assoc]

theorem tseitinWeights_not (ts : List Expr) : tseitinWeights (ts.map .not) = tseitinWeights ts + ts.length := by
  induction ts with
  | nil => rfl
  | cons t ts ih =>
    simp only [List.map_cons, tseitinWeights, Expr.tseitinWeight, ih, List.length_cons]
    omega

theorem tseitinWeight_mem {t : Expr} {ts : List Expr} (h : t ∈ ts) : t.tseitinWeight ≤ tseitinWeights ts := by
  induction ts with
  | nil => cases h
  | cons u ts ih =>
    rw [tseitinWeights]
    obtain rfl | h := List.mem_cons.mp h
    · exact Nat.le_add_right _ _
    · exact (ih h).trans (Nat.le_add_left _ _)

theorem tseitinWeight_negate (e : Expr) : e.negate.tseitinWeight ≤ e.tseitinWeight + 1 := by
  cases e with
  | not a => exact Nat.le_add_right_of_le (Nat.le_succ _)
  | _ => exact Nat.le_refl _

/-- Each conjunct of `p` stands under one more disjunction. -/
theorem tseitinWeight_conditionConj (c p : Expr) : tseitinWeights (conditionConj c p) ≤ (c.tseitinWeight + 5) * p.tseitinWeight := by
  have terms : ∀ ts : List Expr, tseitinWeights (ts.map fun q => .or [c, q]) = tseitinWeights ts + (c.tseitinWeight + 4) * ts.length := by
    intro ts
    induction ts with
    | nil => rfl
    | cons t ts ih =>
      simp only [List.map_cons, tseitinWeights, Expr.tseitinWeight, ih, List.length_cons, List.length_nil, Nat.mul_succ]
      omega
  have count : ∀ ts : List Expr, ts.length ≤ tseitinWeights ts := by
    intro ts
    induction ts with
    | nil => exact Nat.le_refl _
    | cons t ts ih =>
      have := tseitinWeight_pos t
      simp only [List.length_cons, tseitinWeights]
      omega
  have bound : ∀ ts : List Expr, tseitinWeights (ts.map fun q => .or [c, q]) ≤ (c.tseitinWeight + 5) * tseitinWeights ts := by
    intro ts
    rw [terms, Nat.succ_mul (c.tseitinWeight + 4), Nat.add_comm]
    exact Nat.add_le_add_right (Nat.mul_le_mul_left _ (count ts)) _
  unfold conditionConj
  split
  · exact (bound _).trans (Nat.mul_le_mul_left _ (Nat.le_succ _))
  · simpa [tseitinWeights] using bound [p]

theorem tseitinWeight_expandIte (c a b : Expr) : (expandIte c a b).tseitinWeight ≤ (c.tseitinWeight + 6) * (a.tseitinWeight + b.tseitinWeight) + 1 := by
  have negative := tseitinWeight_negate c
  have left : tseitinWeights (conditionConj c.negate a) ≤ (c.tseitinWeight + 6) * a.tseitinWeight :=
    (tseitinWeight_conditionConj c.negate a).trans (Nat.mul_le_mul_right _ (Nat.add_le_add_right negative 5))
  have right : tseitinWeights (conditionConj c b) ≤ (c.tseitinWeight + 6) * b.tseitinWeight :=
    (tseitinWeight_conditionConj c b).trans (Nat.mul_le_mul_right _ (Nat.le_succ _))
  rw [expandIte, Expr.tseitinWeight, tseitinWeights_append, Nat.mul_add]
  omega

theorem tseitinWeight_expandIff (a b : Expr) : (expandIff a b).tseitinWeight ≤ (2 * a.tseitinWeight + 13) * b.tseitinWeight := by
  fun_induction expandIff with
  | case1 c t e ht he =>
    refine (tseitinWeight_expandIte c _ _).trans ?_
    have pos := tseitinWeight_pos a
    rw [Expr.tseitinWeight, Nat.mul_add, Nat.mul_add]
    nlinarith [Nat.mul_le_mul_left (c.tseitinWeight + 6) ht, Nat.mul_le_mul_left (c.tseitinWeight + 6) he]
  | case2 b =>
    have := tseitinWeight_pos b
    have := tseitinWeight_negate a
    have := tseitinWeight_negate b
    simp only [Expr.tseitinWeight, tseitinWeights, List.length_cons, List.length_nil]
    nlinarith

theorem tseitinWeight_expandAbbrevs (f : Expr) : (expandAbbrevs f).tseitinWeight ≤ f.tseitinWeight := by
  cases f with
  | implies a b =>
    have := tseitinWeight_negate a
    simp only [expandAbbrevs, Expr.tseitinWeight, tseitinWeights, List.length_cons, List.length_nil]
    omega
  | iff a b => exact tseitinWeight_expandIff a b
  | ite c a b => exact tseitinWeight_expandIte c a b
  | _ => exact Nat.le_refl _

section Descent

variable {f a : Expr} {ts : List Expr}

theorem tseitinWeights_lt_of_and (h : expandAbbrevs f = .and ts) : tseitinWeights ts < f.tseitinWeight := by
  have lighter := tseitinWeight_expandAbbrevs f
  rw [h] at lighter
  exact lighter

theorem tseitinWeight_lt_of_or (h : expandAbbrevs f = .or ts) : (Expr.and (ts.map .not)).tseitinWeight < f.tseitinWeight := by
  have lighter := tseitinWeight_expandAbbrevs f
  rw [h] at lighter
  simp only [Expr.tseitinWeight, tseitinWeights_not] at lighter ⊢
  exact lighter

theorem tseitinWeight_lt_of_not (h : expandAbbrevs f = .not a) : a.tseitinWeight < f.tseitinWeight := by
  have lighter := tseitinWeight_expandAbbrevs f
  rw [h] at lighter
  exact lighter

/-- Induction along the expansion: a disjunction is the negation of a conjunction. -/
@[elab_as_elim]
theorem expand_induct {motive : Expr → Prop}
    (and : ∀ f ts, expandAbbrevs f = .and ts → (∀ t ∈ ts, motive t) → motive f)
    (or : ∀ f ts, expandAbbrevs f = .or ts → motive (.and (ts.map .not)) → motive f)
    (not : ∀ f a, expandAbbrevs f = .not a → motive a → motive f)
    (atom : ∀ f, (∀ ts, expandAbbrevs f ≠ .and ts) → (∀ ts, expandAbbrevs f ≠ .or ts) →
      (∀ a, expandAbbrevs f ≠ .not a) → motive f) (f : Expr) : motive f := by
  induction hn : f.tseitinWeight using Nat.strongRecOn generalizing f with
  | ind n ih =>
    subst hn
    by_cases hand : ∃ ts, expandAbbrevs f = .and ts
    · obtain ⟨ts, h⟩ := hand
      exact and f ts h fun t ht => ih _ ((tseitinWeight_mem ht).trans_lt (tseitinWeights_lt_of_and h)) t rfl
    by_cases hor : ∃ ts, expandAbbrevs f = .or ts
    · obtain ⟨ts, h⟩ := hor
      exact or f ts h (ih _ (tseitinWeight_lt_of_or h) _ rfl)
    by_cases hnot : ∃ a, expandAbbrevs f = .not a
    · obtain ⟨a, h⟩ := hnot
      exact not f a h (ih _ (tseitinWeight_lt_of_not h) a rfl)
    exact atom f (not_exists.mp hand) (not_exists.mp hor) (not_exists.mp hnot)

end Descent

/-- The formula with conjunctions and negations in the place of all the other connectives above its atoms. -/
@[grind =] def expandAll (f : Expr) : Expr :=
  match _h : expandAbbrevs f with
  | .and ts => .and (ts.attach.map fun t => expandAll t.1)
  | .or ts => .not (expandAll (.and (ts.map .not)))
  | .not a => .not (expandAll a)
  | e => e
termination_by f.tseitinWeight
decreasing_by
  · exact (tseitinWeight_mem t.2).trans_lt (tseitinWeights_lt_of_and _h)
  · exact tseitinWeight_lt_of_or _h
  · exact tseitinWeight_lt_of_not _h

section Equations

variable {f a : Expr} {ts : List Expr}

theorem expandAll_and (h : expandAbbrevs f = .and ts) : expandAll f = .and (ts.map expandAll) := by
  rw [expandAll]
  split <;> simp_all

theorem expandAll_or (h : expandAbbrevs f = .or ts) : expandAll f = .not (expandAll (.and (ts.map .not))) := by
  rw [expandAll]
  split <;> simp_all

theorem expandAll_not (h : expandAbbrevs f = .not a) : expandAll f = .not (expandAll a) := by
  rw [expandAll]
  split <;> simp_all

theorem expandAll_atom (hand : ∀ ts, expandAbbrevs f ≠ .and ts) (hor : ∀ ts, expandAbbrevs f ≠ .or ts)
    (hnot : ∀ a, expandAbbrevs f ≠ .not a) : expandAll f = expandAbbrevs f := by
  rw [expandAll]
  split <;> simp_all

end Equations

section Truth

variable {D : Domain} (M : Structure D) (env : Env D)

theorem holds_conditionConj (c p : Expr) :
    (∀ t ∈ conditionConj c p, t.Holds M env) ↔ (c.Holds M env ∨ p.Holds M env) := by
  unfold conditionConj
  split
  · simp only [List.forall_mem_map, Expr.holds_or, Expr.holds_and, List.mem_cons, List.not_mem_nil, or_false,
      exists_eq_or_imp, exists_eq_left, forall_or_left]
  · simp

theorem holds_expandIte (c a b : Expr) : (expandIte c a b).Holds M env ↔ (Expr.ite c a b).Holds M env := by
  rw [expandIte, Expr.holds_and, List.forall_mem_append, holds_conditionConj, holds_conditionConj, Expr.holds_negate,
    Expr.holds_ite]
  tauto

theorem holds_expandIff (a b : Expr) : (expandIff a b).Holds M env ↔ (Expr.iff a b).Holds M env := by
  fun_induction expandIff with
  | case1 c t e ht he =>
    rw [holds_expandIte, Expr.holds_ite, ht, he, Expr.holds_iff, Expr.holds_iff, Expr.holds_iff, Expr.holds_ite]
    tauto
  | case2 b =>
    simp only [Expr.holds_and, Expr.holds_or, List.mem_cons, List.not_mem_nil, or_false, forall_eq_or_imp, forall_eq,
      exists_eq_or_imp, exists_eq_left, Expr.holds_negate, Expr.holds_iff]
    tauto

/-- Expanding an abbreviation keeps the truth of the formula. -/
theorem holds_expandAbbrevs (f : Expr) : (expandAbbrevs f).Holds M env ↔ f.Holds M env := by
  cases f with
  | implies a b =>
    simp only [expandAbbrevs, Expr.holds_or, List.mem_cons, List.not_mem_nil, or_false, exists_eq_or_imp, exists_eq_left,
      Expr.holds_negate, Expr.holds_implies, imp_iff_not_or]
  | iff a b => exact holds_expandIff M env a b
  | ite c a b => exact holds_expandIte M env c a b
  | _ => exact Iff.rfl

theorem holds_expandAll (f : Expr) : (expandAll f).Holds M env ↔ f.Holds M env := by
  induction f using expand_induct with
  | and f ts h ih =>
    rw [expandAll_and h, ← holds_expandAbbrevs M env f, h, Expr.holds_and, Expr.holds_and, List.forall_mem_map]
    exact forall₂_congr ih
  | or f ts h ih =>
    rw [expandAll_or h, ← holds_expandAbbrevs M env f, h, Expr.holds_not, ih, Expr.holds_and, Expr.holds_or, List.forall_mem_map]
    simp
  | not f a h ih => rw [expandAll_not h, ← holds_expandAbbrevs M env f, h, Expr.holds_not, Expr.holds_not, ih]
  | atom f hand hor hnot => rw [expandAll_atom hand hor hnot, holds_expandAbbrevs]

end Truth

/-- `φ` gathers what is in the parts of a formula. -/
structure Gathers {α : Type} (φ : Expr → List α) : Prop where
  not : ∀ a, φ (.not a) = φ a
  and : ∀ ts, φ (.and ts) = ts.flatMap φ
  or : ∀ ts, φ (.or ts) = ts.flatMap φ
  implies : ∀ a b, φ (.implies a b) = φ a ++ φ b
  iff : ∀ a b, φ (.iff a b) = φ a ++ φ b
  ite : ∀ c a b, φ (.ite c a b) = φ c ++ φ a ++ φ b

namespace Gathers

variable {α : Type} {φ : Expr → List α} (h : Gathers φ)
include h

theorem negate (e : Expr) : φ e.negate = φ e := by
  cases e with
  | not a => exact (h.not a).symm
  | _ => exact h.not _

theorem conditionConj (c p : Expr) : (conditionConj c p).flatMap φ ⊆ φ c ++ φ p := by
  have part : ∀ q, φ q ⊆ φ p → φ (.or [c, q]) ⊆ φ c ++ φ p := by
    intro q sub x hx
    rw [h.or, List.flatMap_cons, List.flatMap_singleton] at hx
    rw [List.mem_append] at hx ⊢
    exact hx.imp_right fun hx => sub hx
  unfold Goivy.conditionConj
  intro x hx
  split at hx
  all_goals
    obtain ⟨t, ht, here⟩ := List.mem_flatMap.mp hx
    obtain ⟨q, hq, rfl⟩ := List.mem_map.mp ht
  · refine part q (fun y hy => ?_) here
    rw [h.and]
    exact List.mem_flatMap.mpr ⟨q, hq, hy⟩
  · obtain rfl := List.mem_singleton.mp hq
    exact part q (List.Subset.refl _) here

theorem expandIte (c a b : Expr) : φ (expandIte c a b) ⊆ φ c ++ φ a ++ φ b := by
  intro x hx
  rw [Goivy.expandIte, h.and, List.flatMap_append, List.mem_append] at hx
  rw [List.mem_append, List.mem_append]
  obtain hx | hx := hx
  · have parts := List.mem_append.mp (h.conditionConj _ _ hx)
    rw [h.negate] at parts
    exact .inl parts
  · exact (List.mem_append.mp (h.conditionConj _ _ hx)).imp_left .inl

theorem expandIff (a b : Expr) : φ (expandIff a b) ⊆ φ a ++ φ b := by
  fun_induction Goivy.expandIff with
  | case1 c t e ht he =>
    intro x hx
    have parts := h.expandIte _ _ _ hx
    rw [h.ite]
    simp only [List.mem_append] at parts ⊢
    obtain (hc | hx) | hx := parts
    · exact .inr (.inl (.inl hc))
    · exact (List.mem_append.mp (ht hx)).imp_right fun hx => .inl (.inr hx)
    · exact (List.mem_append.mp (he hx)).imp_right .inr
  | case2 b =>
    rw [h.and]
    simp only [List.flatMap_cons, List.flatMap_nil, List.append_nil, h.or, h.negate]
    grind

theorem expandAbbrevs (f : Expr) : φ (expandAbbrevs f) ⊆ φ f := by
  cases f with
  | implies a b =>
    rw [Goivy.expandAbbrevs, h.or, h.implies, List.flatMap_cons, List.flatMap_singleton, h.negate]
    exact List.Subset.refl _
  | iff a b =>
    rw [h.iff]
    exact h.expandIff a b
  | ite c a b =>
    rw [h.ite]
    exact h.expandIte c a b
  | _ => exact List.Subset.refl _

/-- The expansion of a formula adds nothing. -/
theorem expandAll (f : Expr) : φ (expandAll f) ⊆ φ f := by
  induction f using expand_induct with
  | and f ts hf ih =>
    refine List.Subset.trans ?_ (h.expandAbbrevs f)
    rw [expandAll_and hf, hf, h.and, h.and, List.flatMap_map]
    intro x hx
    obtain ⟨t, ht, hx⟩ := List.mem_flatMap.mp hx
    exact List.mem_flatMap.mpr ⟨t, ht, ih t ht hx⟩
  | or f ts hf ih =>
    refine List.Subset.trans ?_ (h.expandAbbrevs f)
    rw [expandAll_or hf, hf, h.not]
    refine List.Subset.trans ih ?_
    rw [h.and, h.or, List.flatMap_map]
    simp only [h.not]
    exact List.Subset.refl _
  | not f a hf ih =>
    refine List.Subset.trans ?_ (h.expandAbbrevs f)
    rw [expandAll_not hf, hf, h.not, h.not]
    exact ih
  | atom f hand hor hnot =>
    rw [expandAll_atom hand hor hnot]
    exact h.expandAbbrevs f

end Gathers

theorem gathers_symbols : Gathers Expr.symbols where
  not _ := rfl
  and ts := symbolsList_eq_flatMap ts
  or ts := symbolsList_eq_flatMap ts
  implies _ _ := rfl
  iff _ _ := rfl
  ite _ _ _ := rfl

theorem gathers_allVariables : Gathers Expr.allVariables where
  not _ := rfl
  and ts := Expr.allVariablesList_eq_flatMap ts
  or ts := Expr.allVariablesList_eq_flatMap ts
  implies _ _ := rfl
  iff _ _ := rfl
  ite _ _ _ := rfl

mutual
/-- The conjunctions above the atoms of an expanded formula, the inner ones first. -/
@[grind =] def Expr.conjunctions : Expr → List Expr
  | .and ts => conjunctionsList ts ++ [.and ts]
  | .not a => a.conjunctions
  | _ => []
@[grind =] def conjunctionsList : List Expr → List Expr
  | [] => []
  | t :: ts => t.conjunctions ++ conjunctionsList ts
end

theorem conjunctionsList_eq_flatMap (ts : List Expr) : conjunctionsList ts = ts.flatMap Expr.conjunctions := by
  induction ts with
  | nil => rfl
  | cons t ts ih => rw [conjunctionsList, ih, List.flatMap_cons]

theorem Gathers.conjunction {α : Type} {φ : Expr → List α} (h : Gathers φ) {e c : Expr} (hc : c ∈ e.conjunctions) : φ c ⊆ φ e := by
  induction e with
  | and ts ih =>
    rw [Expr.conjunctions, conjunctionsList_eq_flatMap, List.mem_append, List.mem_flatMap, List.mem_singleton] at hc
    obtain ⟨t, ht, here⟩ | rfl := hc
    · rw [h.and]
      exact fun x hx => List.mem_flatMap.mpr ⟨t, ht, ih t ht here hx⟩
    · exact List.Subset.refl _
  | not a ih =>
    rw [h.not]
    exact ih hc
  | _ => cases hc

end Expand

section Encoding

/-- The first variable of each name, after those seen. -/
@[grind =] def firstOfNames : List String → List Variable → List Variable
  | _, [] => []
  | seen, v :: vs => if v.name ∈ seen then firstOfNames seen vs else v :: firstOfNames (v.name :: seen) vs

namespace Tseitin

/-- `freeVariablesInOrder`. A variable whose name is bound does not count. -/
def freeVariablesInOrder (e : Expr) : List Variable := firstOfNames [] e.usedVariables

end Tseitin

structure TseitinContext where
  clauses : List (List Expr)
  used : List String
  counter : Nat

namespace TseitinContext

def freshName (hint : String) (n : Nat) : String := "__ts" ++ hint ++ ":" ++ toString n

/-- The loop of `fresh`, which comes to an unused name after as many steps as there are used ones. -/
@[grind =] def freshFrom (hint : String) (used : List String) : Nat → Nat → Nat
  | 0, n => n
  | fuel + 1, n => if freshName hint n ∈ used then freshFrom hint used fuel (n + 1) else n

def fresh (tc : TseitinContext) (hint : String) : String × TseitinContext :=
  let n := freshFrom hint tc.used tc.used.length tc.counter
  (freshName hint n, ⟨tc.clauses, freshName hint n :: tc.used, n + 1⟩)

/-- The variables of the encoded arguments, each name once. -/
def variablesOfArgs (args : List Expr) : List Variable := firstOfNames [] (args.flatMap Tseitin.freeVariablesInOrder)

/-- The sort of a predicate of these variables. -/
def predicateSort (vs : List Variable) : LSort :=
  if vs.isEmpty then .first .boolean else .function (vs.map Variable.sort) .boolean

/-- The predicate applied to the variables. -/
def predicate (name : String) (vs : List Variable) : Expr :=
  if vs.isEmpty then .const ⟨name, predicateSort vs⟩ else .apply ⟨name, predicateSort vs⟩ (vs.map .var)

/-- The sorts fit, so that `MustApply` does not panic. -/
theorem applyToNodes_predicate (name : String) (vs : List Variable) :
    Expr.applyToNodes ⟨name, predicateSort vs⟩ (vs.map .var) = some (predicate name vs) := by
  have fits : ((vs.map Variable.sort).zip (vs.map Expr.var)).all (fun p => argumentFits p.1 p.2) = true := by
    induction vs with
    | nil => rfl
    | cons v vs ih =>
      rw [List.map_cons, List.map_cons, List.zip_cons_cons, List.all_cons, ih]
      simp [argumentFits, Expr.nodeSort]
  cases vs with
  | nil => rfl
  | cons v vs =>
    have accepted : ((v :: vs).map Variable.sort).length = ((v :: vs).map Expr.var).length ∧
        (((v :: vs).map Variable.sort).zip ((v :: vs).map Expr.var)).all (fun p => argumentFits p.1 p.2) = true := ⟨by simp, fits⟩
    exact if_pos accepted

/-- A new predicate that is to say the conjunction of encoded arguments. -/
def encodeAnd (tc : TseitinContext) (args : List Expr) : Expr × TseitinContext :=
  let vs := variablesOfArgs args
  let (fname, tc) := tc.fresh (toString vs.length)
  let res := predicate fname vs
  (res, ⟨tc.clauses ++ args.map (fun arg => [.not res, arg]) ++ [res :: args.map .not], tc.used, tc.counter⟩)

mutual
/-- `TseitinEncoding`: the literal, and the context with the clauses added. -/
@[grind =] def tseitinEncoding (tc : TseitinContext) (f : Expr) : Expr × TseitinContext :=
  match _h : expandAbbrevs f with
  | .and ts => let (args, tc) := tseitinEncodings tc ts; tc.encodeAnd args
  | .or ts => let (res, tc) := tseitinEncoding tc (.and (ts.map .not)); (.not res, tc)
  | .not a => let (res, tc) := tseitinEncoding tc a; (.not res, tc)
  | e => (e, tc)
termination_by (f.tseitinWeight, 0)
decreasing_by
  · exact Prod.Lex.left _ _ (tseitinWeights_lt_of_and _h)
  · exact Prod.Lex.left _ _ (tseitinWeight_lt_of_or _h)
  · exact Prod.Lex.left _ _ (tseitinWeight_lt_of_not _h)
/-- The arguments in order. -/
@[grind =] def tseitinEncodings (tc : TseitinContext) (ts : List Expr) : List Expr × TseitinContext :=
  match ts with
  | [] => ([], tc)
  | t :: ts => let (arg, tc) := tseitinEncoding tc t; let (args, tc) := tseitinEncodings tc ts; (arg :: args, tc)
termination_by (tseitinWeights ts, 1)
decreasing_by
  · rw [tseitinWeights]
    exact (Nat.lt_or_eq_of_le (Nat.le_add_right t.tseitinWeight _)).elim (Prod.Lex.left _ _) fun same =>
      same ▸ Prod.Lex.right _ Nat.one_pos
  · exact Prod.Lex.left _ _ (Nat.lt_add_of_pos_left (tseitinWeight_pos t))
end

end TseitinContext

end Encoding

section Variables

variable {seen seen' : List String} {vs ws : List Variable} {v : Variable}

theorem firstOfNames_congr (same : ∀ n, n ∈ seen ↔ n ∈ seen') : firstOfNames seen vs = firstOfNames seen' vs := by
  induction vs generalizing seen seen' with
  | nil => rfl
  | cons v vs ih =>
    have later : ∀ n, n ∈ v.name :: seen ↔ n ∈ v.name :: seen' := fun n => by rw [List.mem_cons, List.mem_cons, same]
    rw [firstOfNames, firstOfNames, ih same, ih later]
    simp only [same]

theorem mem_of_mem_firstOfNames (h : v ∈ firstOfNames seen vs) : v ∈ vs := by
  induction vs generalizing seen with
  | nil => cases h
  | cons w vs ih =>
    rw [firstOfNames] at h
    split at h
    · exact List.mem_cons_of_mem _ (ih h)
    · obtain rfl | h := List.mem_cons.mp h
      · exact List.mem_cons_self
      · exact List.mem_cons_of_mem _ (ih h)

/-- The names that are seen after the variables are all of them. -/
theorem mem_names_firstOfNames (seen : List String) (vs : List Variable) (n : String) :
    n ∈ (firstOfNames seen vs).map Variable.name ++ seen ↔ n ∈ vs.map Variable.name ++ seen := by
  induction vs generalizing seen with
  | nil => rfl
  | cons w vs ih =>
    rw [firstOfNames]
    split
    · rename_i old
      rw [ih, List.map_cons, List.cons_append, List.mem_cons]
      refine ⟨.inr, fun h => h.elim (fun same => ?_) id⟩
      exact same ▸ List.mem_append_right _ old
    · have rest := ih (w.name :: seen)
      simp only [List.mem_append, List.mem_cons, List.map_cons] at rest ⊢
      grind

theorem not_mem_seen (h : v ∈ firstOfNames seen vs) : v.name ∉ seen := by
  induction vs generalizing seen with
  | nil => cases h
  | cons w vs ih =>
    rw [firstOfNames] at h
    split at h
    · exact ih h
    · rename_i new
      obtain rfl | h := List.mem_cons.mp h
      · exact new
      · exact fun old => ih h (List.mem_cons_of_mem _ old)

theorem nodup_firstOfNames : ((firstOfNames seen vs).map Variable.name).Nodup := by
  induction vs generalizing seen with
  | nil => exact List.nodup_nil
  | cons w vs ih =>
    rw [firstOfNames]
    split
    · exact ih
    · refine List.nodup_cons.mpr ⟨fun h => ?_, ih⟩
      obtain ⟨v, hv, same⟩ := List.mem_map.mp h
      exact not_mem_seen hv (same ▸ List.mem_cons_self)

theorem firstOfNames_append :
    firstOfNames seen (vs ++ ws) = firstOfNames seen vs ++ firstOfNames (vs.map Variable.name ++ seen) ws := by
  induction vs generalizing seen with
  | nil => rfl
  | cons v vs ih =>
    rw [List.cons_append, firstOfNames, firstOfNames]
    split
    · rename_i old
      rw [ih]
      refine congrArg (firstOfNames seen vs ++ ·) (firstOfNames_congr fun n => ?_)
      simp only [List.mem_append, List.map_cons, List.mem_cons]
      grind
    · rw [ih, List.cons_append]
      refine congrArg (v :: firstOfNames (v.name :: seen) vs ++ ·) (firstOfNames_congr fun n => ?_)
      simp only [List.mem_append, List.map_cons, List.mem_cons]
      grind

/-- The first variables of the first variables are the first variables. -/
theorem firstOfNames_twice (sub : seen' ⊆ seen) : firstOfNames seen (firstOfNames seen' vs) = firstOfNames seen vs := by
  induction vs generalizing seen seen' with
  | nil => rfl
  | cons v vs ih =>
    rw [firstOfNames, firstOfNames.eq_def seen (v :: vs)]
    by_cases old : v.name ∈ seen'
    · rw [if_pos old, ih sub]
      simp only [if_pos (sub old)]
    · rw [if_neg old, firstOfNames]
      by_cases known : v.name ∈ seen
      · rw [if_pos known, ih (List.cons_subset.mpr ⟨known, sub⟩)]
        simp only [if_pos known]
      · rw [if_neg known, ih (List.cons_subset_cons _ sub)]
        simp only [if_neg known]

theorem firstOfNames_flatMap (ts : List Expr) (g : Expr → List Variable) :
    firstOfNames seen (ts.flatMap fun t => firstOfNames [] (g t)) = firstOfNames seen (ts.flatMap g) := by
  induction ts generalizing seen with
  | nil => rfl
  | cons t ts ih =>
    rw [List.flatMap_cons, List.flatMap_cons, firstOfNames_append, firstOfNames_append, firstOfNames_twice (List.nil_subset _), ← ih]
    refine congrArg (firstOfNames seen (g t) ++ ·) (firstOfNames_congr fun n => ?_)
    have names := mem_names_firstOfNames [] (g t) n
    simp only [List.append_nil] at names
    rw [List.mem_append, List.mem_append, names]

/-- A variable that is free is used, unless a binder has another variable of its name. -/
theorem Expr.mem_usedVariables (e : Expr) (free : v ∈ e.freeVariables) (own : ∀ w ∈ e.allVariables, w.name = v.name → w = v) :
    v ∈ e.usedVariables := by
  induction e with
  | var w => exact free
  | const c => exact free
  | apply f ts ih | and ts ih | or ts ih =>
    rw [freeVariables, freeVariablesList_eq_flatMap, List.mem_flatMap] at free
    obtain ⟨t, ht, free⟩ := free
    rw [usedVariables, usedVariablesList_eq_flatMap]
    refine List.mem_flatMap.mpr ⟨t, ht, ih t ht free fun w hw => own w ?_⟩
    rw [allVariables, allVariablesList_eq_flatMap]
    exact List.mem_flatMap.mpr ⟨t, ht, hw⟩
  | not a ih => exact ih free own
  | forAll vs a ih | «exists» vs a ih =>
    rw [freeVariables, List.mem_filter, decide_eq_true_eq] at free
    rw [usedVariables, List.mem_filter, decide_eq_true_eq]
    refine ⟨ih free.1 fun w hw => own w (List.mem_append_right _ hw), fun bound => free.2 ?_⟩
    obtain ⟨w, hw, same⟩ := List.mem_map.mp bound
    exact own w (List.mem_append_left _ hw) same ▸ hw
  | _ =>
    simp only [freeVariables, usedVariables, allVariables, List.mem_append] at free own ⊢
    grind

namespace Tseitin

open TseitinContext

/-- A free variable counts if its name is not at another sort. -/
theorem mem_freeVariablesInOrder {e : Expr} (free : v ∈ e.freeVariables) (own : ∀ w ∈ e.allVariables, w.name = v.name → w = v) :
    v ∈ freeVariablesInOrder e := by
  have used := e.mem_usedVariables free own
  have named := (mem_names_firstOfNames [] e.usedVariables v.name).mpr (List.mem_append_left _ (List.mem_map_of_mem used))
  rw [List.append_nil] at named
  obtain ⟨w, hw, same⟩ := List.mem_map.mp named
  exact own w (e.freeVariables_subset_allVariables (e.usedVariables_subset w (mem_of_mem_firstOfNames hw))) same ▸ hw

theorem freeVariablesInOrder_and (ts : List Expr) : freeVariablesInOrder (.and ts) = variablesOfArgs ts := by
  rw [freeVariablesInOrder, variablesOfArgs, Expr.usedVariables, Expr.usedVariablesList_eq_flatMap]
  exact (firstOfNames_flatMap ts _).symm

theorem freeVariablesInOrder_predicate {name : String} {ts : List Expr} :
    freeVariablesInOrder (predicate name (variablesOfArgs ts)) = variablesOfArgs ts := by
  have params : ∀ vs : List Variable, (predicate name vs).usedVariables = vs := by
    intro vs
    cases vs with
    | nil => rfl
    | cons v vs => simp [predicate, Expr.usedVariables, Expr.usedVariablesList_eq_flatMap, List.flatMap_map]
  rw [freeVariablesInOrder, params]
  rw [variablesOfArgs, firstOfNames_twice (List.Subset.refl [])]

end Tseitin

end Variables

namespace TseitinContext

section Fresh

variable {hint : String} {used : List String}

theorem freshName_injective (hint : String) (n : Nat) : Function.Injective fun i => freshName hint (n + i) := by
  intro i j same
  have number := (String.append_right_inj ("__ts" ++ hint ++ ":")).mp same
  exact Nat.add_left_cancel (Nat.repr_injective number)

theorem mem_of_freshFrom_mem {fuel n : Nat} (h : freshName hint (freshFrom hint used fuel n) ∈ used) :
    ∀ i ≤ fuel, freshName hint (n + i) ∈ used := by
  induction fuel generalizing n with
  | zero =>
    intro i hi
    rw [Nat.le_zero.mp hi]
    exact h
  | succ fuel ih =>
    rw [freshFrom] at h
    split at h
    · rename_i here
      intro i hi
      cases i with
      | zero => exact here
      | succ i =>
        have later := ih h i (Nat.le_of_succ_le_succ hi)
        rwa [Nat.add_assoc, Nat.add_comm 1] at later
    · contradiction

theorem fresh_not_mem (tc : TseitinContext) (hint : String) : (tc.fresh hint).1 ∉ tc.used := by
  intro h
  obtain ⟨i, hi, new⟩ := exists_unused (freshName_injective hint tc.counter) tc.used
  exact new (mem_of_freshFrom_mem h i hi)

end Fresh

/-- A new predicate: the conjunction that it stands for, and the encoded terms of this conjunction. -/
structure Gate where
  name : String
  terms : List Expr
  args : List Expr

namespace Gate

variable (g : Gate)

/-- The conjunction. -/
def formula : Expr := .and g.terms

def params : List Variable := Tseitin.freeVariablesInOrder g.formula

def symbol : Const := ⟨g.name, predicateSort g.params⟩

def literal : Expr := predicate g.name g.params

def clauses : List (List Expr) := g.args.map (fun arg => [.not g.literal, arg]) ++ [g.literal :: g.args.map .not]

theorem domain_symbol : g.symbol.sort.domain = g.params.map Variable.sort := by
  simp only [symbol, predicateSort]
  split
  · rename_i empty
    rw [List.isEmpty_iff.mp empty]
    rfl
  · rfl

theorem range_symbol : g.symbol.sort.range = .boolean := by
  simp only [symbol, predicateSort]
  split <;> rfl

theorem symbols_literal : g.literal.symbols = [g.symbol] := by
  simp only [literal, predicate]
  split
  · rfl
  · simp [Expr.symbols, symbolsList_eq_flatMap, List.flatMap_map, symbol]

variable {D : Domain} (M : Structure D)

theorem holds_literal (env : Env D) : g.literal.Holds M env ↔ (M.value g.symbol (env.values g.params)).Holds := by
  simp only [literal, predicate, Expr.Holds]
  split
  · rename_i empty
    rw [symbol, List.isEmpty_iff.mp empty]
    rfl
  · rw [Expr.eval, evalList_eq_map, List.map_map]
    rfl

/-- The clauses say that the literal is equivalent to the conjunction of the arguments. -/
theorem valid_clauses : (∀ clause ∈ g.clauses, (Expr.or clause).Valid M) ↔
    ∀ env, g.literal.Holds M env ↔ ∀ arg ∈ g.args, arg.Holds M env := by
  rw [clauses, List.forall_mem_append, List.forall_mem_map]
  simp only [Expr.Valid, Expr.holds_or, List.mem_cons, List.not_mem_nil, or_false, exists_eq_or_imp, exists_eq_left, forall_eq,
    Expr.holds_not, List.mem_map, exists_exists_and_eq_and]
  constructor
  · rintro ⟨down, up⟩ env
    refine ⟨fun holds arg harg => (down arg harg env).resolve_left (not_not.mpr holds), fun all => ?_⟩
    obtain holds | ⟨arg, harg, fails⟩ := up env
    · exact holds
    · exact absurd (all arg harg) fails
  · intro iff
    refine ⟨fun arg harg env => ?_, fun env => ?_⟩
    · exact (Classical.em _).symm.imp_right fun holds => (iff env).mp holds arg harg
    · by_cases holds : g.literal.Holds M env
      · exact .inl holds
      · exact .inr (by simpa using mt (iff env).mpr holds)

end Gate

/-- What the encoding of some expanded formulas has made of the context: literals `ls` for the formulas `es`, and the clauses
of one gate for each conjunction. -/
structure Encoded (es ls : List Expr) (gs : List Gate) (tc tc' : TseitinContext) : Prop where
  clauses : tc'.clauses = tc.clauses ++ gs.flatMap Gate.clauses
  kept : tc.used ⊆ tc'.used
  fresh : ∀ g ∈ gs, g.name ∉ tc.used ∧ g.name ∈ tc'.used
  names : (gs.map Gate.name).Nodup
  conjunctions : gs.map Gate.formula = es.flatMap Expr.conjunctions
  params : ls.map Tseitin.freeVariablesInOrder = es.map Tseitin.freeVariablesInOrder
  symbols : ∀ l ∈ ls ++ gs.flatMap Gate.args, ∀ c ∈ l.symbols, c ∈ gs.map Gate.symbol ∨ c ∈ symbolsList es
  literals : ∀ {D : Domain} {M : Structure D}, M.Defines Gate.symbol Gate.params (fun g env => g.formula.Holds M env) gs →
    ∀ env, List.Forall₂ (fun l e => l.Holds M env ↔ e.Holds M env) ls es
  defines : ∀ {D : Domain} {M : Structure D}, (∀ g ∈ gs, ∀ clause ∈ g.clauses, (Expr.or clause).Valid M) ↔
    M.Defines Gate.symbol Gate.params (fun g env => g.formula.Holds M env) gs

namespace Encoded

variable {e l : Expr} {es es' ls ls' : List Expr} {gs gs' : List Gate} {tc tc' tc₁ : TseitinContext}

theorem nil (tc : TseitinContext) : Encoded [] [] [] tc tc := by
  constructor
  case literals => exact fun _ _ => .nil
  case defines => exact fun {D M} => ⟨fun _ g hg => absurd hg List.not_mem_nil, fun _ g hg => absurd hg List.not_mem_nil⟩
  all_goals simp

theorem append (h : Encoded es ls gs tc tc₁) (h' : Encoded es' ls' gs' tc₁ tc') :
    Encoded (es ++ es') (ls ++ ls') (gs ++ gs') tc tc' := by
  constructor
  case clauses => rw [h'.clauses, h.clauses, List.flatMap_append, List.append_assoc]
  case kept => exact List.Subset.trans h.kept h'.kept
  case fresh =>
    intro g hg
    obtain hg | hg := List.mem_append.mp hg
    · exact ⟨(h.fresh g hg).1, h'.kept (h.fresh g hg).2⟩
    · exact ⟨fun old => (h'.fresh g hg).1 (h.kept old), (h'.fresh g hg).2⟩
  case names =>
    rw [List.map_append]
    refine List.nodup_append.mpr ⟨h.names, h'.names, List.forall_mem_map.mpr fun g hg => List.forall_mem_map.mpr fun g' hg' same => ?_⟩
    exact (h'.fresh g' hg').1 (same ▸ (h.fresh g hg).2)
  case conjunctions => rw [List.map_append, List.flatMap_append, h.conjunctions, h'.conjunctions]
  case params => rw [List.map_append, List.map_append, h.params, h'.params]
  case symbols =>
    intro l hl c hc
    have parts := h.symbols l
    have parts' := h'.symbols l
    simp only [symbolsList_eq_flatMap, List.flatMap_append, List.map_append, List.mem_append] at hl parts parts' ⊢
    grind
  case literals =>
    intro D M defines env
    rw [Structure.Defines, List.forall_mem_append] at defines
    exact List.rel_append (h.literals defines.1 env) (h'.literals defines.2 env)
  case defines =>
    intro D M
    rw [List.forall_mem_append, Structure.Defines, List.forall_mem_append]
    exact and_congr h.defines h'.defines

theorem atom (tc : TseitinContext) (h : e.conjunctions = []) : Encoded [e] [e] [] tc tc := by
  constructor
  case symbols =>
    simp only [List.flatMap_nil, List.append_nil, List.forall_mem_singleton]
    exact fun c hc => .inr (by simpa [symbolsList] using hc)
  case literals => exact fun _ _ => .cons Iff.rfl .nil
  case defines => exact fun {D M} => ⟨fun _ g hg => absurd hg List.not_mem_nil, fun _ g hg => absurd hg List.not_mem_nil⟩
  all_goals simp [h]

theorem not (h : Encoded [e] [l] gs tc tc') : Encoded [.not e] [.not l] gs tc tc' := by
  constructor
  case clauses => exact h.clauses
  case kept => exact h.kept
  case fresh => exact h.fresh
  case names => exact h.names
  case conjunctions => exact h.conjunctions
  case params => exact h.params
  case symbols =>
    intro l' hl'
    obtain here | later := List.mem_append.mp hl'
    · obtain rfl := List.mem_singleton.mp here
      exact h.symbols l List.mem_cons_self
    · exact h.symbols l' (List.mem_append_right _ later)
  case literals =>
    intro D M defines env
    obtain same : l.Holds M env ↔ e.Holds M env := by simpa using h.literals defines env
    exact .cons (by rw [Expr.holds_not, Expr.holds_not, same]) .nil
  case defines => exact h.defines

/-- The conjunction of formulas that are encoded. -/
theorem and (h : Encoded es ls gs tc tc₁) : ∃ g, Encoded [.and es] [(tc₁.encodeAnd ls).1] (gs ++ [g]) tc (tc₁.encodeAnd ls).2 := by
  have params : variablesOfArgs ls = variablesOfArgs es := by
    rw [variablesOfArgs, variablesOfArgs, List.flatMap_def, List.flatMap_def, h.params]
  generalize hname : (tc₁.fresh (toString (variablesOfArgs ls).length)).1 = name
  have new : name ∉ tc₁.used := hname ▸ fresh_not_mem _ _
  have res : (tc₁.encodeAnd ls).1 = (⟨name, es, ls⟩ : Gate).literal := by
    rw [Gate.literal, Gate.params, Gate.formula, Tseitin.freeVariablesInOrder_and, ← params, ← hname]
    rfl
  have used : (tc₁.encodeAnd ls).2.used = name :: tc₁.used := by
    rw [← hname]
    rfl
  have added : (tc₁.encodeAnd ls).2.clauses = tc₁.clauses ++ (⟨name, es, ls⟩ : Gate).clauses := by
    rw [Gate.clauses, ← res, ← List.append_assoc]
    rfl
  have terms : ∀ {D : Domain} {M : Structure D}, M.Defines Gate.symbol Gate.params (fun g env => g.formula.Holds M env) gs →
      ∀ env, (∀ l ∈ ls, l.Holds M env) ↔ (Expr.and es).Holds M env := by
    intro D M defines env
    rw [Expr.holds_and]
    have pairs := h.literals defines env
    clear h params hname new res used added defines
    induction pairs with
    | nil => simp
    | cons same _ ih =>
      rw [List.forall_mem_cons, List.forall_mem_cons]
      exact and_congr same ih
  refine ⟨⟨name, es, ls⟩, ?_⟩
  rw [res]
  constructor
  case clauses => rw [added, h.clauses, List.flatMap_append, List.flatMap_singleton, List.append_assoc]
  case kept =>
    rw [used]
    exact List.Subset.trans h.kept (List.subset_cons_self _ _)
  case fresh =>
    rw [used]
    intro g hg
    obtain hg | hg := List.mem_append.mp hg
    · exact ⟨(h.fresh g hg).1, List.mem_cons_of_mem _ (h.fresh g hg).2⟩
    · obtain rfl := List.mem_singleton.mp hg
      exact ⟨fun old => new (h.kept old), List.mem_cons_self⟩
  case names =>
    rw [List.map_append]
    refine List.nodup_append.mpr ⟨h.names, List.nodup_singleton _, List.forall_mem_map.mpr fun g hg n hn same => ?_⟩
    obtain rfl := List.mem_singleton.mp hn
    exact new (same ▸ (h.fresh g hg).2)
  case conjunctions =>
    rw [List.map_append, h.conjunctions, List.flatMap_singleton, Expr.conjunctions, conjunctionsList_eq_flatMap]
    rfl
  case params =>
    rw [List.map_singleton, List.map_singleton, ← res, Tseitin.freeVariablesInOrder_and, ← params]
    exact congrArg (fun vs => [vs]) Tseitin.freeVariablesInOrder_predicate
  case symbols =>
    intro l hl c hc
    have parts := h.symbols l
    simp only [List.flatMap_append, List.flatMap_singleton, List.map_append, List.mem_append, List.mem_singleton, List.map_singleton] at hl parts ⊢
    rw [symbolsList, symbolsList, List.append_nil, Expr.symbols]
    obtain rfl | old | here := hl
    · rw [Gate.symbols_literal, List.mem_singleton] at hc
      exact .inl (.inr hc)
    · exact (parts (.inr old) c hc).imp_left .inl
    · exact (parts (.inl here) c hc).imp_left .inl
  case literals =>
    intro D M defines env
    rw [Structure.Defines, List.forall_mem_append, List.forall_mem_singleton] at defines
    exact .cons ((Gate.holds_literal _ M env).trans (defines.2 env)) .nil
  case defines =>
    intro D M
    rw [List.forall_mem_append, List.forall_mem_singleton, Structure.Defines, List.forall_mem_append, List.forall_mem_singleton, h.defines,
      Gate.valid_clauses]
    refine and_congr_right fun before => forall_congr' fun env => ?_
    rw [Gate.holds_literal, terms before env]
    rfl

end Encoded

section Spec

theorem tseitinEncoding_and {tc : TseitinContext} {f : Expr} {ts : List Expr} (h : expandAbbrevs f = .and ts) :
    tc.tseitinEncoding f = (tc.tseitinEncodings ts).2.encodeAnd (tc.tseitinEncodings ts).1 := by
  rw [tseitinEncoding]
  split <;> simp_all

theorem tseitinEncoding_or {tc : TseitinContext} {f : Expr} {ts : List Expr} (h : expandAbbrevs f = .or ts) :
    tc.tseitinEncoding f = (.not (tc.tseitinEncoding (.and (ts.map .not))).1, (tc.tseitinEncoding (.and (ts.map .not))).2) := by
  rw [tseitinEncoding]
  split <;> simp_all

theorem tseitinEncoding_not {tc : TseitinContext} {f a : Expr} (h : expandAbbrevs f = .not a) :
    tc.tseitinEncoding f = (.not (tc.tseitinEncoding a).1, (tc.tseitinEncoding a).2) := by
  rw [tseitinEncoding]
  split <;> simp_all

theorem tseitinEncoding_atom {tc : TseitinContext} {f : Expr} (hand : ∀ ts, expandAbbrevs f ≠ .and ts)
    (hor : ∀ ts, expandAbbrevs f ≠ .or ts) (hnot : ∀ a, expandAbbrevs f ≠ .not a) : tc.tseitinEncoding f = (expandAbbrevs f, tc) := by
  rw [tseitinEncoding]
  split <;> simp_all

theorem tseitinEncodings_encoded {ts : List Expr} (ih : ∀ t ∈ ts, ∀ tc : TseitinContext,
      ∃ gs, Encoded [expandAll t] [(tc.tseitinEncoding t).1] gs tc (tc.tseitinEncoding t).2) (tc : TseitinContext) :
    ∃ gs, Encoded (ts.map expandAll) (tc.tseitinEncodings ts).1 gs tc (tc.tseitinEncodings ts).2 := by
  induction ts generalizing tc with
  | nil =>
    rw [tseitinEncodings]
    exact ⟨[], .nil tc⟩
  | cons t ts tail =>
    rw [List.forall_mem_cons] at ih
    obtain ⟨gs, head⟩ := ih.1 tc
    obtain ⟨gs', rest⟩ := tail ih.2 (tc.tseitinEncoding t).2
    rw [tseitinEncodings]
    exact ⟨gs ++ gs', head.append rest⟩

theorem tseitinEncoding_encoded (f : Expr) (tc : TseitinContext) :
    ∃ gs, Encoded [expandAll f] [(tc.tseitinEncoding f).1] gs tc (tc.tseitinEncoding f).2 := by
  induction f using expand_induct generalizing tc with
  | and f ts h ih =>
    obtain ⟨gs, args⟩ := tseitinEncodings_encoded ih tc
    obtain ⟨g, encoded⟩ := args.and
    rw [expandAll_and h, tseitinEncoding_and h]
    exact ⟨gs ++ [g], encoded⟩
  | or f ts h ih =>
    obtain ⟨gs, encoded⟩ := ih tc
    rw [expandAll_or h, tseitinEncoding_or h]
    exact ⟨gs, encoded.not⟩
  | not f a h ih =>
    obtain ⟨gs, encoded⟩ := ih tc
    rw [expandAll_not h, tseitinEncoding_not h]
    exact ⟨gs, encoded.not⟩
  | atom f hand hor hnot =>
    rw [expandAll_atom hand hor hnot, tseitinEncoding_atom hand hor hnot]
    refine ⟨[], .atom tc ?_⟩
    cases he : expandAbbrevs f with
    | and ts => exact absurd he (hand ts)
    | not a => exact absurd he (hnot a)
    | _ => rfl

end Spec

section Definitional

variable {D : Domain}

def addedClauses (tc : TseitinContext) (f : Expr) : List (List Expr) := (tc.tseitinEncoding f).2.clauses.drop tc.clauses.length

/-- A symbol of the added clauses whose name is not used before. -/
def Introduced (tc : TseitinContext) (f : Expr) (c : Const) : Prop :=
  c.name ∉ tc.used ∧ ∃ clause ∈ tc.addedClauses f, c ∈ symbolsList clause

/-- `N` is an expansion of `M` by the introduced symbols that satisfies the universal closure of the added clauses. -/
def Expands (tc : TseitinContext) (f : Expr) (M N : Structure D) : Prop :=
  AgreeOff (tc.Introduced f) M N ∧ ∀ clause ∈ tc.addedClauses f, (Expr.or clause).Valid N

/-- There is exactly one expansion of `M`, and there the literal is equivalent to the formula. -/
def Definitional (tc : TseitinContext) (f : Expr) (M : Structure D) : Prop :=
  (∃! N : Structure D, tc.Expands f M N) ∧
    ∀ N : Structure D, tc.Expands f M N → ∀ env, (tc.tseitinEncoding f).1.Holds N env ↔ f.Holds N env

end Definitional

end TseitinContext

/-- The truth of a formula is the same where the variables have the same values. -/
def Expr.DependsOn {D : Domain} (M : Structure D) (e : Expr) (vs : List Variable) : Prop :=
  ∀ env env' : Env D, (∀ v ∈ vs, env v = env' v) → (e.Holds M env ↔ e.Holds M env')

theorem Expr.dependsOn_of_subset {D : Domain} {M : Structure D} {e : Expr} {vs : List Variable} (h : e.freeVariables ⊆ vs) :
    e.DependsOn M vs := fun _ _ agree => by
  rw [Holds, Holds, eval_freeVariables M fun v hv => agree v (h hv)]

namespace TseitinContext

namespace Encoded

variable {D : Domain} {M N : Structure D} {f : Expr} {gs : List Gate} {tc : TseitinContext}

theorem addedClauses_eq (h : Encoded [expandAll f] [(tc.tseitinEncoding f).1] gs tc (tc.tseitinEncoding f).2) :
    tc.addedClauses f = gs.flatMap Gate.clauses := by
  rw [addedClauses, h.clauses, List.drop_left]

theorem introduced_iff (h : Encoded [expandAll f] [(tc.tseitinEncoding f).1] gs tc (tc.tseitinEncoding f).2)
    (used : ∀ c ∈ f.symbols, c.name ∈ tc.used) (c : Const) : tc.Introduced f c ↔ c ∈ gs.map Gate.symbol := by
  rw [Introduced, h.addedClauses_eq]
  constructor
  · rintro ⟨new, clause, hclause, hc⟩
    obtain ⟨g, hg, hclause⟩ := List.mem_flatMap.mp hclause
    have literal : c ∈ g.literal.symbols → c ∈ gs.map Gate.symbol := by
      rw [Gate.symbols_literal, List.mem_singleton]
      rintro rfl
      exact List.mem_map_of_mem hg
    have arg : ∀ arg ∈ g.args, c ∈ arg.symbols → c ∈ gs.map Gate.symbol := by
      intro arg harg hc
      obtain gate | old := h.symbols arg (List.mem_append_right _ (List.mem_flatMap.mpr ⟨g, hg, harg⟩)) c hc
      · exact gate
      · rw [symbolsList, symbolsList, List.append_nil] at old
        exact absurd (used c (gathers_symbols.expandAll f old)) new
    rw [symbolsList_eq_flatMap, List.mem_flatMap] at hc
    obtain ⟨l, hl, hc⟩ := hc
    rw [Gate.clauses, List.mem_append, List.mem_singleton] at hclause
    obtain down | rfl := hclause
    · obtain ⟨a, ha, rfl⟩ := List.mem_map.mp down
      obtain rfl | hl := List.mem_cons.mp hl
      · exact literal hc
      · obtain rfl := List.mem_singleton.mp hl
        exact arg l ha hc
    · obtain rfl | hl := List.mem_cons.mp hl
      · exact literal hc
      · obtain ⟨a, ha, rfl⟩ := List.mem_map.mp hl
        exact arg a ha hc
  · intro hc
    obtain ⟨g, hg, rfl⟩ := List.mem_map.mp hc
    refine ⟨(h.fresh g hg).1, _, List.mem_flatMap.mpr ⟨g, hg, List.mem_append_right _ List.mem_cons_self⟩, ?_⟩
    rw [symbolsList, Gate.symbols_literal]
    exact List.mem_append_left _ List.mem_cons_self

/-- The conjunctions have no introduced symbols. -/
theorem holds_formula (h : Encoded [expandAll f] [(tc.tseitinEncoding f).1] gs tc (tc.tseitinEncoding f).2)
    (used : ∀ c ∈ f.symbols, c.name ∈ tc.used) (agree : AgreeOff (· ∈ gs.map Gate.symbol) M N) {g : Gate} (hg : g ∈ gs) (env : Env D) :
    g.formula.Holds N env ↔ g.formula.Holds M env := by
  have same : g.formula.eval M = g.formula.eval N := Expr.eval_congr fun c hc => agree c fun introduced => by
    obtain ⟨g', hg', rfl⟩ := List.mem_map.mp introduced
    have conjunction : g.formula ∈ (expandAll f).conjunctions := by
      have mem := List.mem_map_of_mem (f := Gate.formula) hg
      rwa [h.conjunctions, List.flatMap_singleton] at mem
    exact (h.fresh g' hg').1 (used _ (gathers_symbols.expandAll f (gathers_symbols.conjunction conjunction hc)))
  rw [Expr.Holds, Expr.Holds, same]

theorem expands_iff (h : Encoded [expandAll f] [(tc.tseitinEncoding f).1] gs tc (tc.tseitinEncoding f).2)
    (used : ∀ c ∈ f.symbols, c.name ∈ tc.used) : tc.Expands f M N ↔
      AgreeOff (· ∈ gs.map Gate.symbol) M N ∧ N.Defines Gate.symbol Gate.params (fun g env => g.formula.Holds M env) gs := by
  rw [Expands, h.addedClauses_eq, show tc.Introduced f = (· ∈ gs.map Gate.symbol) from funext fun c => propext (h.introduced_iff used c)]
  refine and_congr_right fun agree => ?_
  rw [List.forall_mem_flatMap, h.defines]
  exact forall₂_congr fun g hg => forall_congr' fun env => iff_congr Iff.rfl (h.holds_formula used agree hg env)

theorem existsUnique_iff (h : Encoded [expandAll f] [(tc.tseitinEncoding f).1] gs tc (tc.tseitinEncoding f).2)
    (used : ∀ c ∈ f.symbols, c.name ∈ tc.used) : (∃! N : Structure D, tc.Expands f M N) ↔
      ∀ e ∈ (expandAll f).conjunctions, e.DependsOn M (Tseitin.freeVariablesInOrder e) := by
  have conjunctions : (expandAll f).conjunctions = gs.map Gate.formula := by
    rw [h.conjunctions, List.flatMap_singleton]
  rw [conjunctions, List.forall_mem_map]
  simp only [h.expands_iff used]
  exact M.existsUnique_defines h.names (fun g _ => List.Nodup.of_map _ nodup_firstOfNames) (fun g _ => g.domain_symbol)
    fun g _ => g.range_symbol

theorem literal_iff (h : Encoded [expandAll f] [(tc.tseitinEncoding f).1] gs tc (tc.tseitinEncoding f).2)
    (used : ∀ c ∈ f.symbols, c.name ∈ tc.used) (expands : tc.Expands f M N) (env : Env D) :
    (tc.tseitinEncoding f).1.Holds N env ↔ f.Holds N env := by
  obtain ⟨agree, defines⟩ := (h.expands_iff used).mp expands
  have defines' : N.Defines Gate.symbol Gate.params (fun g env => g.formula.Holds N env) gs := fun g hg env =>
    (defines g hg env).trans (h.holds_formula used agree hg env).symm
  obtain same : (tc.tseitinEncoding f).1.Holds N env ↔ (expandAll f).Holds N env := by simpa using h.literals defines' env
  exact same.trans (holds_expandAll N env f)

end Encoded

section Main

variable {D : Domain} {M : Structure D} {f : Expr} {tc : TseitinContext}

theorem Definitional.dependsOn (h : tc.Definitional f M) (used : ∀ c ∈ f.symbols, c.name ∈ tc.used) {e : Expr}
    (he : e ∈ (expandAll f).conjunctions) : e.DependsOn M (Tseitin.freeVariablesInOrder e) := by
  obtain ⟨gs, encoded⟩ := tseitinEncoding_encoded f tc
  exact (encoded.existsUnique_iff used).mp h.1 e he

theorem definitional_of_dependsOn (used : ∀ c ∈ f.symbols, c.name ∈ tc.used)
    (depends : ∀ e ∈ (expandAll f).conjunctions, e.DependsOn M (Tseitin.freeVariablesInOrder e)) : tc.Definitional f M := by
  obtain ⟨gs, encoded⟩ := tseitinEncoding_encoded f tc
  exact ⟨(encoded.existsUnique_iff used).mpr depends, fun N expands env => encoded.literal_iff used expands env⟩

/-- Where no name is at two sorts, the encoding is definitional. -/
theorem definitional_of_names (used : ∀ c ∈ f.symbols, c.name ∈ tc.used)
    (names : ∀ v ∈ f.allVariables, ∀ w ∈ f.allVariables, w.name = v.name → w = v) : tc.Definitional f M := by
  refine definitional_of_dependsOn used fun e he => Expr.dependsOn_of_subset fun v hv => ?_
  have inside : e.allVariables ⊆ f.allVariables :=
    List.Subset.trans (gathers_allVariables.conjunction he) (gathers_allVariables.expandAll f)
  have here := inside (e.freeVariables_subset_allVariables hv)
  exact Tseitin.mem_freeVariablesInOrder hv fun w hw => names v here w (inside hw)

/-- The encoding is definitional in a structure just if each conjunction of the expanded formula depends there on the first
variable of each of its names. -/
theorem tseitinEncoding_spec (tc : TseitinContext) (f : Expr) (used : ∀ c ∈ f.symbols, c.name ∈ tc.used) {D : Domain} (M : Structure D) :
    tc.Definitional f M ↔ ∀ e ∈ (expandAll f).conjunctions, e.DependsOn M (Tseitin.freeVariablesInOrder e) :=
  ⟨fun h _ he => h.dependsOn used he, definitional_of_dependsOn used⟩

section Examples

/-- Two constants, of one variable name at two sorts. -/
def twoSorts : Expr := .and [.eq (.var ⟨"X", .uninterpreted "s"⟩) (.const ⟨"a", .first (.uninterpreted "s")⟩),
  .eq (.var ⟨"X", .uninterpreted "t"⟩) (.const ⟨"b", .first (.uninterpreted "t")⟩)]

theorem conjunctions_twoSorts : (expandAll twoSorts).conjunctions = [twoSorts] := by
  have atom : ∀ a b : Expr, expandAll (.eq a b) = .eq a b := fun _ _ => expandAll_atom nofun nofun nofun
  rw [twoSorts, expandAll_and rfl, List.map_cons, List.map_singleton, atom, atom]
  rfl

/-- Nothing depends on the variable that is left out where its sort has one element. -/
theorem tseitinEncoding_spec_one : (⟨[], ["a", "b"], 0⟩ : TseitinContext).Definitional twoSorts (Structure.ofNames []) := by
  refine (tseitinEncoding_spec ⟨[], ["a", "b"], 0⟩ twoSorts (by decide) (Structure.ofNames [])).mpr ?_
  rw [conjunctions_twoSorts, List.forall_mem_singleton]
  refine fun env env' _ => Expr.holds_congr _ env (Expr.eval_freeVariables _ fun v hv => ?_)
  have vars : v = ⟨"X", .uninterpreted "s"⟩ ∨ v = ⟨"X", .uninterpreted "t"⟩ := by
    simpa [twoSorts, Expr.freeVariables, Expr.freeVariablesList] using hv
  obtain rfl | rfl := vars <;> rfl

/-- With two elements the new predicate would have to depend on it. -/
theorem tseitinEncoding_spec_fails : ¬ ∀ (tc : TseitinContext) (f : Expr), (∀ c ∈ f.symbols, c.name ∈ tc.used) →
    ∀ (D : Domain) (M : Structure D), tc.Definitional f M := by
  intro all
  have definitional := all ⟨[], ["a", "b"], 0⟩ twoSorts (by decide) Domain.two Structure.empty
  have chosen : Tseitin.freeVariablesInOrder twoSorts = [⟨"X", .uninterpreted "s"⟩] := by decide
  have depends := definitional.dependsOn (by decide) (conjunctions_twoSorts ▸ List.mem_cons_self)
    (fun v => .two false v.sort) (fun v => .two (decide (v = ⟨"X", .uninterpreted "t"⟩)) v.sort) (by
      rw [chosen, List.forall_mem_singleton]
      rfl)
  have constant : ∀ (n : String) (s : FSort), Structure.empty.value ⟨n, .first s⟩ [] = ⟨s, .two false s⟩ :=
    fun n s => Structure.value_eq _ rfl
  simp only [twoSorts, Expr.holds_and, List.forall_mem_cons, Expr.holds_eq, Expr.eval, constant] at depends
  have second := (depends.mp ⟨trivial, trivial, List.forall_mem_nil _⟩).2.1
  exact Bool.noConfusion (eq_of_heq (Sigma.mk.inj second).2)

end Examples

end Main

end TseitinContext

end Goivy
