import Goivy.Logic.NormalizeQuantifiers

/-! When the result of `normalizeQuantifiers` is a normal form: no conjunction that comes up below a universal, and no disjunction
that comes up below an existential, may stay there. -/
namespace Goivy

variable {e a b : Expr} {s : FSort} {ctx : Context} {vs : List Variable} {ts : List Expr} {k l k' l' : Nat}

def isAnd : Expr → Bool
  | .and _ => true
  | _ => false

def isOr : Expr → Bool
  | .or _ => true
  | _ => false

/-- No variable of the quantifier is free in the expression. -/
def Context.vacuous : Context → Expr → Bool
  | .none, _ => true
  | .forAll vs, e | .exists vs, e => (vs.filter (· ∈ e.freeVariables)).isEmpty

/-- The normal form is a conjunction. -/
@[grind =] def becomesAnd : Context → Expr → Bool
  | .forAll _, .and _ => true
  | ctx, .and ts => ctx.vacuous (.and ts)
  | ctx, .forAll vs a => becomesAnd (.forAll vs) a && ctx.vacuous (.forAll vs a)
  | ctx, .exists vs a => becomesAnd (.exists vs) a && ctx.vacuous (.exists vs a)
  | _, _ => false

/-- The normal form is a disjunction. -/
@[grind =] def becomesOr : Context → Expr → Bool
  | .exists _, .or _ => true
  | ctx, .or ts => ctx.vacuous (.or ts)
  | ctx, .forAll vs a => becomesOr (.forAll vs) a && ctx.vacuous (.forAll vs a)
  | ctx, .exists vs a => becomesOr (.exists vs) a && ctx.vacuous (.exists vs a)
  | _, _ => false

/-- A connective that the quantifier could be pushed into comes up below it only now. -/
def Context.stuck : Context → Expr → Bool
  | .none, _ => false
  | .forAll vs, e => becomesAnd .none e && !(Context.forAll vs).vacuous e
  | .exists vs, e => becomesOr .none e && !(Context.exists vs).vacuous e

mutual
/-- No quantifier gets stuck. -/
@[grind =] def settled : Context → Expr → Bool
  | _, .var _ | _, .const _ | _, .some _ _ | _, .someElse _ _ _ _ => true
  | _, .apply _ ts => settledAll .none ts
  | _, .eq a b | _, .implies a b | _, .iff a b => settled .none a && settled .none b
  | _, .ite c a b => settled .none c && settled .none a && settled .none b
  | _, .not a => settled .none a
  | .forAll vs, .and ts => settledAll (.forAll vs) ts
  | _, .and ts => settledAll .none ts
  | .exists vs, .or ts => settledAll (.exists vs) ts
  | _, .or ts => settledAll .none ts
  | ctx, .forAll vs a => settled (.forAll vs) a && !ctx.stuck (.forAll vs a)
  | ctx, .exists vs a => settled (.exists vs) a && !ctx.stuck (.exists vs a)
@[grind =] def settledAll : Context → List Expr → Bool
  | _, [] => true
  | ctx, t :: ts => settled ctx t && settledAll ctx ts
end

theorem settledAll_iff : settledAll ctx ts = true ↔ ∀ t ∈ ts, settled ctx t = true := by
  induction ts with
  | nil => simp [settledAll]
  | cons t ts ih => rw [settledAll, Bool.and_eq_true, ih, List.forall_mem_cons]

section Variables

theorem mem_freeVariables_restrict {quantifier : List Variable → Expr → Expr}
    (free : ∀ ws, (quantifier ws b).freeVariables = b.freeVariables.filter (· ∉ ws)) (v : Variable) :
    v ∈ (restrict quantifier vs b).freeVariables ↔ v ∈ (quantifier vs b).freeVariables := by
  rw [restrict]
  split
  · rename_i none
    rw [List.isEmpty_iff, List.filter_eq_nil_iff] at none
    rw [free, List.mem_filter, decide_eq_true_eq]
    exact ⟨fun mem => ⟨mem, fun bound => none v bound (decide_eq_true mem)⟩, And.left⟩
  · simp only [free, List.mem_filter, decide_eq_true_eq]
    exact and_congr_right fun mem => not_congr (and_iff_left mem)

theorem mem_freeVariables_wrap (same : ∀ v, v ∈ b.freeVariables ↔ v ∈ a.freeVariables) (v : Variable) :
    v ∈ (ctx.wrap b).freeVariables ↔ v ∈ (ctx.quantify a).freeVariables := by
  cases ctx with
  | none => exact same v
  | forAll vs | «exists» vs =>
    refine (mem_freeVariables_restrict (fun _ => rfl) v).trans ?_
    simp only [Context.quantify, Expr.freeVariables, List.mem_filter, same]

theorem notMem_freeVariables_list (v : Variable) (ts : List Expr) : v ∉ Expr.freeVariablesList ts ↔ ∀ t ∈ ts, v ∉ t.freeVariables := by
  rw [Expr.freeVariablesList_eq_flatMap, List.mem_flatMap]
  simp

theorem mem_freeVariables_norms (h : ∀ t ∈ ts, ∀ v, v ∈ (norm ctx t).freeVariables ↔ v ∈ (ctx.quantify t).freeVariables) (v : Variable) :
    (∀ t ∈ norms ctx ts, v ∉ t.freeVariables) ↔ ∀ t ∈ ts, v ∉ (ctx.quantify t).freeVariables := by
  rw [norms_eq_map, List.forall_mem_map]
  exact forall₂_congr fun t ht => not_congr (h t ht v)

/-- The normal form has the variables of the expression under its quantifier. -/
theorem mem_freeVariables_norm (ctx : Context) (e : Expr) (v : Variable) :
    v ∈ (norm ctx e).freeVariables ↔ v ∈ (ctx.quantify e).freeVariables := by
  induction e generalizing ctx v with
  | var w | const c => exact mem_freeVariables_wrap (fun _ => Iff.rfl) v
  | some vs a | someElse vs a b c => exact mem_freeVariables_wrap (fun _ => Iff.rfl) v
  | apply f ts ih =>
    refine mem_freeVariables_wrap (fun v => not_iff_not.mp ?_) v
    rw [Expr.freeVariables, Expr.freeVariables, notMem_freeVariables_list, notMem_freeVariables_list]
    exact mem_freeVariables_norms (fun t ht => ih t ht .none) v
  | eq a b ha hb | implies a b ha hb | iff a b ha hb =>
    refine mem_freeVariables_wrap (fun v => ?_) v
    rw [Expr.freeVariables, Expr.freeVariables, List.mem_append, List.mem_append]
    exact or_congr (ha .none v) (hb .none v)
  | not a ha =>
    refine mem_freeVariables_wrap (fun v => ?_) v
    exact ha .none v
  | ite c a b hc ha hb =>
    refine mem_freeVariables_wrap (fun v => ?_) v
    rw [Expr.freeVariables, Expr.freeVariables, List.mem_append, List.mem_append, List.mem_append, List.mem_append]
    exact or_congr (or_congr (hc .none v) (ha .none v)) (hb .none v)
  | and ts ih =>
    have flat : ∀ (ctx : Context) v, v ∉ (Expr.and (flattenAnd (norms ctx ts))).freeVariables ↔ ∀ t ∈ ts, v ∉ (ctx.quantify t).freeVariables :=
      fun ctx v => by
        rw [Expr.freeVariables, notMem_freeVariables_list, ← mem_freeVariables_norms (fun t ht => ih t ht ctx) v]
        exact forall_mem_flattenAnd fun us => notMem_freeVariables_list v us
    have plain : ∀ v, v ∈ (Expr.and (flattenAnd (norms .none ts))).freeVariables ↔ v ∈ (Expr.and ts).freeVariables := fun v =>
      not_iff_not.mp ((flat .none v).trans (notMem_freeVariables_list v ts).symm)
    cases ctx with
    | none | «exists» vs => exact mem_freeVariables_wrap plain v
    | forAll vs =>
      refine not_iff_not.mp ((flat (.forAll vs) v).trans ?_)
      simp only [Context.quantify, Expr.freeVariables, Expr.freeVariablesList_eq_flatMap, List.mem_filter, List.mem_flatMap]
      grind
  | or ts ih =>
    have flat : ∀ (ctx : Context) v, v ∉ (Expr.or (flattenOr (norms ctx ts))).freeVariables ↔ ∀ t ∈ ts, v ∉ (ctx.quantify t).freeVariables :=
      fun ctx v => by
        rw [Expr.freeVariables, notMem_freeVariables_list, ← mem_freeVariables_norms (fun t ht => ih t ht ctx) v]
        exact forall_mem_flattenOr fun us => notMem_freeVariables_list v us
    have plain : ∀ v, v ∈ (Expr.or (flattenOr (norms .none ts))).freeVariables ↔ v ∈ (Expr.or ts).freeVariables := fun v =>
      not_iff_not.mp ((flat .none v).trans (notMem_freeVariables_list v ts).symm)
    cases ctx with
    | none | forAll vs => exact mem_freeVariables_wrap plain v
    | «exists» vs =>
      refine not_iff_not.mp ((flat (.exists vs) v).trans ?_)
      simp only [Context.quantify, Expr.freeVariables, Expr.freeVariablesList_eq_flatMap, List.mem_filter, List.mem_flatMap]
      grind
  | forAll vs a ha => exact mem_freeVariables_wrap (fun v => ha (.forAll vs) v) v
  | «exists» vs a ha => exact mem_freeVariables_wrap (fun v => ha (.exists vs) v) v

theorem vacuous_congr (same : ∀ v, v ∈ b.freeVariables ↔ v ∈ a.freeVariables) : ctx.vacuous b = ctx.vacuous a := by
  cases ctx with
  | none => rfl
  | forAll vs | «exists» vs => simp only [Context.vacuous, same]

end Variables

section Stuck

theorem isAnd_restrict {quantifier : List Variable → Expr → Expr} (other : ∀ ws, isAnd (quantifier ws b) = false) :
    isAnd (restrict quantifier vs b) = (isAnd b && (vs.filter (· ∈ b.freeVariables)).isEmpty) := by
  rw [restrict]
  split
  · rename_i none
    rw [none, Bool.and_true]
  · rename_i some
    rw [other, Bool.eq_false_iff.mpr some, Bool.and_false]

theorem isOr_restrict {quantifier : List Variable → Expr → Expr} (other : ∀ ws, isOr (quantifier ws b) = false) :
    isOr (restrict quantifier vs b) = (isOr b && (vs.filter (· ∈ b.freeVariables)).isEmpty) := by
  rw [restrict]
  split
  · rename_i none
    rw [none, Bool.and_true]
  · rename_i some
    rw [other, Bool.eq_false_iff.mpr some, Bool.and_false]

theorem isAnd_wrap (ctx : Context) (b : Expr) : isAnd (ctx.wrap b) = (isAnd b && ctx.vacuous b) := by
  cases ctx with
  | none => exact (Bool.and_true _).symm
  | forAll vs | «exists» vs => exact isAnd_restrict fun _ => rfl

theorem isOr_wrap (ctx : Context) (b : Expr) : isOr (ctx.wrap b) = (isOr b && ctx.vacuous b) := by
  cases ctx with
  | none => exact (Bool.and_true _).symm
  | forAll vs | «exists» vs => exact isOr_restrict fun _ => rfl

theorem vacuous_norm (ctx ctx' : Context) (e : Expr) : ctx.vacuous (norm ctx' e) = ctx.vacuous (ctx'.quantify e) :=
  vacuous_congr (mem_freeVariables_norm ctx' e)

theorem isAnd_norm (ctx : Context) (e : Expr) : isAnd (norm ctx e) = becomesAnd ctx e := by
  induction e generalizing ctx with
  | and ts =>
    have vacuous := vacuous_norm ctx .none (.and ts)
    cases ctx with
    | forAll vs => rfl
    | none | «exists» vs => exact (isAnd_wrap _ _).trans (congrArg (true && ·) vacuous)
  | or ts =>
    cases ctx with
    | «exists» vs => rfl
    | none | forAll vs => exact isAnd_wrap _ _
  | forAll vs a ha =>
    refine (isAnd_wrap ctx _).trans ?_
    rw [ha, vacuous_norm, Context.quantify]
    cases ctx <;> rfl
  | «exists» vs a ha =>
    refine (isAnd_wrap ctx _).trans ?_
    rw [ha, vacuous_norm, Context.quantify]
    cases ctx <;> rfl
  | _ =>
    refine (isAnd_wrap ctx _).trans ?_
    cases ctx <;> rfl

theorem isOr_norm (ctx : Context) (e : Expr) : isOr (norm ctx e) = becomesOr ctx e := by
  induction e generalizing ctx with
  | or ts =>
    have vacuous := vacuous_norm ctx .none (.or ts)
    cases ctx with
    | «exists» vs => rfl
    | none | forAll vs => exact (isOr_wrap _ _).trans (congrArg (true && ·) vacuous)
  | and ts =>
    cases ctx with
    | forAll vs => rfl
    | none | «exists» vs => exact isOr_wrap _ _
  | forAll vs a ha =>
    refine (isOr_wrap ctx _).trans ?_
    rw [ha, vacuous_norm, Context.quantify]
    cases ctx <;> rfl
  | «exists» vs a ha =>
    refine (isOr_wrap ctx _).trans ?_
    rw [ha, vacuous_norm, Context.quantify]
    cases ctx <;> rfl
  | _ =>
    refine (isOr_wrap ctx _).trans ?_
    cases ctx <;> rfl

end Stuck

section Redexes

mutual
/-- The quantifiers that can be pushed inside. -/
@[grind =] def redexes : Expr → Nat
  | .var _ | .const _ | .some _ _ | .someElse _ _ _ _ => 0
  | .apply _ ts | .and ts | .or ts => redexesAll ts
  | .eq a b | .implies a b | .iff a b => redexes a + redexes b
  | .ite c a b => redexes c + redexes a + redexes b
  | .not a => redexes a
  | .forAll _ a => redexes a + (isAnd a).toNat
  | .exists _ a => redexes a + (isOr a).toNat
@[grind =] def redexesAll : List Expr → Nat
  | [] => 0
  | t :: ts => redexes t + redexesAll ts
end

theorem redexesAll_eq_zero : redexesAll ts = 0 ↔ ∀ t ∈ ts, redexes t = 0 := by
  induction ts with
  | nil => simp [redexesAll]
  | cons t ts ih => rw [redexesAll, Nat.add_eq_zero_iff, ih, List.forall_mem_cons]

theorem redexesAll_map_le {f : Expr → Expr} (more : ∀ t, redexes t ≤ redexes (f t)) : redexesAll ts ≤ redexesAll (ts.map f) := by
  induction ts with
  | nil => exact Nat.le_refl 0
  | cons t ts ih => exact Nat.add_le_add (more t) ih

/-- The quantifier is over a connective that it can be pushed into. -/
def Context.pushes : Context → Expr → Bool
  | .none, _ => false
  | .forAll _, e => isAnd e
  | .exists _, e => isOr e

theorem pushes_eq_false (notAnd : isAnd e = false) (notOr : isOr e = false) (ctx : Context) : ctx.pushes e = false := by
  cases ctx with
  | none => rfl
  | forAll vs => exact notAnd
  | «exists» vs => exact notOr

theorem redexes_restrict {quantifier : List Variable → Expr → Expr} {redex : Bool}
    (count : ∀ ws, redexes (quantifier ws b) = redexes b + redex.toNat) :
    redexes (restrict quantifier vs b) = 0 ↔ redexes b = 0 ∧ (redex && !(vs.filter (· ∈ b.freeVariables)).isEmpty) = false := by
  rw [restrict]
  split
  · rename_i none
    simp [none]
  · rename_i some
    rw [count, Nat.add_eq_zero_iff, Bool.toNat_eq_zero]
    simp [some]

theorem redexes_wrap (ctx : Context) (b : Expr) :
    redexes (ctx.wrap b) = 0 ↔ redexes b = 0 ∧ (ctx.pushes b && !ctx.vacuous b) = false := by
  cases ctx with
  | none => simp [Context.wrap, Context.pushes]
  | forAll vs | «exists» vs => exact redexes_restrict fun _ => rfl

theorem pushes_norm (ctx : Context) (e : Expr) : (ctx.pushes (norm .none e) && !ctx.vacuous (norm .none e)) = ctx.stuck e := by
  rw [vacuous_norm]
  cases ctx with
  | none => rfl
  | forAll vs => exact congrArg (· && _) (isAnd_norm .none e)
  | «exists» vs => exact congrArg (· && _) (isOr_norm .none e)

/-- Where the quantifier is not pushed inside, it is put over the normal form. -/
theorem norm_eq_wrap (stays : ctx.pushes e = false) : norm ctx e = ctx.wrap (norm .none e) := by
  cases e with
  | and ts =>
    cases ctx with
    | forAll vs => contradiction
    | none | «exists» vs => rfl
  | or ts =>
    cases ctx with
    | «exists» vs => contradiction
    | none | forAll vs => rfl
  | _ => rfl

theorem settled_eq (stays : ctx.pushes e = false) : settled ctx e = (settled .none e && !ctx.stuck e) := by
  cases e with
  | and ts =>
    cases ctx with
    | forAll vs => contradiction
    | none | «exists» vs => exact (Bool.and_true _).symm
  | or ts =>
    cases ctx with
    | «exists» vs => contradiction
    | none | forAll vs => exact (Bool.and_true _).symm
  | forAll vs a | «exists» vs a =>
    rw [settled, settled, Context.stuck, Bool.not_false, Bool.and_true]
  | _ => cases ctx <;> exact (Bool.and_true _).symm

/-- No redex is left where no quantifier gets stuck. -/
theorem redexes_norm (ctx : Context) (e : Expr) : redexes (norm ctx e) = 0 ↔ settled ctx e = true := by
  have step : ∀ {e ctx}, Context.pushes ctx e = false → (redexes (norm .none e) = 0 ↔ settled .none e = true) →
      (redexes (norm ctx e) = 0 ↔ settled ctx e = true) := by
    intro e ctx stays plain
    rw [norm_eq_wrap stays, settled_eq stays, redexes_wrap, pushes_norm, plain, Bool.and_eq_true, Bool.not_eq_true']
  have list : ∀ {ts}, (∀ t ∈ ts, ∀ ctx, redexes (norm ctx t) = 0 ↔ settled ctx t = true) → ∀ ctx,
      (∀ t ∈ norms ctx ts, redexes t = 0) ↔ settledAll ctx ts = true := by
    intro ts ih ctx
    rw [norms_eq_map, List.forall_mem_map, settledAll_iff]
    exact forall₂_congr fun t ht => ih t ht ctx
  induction e generalizing ctx with
  | var v | const c => exact step (pushes_eq_false rfl rfl ctx) (iff_of_true rfl rfl)
  | some vs a | someElse vs a b c => exact step (pushes_eq_false rfl rfl ctx) (iff_of_true rfl rfl)
  | apply f ts ih =>
    refine step (pushes_eq_false rfl rfl ctx) ?_
    exact redexesAll_eq_zero.trans (list ih .none)
  | eq a b ha hb | implies a b ha hb | iff a b ha hb =>
    refine step (pushes_eq_false rfl rfl ctx) ?_
    rw [settled, Bool.and_eq_true]
    exact Nat.add_eq_zero_iff.trans (and_congr (ha .none) (hb .none))
  | not a ha =>
    refine step (pushes_eq_false rfl rfl ctx) ?_
    exact ha .none
  | ite c a b hc ha hb =>
    refine step (pushes_eq_false rfl rfl ctx) ?_
    rw [settled, Bool.and_eq_true, Bool.and_eq_true]
    exact Nat.add_eq_zero_iff.trans (and_congr (Nat.add_eq_zero_iff.trans (and_congr (hc .none) (ha .none))) (hb .none))
  | and ts ih =>
    have flat : ∀ ctx, redexes (.and (flattenAnd (norms ctx ts))) = 0 ↔ settledAll ctx ts = true := fun ctx =>
      redexesAll_eq_zero.trans ((forall_mem_flattenAnd fun us => redexesAll_eq_zero).trans (list ih ctx))
    cases ctx with
    | forAll vs => exact flat (.forAll vs)
    | none | «exists» vs => exact step rfl (flat .none)
  | or ts ih =>
    have flat : ∀ ctx, redexes (.or (flattenOr (norms ctx ts))) = 0 ↔ settledAll ctx ts = true := fun ctx =>
      redexesAll_eq_zero.trans ((forall_mem_flattenOr fun us => redexesAll_eq_zero).trans (list ih ctx))
    cases ctx with
    | «exists» vs => exact flat (.exists vs)
    | none | forAll vs => exact step rfl (flat .none)
  | forAll vs a ha =>
    refine step (pushes_eq_false rfl rfl ctx) ?_
    rw [settled, Context.stuck, Bool.not_false, Bool.and_true]
    exact ha (.forAll vs)
  | «exists» vs a ha =>
    refine step (pushes_eq_false rfl rfl ctx) ?_
    rw [settled, Context.stuck, Bool.not_false, Bool.and_true]
    exact ha (.exists vs)

end Redexes

section Fixed

mutual
/-- Flat connectives, and quantifiers over variables that are free in their bodies. -/
@[grind =] def Flat : Expr → Prop
  | .var _ | .const _ | .some _ _ | .someElse _ _ _ _ => True
  | .apply _ ts => FlatAll ts
  | .and ts => FlatAll ts ∧ ∀ t ∈ ts, isAnd t = false
  | .or ts => FlatAll ts ∧ ∀ t ∈ ts, isOr t = false
  | .eq a b | .implies a b | .iff a b => Flat a ∧ Flat b
  | .ite c a b => Flat c ∧ Flat a ∧ Flat b
  | .not a => Flat a
  | .forAll vs a | .exists vs a => Flat a ∧ vs ≠ [] ∧ ∀ v ∈ vs, v ∈ a.freeVariables
@[grind =] def FlatAll : List Expr → Prop
  | [] => True
  | t :: ts => Flat t ∧ FlatAll ts
end

theorem flatAll_iff : FlatAll ts ↔ ∀ t ∈ ts, Flat t := by
  induction ts with
  | nil => simp [FlatAll]
  | cons t ts ih => rw [FlatAll, ih, List.forall_mem_cons]

theorem flat_restrict {quantifier : List Variable → Expr → Expr}
    (parts : ∀ ws, Flat (quantifier ws b) ↔ Flat b ∧ ws ≠ [] ∧ ∀ v ∈ ws, v ∈ b.freeVariables) (h : Flat b) : Flat (restrict quantifier vs b) := by
  rw [restrict]
  split
  · exact h
  · rename_i some
    refine (parts _).mpr ⟨h, fun none => some (List.isEmpty_iff.mpr none), fun v mem => ?_⟩
    exact of_decide_eq_true (List.mem_filter.mp mem).2

theorem flat_wrap (ctx : Context) (h : Flat b) : Flat (ctx.wrap b) := by
  cases ctx with
  | none => exact h
  | forAll vs | «exists» vs => exact flat_restrict (fun _ => Iff.rfl) h

theorem flat_flattenAnd (h : ∀ t ∈ ts, Flat t) : Flat (.and (flattenAnd ts)) := by
  induction ts with
  | nil => exact ⟨trivial, by simp [flattenAnd]⟩
  | cons t ts ih =>
    rw [List.forall_mem_cons] at h
    obtain ⟨flat, other⟩ := ih h.2
    rw [flatAll_iff] at flat
    refine ⟨flatAll_iff.mpr ?_, ?_⟩
    · cases t with
      | and us => exact List.forall_mem_append.mpr ⟨flatAll_iff.mp h.1.1, flat⟩
      | _ => exact List.forall_mem_cons.mpr ⟨h.1, flat⟩
    · cases t with
      | and us => exact List.forall_mem_append.mpr ⟨h.1.2, other⟩
      | _ => exact List.forall_mem_cons.mpr ⟨rfl, other⟩

theorem flat_flattenOr (h : ∀ t ∈ ts, Flat t) : Flat (.or (flattenOr ts)) := by
  induction ts with
  | nil => exact ⟨trivial, by simp [flattenOr]⟩
  | cons t ts ih =>
    rw [List.forall_mem_cons] at h
    obtain ⟨flat, other⟩ := ih h.2
    rw [flatAll_iff] at flat
    refine ⟨flatAll_iff.mpr ?_, ?_⟩
    · cases t with
      | or us => exact List.forall_mem_append.mpr ⟨flatAll_iff.mp h.1.1, flat⟩
      | _ => exact List.forall_mem_cons.mpr ⟨h.1, flat⟩
    · cases t with
      | or us => exact List.forall_mem_append.mpr ⟨h.1.2, other⟩
      | _ => exact List.forall_mem_cons.mpr ⟨rfl, other⟩

theorem flat_norm (ctx : Context) (e : Expr) : Flat (norm ctx e) := by
  have list : ∀ {ts}, (∀ t ∈ ts, ∀ ctx, Flat (norm ctx t)) → ∀ ctx, ∀ t ∈ norms ctx ts, Flat t := by
    intro ts ih ctx
    rw [norms_eq_map, List.forall_mem_map]
    exact fun t ht => ih t ht ctx
  induction e generalizing ctx with
  | var v | const c => exact flat_wrap ctx trivial
  | some vs a | someElse vs a b c => exact flat_wrap ctx trivial
  | apply f ts ih => exact flat_wrap ctx (flatAll_iff.mpr (list ih .none))
  | eq a b ha hb | implies a b ha hb | iff a b ha hb => exact flat_wrap ctx ⟨ha .none, hb .none⟩
  | not a ha => exact flat_wrap ctx (ha .none)
  | ite c a b hc ha hb => exact flat_wrap ctx ⟨hc .none, ha .none, hb .none⟩
  | and ts ih =>
    cases ctx with
    | forAll vs => exact flat_flattenAnd (list ih (.forAll vs))
    | none | «exists» vs => exact flat_wrap _ (flat_flattenAnd (list ih .none))
  | or ts ih =>
    cases ctx with
    | «exists» vs => exact flat_flattenOr (list ih (.exists vs))
    | none | forAll vs => exact flat_wrap _ (flat_flattenOr (list ih .none))
  | forAll vs a ha => exact flat_wrap ctx (ha (.forAll vs))
  | «exists» vs a ha => exact flat_wrap ctx (ha (.exists vs))

theorem flattenAnd_of_flat (other : ∀ t ∈ ts, isAnd t = false) : flattenAnd ts = ts := by
  induction ts with
  | nil => rfl
  | cons t ts ih =>
    rw [List.forall_mem_cons] at other
    cases t with
    | and us => exact absurd other.1 (by simp [isAnd])
    | _ => exact congrArg (_ :: ·) (ih other.2)

theorem flattenOr_of_flat (other : ∀ t ∈ ts, isOr t = false) : flattenOr ts = ts := by
  induction ts with
  | nil => rfl
  | cons t ts ih =>
    rw [List.forall_mem_cons] at other
    cases t with
    | or us => exact absurd other.1 (by simp [isOr])
    | _ => exact congrArg (_ :: ·) (ih other.2)

theorem restrict_of_free {quantifier : List Variable → Expr → Expr} (some : vs ≠ []) (free : ∀ v ∈ vs, v ∈ b.freeVariables) :
    restrict quantifier vs b = quantifier vs b := by
  have all : vs.filter (· ∈ b.freeVariables) = vs := List.filter_eq_self.mpr fun v mem => decide_eq_true (free v mem)
  rw [restrict, all, if_neg]
  rwa [List.isEmpty_iff]

/-- A flat expression without redexes is its own normal form. -/
theorem norm_of_flat (flat : Flat e) (none : redexes e = 0) : norm .none e = e := by
  have list : ∀ {ts}, FlatAll ts → redexesAll ts = 0 → (∀ t ∈ ts, Flat t → redexes t = 0 → norm .none t = t) → norms .none ts = ts := by
    intro ts flat none ih
    rw [flatAll_iff] at flat
    rw [redexesAll_eq_zero] at none
    rw [norms_eq_map]
    exact (List.map_congr_left fun t ht => ih t ht (flat t ht) (none t ht)).trans (List.map_id ts)
  induction e with
  | var v | const c => rfl
  | some vs a | someElse vs a b c => rfl
  | apply f ts ih => exact congrArg (Expr.apply f) (list flat none ih)
  | eq a b ha hb =>
    obtain ⟨noneA, noneB⟩ := Nat.add_eq_zero_iff.mp none
    exact congrArg₂ Expr.eq (ha flat.1 noneA) (hb flat.2 noneB)
  | implies a b ha hb =>
    obtain ⟨noneA, noneB⟩ := Nat.add_eq_zero_iff.mp none
    exact congrArg₂ Expr.implies (ha flat.1 noneA) (hb flat.2 noneB)
  | iff a b ha hb =>
    obtain ⟨noneA, noneB⟩ := Nat.add_eq_zero_iff.mp none
    exact congrArg₂ Expr.iff (ha flat.1 noneA) (hb flat.2 noneB)
  | not a ha => exact congrArg Expr.not (ha flat none)
  | ite c a b hc ha hb =>
    obtain ⟨rest, noneB⟩ := Nat.add_eq_zero_iff.mp none
    obtain ⟨noneC, noneA⟩ := Nat.add_eq_zero_iff.mp rest
    rw [norm, Context.wrap, hc flat.1 noneC, ha flat.2.1 noneA, hb flat.2.2 noneB]
  | and ts ih =>
    have terms := list flat.1 none ih
    rw [norm, Context.wrap, terms, flattenAnd_of_flat flat.2]
    simp
  | or ts ih =>
    have terms := list flat.1 none ih
    rw [norm, Context.wrap, terms, flattenOr_of_flat flat.2]
    simp
  | forAll vs a ha =>
    obtain ⟨flat, some, free⟩ := flat
    obtain ⟨none, stays⟩ := Nat.add_eq_zero_iff.mp none
    rw [Bool.toNat_eq_zero] at stays
    have body : norm (.forAll vs) a = restrict .forAll vs (norm .none a) := norm_eq_wrap stays
    rw [norm, Context.wrap, body, ha flat none, restrict_of_free some free]
  | «exists» vs a ha =>
    obtain ⟨flat, some, free⟩ := flat
    obtain ⟨none, stays⟩ := Nat.add_eq_zero_iff.mp none
    rw [Bool.toNat_eq_zero] at stays
    have body : norm (.exists vs) a = restrict .exists vs (norm .none a) := norm_eq_wrap stays
    rw [norm, Context.wrap, body, ha flat none, restrict_of_free some free]

end Fixed

section Height

mutual
/-- How many universals stand over the conjunctions, and existentials over the disjunctions, below `k` and `l` of them. -/
@[grind =] def height (k l : Nat) : Expr → Nat
  | .var _ | .const _ | .some _ _ | .someElse _ _ _ _ => 0
  | .apply _ ts => heights k l ts
  | .and ts => k + heights k l ts
  | .or ts => l + heights k l ts
  | .eq a b | .implies a b | .iff a b => height k l a + height k l b
  | .ite c a b => height k l c + height k l a + height k l b
  | .not a => height k l a
  | .forAll _ a => height (k + 1) l a
  | .exists _ a => height k (l + 1) a
@[grind =] def heights (k l : Nat) : List Expr → Nat
  | [] => 0
  | t :: ts => height k l t + heights k l ts
end

theorem heights_le (h : ∀ t ∈ ts, height k l t ≤ height k' l' t) : heights k l ts ≤ heights k' l' ts := by
  induction ts with
  | nil => exact Nat.le_refl 0
  | cons t ts ih =>
    rw [List.forall_mem_cons] at h
    exact Nat.add_le_add h.1 (ih h.2)

theorem heights_map {f : Expr → Expr} (same : ∀ t, height k l (f t) = height k' l' t) : heights k l (ts.map f) = heights k' l' ts := by
  induction ts with
  | nil => rfl
  | cons t ts ih => rw [List.map_cons, heights, heights, same, ih]

theorem height_mono (hk : k ≤ k') (hl : l ≤ l') (e : Expr) : height k l e ≤ height k' l' e := by
  induction e generalizing k l k' l' with
  | var | const | some | someElse => exact Nat.le_refl 0
  | apply f ts ih => exact heights_le fun t ht => ih t ht hk hl
  | and ts ih => exact Nat.add_le_add hk (heights_le fun t ht => ih t ht hk hl)
  | or ts ih => exact Nat.add_le_add hl (heights_le fun t ht => ih t ht hk hl)
  | eq a b ha hb | implies a b ha hb | iff a b ha hb => exact Nat.add_le_add (ha hk hl) (hb hk hl)
  | not a ha => exact ha hk hl
  | ite c a b hc ha hb => exact Nat.add_le_add (Nat.add_le_add (hc hk hl) (ha hk hl)) (hb hk hl)
  | forAll vs a ha => exact ha (Nat.succ_le_succ hk) hl
  | «exists» vs a ha => exact ha hk (Nat.succ_le_succ hl)

theorem heights_append (ts us : List Expr) : heights k l (ts ++ us) = heights k l ts + heights k l us := by
  induction ts with
  | nil => exact (Nat.zero_add _).symm
  | cons t ts ih => rw [List.cons_append, heights, heights, ih, Nat.add_assoc]

theorem heights_flattenAnd (ts : List Expr) : heights k l (flattenAnd ts) ≤ heights k l ts := by
  induction ts with
  | nil => exact Nat.le_refl 0
  | cons t ts ih =>
    cases t with
    | and us =>
      rw [flattenAnd, heights_append, heights, height]
      omega
    | _ => exact Nat.add_le_add_left ih _

theorem heights_flattenOr (ts : List Expr) : heights k l (flattenOr ts) ≤ heights k l ts := by
  induction ts with
  | nil => exact Nat.le_refl 0
  | cons t ts ih =>
    cases t with
    | or us =>
      rw [flattenOr, heights_append, heights, height]
      omega
    | _ => exact Nat.add_le_add_left ih _

theorem height_wrap (ctx : Context) (b : Expr) : height k l (ctx.wrap b) ≤ height k l (ctx.quantify b) := by
  cases ctx with
  | none => exact Nat.le_refl _
  | forAll vs =>
    rw [Context.wrap, restrict]
    split
    · exact height_mono (Nat.le_succ k) (Nat.le_refl l) b
    · exact Nat.le_refl _
  | «exists» vs =>
    rw [Context.wrap, restrict]
    split
    · exact height_mono (Nat.le_refl k) (Nat.le_succ l) b
    · exact Nat.le_refl _

/-- Each quantifier that is pushed inside makes the height smaller. -/
theorem height_norm (ctx : Context) (e : Expr) (k l : Nat) :
    height k l (norm ctx e) + redexes (ctx.quantify e) ≤ height k l (ctx.quantify e) := by
  have step : ∀ {e ctx}, Context.pushes ctx e = false → (∀ k l, height k l (norm .none e) + redexes e ≤ height k l e) →
      ∀ k l, height k l (norm ctx e) + redexes (ctx.quantify e) ≤ height k l (ctx.quantify e) := by
    intro e ctx stays plain k l
    have below := height_wrap (k := k) (l := l) ctx (norm .none e)
    rw [norm_eq_wrap stays]
    cases ctx with
    | none => exact plain k l
    | forAll vs =>
      have body := plain (k + 1) l
      have same : redexes (.forAll vs e) = redexes e + 0 := congrArg (redexes e + Bool.toNat ·) stays
      rw [Context.quantify, same]
      rw [Context.quantify, height] at below
      rw [height]
      omega
    | «exists» vs =>
      have body := plain k (l + 1)
      have same : redexes (.exists vs e) = redexes e + 0 := congrArg (redexes e + Bool.toNat ·) stays
      rw [Context.quantify, same]
      rw [Context.quantify, height] at below
      rw [height]
      omega
  have list : ∀ {ts}, (∀ t ∈ ts, ∀ ctx k l, height k l (norm ctx t) + redexes (ctx.quantify t) ≤ height k l (ctx.quantify t)) → ∀ ctx k l,
      heights k l (norms ctx ts) + redexesAll (ts.map ctx.quantify) ≤ heights k l (ts.map ctx.quantify) := by
    intro ts ih ctx k l
    induction ts with
    | nil => exact Nat.le_refl 0
    | cons t ts tail =>
      rw [List.forall_mem_cons] at ih
      have head := ih.1 ctx k l
      have rest := tail ih.2
      rw [norms, List.map_cons, heights, heights, redexesAll]
      omega
  induction e generalizing ctx k l with
  | var | const | some | someElse =>
    refine step (pushes_eq_false rfl rfl ctx) (fun k l => ?_) k l
    exact Nat.le_refl 0
  | apply f ts ih =>
    refine step (pushes_eq_false rfl rfl ctx) (fun k l => ?_) k l
    have terms := list ih .none k l
    rwa [show ts.map Context.none.quantify = ts from List.map_id ts] at terms
  | eq a b ha hb | implies a b ha hb | iff a b ha hb =>
    refine step (pushes_eq_false rfl rfl ctx) (fun k l => ?_) k l
    have left := ha .none k l
    have right := hb .none k l
    rw [Context.quantify] at left right
    rw [norm, Context.wrap, height, height, redexes]
    omega
  | not a ha =>
    refine step (pushes_eq_false rfl rfl ctx) (fun k l => ?_) k l
    exact ha .none k l
  | ite c a b hc ha hb =>
    refine step (pushes_eq_false rfl rfl ctx) (fun k l => ?_) k l
    have cond := hc .none k l
    have left := ha .none k l
    have right := hb .none k l
    rw [Context.quantify] at cond left right
    rw [norm, Context.wrap, height, height, redexes]
    omega
  | and ts ih =>
    have plain : ∀ k l, height k l (norm .none (.and ts)) + redexes (.and ts) ≤ height k l (.and ts) := fun k l => by
      have terms := list ih .none k l
      rw [show ts.map Context.none.quantify = ts from List.map_id ts] at terms
      have flat := heights_flattenAnd (k := k) (l := l) (norms .none ts)
      rw [norm, Context.wrap, height, height, redexes]
      · omega
      · simp
    cases ctx with
    | none | «exists» vs => exact step rfl plain k l
    | forAll vs =>
      have terms := list ih (.forAll vs) k l
      have flat := heights_flattenAnd (k := k) (l := l) (norms (.forAll vs) ts)
      have more : redexesAll ts ≤ redexesAll (ts.map (Context.forAll vs).quantify) := redexesAll_map_le fun _ => Nat.le_add_right _ _
      have deeper : heights k l (ts.map (Context.forAll vs).quantify) = heights (k + 1) l ts := heights_map fun _ => rfl
      have count : redexes ((Context.forAll vs).quantify (.and ts)) = redexesAll ts + 1 := rfl
      have size : height k l ((Context.forAll vs).quantify (.and ts)) = (k + 1) + heights (k + 1) l ts := rfl
      rw [norm, height, count, size]
      omega
  | or ts ih =>
    have plain : ∀ k l, height k l (norm .none (.or ts)) + redexes (.or ts) ≤ height k l (.or ts) := fun k l => by
      have terms := list ih .none k l
      rw [show ts.map Context.none.quantify = ts from List.map_id ts] at terms
      have flat := heights_flattenOr (k := k) (l := l) (norms .none ts)
      rw [norm, Context.wrap, height, height, redexes]
      · omega
      · simp
    cases ctx with
    | none | forAll vs => exact step rfl plain k l
    | «exists» vs =>
      have terms := list ih (.exists vs) k l
      have flat := heights_flattenOr (k := k) (l := l) (norms (.exists vs) ts)
      have more : redexesAll ts ≤ redexesAll (ts.map (Context.exists vs).quantify) := redexesAll_map_le fun _ => Nat.le_add_right _ _
      have deeper : heights k l (ts.map (Context.exists vs).quantify) = heights k (l + 1) ts := heights_map fun _ => rfl
      have count : redexes ((Context.exists vs).quantify (.or ts)) = redexesAll ts + 1 := rfl
      have size : height k l ((Context.exists vs).quantify (.or ts)) = (l + 1) + heights k (l + 1) ts := rfl
      rw [norm, height, count, size]
      omega
  | forAll vs a ha =>
    refine step (pushes_eq_false rfl rfl ctx) (fun k l => ?_) k l
    exact ha (.forAll vs) k l
  | «exists» vs a ha =>
    refine step (pushes_eq_false rfl rfl ctx) (fun k l => ?_) k l
    exact ha (.exists vs) k l

end Height

section Spec

/-- The normal form is a fixed point exactly where no quantifier gets stuck. -/
theorem norm_norm_iff (e : Expr) : norm .none (norm .none e) = norm .none e ↔ settled .none e = true := by
  rw [← redexes_norm]
  refine ⟨fun fixed => ?_, norm_of_flat (flat_norm .none e)⟩
  have small := height_norm .none (norm .none e) 0 0
  rw [fixed, Context.quantify] at small
  omega

theorem normalizeQuantifiers_runs (h : e.OfSort s) :
    normalizeQuantifiers e = some (norm .none e) ∧ normalizeQuantifiers (norm .none e) = some (norm .none (norm .none e)) := by
  have fits : Context.none.Fits s := .inl rfl
  exact ⟨@normalizeQuantifiers_eq e s .none fits h, @normalizeQuantifiers_eq _ s .none fits (ofSort_norm fits h)⟩

/-- The code comes to an end with an expression of the same value, and that is a normal form if and only if no quantifier gets stuck. -/
theorem normalizeQuantifiers_spec (h : e.OfSort s) :
    ∃ e', normalizeQuantifiers e = some e' ∧ (∀ (D : Domain) (M : Structure D) (env : Env D), e'.eval M env = e.eval M env) ∧
      (normalizeQuantifiers e' = some e' ↔ settled .none e = true) := by
  obtain ⟨result, again⟩ := normalizeQuantifiers_runs h
  refine ⟨_, result, fun D M env => @eval_norm D M e s .none (.inl rfl) h env, ?_⟩
  rw [again, Option.some_inj]
  exact norm_norm_iff e

def nestedUniversals : Expr :=
  .forAll [⟨"X", .boolean⟩] (.forAll [⟨"Y", .boolean⟩] (.and [.eq (.var ⟨"X", .boolean⟩) (.var ⟨"Y", .boolean⟩), .var ⟨"X", .boolean⟩]))

theorem nestedUniversals_ofSort : nestedUniversals.OfSort .boolean := by
  simp [nestedUniversals, Expr.OfSort, OfSorts]

/-- The universal over the inner one is not pushed into the conjunction that comes out of it. -/
theorem normalizeQuantifiers_spec_fails : ¬ ∀ (e : Expr) (s : FSort), e.OfSort s → ∀ e', normalizeQuantifiers e = some e' →
    normalizeQuantifiers e' = some e' := by
  intro claim
  obtain ⟨result, again⟩ := normalizeQuantifiers_runs nestedUniversals_ofSort
  have fixed := claim _ _ nestedUniversals_ofSort _ result
  rw [again, Option.some_inj, norm_norm_iff] at fixed
  exact absurd fixed (by decide)

theorem normalizeQuantifiers_spec_nested : ∃ e', normalizeQuantifiers nestedUniversals = some e' ∧
    ∀ (D : Domain) (M : Structure D) (env : Env D), e'.eval M env = nestedUniversals.eval M env := by
  obtain ⟨e', result, value, -⟩ := normalizeQuantifiers_spec nestedUniversals_ofSort
  exact ⟨e', result, value⟩

end Spec

end Goivy
