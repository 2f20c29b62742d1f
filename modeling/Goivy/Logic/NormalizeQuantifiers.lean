import Goivy.Logic.Replace
import Goivy.TransRel.Update
import Goivy.Util.OptionList

/-! Universals are pushed inside conjunctions and existentials inside disjunctions. -/
namespace Goivy

open Goivy.Expr (newApply)

@[grind =] def flattenAnd : List Expr → List Expr
  | [] => []
  | .and us :: ts => us ++ flattenAnd ts
  | t :: ts => t :: flattenAnd ts

@[grind =] def flattenOr : List Expr → List Expr
  | [] => []
  | .or us :: ts => us ++ flattenOr ts
  | t :: ts => t :: flattenOr ts

/-- Keeps the variables that are free in the body, and the quantifier where there are any. -/
def restrict (quantifier : List Variable → Expr → Expr) (vs : List Variable) (body : Expr) : Expr :=
  if (vs.filter (· ∈ body.freeVariables)).isEmpty then body else quantifier (vs.filter (· ∈ body.freeVariables)) body

/-- The quantifier over each of the terms. -/
def distribute (quantifier : List Variable → Expr → Expr) (vs : List Variable) (ts : List Expr) : List Expr := ts.map (quantifier vs)

section Weight

mutual
@[grind =] def weight : Expr → Nat
  | .var _ | .const _ | .some _ _ | .someElse _ _ _ _ => 1
  | .apply _ ts | .and ts | .or ts => 1 + weights ts
  | .eq a b | .implies a b | .iff a b => 1 + weight a + weight b
  | .not a => 1 + weight a
  | .ite c a b => 1 + weight c + weight a + weight b
  | .forAll _ a | .exists _ a => 2 * weight a
@[grind =] def weights : List Expr → Nat
  | [] => 0
  | t :: ts => weight t + weights ts
end

theorem weight_pos (e : Expr) : 0 < weight e := by
  induction e with
  | var | const | some | someElse => exact Nat.one_pos
  | forAll vs a ih | «exists» vs a ih => exact Nat.mul_pos Nat.two_pos ih
  | _ => rw [weight]; omega

theorem weight_lt_double (e : Expr) : weight e < 2 * weight e := by
  have := weight_pos e
  omega

theorem weight_lt_weights {t : Expr} {ts : List Expr} (h : t ∈ ts) : weight t < 1 + weights ts := by
  induction ts with
  | nil => contradiction
  | cons u ts ih =>
    rw [weights]
    rcases List.mem_cons.mp h with rfl | h
    · omega
    · have := ih h
      omega

theorem weights_distribute {quantifier : List Variable → Expr → Expr} (double : ∀ vs t, weight (quantifier vs t) = 2 * weight t)
    (vs : List Variable) (ts : List Expr) : weights (distribute quantifier vs ts) = 2 * weights ts := by
  induction ts with
  | nil => rfl
  | cons t ts ih =>
    rw [distribute, List.map_cons, weights, weights, double]
    rw [distribute] at ih
    omega

end Weight

/-- `NormalizeQuantifiers`. It panics at an application that is not well sorted, and at expressions of other kinds. -/
@[grind =] def normalizeQuantifiers : Expr → Option Expr
  | .var v => some (.var v)
  | .const c => some (.const c)
  | .apply f ts => (ts.attach.mapM fun t => normalizeQuantifiers t.1).bind (newApply f)
  | .eq a b => (normalizeQuantifiers a).bind fun a => (normalizeQuantifiers b).map (.eq a)
  | .ite c a b => (normalizeQuantifiers c).bind fun c => (normalizeQuantifiers a).bind fun a => (normalizeQuantifiers b).map (.ite c a)
  | .not a => (normalizeQuantifiers a).map .not
  | .implies a b => (normalizeQuantifiers a).bind fun a => (normalizeQuantifiers b).map (.implies a)
  | .iff a b => (normalizeQuantifiers a).bind fun a => (normalizeQuantifiers b).map (.iff a)
  | .and ts => (ts.attach.mapM fun t => normalizeQuantifiers t.1).map fun ys => .and (flattenAnd ys)
  | .or ts => (ts.attach.mapM fun t => normalizeQuantifiers t.1).map fun ys => .or (flattenOr ys)
  | .forAll vs (.and ts) => normalizeQuantifiers (.and (distribute .forAll vs ts))
  | .forAll vs a => (normalizeQuantifiers a).map (restrict .forAll vs)
  | .exists vs (.or ts) => normalizeQuantifiers (.or (distribute .exists vs ts))
  | .exists vs a => (normalizeQuantifiers a).map (restrict .exists vs)
  | .some _ _ | .someElse _ _ _ _ => none
termination_by e => weight e
decreasing_by
  all_goals rw [weight]
  all_goals first
    | exact weight_lt_weights t.2
    | omega
    | (rw [weights_distribute fun _ _ => by rw [weight], weight, weight]; omega)
    | exact weight_lt_double _

section Equations

variable {vs : List Variable} {ts : List Expr}

theorem normalizeQuantifiers_apply (f : Const) (ts : List Expr) :
    normalizeQuantifiers (.apply f ts) = (ts.mapM normalizeQuantifiers).bind (newApply f) := by
  rw [normalizeQuantifiers, List.mapM_subtype fun _ _ => rfl, List.unattach_attach]

theorem normalizeQuantifiers_and (ts : List Expr) :
    normalizeQuantifiers (.and ts) = (ts.mapM normalizeQuantifiers).map fun ys => .and (flattenAnd ys) := by
  rw [normalizeQuantifiers, List.mapM_subtype fun _ _ => rfl, List.unattach_attach]

theorem normalizeQuantifiers_or (ts : List Expr) :
    normalizeQuantifiers (.or ts) = (ts.mapM normalizeQuantifiers).map fun ys => .or (flattenOr ys) := by
  rw [normalizeQuantifiers, List.mapM_subtype fun _ _ => rfl, List.unattach_attach]

theorem normalizeQuantifiers_forAll {a : Expr} (h : ∀ ts, a ≠ .and ts) :
    normalizeQuantifiers (.forAll vs a) = (normalizeQuantifiers a).map (restrict .forAll vs) := by
  rw [normalizeQuantifiers]
  exact h

theorem normalizeQuantifiers_exists {a : Expr} (h : ∀ ts, a ≠ .or ts) :
    normalizeQuantifiers (.exists vs a) = (normalizeQuantifiers a).map (restrict .exists vs) := by
  rw [normalizeQuantifiers]
  exact h

end Equations

/-- What stands over an expression: a quantifier, or nothing. -/
inductive Context
  | none
  | forAll (vs : List Variable)
  | exists (vs : List Variable)

namespace Context

def quantify : Context → Expr → Expr
  | .none, e => e
  | .forAll vs, e => .forAll vs e
  | .exists vs, e => .exists vs e

def wrap : Context → Expr → Expr
  | .none, e => e
  | .forAll vs, e => restrict .forAll vs e
  | .exists vs, e => restrict .exists vs e

end Context

mutual
/-- The normal form of an expression under a quantifier, by recursion on the expression. -/
@[grind =] def norm : Context → Expr → Expr
  | ctx, .var v => ctx.wrap (.var v)
  | ctx, .const c => ctx.wrap (.const c)
  | ctx, .apply f ts => ctx.wrap (.apply f (norms .none ts))
  | ctx, .eq a b => ctx.wrap (.eq (norm .none a) (norm .none b))
  | ctx, .ite c a b => ctx.wrap (.ite (norm .none c) (norm .none a) (norm .none b))
  | ctx, .not a => ctx.wrap (.not (norm .none a))
  | ctx, .implies a b => ctx.wrap (.implies (norm .none a) (norm .none b))
  | ctx, .iff a b => ctx.wrap (.iff (norm .none a) (norm .none b))
  | .forAll vs, .and ts => .and (flattenAnd (norms (.forAll vs) ts))
  | ctx, .and ts => ctx.wrap (.and (flattenAnd (norms .none ts)))
  | .exists vs, .or ts => .or (flattenOr (norms (.exists vs) ts))
  | ctx, .or ts => ctx.wrap (.or (flattenOr (norms .none ts)))
  | ctx, .forAll vs a => ctx.wrap (norm (.forAll vs) a)
  | ctx, .exists vs a => ctx.wrap (norm (.exists vs) a)
  | ctx, .some vs a => ctx.wrap (.some vs a)
  | ctx, .someElse vs a b c => ctx.wrap (.someElse vs a b c)
@[grind =] def norms : Context → List Expr → List Expr
  | _, [] => []
  | ctx, t :: ts => norm ctx t :: norms ctx ts
end

theorem norms_eq_map (ctx : Context) (ts : List Expr) : norms ctx ts = ts.map (norm ctx) := by
  induction ts with
  | nil => rfl
  | cons t ts ih => rw [norms, ih, List.map_cons]

section Flatten

variable {ts : List Expr} {P : Expr → Prop}

theorem forall_mem_flattenAnd (parts : ∀ us, P (.and us) ↔ ∀ u ∈ us, P u) : (∀ t ∈ flattenAnd ts, P t) ↔ ∀ t ∈ ts, P t := by
  induction ts with
  | nil => rfl
  | cons t ts ih =>
    rw [List.forall_mem_cons, ← ih]
    cases t with
    | and us => rw [flattenAnd, List.forall_mem_append, parts]
    | _ => exact List.forall_mem_cons

theorem forall_mem_flattenOr (parts : ∀ us, P (.or us) ↔ ∀ u ∈ us, P u) : (∀ t ∈ flattenOr ts, P t) ↔ ∀ t ∈ ts, P t := by
  induction ts with
  | nil => rfl
  | cons t ts ih =>
    rw [List.forall_mem_cons, ← ih]
    cases t with
    | or us => rw [flattenOr, List.forall_mem_append, parts]
    | _ => exact List.forall_mem_cons

end Flatten

section Sorts

variable {e a b : Expr} {s : FSort} {ctx : Context} {vs : List Variable} {ts : List Expr}

/-- A quantifier stands over formulas only. -/
def Context.Fits (ctx : Context) (s : FSort) : Prop := ctx = .none ∨ s = .boolean

theorem ofSort_and : (Expr.and ts).OfSort .boolean ↔ ∀ t ∈ ts, t.OfSort .boolean := by
  rw [Expr.OfSort, ofSorts_map, and_iff_right rfl]

theorem ofSort_or : (Expr.or ts).OfSort .boolean ↔ ∀ t ∈ ts, t.OfSort .boolean := by
  rw [Expr.OfSort, ofSorts_map, and_iff_right rfl]

theorem ofSort_restrict {quantifier : List Variable → Expr → Expr} (same : ∀ ws, (quantifier ws e).OfSort s ↔ e.OfSort s) (h : e.OfSort s) :
    (restrict quantifier vs e).OfSort s := by
  rw [restrict]
  split
  · exact h
  · exact (same _).mpr h

theorem ofSort_wrap (fits : ctx.Fits s) (h : e.OfSort s) : (ctx.wrap e).OfSort s := by
  cases ctx with
  | none => exact h
  | forAll vs | «exists» vs =>
    obtain rfl := fits.resolve_left (by simp)
    exact ofSort_restrict (fun ws => and_iff_right rfl) h

theorem ofSorts_norms {ss : List FSort} (h : OfSorts ts ss) (ih : ∀ t ∈ ts, ∀ s, t.OfSort s → (norm .none t).OfSort s) :
    OfSorts (norms .none ts) ss := by
  induction ts generalizing ss with
  | nil => exact h
  | cons t ts tail =>
    cases ss with
    | nil => exact h.elim
    | cons s ss =>
      rw [List.forall_mem_cons] at ih
      exact ⟨ih.1 s h.1, tail h.2 ih.2⟩

theorem ofSort_norm (fits : ctx.Fits s) (h : e.OfSort s) : (norm ctx e).OfSort s := by
  have none_fits : ∀ s, Context.none.Fits s := fun _ => .inl rfl
  induction e generalizing ctx s with
  | var v | const c => exact ofSort_wrap fits h
  | apply f ts ih =>
    obtain ⟨domain, sort, args⟩ := h
    exact ofSort_wrap fits ⟨domain, sort, ofSorts_norms args fun t ht s => ih t ht (none_fits s)⟩
  | eq a b ha hb =>
    obtain ⟨rfl, t, sortA, sortB⟩ := h
    exact ofSort_wrap fits ⟨rfl, t, ha (none_fits t) sortA, hb (none_fits t) sortB⟩
  | not a ha =>
    obtain ⟨rfl, sort⟩ := h
    exact ofSort_wrap fits ⟨rfl, ha (none_fits _) sort⟩
  | implies a b ha hb | iff a b ha hb =>
    obtain ⟨rfl, sortA, sortB⟩ := h
    exact ofSort_wrap fits ⟨rfl, ha (none_fits _) sortA, hb (none_fits _) sortB⟩
  | ite c a b hc ha hb =>
    obtain ⟨sortC, sortA, sortB⟩ := h
    exact ofSort_wrap fits ⟨hc (none_fits _) sortC, ha (none_fits _) sortA, hb (none_fits _) sortB⟩
  | and ts ih =>
    obtain rfl := h.1
    have sorts := ofSort_and.mp h
    have terms : ∀ ctx : Context, ∀ t ∈ flattenAnd (norms ctx ts), t.OfSort .boolean := fun ctx => by
      rw [forall_mem_flattenAnd fun _ => ofSort_and, norms_eq_map, List.forall_mem_map]
      exact fun t ht => ih t ht (.inr rfl) (sorts t ht)
    cases ctx with
    | forAll vs => exact ofSort_and.mpr (terms (.forAll vs))
    | none | «exists» vs => exact ofSort_wrap fits (ofSort_and.mpr (terms .none))
  | or ts ih =>
    obtain rfl := h.1
    have sorts := ofSort_or.mp h
    have terms : ∀ ctx : Context, ∀ t ∈ flattenOr (norms ctx ts), t.OfSort .boolean := fun ctx => by
      rw [forall_mem_flattenOr fun _ => ofSort_or, norms_eq_map, List.forall_mem_map]
      exact fun t ht => ih t ht (.inr rfl) (sorts t ht)
    cases ctx with
    | «exists» vs => exact ofSort_or.mpr (terms (.exists vs))
    | none | forAll vs => exact ofSort_wrap fits (ofSort_or.mpr (terms .none))
  | forAll vs a ha | «exists» vs a ha =>
    obtain ⟨rfl, sort⟩ := h
    exact ofSort_wrap fits (ha (.inr rfl) sort)
  | some | someElse => exact h.elim

theorem mapM_normalizeQuantifiers (ctx : Context) (h : ∀ t ∈ ts, normalizeQuantifiers (ctx.quantify t) = some (norm ctx t)) :
    (ts.map ctx.quantify).mapM normalizeQuantifiers = some (norms ctx ts) := by
  rw [norms_eq_map, mapM_eq_some_iff, List.forall₂_map_left_iff, List.forall₂_map_right_iff]
  exact List.forall₂_same.mpr h

/-- The code computes the normal form. -/
theorem normalizeQuantifiers_eq (fits : ctx.Fits s) (h : e.OfSort s) : normalizeQuantifiers (ctx.quantify e) = some (norm ctx e) := by
  have none_fits : ∀ s, Context.none.Fits s := fun _ => .inl rfl
  -- the quantifier is restricted where it does not distribute
  have wrapped : ∀ {ctx : Context} {e e' : Expr}, normalizeQuantifiers e = some e' → (∀ ts vs, ctx = .forAll vs → e ≠ .and ts) →
      (∀ ts vs, ctx = .exists vs → e ≠ .or ts) → normalizeQuantifiers (ctx.quantify e) = some (ctx.wrap e') := by
    intro ctx e e' body notAnd notOr
    cases ctx with
    | none => exact body
    | forAll vs => rw [Context.quantify, normalizeQuantifiers_forAll fun ts => notAnd ts vs rfl, body]; rfl
    | «exists» vs => rw [Context.quantify, normalizeQuantifiers_exists fun ts => notOr ts vs rfl, body]; rfl
  have list : ∀ {ts : List Expr}, (∀ t ∈ ts, normalizeQuantifiers t = some (norm .none t)) →
      ts.mapM normalizeQuantifiers = some (norms .none ts) := fun {ts} terms => by
    have := mapM_normalizeQuantifiers .none terms
    rwa [show ts.map Context.none.quantify = ts from List.map_id ts] at this
  induction e generalizing ctx s with
  | var v | const c => exact wrapped (by rw [normalizeQuantifiers]) (by simp) (by simp)
  | apply f ts ih =>
    obtain ⟨domain, sort, args⟩ := h
    have sorts := ofSorts_norms args fun t _ s => ofSort_norm (none_fits s)
    refine wrapped ?_ (by simp) (by simp)
    rw [normalizeQuantifiers_apply, list, Option.bind_some, Expr.newApply_of_ofSorts sort sorts]
    intro t ht
    obtain ⟨s, sort⟩ := args.exists_sort t ht
    exact ih t ht (none_fits s) sort
  | eq a b ha hb =>
    obtain ⟨rfl, t, sortA, sortB⟩ := h
    refine wrapped ?_ (by simp) (by simp)
    have A := ha (none_fits t) sortA
    have B := hb (none_fits t) sortB
    rw [Context.quantify] at A B
    rw [normalizeQuantifiers, A, Option.bind_some, B]
    rfl
  | not a ha =>
    obtain ⟨rfl, sort⟩ := h
    refine wrapped ?_ (by simp) (by simp)
    have A := ha (none_fits _) sort
    rw [Context.quantify] at A
    rw [normalizeQuantifiers, A]
    rfl
  | implies a b ha hb | iff a b ha hb =>
    obtain ⟨rfl, sortA, sortB⟩ := h
    refine wrapped ?_ (by simp) (by simp)
    have A := ha (none_fits _) sortA
    have B := hb (none_fits _) sortB
    rw [Context.quantify] at A B
    rw [normalizeQuantifiers, A, Option.bind_some, B]
    rfl
  | ite c a b hc ha hb =>
    obtain ⟨sortC, sortA, sortB⟩ := h
    refine wrapped ?_ (by simp) (by simp)
    have C := hc (none_fits _) sortC
    have A := ha (none_fits _) sortA
    have B := hb (none_fits _) sortB
    rw [Context.quantify] at C A B
    rw [normalizeQuantifiers, C, Option.bind_some, A, Option.bind_some, B]
    rfl
  | and ts ih =>
    obtain rfl := h.1
    have sorts := ofSort_and.mp h
    have terms : ∀ ctx : Context, ∀ t ∈ ts, normalizeQuantifiers (ctx.quantify t) = some (norm ctx t) := fun ctx t ht =>
      ih t ht (.inr rfl) (sorts t ht)
    have plain : normalizeQuantifiers (.and ts) = some (.and (flattenAnd (norms .none ts))) := by
      rw [normalizeQuantifiers_and, list (terms .none)]
      rfl
    cases ctx with
    | forAll vs =>
      have list := mapM_normalizeQuantifiers _ (terms (.forAll vs))
      rw [Context.quantify, normalizeQuantifiers, normalizeQuantifiers_and]
      exact congrArg (Option.map fun ys => Expr.and (flattenAnd ys)) list
    | none => exact wrapped plain (by simp) (by simp)
    | «exists» vs => exact wrapped plain (by simp) (by simp)
  | or ts ih =>
    obtain rfl := h.1
    have sorts := ofSort_or.mp h
    have terms : ∀ ctx : Context, ∀ t ∈ ts, normalizeQuantifiers (ctx.quantify t) = some (norm ctx t) := fun ctx t ht =>
      ih t ht (.inr rfl) (sorts t ht)
    have plain : normalizeQuantifiers (.or ts) = some (.or (flattenOr (norms .none ts))) := by
      rw [normalizeQuantifiers_or, list (terms .none)]
      rfl
    cases ctx with
    | «exists» vs =>
      have list := mapM_normalizeQuantifiers _ (terms (.exists vs))
      rw [Context.quantify, normalizeQuantifiers, normalizeQuantifiers_or]
      exact congrArg (Option.map fun ys => Expr.or (flattenOr ys)) list
    | none => exact wrapped plain (by simp) (by simp)
    | forAll vs => exact wrapped plain (by simp) (by simp)
  | forAll vs a ha =>
    obtain ⟨rfl, sort⟩ := h
    exact wrapped (@ha .boolean (.forAll vs) (.inr rfl) sort) (by simp) (by simp)
  | «exists» vs a ha =>
    obtain ⟨rfl, sort⟩ := h
    exact wrapped (@ha .boolean (.exists vs) (.inr rfl) sort) (by simp) (by simp)
  | some | someElse => exact h.elim

end Sorts

section Values

variable {D : Domain} {M : Structure D} {e a b : Expr} {s : FSort} {ctx : Context} {vs : List Variable} {ts : List Expr} {env : Env D}

theorem off_nil {env' : Env D} : env.Off [] env' ↔ env' = env := by
  constructor
  · exact fun off => funext fun v => off v List.not_mem_nil
  · rintro rfl
    exact fun _ _ => rfl

/-- Variables that are not free need not be quantified. -/
theorem exists_off_filter (vs : List Variable) (env : Env D) {P : Env D → Prop} (free : ∀ env env', (∀ v ∈ e.freeVariables, env v = env' v) → (P env ↔ P env')) :
    (∃ env', env.Off (vs.filter (· ∈ e.freeVariables)) env' ∧ P env') ↔ ∃ env', env.Off vs env' ∧ P env' := by
  classical
  constructor
  · rintro ⟨env', off, holds⟩
    exact ⟨env', fun v hv => off v fun mem => hv (List.mem_of_mem_filter mem), holds⟩
  · rintro ⟨env', off, holds⟩
    refine ⟨fun v => if v ∈ vs.filter (· ∈ e.freeVariables) then env' v else env v, fun v hv => if_neg hv, ?_⟩
    refine (free _ _ fun v hv => ?_).mp holds
    split
    · rfl
    · rename_i other
      exact off v fun mem => other (List.mem_filter.mpr ⟨mem, decide_eq_true hv⟩)

theorem holds_restrict_exists : (restrict .exists vs e).Holds M env ↔ (Expr.exists vs e).Holds M env := by
  have free : ∀ env env' : Env D, (∀ v ∈ e.freeVariables, env v = env' v) → (e.Holds M env ↔ e.Holds M env') := fun _ _ agree =>
    Expr.holds_congr _ _ (Expr.eval_freeVariables M agree)
  rw [Expr.holds_exists, ← exists_off_filter vs env free, restrict]
  split
  · rename_i none
    rw [List.isEmpty_iff.mp none]
    simp only [off_nil, exists_eq_left]
  · exact Expr.holds_exists M env _ _

theorem holds_restrict_forAll : (restrict .forAll vs e).Holds M env ↔ (Expr.forAll vs e).Holds M env := by
  have free : ∀ env env' : Env D, (∀ v ∈ e.freeVariables, env v = env' v) → (¬ e.Holds M env ↔ ¬ e.Holds M env') := fun _ _ agree =>
    not_congr (Expr.holds_congr _ _ (Expr.eval_freeVariables M agree))
  have filtered := exists_off_filter vs env free
  rw [Expr.holds_forAll, restrict]
  split
  · rename_i none
    rw [List.isEmpty_iff.mp none] at filtered
    simp only [off_nil, exists_eq_left] at filtered
    rw [← not_iff_not, filtered]
    simp only [not_forall, exists_prop]
  · rw [Expr.holds_forAll, ← not_iff_not]
    simpa only [not_forall, exists_prop] using filtered

theorem eval_boolean (ha : a.OfSort .boolean) (hb : b.OfSort .boolean) (same : a.Holds M env ↔ b.Holds M env) : a.eval M env = b.eval M env :=
  Val.eq_of_holds_iff (ha.sort_eval M env) (hb.sort_eval M env) same

/-- An expression of the value of another one can be put under its quantifier. -/
theorem eval_wrap (fits : ctx.Fits s) (hb : b.OfSort s) (same : ∀ env, b.eval M env = a.eval M env) (env : Env D) :
    (ctx.wrap b).eval M env = (ctx.quantify a).eval M env := by
  cases ctx with
  | none => exact same env
  | forAll vs =>
    obtain rfl := fits.resolve_left (by simp)
    refine Val.eq_of_holds_iff ((ofSort_wrap fits hb).sort_eval M env) rfl (holds_restrict_forAll.trans ?_)
    simp only [Context.quantify, Expr.Holds, Expr.eval, same]
  | «exists» vs =>
    obtain rfl := fits.resolve_left (by simp)
    refine Val.eq_of_holds_iff ((ofSort_wrap fits hb).sort_eval M env) rfl (holds_restrict_exists.trans ?_)
    simp only [Context.quantify, Expr.Holds, Expr.eval, same]

theorem evalList_norms (h : ∀ t ∈ ts, ∀ env, (norm .none t).eval M env = t.eval M env) (env : Env D) :
    evalList M (norms .none ts) env = evalList M ts env := by
  rw [norms_eq_map, evalList_eq_map, evalList_eq_map, List.map_map]
  exact List.map_congr_left fun t ht => h t ht env

theorem holds_and_flatten : (Expr.and (flattenAnd ts)).Holds M env ↔ ∀ t ∈ ts, t.Holds M env := by
  rw [Expr.holds_and, forall_mem_flattenAnd fun us => Expr.holds_and M env us]

theorem holds_or_flatten (f : Expr → Expr) : (Expr.or (flattenOr (ts.map f))).Holds M env ↔ ∃ t ∈ ts, (f t).Holds M env := by
  have none : (∀ t ∈ flattenOr (ts.map f), ¬ t.Holds M env) ↔ ∀ t ∈ ts.map f, ¬ t.Holds M env := forall_mem_flattenOr fun us => by simp
  rw [List.forall_mem_map] at none
  rw [Expr.holds_or, ← not_iff_not]
  simpa using none

theorem eval_norm (fits : ctx.Fits s) (h : e.OfSort s) (env : Env D) : (norm ctx e).eval M env = (ctx.quantify e).eval M env := by
  have none_fits : ∀ s, Context.none.Fits s := fun _ => .inl rfl
  induction e generalizing ctx s env with
  | var v | const c => exact eval_wrap fits h (fun _ => rfl) env
  | apply f ts ih =>
    refine eval_wrap fits (ofSort_norm (none_fits s) h) (fun env => ?_) env
    obtain ⟨domain, sort, args⟩ := h
    rw [norm, Context.wrap, Expr.eval, Expr.eval, evalList_norms]
    intro t ht env
    obtain ⟨s, sort⟩ := args.exists_sort t ht
    exact ih t ht (none_fits s) sort env
  | eq a b ha hb =>
    refine eval_wrap fits (ofSort_norm (none_fits s) h) (fun env => ?_) env
    obtain ⟨rfl, t, sortA, sortB⟩ := h
    rw [norm, Context.wrap, Expr.eval, Expr.eval, ha (none_fits t) sortA, hb (none_fits t) sortB]
    rfl
  | not a ha =>
    refine eval_wrap fits (ofSort_norm (none_fits s) h) (fun env => ?_) env
    obtain ⟨rfl, sort⟩ := h
    rw [norm, Context.wrap, Expr.eval, Expr.eval, ha (none_fits _) sort]
    rfl
  | implies a b ha hb | iff a b ha hb =>
    refine eval_wrap fits (ofSort_norm (none_fits s) h) (fun env => ?_) env
    obtain ⟨rfl, sortA, sortB⟩ := h
    rw [norm, Context.wrap, Expr.eval, Expr.eval, ha (none_fits _) sortA, hb (none_fits _) sortB]
    rfl
  | ite c a b hc ha hb =>
    refine eval_wrap fits (ofSort_norm (none_fits s) h) (fun env => ?_) env
    obtain ⟨sortC, sortA, sortB⟩ := h
    rw [norm, Context.wrap, Expr.eval, Expr.eval, hc (none_fits _) sortC, ha (none_fits _) sortA, hb (none_fits _) sortB]
    rfl
  | and ts ih =>
    obtain rfl := h.1
    have sorts := ofSort_and.mp h
    have sort : (Expr.and (flattenAnd (norms .none ts))).OfSort .boolean := @ofSort_norm _ _ .none (none_fits _) h
    have plain : ∀ env, (Expr.and (flattenAnd (norms .none ts))).eval M env = (Expr.and ts).eval M env := fun env => by
      refine eval_boolean sort h ?_
      rw [holds_and_flatten, Expr.holds_and, norms_eq_map, List.forall_mem_map]
      exact forall₂_congr fun t ht => Expr.holds_congr M env (ih t ht (none_fits _) (sorts t ht) env)
    cases ctx with
    | none => exact plain env
    | «exists» vs => exact eval_wrap fits sort plain env
    | forAll vs =>
      refine eval_boolean (ofSort_norm fits h) ⟨rfl, h⟩ ?_
      have term : ∀ t ∈ ts, ((norm (.forAll vs) t).Holds M env ↔ ∀ env', env.Off vs env' → t.Holds M env') := fun t ht =>
        (Expr.holds_congr M env (ih t ht fits (sorts t ht) env)).trans (Expr.holds_forAll M env vs t)
      rw [norm, holds_and_flatten, Context.quantify, Expr.holds_forAll, norms_eq_map, List.forall_mem_map]
      simp only [Expr.holds_and]
      constructor
      · exact fun holds env' off t ht => (term t ht).mp (holds t ht) env' off
      · exact fun holds t ht => (term t ht).mpr fun env' off => holds env' off t ht
  | or ts ih =>
    obtain rfl := h.1
    have sorts := ofSort_or.mp h
    have sort : (Expr.or (flattenOr (norms .none ts))).OfSort .boolean := @ofSort_norm _ _ .none (none_fits _) h
    have plain : ∀ env, (Expr.or (flattenOr (norms .none ts))).eval M env = (Expr.or ts).eval M env := fun env => by
      refine eval_boolean sort h ?_
      rw [norms_eq_map, holds_or_flatten, Expr.holds_or]
      exact exists_congr fun t => and_congr_right fun ht => Expr.holds_congr M env (ih t ht (none_fits _) (sorts t ht) env)
    cases ctx with
    | none => exact plain env
    | forAll vs => exact eval_wrap fits sort plain env
    | «exists» vs =>
      refine eval_boolean (ofSort_norm fits h) ⟨rfl, h⟩ ?_
      have term : ∀ t ∈ ts, ((norm (.exists vs) t).Holds M env ↔ ∃ env', env.Off vs env' ∧ t.Holds M env') := fun t ht =>
        (Expr.holds_congr M env (ih t ht fits (sorts t ht) env)).trans (Expr.holds_exists M env vs t)
      rw [norm, norms_eq_map, holds_or_flatten, Context.quantify, Expr.holds_exists]
      simp only [Expr.holds_or]
      constructor
      · rintro ⟨t, ht, holds⟩
        obtain ⟨env', off, holds⟩ := (term t ht).mp holds
        exact ⟨env', off, t, ht, holds⟩
      · rintro ⟨env', off, t, ht, holds⟩
        exact ⟨t, ht, (term t ht).mpr ⟨env', off, holds⟩⟩
  | forAll vs a ha =>
    obtain ⟨rfl, sort⟩ := h
    exact eval_wrap fits (ofSort_norm (.inr rfl) sort) (fun env => @ha .boolean (.forAll vs) (.inr rfl) sort env) env
  | «exists» vs a ha =>
    obtain ⟨rfl, sort⟩ := h
    exact eval_wrap fits (ofSort_norm (.inr rfl) sort) (fun env => @ha .boolean (.exists vs) (.inr rfl) sort env) env
  | some | someElse => exact h.elim

end Values

end Goivy
