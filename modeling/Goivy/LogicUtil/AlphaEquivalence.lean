import Goivy.LogicUtil.Capture

/-! Expressions that differ in the names of their variables. -/
namespace Goivy.LogicUtil

abbrev Context := List (LogicVariable × LogicVariable)

section Definitions

variable (R : LogicVariable → LogicVariable → Prop)

/-- Two variables are bound by binders at the same place, or free and related. The innermost binders come first. -/
def Corresponds : Context → LogicVariable → LogicVariable → Prop
  | [], v, w => R v w
  | (a, b) :: ctx, v, w => v = a ∧ w = b ∨ v ≠ a ∧ w ≠ b ∧ Corresponds ctx v w

/-- The variables of a binder and those of another one in an order in which their sorts are the same. A quantifier does not
order its variables. -/
def Binder.Pairs (b : Binder) (vs ws us : List LogicVariable) : Prop :=
  us.map LogicVariable.sort = vs.map LogicVariable.sort ∧
    match b with
    | .forAll | .rawForAll _ | .exists => us.Perm ws
    | _ => us = ws

/-- The binders of formulas and terms as they are read. `RawForAll` is made for the solver only. -/
def Binder.isScope : Binder → Bool
  | .some _ _ | .rawForAll _ => false
  | _ => true

variable (deep : Bool)

mutual
/-- Equality up to the names of the bound variables, with related free variables. Unless it is deep, the heads of applications
and the parts of descriptions are the same expressions, and `RawForAll` binds nothing. -/
def AlphaEq : Context → Expr → Expr → Prop
  | ctx, .symbol (.var v), .symbol (.var w) => Corresponds R ctx v w
  | _, .symbol (.const c), .symbol (.const d) => c = d
  | ctx, .apply f ts, .apply g us => (if deep then AlphaEq ctx f g else f = g) ∧ AlphaEqList ctx ts us
  | ctx, .node op ts, .node op' us => op = op' ∧ AlphaEqList ctx ts us
  | ctx, .bind b vs ts, .bind c ws us => b = c ∧
      if deep || b.isScope then ∃ ws', b.Pairs vs ws ws' ∧ AlphaEqList ((vs.zip ws').reverse ++ ctx) ts us
      else if b.isDescription then ws.map LogicVariable.sort = vs.map LogicVariable.sort ∧ ts = us
      else vs = ws ∧ AlphaEqList ctx ts us
  | _, _, _ => False
def AlphaEqList : Context → List Expr → List Expr → Prop
  | _, [], [] => True
  | ctx, t :: ts, u :: us => AlphaEq ctx t u ∧ AlphaEqList ctx ts us
  | _, _, _ => False
end

end Definitions

section Scopes

variable {R R' : LogicVariable → LogicVariable → Prop} {ctx inner : Context} {v w : LogicVariable} {vs ws us : List LogicVariable}

theorem Corresponds.mono (h : Corresponds R ctx v w) (sub : ∀ v w, R v w → R' v w) : Corresponds R' ctx v w := by
  induction ctx with
  | nil => exact sub v w h
  | cons p ctx ih => exact h.imp id fun ⟨left, right, rest⟩ => ⟨left, right, ih rest⟩

/-- A variable that the inner binders do not bind corresponds to one that they do not bind. -/
theorem Corresponds.outside (h : Corresponds R (inner ++ ctx) v w) (free : v ∉ inner.map Prod.fst) : Corresponds R ctx v w := by
  induction inner with
  | nil => exact h
  | cons p inner ih =>
    rw [List.map_cons, List.mem_cons, not_or] at free
    obtain ⟨same, -⟩ | ⟨-, -, rest⟩ := h
    · exact absurd same free.1
    · exact ih rest free.2

/-- A variable that is bound on the right is bound on the left, and the relation of the free ones does not matter. -/
theorem Corresponds.of_mem (h : Corresponds R ctx v w) (bound : w ∈ ctx.map Prod.snd) : Corresponds R' ctx v w := by
  induction ctx with
  | nil => contradiction
  | cons p ctx ih =>
    refine h.imp id fun ⟨left, right, rest⟩ => ⟨left, right, ih rest ?_⟩
    exact (List.mem_cons.mp bound).resolve_left right

theorem corresponds_of_notMem (left : v ∉ ctx.map Prod.fst) (right : w ∉ ctx.map Prod.snd) : Corresponds R ctx v w ↔ R v w := by
  induction ctx with
  | nil => exact Iff.rfl
  | cons p ctx ih =>
    rw [List.map_cons, List.mem_cons, not_or] at left right
    rw [Corresponds, ih left.2 right.2]
    simp [left.1, right.1]

theorem Corresponds.notMem_fst (h : Corresponds R ctx v w) (free : w ∉ ctx.map Prod.snd) : v ∉ ctx.map Prod.fst := by
  induction ctx with
  | nil => exact List.not_mem_nil
  | cons p ctx ih =>
    rw [List.map_cons, List.mem_cons, not_or] at free ⊢
    obtain ⟨-, same⟩ | ⟨left, -, rest⟩ := h
    · exact absurd same free.1
    · exact ⟨left, ih rest free.2⟩

/-- Under binders that keep their variables, a variable corresponds to itself if it is bound there, or does so outside. -/
theorem corresponds_self (same : ∀ p ∈ inner, p.1 = p.2) (h : v ∈ inner.map Prod.fst ∨ Corresponds R ctx v v) :
    Corresponds R (inner ++ ctx) v v := by
  induction inner with
  | nil => exact h.resolve_left List.not_mem_nil
  | cons p inner ih =>
    rw [List.forall_mem_cons] at same
    by_cases here : v = p.1
    · exact .inl ⟨here, here.trans same.1⟩
    · refine .inr ⟨here, same.1 ▸ here, ih same.2 (h.imp_left fun mem => ?_)⟩
      exact (List.mem_cons.mp mem).resolve_left here

theorem Binder.Pairs.length {b : Binder} (pairs : b.Pairs vs ws us) : vs.length = us.length := by
  have sizes := congrArg List.length pairs.1
  rw [List.length_map, List.length_map] at sizes
  exact sizes.symm

theorem Binder.Pairs.mem_iff {b : Binder} (pairs : b.Pairs vs ws us) : v ∈ us ↔ v ∈ ws := by
  obtain ⟨-, order⟩ := pairs
  cases b with
  | forAll | rawForAll | «exists» => exact order.mem_iff
  | _ => rw [order]

theorem deduplicateAndSort_perm (distinct : ws.Nodup) : (deduplicateAndSort ws).Perm ws := by
  rw [deduplicateAndSort, distinct.dedup]
  exact List.perm_insertionSort _ _

theorem Binder.Pairs.variables {b : Binder} (pairs : b.Pairs vs ws us) (distinct : ws.Nodup) : b.Pairs vs (b.variables ws) us := by
  refine ⟨pairs.1, ?_⟩
  obtain ⟨-, order⟩ := pairs
  cases b with
  | forAll | rawForAll | «exists» => exact List.Perm.trans order (deduplicateAndSort_perm distinct).symm
  | _ => exact order

/-- Variables that occur once each are paired up to their order in a quantifier. -/
theorem pairs_variables {b : Binder} (sorts : us.map LogicVariable.sort = vs.map LogicVariable.sort) (distinct : us.Nodup) :
    b.Pairs vs (b.variables us) us := by
  have same : b.Pairs vs us us := by
    refine ⟨sorts, ?_⟩
    cases b with
    | forAll | rawForAll | «exists» => exact List.Perm.refl us
    | _ => rfl
  exact same.variables distinct

theorem snd_pairs (length : vs.length = us.length) : ((vs.zip us).reverse ++ ctx).map Prod.snd = us.reverse ++ ctx.map Prod.snd := by
  rw [List.map_append, List.map_reverse, List.map_snd_zip length.ge]

end Scopes

section Relation

variable {R R' : LogicVariable → LogicVariable → Prop} {deep : Bool} {ctx : Context} {e e' : Expr} {ts us : List Expr}

theorem alphaEqList_iff : AlphaEqList R deep ctx ts us ↔ List.Forall₂ (AlphaEq R deep ctx) ts us := by
  induction ts generalizing us with
  | nil => cases us <;> simp [AlphaEqList]
  | cons t ts ih => cases us <;> simp [AlphaEqList, ih]

theorem AlphaEq.mono (h : AlphaEq R deep ctx e e') (sub : ∀ v w, R v w → R' v w) : AlphaEq R' deep ctx e e' := by
  have list : ∀ {ctx : Context} {ts us : List Expr}, (∀ t ∈ ts, ∀ (ctx : Context) (u : Expr), AlphaEq R deep ctx t u → AlphaEq R' deep ctx t u) →
      AlphaEqList R deep ctx ts us → AlphaEqList R' deep ctx ts us := by
    intro ctx ts us each same
    rw [alphaEqList_iff] at same ⊢
    induction same with
    | nil => exact .nil
    | cons head _ tail =>
      rw [List.forall_mem_cons] at each
      exact .cons (each.1 _ _ head) (tail each.2)
  induction e generalizing e' ctx with
  | symbol x =>
    cases x with
    | var v =>
      match e' with
      | .symbol (.var w) => exact Corresponds.mono h sub
    | const c =>
      match e' with
      | .symbol (.const d) => exact h
  | apply f ts hf ih =>
    match e' with
    | .apply g us =>
      obtain ⟨head, args⟩ := h
      refine ⟨?_, list (fun t ht ctx u => ih t ht) args⟩
      cases deep with
      | true => exact hf head
      | false => exact head
  | node op ts ih =>
    match e' with
    | .node op' us => exact ⟨h.1, list (fun t ht ctx u => ih t ht) h.2⟩
  | bind b vs ts ih =>
    match e' with
    | .bind c ws us =>
      obtain ⟨same, rest⟩ := h
      refine ⟨same, ?_⟩
      split_ifs at rest ⊢
      · obtain ⟨ws', pairs, parts⟩ := rest
        exact ⟨ws', pairs, list (fun t ht ctx u => ih t ht) parts⟩
      · exact rest
      · exact ⟨rest.1, list (fun t ht ctx u => ih t ht) rest.2⟩

/-- An expression is equal to itself where its free variables correspond to themselves. -/
theorem AlphaEq.refl (free : ∀ v, .var v ∈ e.symbols → Corresponds R ctx v v) : AlphaEq R true ctx e e := by
  have list : ∀ {ctx : Context} {ts : List Expr}, (∀ t ∈ ts, AlphaEq R true ctx t t) → AlphaEqList R true ctx ts ts := fun each =>
    alphaEqList_iff.mpr (List.forall₂_same.mpr each)
  induction e generalizing ctx with
  | symbol x =>
    cases x with
    | var v => exact free v (List.mem_singleton_self _)
    | const c => exact rfl
  | apply f ts hf ih =>
    refine ⟨hf fun v hv => free v (List.mem_append_left _ hv), list fun t ht => ih t ht fun v hv => ?_⟩
    refine free v (List.mem_append_right _ ?_)
    rw [symbolsList_eq]
    exact List.mem_flatMap.mpr ⟨t, ht, hv⟩
  | node op ts ih =>
    refine ⟨rfl, list fun t ht => ih t ht fun v hv => free v ?_⟩
    rw [Expr.symbols, symbolsList_eq]
    exact List.mem_flatMap.mpr ⟨t, ht, hv⟩
  | bind b vs ts ih =>
    refine ⟨rfl, ?_⟩
    rw [if_pos (Bool.true_or _)]
    refine ⟨vs, ⟨rfl, ?_⟩, ?_⟩
    · cases b with
      | forAll | rawForAll | «exists» => exact List.Perm.refl vs
      | _ => rfl
    · refine list fun t ht => ih t ht fun v hv => corresponds_self ?_ ?_
      · simp [List.zip, List.zipWith_self]
      · rw [List.map_reverse, List.map_fst_zip le_rfl, List.mem_reverse]
        by_cases bound : v ∈ vs
        · exact .inl bound
        · refine .inr (free v ?_)
          rw [Expr.symbols, symbolsList_eq, List.mem_filter, decide_eq_true_eq]
          refine ⟨List.mem_flatMap.mpr ⟨t, ht, hv⟩, fun mem => bound ?_⟩
          obtain ⟨w, hw, same⟩ := List.mem_map.mp mem
          exact Symbol.var.inj same ▸ hw

mutual
/-- Outside heads there are no descriptions and none of the solver's quantifiers, and no variable is free in a head. -/
def Expr.plain : Expr → Bool
  | .symbol _ => true
  | .apply f ts => f.symbols.all (fun x => match x with | .var _ => false | .const _ => true) && plainList ts
  | .node _ ts => plainList ts
  | .bind b _ ts => b.isScope && plainList ts
def plainList : List Expr → Bool
  | [] => true
  | t :: ts => t.plain && plainList ts
end

theorem plainList_iff : plainList ts = true ↔ ∀ t ∈ ts, t.plain = true := by
  induction ts with
  | nil => simp [plainList]
  | cons t ts ih => simp [plainList, ih]

theorem Expr.plain_apply {f : Expr} (h : (Expr.apply f ts).plain = true) : (∀ v, .var v ∉ f.symbols) ∧ ∀ t ∈ ts, t.plain = true := by
  rw [plain, Bool.and_eq_true, List.all_eq_true, plainList_iff] at h
  exact ⟨fun v hv => absurd (h.1 _ hv) Bool.false_ne_true, h.2⟩

theorem Expr.plain_bind {b : Binder} {vs : List LogicVariable} (h : (Expr.bind b vs ts).plain = true) :
    b.isScope = true ∧ ∀ t ∈ ts, t.plain = true := by
  rwa [plain, Bool.and_eq_true, plainList_iff] at h

/-- In a plain expression, what is kept is equal up to names. -/
theorem AlphaEq.of_plain (plain : e.plain = true) (h : AlphaEq R false ctx e e') : AlphaEq R true ctx e e' := by
  have list : ∀ {ctx : Context} {ts us : List Expr}, (∀ t ∈ ts, ∀ u, AlphaEq R false ctx t u → AlphaEq R true ctx t u) →
      AlphaEqList R false ctx ts us → AlphaEqList R true ctx ts us := by
    intro ctx ts us each same
    rw [alphaEqList_iff] at same ⊢
    induction same with
    | nil => exact .nil
    | cons head _ tail =>
      rw [List.forall_mem_cons] at each
      exact .cons (each.1 _ head) (tail each.2)
  induction e generalizing e' ctx with
  | symbol x =>
    cases x with
    | var v =>
      match e' with
      | .symbol (.var w) => exact h
    | const c =>
      match e' with
      | .symbol (.const d) => exact h
  | apply f ts _ ih =>
    match e' with
    | .apply g us =>
      obtain ⟨closed, args⟩ := Expr.plain_apply plain
      obtain ⟨rfl, same⟩ := h
      exact ⟨.refl fun v hv => absurd hv (closed v), list (fun t ht u => ih t ht (args t ht)) same⟩
  | node op ts ih =>
    match e' with
    | .node op' us =>
      rw [Expr.plain, plainList_iff] at plain
      exact ⟨h.1, list (fun t ht u => ih t ht (plain t ht)) h.2⟩
  | bind b vs ts ih =>
    match e' with
    | .bind c ws us =>
      obtain ⟨scope, parts⟩ := Expr.plain_bind plain
      obtain ⟨same, rest⟩ := h
      rw [if_pos (by rw [scope, Bool.or_true])] at rest
      obtain ⟨ws', pairs, each⟩ := rest
      refine ⟨same, ?_⟩
      rw [if_pos (Bool.true_or _)]
      exact ⟨ws', pairs, list (fun t ht u => ih t ht (parts t ht)) each⟩

end Relation

end Goivy.LogicUtil
