import Goivy.LogicUtil.Meaning
import Goivy.Util.InsMap
import Goivy.Util.OptionList

/-! Substitution does not capture variables. -/
namespace Goivy.LogicUtil

variable {V : Type} {W : Reading V} {ρ : Assignment V} {subs newsubs : Subs} {vs : List LogicVariable} {e e' : Expr}

section Quantifiers

theorem mem_deduplicateAndSort {v : LogicVariable} : v ∈ deduplicateAndSort vs ↔ v ∈ vs := by
  rw [deduplicateAndSort, (List.perm_insertionSort _ _).mem_iff, List.mem_dedup]

theorem mem_variables (b : Binder) {v : LogicVariable} : v ∈ b.variables vs ↔ v ∈ vs := by
  cases b with
  | forAll | rawForAll | «exists» => exact mem_deduplicateAndSort
  | _ => exact Iff.rfl

theorem bind_variables (b : Binder) (ρ : Assignment V) (xs : LogicVariable → V) : ρ.bind (b.variables vs) xs = ρ.bind vs xs := by
  funext j x
  cases x with
  | const c => rfl
  | var v => simp only [Assignment.bind, mem_variables]

/-- The order of the variables of a quantifier does not matter. -/
theorem value_variables (b : Binder) (fs : List ((LogicVariable → V) → Nat → V)) : b.value W (b.variables vs) fs = b.value W vs fs := by
  have ranged : ∀ xs, Ranged W (deduplicateAndSort vs) xs ↔ Ranged W vs xs := fun xs => by
    simp only [Ranged, mem_deduplicateAndSort]
  funext i
  cases b with
  | forAll | rawForAll | «exists» =>
    match fs with
    | [] | _ :: _ :: _ => rfl
    | [f] => simp only [Binder.variables, Binder.value, ranged]
  | _ => rfl

theorem nodeSort_variables (b : Binder) (ss : List LSort) : b.nodeSort (b.variables vs) ss = b.nodeSort vs ss := by
  cases b <;> rfl

end Quantifiers

section Values

theorem substituteWithoutBoundVariables_spec (h : substituteWithoutBoundVariables vs subs = some newsubs) :
    newsubs = subs.filter (fun p => p.1 ∉ vs.map Symbol.var) ∧ ∀ v ∈ vs, ∀ p ∈ newsubs, v ∉ p.2.freeVariables := by
  rw [substituteWithoutBoundVariables] at h
  split at h
  · contradiction
  · rename_i free
    rw [List.any_eq_true, not_exists] at free
    obtain rfl := Option.some.inj h
    refine ⟨rfl, fun v hv p hp captured => free v ⟨hv, ?_⟩⟩
    exact decide_eq_true (List.mem_flatMap.mpr ⟨p, hp, captured⟩)

/-- Below a binder, the replacements have the values that they have outside. -/
theorem update_bind (h : substituteWithoutBoundVariables vs subs = some newsubs) (xs : LogicVariable → V)
    (heads : ∀ p ∈ subs, ∀ v, .var v ∈ p.2.headSymbols → v ∉ vs) :
    (ρ.bind vs xs).update W newsubs = (ρ.update W subs).bind vs xs := by
  obtain ⟨rfl, free⟩ := substituteWithoutBoundVariables_spec h
  have apart : ∀ p ∈ subs.filter (fun p => p.1 ∉ vs.map Symbol.var), p.2.eval W (ρ.bind vs xs) = p.2.eval W ρ := by
    intro p hp
    refine Expr.eval_congr fun x hx j => ?_
    cases x with
    | const c => rfl
    | var v =>
      refine if_neg fun hv => ?_
      rcases Expr.mem_freeVariables hx with found | head
      · exact free v hv p hp found
      · exact heads p (List.mem_of_mem_filter hp) v head hv
  funext j x
  have outside : x ∉ vs.map Symbol.var → (ρ.bind vs xs).update W (subs.filter fun p => p.1 ∉ vs.map Symbol.var) j x =
      ρ.update W subs j x := by
    intro hx
    have same : (subs.filter fun p => p.1 ∉ vs.map Symbol.var).lookup x = subs.lookup x := by
      rw [InsMap.lookup_filter_notMem, if_neg hx]
    have stays : ρ.bind vs xs j x = ρ j x := by
      cases x with
      | const c => rfl
      | var v => exact if_neg fun hv => hx (List.mem_map_of_mem hv)
    rw [Assignment.update, Assignment.update, same, stays]
    cases found : subs.lookup x with
    | none => rfl
    | some r =>
      have listed := InsMap.mem_of_lookup (same.trans found)
      rw [Option.map_some, Option.map_some, apart _ listed]
  cases x with
  | const c => exact outside (by simp)
  | var v =>
    by_cases hv : v ∈ vs
    · have gone : (subs.filter fun p => p.1 ∉ vs.map Symbol.var).lookup (.var v) = none := by
        rw [InsMap.lookup_filter_notMem, if_pos (List.mem_map_of_mem hv)]
      rw [Assignment.update, gone]
      exact (if_pos hv).trans (if_pos hv).symm
    · rw [outside (by simpa using hv)]
      exact (if_neg hv).symm

theorem map_eq_of_forall₂ {α β γ : Type} {R : α → β → Prop} {as : List α} {bs : List β} {f : β → γ} {g : α → γ}
    (h : List.Forall₂ R as bs) (same : ∀ a ∈ as, ∀ b, R a b → f b = g a) : bs.map f = as.map g := by
  induction h with
  | nil => rfl
  | cons hab _ ih =>
    rw [List.forall_mem_cons] at same
    rw [List.map_cons, List.map_cons, same.1 _ hab, ih same.2]

theorem eval_substituteRec (h : e.substituteRec subs = some e') (keys : ∀ x ∈ e.headSymbols, x ∉ subs.map Prod.fst)
    (heads : ∀ p ∈ subs, ∀ v, .var v ∈ p.2.headSymbols → v ∉ e.boundVariables) (ρ : Assignment V) :
    e'.eval W ρ = e.eval W (ρ.update W subs) := by
  induction e generalizing subs e' ρ with
  | symbol x =>
    obtain rfl := Option.some.inj h
    funext i
    rw [Expr.eval, Assignment.update]
    cases subs.lookup x with
    | none => rfl
    | some r => rfl
  | apply f ts _ ih =>
    obtain ⟨us, made, new⟩ := Option.bind_eq_some_iff.mp h
    rw [substituteList_eq, mapM_eq_some_iff] at made
    rw [Expr.headSymbols, List.forall_mem_append, headSymbolsList_eq] at keys
    simp only [Expr.boundVariables, boundVariablesList_eq, List.mem_flatMap, not_exists, not_and] at heads
    have terms : evals W us ρ = evals W ts (ρ.update W subs) := by
      rw [evals_eq, evals_eq]
      refine map_eq_of_forall₂ made fun t ht u hu => ih t ht hu (fun x hx => keys.2 x (List.mem_flatMap.mpr ⟨t, ht, hx⟩)) ?_ ρ
      exact fun p hp v hv => heads p hp v hv t ht
    have head : f.eval W ρ = f.eval W (ρ.update W subs) := by
      refine Expr.eval_congr fun x hx j => ?_
      have kept : subs.lookup x = none := by
        rw [List.lookup_eq_none_iff]
        intro p hp
        rw [bne_iff_ne]
        rintro rfl
        exact keys.1 _ hx (List.mem_map_of_mem hp)
      rw [Assignment.update, kept]
      rfl
    rw [newApply] at new
    split at new
    · obtain rfl := Option.some.inj new
      funext i
      rw [Expr.eval, Expr.eval, head, terms]
    · contradiction
  | node op ts ih =>
    simp only [Expr.headSymbols, headSymbolsList_eq, List.mem_flatMap] at keys
    simp only [Expr.boundVariables, boundVariablesList_eq, List.mem_flatMap, not_exists, not_and] at heads
    have rest : (substituteList ts subs).bind (newNode op) = some e' := by
      cases op with
      | cond => contradiction
      | _ => exact h
    obtain ⟨us, made, new⟩ := Option.bind_eq_some_iff.mp rest
    rw [substituteList_eq, mapM_eq_some_iff] at made
    have args : evals W us ρ = evals W ts (ρ.update W subs) := by
      rw [evals_eq, evals_eq]
      refine map_eq_of_forall₂ made fun t ht u hu => ih t ht hu (fun x hx => keys x ⟨t, ht, hx⟩) ?_ ρ
      exact fun p hp v hv => heads p hp v hv t ht
    rw [newNode] at new
    split at new
    · obtain rfl := Option.some.inj new
      funext i
      rw [Expr.eval, Expr.eval, args]
    · contradiction
  | bind b vs ts ih =>
    obtain ⟨newsubs, inner, rest⟩ := Option.bind_eq_some_iff.mp h
    obtain ⟨us, made, new⟩ := Option.bind_eq_some_iff.mp rest
    rw [substituteList_eq, mapM_eq_some_iff] at made
    simp only [Expr.headSymbols, headSymbolsList_eq, List.mem_filter, List.mem_flatMap, decide_eq_true_eq] at keys
    simp only [Expr.boundVariables, boundVariablesList_eq, List.mem_append, List.mem_flatMap, not_or, not_exists, not_and] at heads
    have narrow := (substituteWithoutBoundVariables_spec inner).1
    have parts : evalParts W us (b.variables vs) ρ = evalParts W ts vs (ρ.update W subs) := by
      rw [evalParts_eq, evalParts_eq]
      refine map_eq_of_forall₂ made fun t ht u hu => funext fun xs => ?_
      rw [bind_variables, ← update_bind inner xs fun p hp v hv => (heads p hp v hv).1]
      refine ih t ht hu (fun x hx listed => ?_) (fun p hp v hv => ?_) _
      · obtain ⟨p, hp, rfl⟩ := List.mem_map.mp listed
        rw [narrow, List.mem_filter, decide_eq_true_eq] at hp
        exact keys p.1 ⟨⟨t, ht, hx⟩, hp.2⟩ (List.mem_map_of_mem hp.1)
      · rw [narrow] at hp
        exact (heads p (List.mem_of_mem_filter hp) v hv).2 t ht
    rw [newBinder] at new
    split at new
    · obtain rfl := Option.some.inj new
      funext i
      rw [Expr.eval, Expr.eval, value_variables, parts]
    · contradiction

end Values

section Success

/-- Expressions that the constructors return. -/
inductive Expr.Built : Expr → Prop
  | symbol x : Built (.symbol x)
  | apply f ts : Built f → (∀ t ∈ ts, Built t) → applyAccepts f.nodeSort (ts.map nodeSort) = true → Built (.apply f ts)
  | node op ts : op ≠ .cond → (∀ t ∈ ts, Built t) → op.accepts (ts.map nodeSort) = true → Built (.node op ts)
  | bind b vs ts : (∀ t ∈ ts, Built t) → b.accepts vs (ts.map nodeSort) = true → Built (.bind b vs ts)

/-- Each replacement has the sort of what it replaces. -/
def SameSorts (subs : Subs) : Prop := ∀ p ∈ subs, p.2.nodeSort = p.1.sort

theorem substituteList_of_each {ts : List Expr} (each : ∀ t ∈ ts, ∃ t', t.substituteRec subs = some t' ∧ t'.nodeSort = t.nodeSort) :
    ∃ us, substituteList ts subs = some us ∧ us.map Expr.nodeSort = ts.map Expr.nodeSort := by
  choose! g made sort using each
  refine ⟨ts.map g, ?_, ?_⟩
  · rw [substituteList_eq]
    exact mapM_eq_map made
  · rw [List.map_map]
    exact List.map_congr_left sort

theorem substituteRec_of_built (h : e.Built) (sorts : SameSorts subs)
    (free : ∀ p ∈ subs, ∀ v ∈ p.2.freeVariables, v ∉ e.boundVariables) :
    ∃ e', e.substituteRec subs = some e' ∧ e'.nodeSort = e.nodeSort := by
  induction h generalizing subs with
  | symbol x =>
    refine ⟨_, rfl, ?_⟩
    cases found : subs.lookup x with
    | none => rfl
    | some r => exact sorts _ (InsMap.mem_of_lookup found)
  | apply f ts _ _ accepts _ ih =>
    simp only [Expr.boundVariables, boundVariablesList_eq, List.mem_flatMap, not_exists, not_and] at free
    obtain ⟨us, made, same⟩ := substituteList_of_each fun t ht => ih t ht sorts fun p hp v hv => free p hp v hv t ht
    refine ⟨.apply f us, ?_, rfl⟩
    rw [Expr.substituteRec, made, Option.bind_some, newApply, same, if_pos accepts]
  | node op ts supported _ accepts ih =>
    simp only [Expr.boundVariables, boundVariablesList_eq, List.mem_flatMap, not_exists, not_and] at free
    obtain ⟨us, made, same⟩ := substituteList_of_each fun t ht => ih t ht sorts fun p hp v hv => free p hp v hv t ht
    have rest : (substituteList ts subs).bind (newNode op) = some (.node op us) := by
      rw [made, Option.bind_some, newNode, same, if_pos accepts]
    refine ⟨.node op us, ?_, ?_⟩
    · cases op with
      | cond => exact absurd rfl supported
      | _ => exact rest
    · rw [Expr.nodeSort, Expr.nodeSort, nodeSorts_eq, nodeSorts_eq, same]
  | bind b vs ts _ accepts ih =>
    simp only [Expr.boundVariables, boundVariablesList_eq, List.mem_append, List.mem_flatMap, not_or, not_exists, not_and] at free
    have inner : substituteWithoutBoundVariables vs subs = some (subs.filter fun p => p.1 ∉ vs.map Symbol.var) := by
      rw [substituteWithoutBoundVariables, if_neg]
      rw [List.any_eq_true]
      rintro ⟨v, hv, captured⟩
      obtain ⟨p, hp, found⟩ := List.mem_flatMap.mp (of_decide_eq_true captured)
      exact (free p (List.mem_of_mem_filter hp) v found).1 hv
    obtain ⟨us, made, same⟩ := substituteList_of_each fun t ht =>
      ih t ht (fun p hp => sorts p (List.mem_of_mem_filter hp)) fun p hp v hv => (free p (List.mem_of_mem_filter hp) v hv).2 t ht
    refine ⟨.bind b (b.variables vs) us, ?_, ?_⟩
    · rw [Expr.substituteRec, inner, Option.bind_some, made, Option.bind_some, newBinder, same, if_pos accepts]
    · rw [Expr.nodeSort, Expr.nodeSort, nodeSorts_eq, nodeSorts_eq, same, nodeSort_variables]

end Success

section Substitute

def sortS : LSort := .first (.uninterpreted "s")

/-- The substitution of the constant `d` for the variable `Y`. -/
def constantForVariable : Subs := [(.var ⟨"Y", sortS⟩, .symbol (.const ⟨"d", sortS⟩))]

/-- `q(Y)`. -/
def variableArgument : Expr :=
  .apply (.symbol (.const ⟨"q", .function [.uninterpreted "s"] .boolean⟩)) [.symbol (.var ⟨"Y", sortS⟩)]

/-- `($b X. Y)(c)`. -/
def variableInHead : Expr :=
  .apply (.bind (.namedBinder "b" none) [⟨"X", sortS⟩] [.symbol (.var ⟨"Y", sortS⟩)]) [.symbol (.const ⟨"c", sortS⟩)]

/-- A structure in which a function has the value of its body anywhere. -/
noncomputable def bodyReading : Reading Bool where
  carrier _ := Set.univ
  default _ := true
  ofProp p := @decide p (Classical.dec p)
  Holds b := b = true
  holds_ofProp p := @decide_eq_true_iff p (Classical.dec p)
  apply f _ := f
  lambda _ f := f []
  namedBinder _ _ _ f i := f [] i
  whenOperator _ f _ i := f i

end Substitute

end Goivy.LogicUtil
