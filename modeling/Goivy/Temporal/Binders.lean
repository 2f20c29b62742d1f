import Goivy.Util.InsMap
import Goivy.Temporal.Semantics

/-! The conversion of temporal operators in two steps: `Eventually` and double negations are rewritten, and the operators
that are left become named binders. -/
namespace Goivy

namespace TExpr

mutual
/-- The formula without `Eventually` and without double negations. -/
@[grind =] def core : TExpr → TExpr
  | .eventually environ a => .not (.globally environ (cancelNot a.core))
  | .not a => cancelNot a.core
  | .globally environ a => .globally environ a.core
  | .whenOp name a b => .whenOp name a.core b.core
  | .applyBinder name vs environ body ts => .applyBinder name vs environ body (coreList ts)
  | .binder name vs environ body => .binder name vs environ body
  | .var v => .var v
  | .const c => .const c
  | .apply f ts => .apply f (coreList ts)
  | .eq a b => .eq a.core b.core
  | .and ts => .and (coreList ts)
  | .or ts => .or (coreList ts)
  | .implies a b => .implies a.core b.core
  | .iff a b => .iff a.core b.core
  | .ite c a b => .ite c.core a.core b.core
  | .forAll vs a => .forAll vs a.core
  | .exists vs a => .exists vs a.core
  | .cond a b => .cond a.core b.core
@[grind =] def coreList : List TExpr → List TExpr
  | [] => []
  | t :: ts => t.core :: coreList ts
end

mutual
/-- The formula in which `Globally` and `WhenOperator` are named binders. -/
@[grind =] def introduceBinders : TExpr → TExpr
  | .globally environ a => bindFreeVariables (globallyName environ) a.introduceBinders
  | .whenOp name a b => bindFreeVariables (whenName name) (.cond b.introduceBinders a.introduceBinders)
  | .eventually environ a => .eventually environ a.introduceBinders
  | .not a => .not a.introduceBinders
  | .applyBinder name vs environ body ts => .applyBinder name vs environ body (introduceBindersList ts)
  | .binder name vs environ body => .binder name vs environ body
  | .var v => .var v
  | .const c => .const c
  | .apply f ts => .apply f (introduceBindersList ts)
  | .eq a b => .eq a.introduceBinders b.introduceBinders
  | .and ts => .and (introduceBindersList ts)
  | .or ts => .or (introduceBindersList ts)
  | .implies a b => .implies a.introduceBinders b.introduceBinders
  | .iff a b => .iff a.introduceBinders b.introduceBinders
  | .ite c a b => .ite c.introduceBinders a.introduceBinders b.introduceBinders
  | .forAll vs a => .forAll vs a.introduceBinders
  | .exists vs a => .exists vs a.introduceBinders
  | .cond a b => .cond a.introduceBinders b.introduceBinders
@[grind =] def introduceBindersList : List TExpr → List TExpr
  | [] => []
  | t :: ts => t.introduceBinders :: introduceBindersList ts
end

theorem coreList_eq_map (ts : List TExpr) : coreList ts = ts.map core := by
  induction ts with
  | nil => rfl
  | cons t ts ih => simp [coreList, ih]

theorem introduceBindersList_eq_map (ts : List TExpr) : introduceBindersList ts = ts.map introduceBinders := by
  induction ts with
  | nil => rfl
  | cons t ts ih => simp [introduceBindersList, ih]

theorem replaceTemporalsList_eq_map (ts : List TExpr) : replaceTemporalsList ts = ts.map replaceTemporals := by
  induction ts with
  | nil => rfl
  | cons t ts ih => simp [replaceTemporalsList, ih]

theorem occurrencesList_eq_flatMap (ts : List TExpr) : occurrencesList ts = ts.flatMap occurrences := by
  induction ts with
  | nil => rfl
  | cons t ts ih => simp [occurrencesList, ih]

theorem substituteByNameList_eq_map (ts : List TExpr) (subs : List (String × Variable)) :
    substituteByNameList ts subs = ts.map fun t => t.substituteByName subs := by
  induction ts with
  | nil => rfl
  | cons t ts ih => simp [substituteByNameList, ih]

theorem cancelNot_bindFreeVariables (name : String) (e : TExpr) :
    cancelNot (bindFreeVariables name e) = .not (bindFreeVariables name e) := by
  simp only [bindFreeVariables, normalizeFreeVariables]
  cases e.freeVariablesInOrder <;> rfl

theorem introduceBinders_cancelNot (e : TExpr) : (cancelNot e).introduceBinders = cancelNot e.introduceBinders := by
  cases e with
  | globally environ a => rw [introduceBinders, cancelNot_bindFreeVariables]; rfl
  | whenOp name a b => rw [introduceBinders, cancelNot_bindFreeVariables]; rfl
  | _ => rfl

/-- The two steps are what `ReplaceTemporalsByNamedBinder` does at once. -/
theorem replaceTemporals_eq {e : TExpr} {s : FSort} (h : e.OfSort s) : e.replaceTemporals = e.core.introduceBinders := by
  have terms : ∀ {ts : List TExpr} {ss : List FSort}, OfSortsT ts ss →
      (∀ t ∈ ts, ∀ s, t.OfSort s → t.replaceTemporals = t.core.introduceBinders) →
      ts.map replaceTemporals = (ts.map core).map introduceBinders := by
    intro ts ss sorts ih
    induction ts generalizing ss with
    | nil => rfl
    | cons t ts tail =>
      cases ss with
      | nil => exact sorts.elim
      | cons s ss =>
        rw [List.map_cons, List.map_cons, List.map_cons, ih t List.mem_cons_self s sorts.1,
          tail sorts.2 fun u hu => ih u (List.mem_cons_of_mem _ hu)]
  induction e generalizing s with
  | var | const => rfl
  | apply f ts ih =>
    obtain ⟨domain, -, sorts⟩ := h
    rw [replaceTemporals, replaceTemporalsList_eq_map, core, coreList_eq_map, introduceBinders, introduceBindersList_eq_map,
      terms sorts fun t ht s hs => ih t ht hs]
  | and ts ih | or ts ih =>
    rw [replaceTemporals, replaceTemporalsList_eq_map, core, coreList_eq_map, introduceBinders, introduceBindersList_eq_map,
      terms h.2 fun t ht s hs => ih t ht hs]
  | not a ha => rw [replaceTemporals, core, introduceBinders_cancelNot, ha h.2]
  | eventually environ a ha =>
    rw [replaceTemporals, core, introduceBinders, introduceBinders, introduceBinders_cancelNot, ha h.2,
      cancelNot_bindFreeVariables]
  | globally environ a ha => rw [replaceTemporals, core, introduceBinders, ha h.2]
  | whenOp name a b ha hb => rw [replaceTemporals, core, introduceBinders, ha h.1, hb h.2]
  | eq a b ha hb =>
    obtain ⟨-, t, sortA, sortB⟩ := h
    rw [replaceTemporals, core, introduceBinders, ha sortA, hb sortB]
  | implies a b ha hb | iff a b ha hb => rw [replaceTemporals, core, introduceBinders, ha h.2.1, hb h.2.2]
  | ite c a b hc ha hb => rw [replaceTemporals, core, introduceBinders, hc h.1, ha h.2.1, hb h.2.2]
  | forAll vs a ha | «exists» vs a ha => rw [replaceTemporals, core, introduceBinders, ha h.2]
  | cond | binder | applyBinder => exact h.elim

end TExpr

section

variable {D : Domain} (M : Nat → Structure D) (W : WhenReading D)

namespace TExpr

theorem ofSortsT_iff {ts : List TExpr} {ss : List FSort} :
    OfSortsT ts ss ↔ List.Forall₂ (fun t s => t.OfSort s) ts ss := by
  induction ts generalizing ss with
  | nil => cases ss <;> simp [OfSortsT]
  | cons t ts ih => cases ss <;> simp [OfSortsT, ih]

theorem ofSortsT_map {ts : List TExpr} {s : FSort} : OfSortsT ts (ts.map fun _ => s) ↔ ∀ t ∈ ts, t.OfSort s := by
  induction ts with
  | nil => simp [OfSortsT]
  | cons t ts ih => simp only [List.map_cons, OfSortsT, ih, List.forall_mem_cons]

theorem exists_sort {ts : List TExpr} {ss : List FSort} (h : OfSortsT ts ss) : ∀ t ∈ ts, ∃ s, t.OfSort s := by
  rw [ofSortsT_iff] at h
  induction h with
  | nil => simp
  | cons head _ ih => exact List.forall_mem_cons.mpr ⟨⟨_, head⟩, ih⟩

theorem ofSortsT_map_of {f : TExpr → TExpr} {ts : List TExpr} {ss : List FSort} (h : OfSortsT ts ss)
    (ih : ∀ t ∈ ts, ∀ s, t.OfSort s → (f t).OfSort s) : OfSortsT (ts.map f) ss := by
  induction ts generalizing ss with
  | nil => exact h
  | cons t ts tail =>
    cases ss with
    | nil => exact h.elim
    | cons s ss =>
      exact ⟨ih t List.mem_cons_self s h.1, tail h.2 fun u hu => ih u (List.mem_cons_of_mem _ hu)⟩

theorem OfSort.sort_eval {e : TExpr} {s : FSort} (h : e.OfSort s) (i : Nat) (env : Env D) : (e.eval M W i env).1 = s := by
  induction e generalizing s i with
  | var v => exact h
  | const c => exact congrArg LSort.range h
  | apply f ts =>
    obtain ⟨domain, sort, -⟩ := h
    exact congrArg LSort.range sort
  | ite c a b hc ha hb =>
    simp only [eval, Val.ite]
    split
    · exact ha h.2.1 i
    · exact hb h.2.2 i
  | whenOp name a b ha hb => exact W.sort _ _ _ _ _ fun j => ha h.1 j
  | cond | binder | applyBinder => exact h.elim
  | _ => exact h.1.symm

theorem OfSort.cancelNot {e : TExpr} (h : e.OfSort .boolean) : (cancelNot e).OfSort .boolean := by
  cases e with
  | not a => exact h.2
  | _ => exact ⟨rfl, h⟩

theorem OfSort.core {e : TExpr} {s : FSort} (h : e.OfSort s) : e.core.OfSort s := by
  induction e generalizing s with
  | var | const => exact h
  | apply f ts ih =>
    obtain ⟨domain, sort, sorts⟩ := h
    rw [TExpr.core, coreList_eq_map]
    exact ⟨domain, sort, ofSortsT_map_of sorts fun t ht s hs => ih t ht hs⟩
  | and ts ih | or ts ih =>
    refine ⟨h.1, ?_⟩
    rw [coreList_eq_map, ofSortsT_map, List.forall_mem_map]
    exact fun t ht => ih t ht (ofSortsT_map.mp h.2 t ht)
  | not a ha =>
    obtain ⟨rfl, sort⟩ := h
    exact (ha sort).cancelNot
  | eventually environ a ha => exact ⟨h.1, rfl, (ha h.2).cancelNot⟩
  | globally environ a ha | forAll vs a ha | «exists» vs a ha => exact ⟨h.1, ha h.2⟩
  | whenOp name a b ha hb => exact ⟨ha h.1, hb h.2⟩
  | eq a b ha hb =>
    obtain ⟨bool, t, sortA, sortB⟩ := h
    exact ⟨bool, t, ha sortA, hb sortB⟩
  | implies a b ha hb | iff a b ha hb => exact ⟨h.1, ha h.2.1, hb h.2.2⟩
  | ite c a b hc ha hb => exact ⟨hc h.1, ha h.2.1, hb h.2.2⟩
  | cond | binder | applyBinder => exact h.elim

theorem ofProp_holds {v : Val D} (h : v.1 = .boolean) : Val.ofProp v.Holds = v := by
  classical
  obtain ⟨s, x⟩ := v
  cases h
  cases x
  · refine congrArg (Sigma.mk FSort.boolean) (decide_eq_false fun same => ?_)
    exact Bool.noConfusion (eq_of_heq (Sigma.mk.inj same).2)
  · exact congrArg (Sigma.mk FSort.boolean) (decide_eq_true rfl)

theorem eval_cancelNot {e : TExpr} (h : e.OfSort .boolean) (i : Nat) (env : Env D) :
    (cancelNot e).eval M W i env = .ofProp (¬ (e.eval M W i env).Holds) := by
  cases e with
  | not a =>
    rw [cancelNot, eval, holds_ofProp, not_not, ofProp_holds (h.2.sort_eval M W i env)]
  | _ => rfl

/-- The rewriting keeps the value. -/
theorem eval_core {e : TExpr} {s : FSort} (h : e.OfSort s) (i : Nat) (env : Env D) :
    e.core.eval M W i env = e.eval M W i env := by
  induction e generalizing s i env with
  | var | const => rfl
  | apply f ts ih =>
    obtain ⟨domain, -, sorts⟩ := h
    have terms : ts.map (fun t => t.core.eval M W i env) = ts.map fun t => t.eval M W i env :=
      List.map_congr_left fun t ht => by
        obtain ⟨s, hs⟩ := exists_sort sorts t ht
        exact ih t ht hs i env
    simp only [core, eval, evalList_eq_map, coreList_eq_map, List.map_map, Function.comp_def, terms]
  | and ts ih | or ts ih =>
    have terms : ts.map (fun t => t.core.eval M W i env) = ts.map fun t => t.eval M W i env :=
      List.map_congr_left fun t ht => ih t ht (ofSortsT_map.mp h.2 t ht) i env
    simp only [core, eval, evalList_eq_map, coreList_eq_map, List.map_map, Function.comp_def, terms]
  | not a ha => rw [core, eval_cancelNot M W h.2.core, ha h.2, eval]
  | eventually environ a ha =>
    simp only [core, eval, eval_cancelNot M W h.2.core, ha h.2, holds_ofProp]
    congr 1
    simp
  | globally environ a ha | forAll vs a ha | «exists» vs a ha => simp only [core, eval, ha h.2]
  | whenOp name a b ha hb => simp only [core, eval, ha h.1, hb h.2]
  | eq a b ha hb =>
    obtain ⟨-, t, sortA, sortB⟩ := h
    simp only [core, eval, ha sortA, hb sortB]
  | implies a b ha hb | iff a b ha hb => simp only [core, eval, ha h.2.1, hb h.2.2]
  | ite c a b hc ha hb => simp only [core, eval, hc h.1, ha h.2.1, hb h.2.2]
  | cond | binder | applyBinder => exact h.elim

end TExpr

end

end Goivy
