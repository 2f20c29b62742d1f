import Goivy.Logic.Instance
import Goivy.Logic.Sorting

/-! Well-sorted expressions without indefinite descriptions, whatever binds their variables. -/
namespace Goivy

mutual
/-- `e` has the sort `s`. -/
@[grind =] def Expr.OfSort : Expr → FSort → Prop
  | .var v, s => v.sort = s
  | .const c, s => c.sort = .first s
  | .apply f ts, s => ∃ domain, f.sort = .function domain s ∧ OfSorts ts domain
  | .eq a b, s => s = .boolean ∧ ∃ t, a.OfSort t ∧ b.OfSort t
  | .not a, s => s = .boolean ∧ a.OfSort .boolean
  | .and ts, s | .or ts, s => s = .boolean ∧ OfSorts ts (ts.map fun _ => .boolean)
  | .implies a b, s | .iff a b, s => s = .boolean ∧ a.OfSort .boolean ∧ b.OfSort .boolean
  | .ite c a b, s => c.OfSort .boolean ∧ a.OfSort s ∧ b.OfSort s
  | .forAll _ a, s | .exists _ a, s => s = .boolean ∧ a.OfSort .boolean
  | .some _ _, _ | .someElse _ _ _ _, _ => False
@[grind =] def OfSorts : List Expr → List FSort → Prop
  | [], [] => True
  | t :: ts, s :: ss => t.OfSort s ∧ OfSorts ts ss
  | _, _ => False
end

theorem ofSorts_iff {ts : List Expr} {ss : List FSort} :
    OfSorts ts ss ↔ List.Forall₂ (fun t s => t.OfSort s) ts ss := by
  induction ts generalizing ss with
  | nil => cases ss <;> simp [OfSorts]
  | cons t ts ih => cases ss <;> simp [OfSorts, ih]

theorem ofSorts_map {ts : List Expr} {s : FSort} :
    OfSorts ts (ts.map fun _ => s) ↔ ∀ t ∈ ts, t.OfSort s := by
  induction ts with
  | nil => simp [OfSorts]
  | cons t ts ih => simp only [List.map_cons, OfSorts, ih, List.forall_mem_cons]

theorem OfSorts.replicate {ts us : List Expr} {s : FSort} (h : OfSorts us (ts.map fun _ => s))
    (length : us.length = ts.length) : OfSorts us (us.map fun _ => s) := by
  rw [List.map_const', length, ← List.map_const']
  exact h

theorem OfSorts.length_eq {ts : List Expr} {dom : List FSort} (h : OfSorts ts dom) : ts.length = dom.length :=
  (ofSorts_iff.mp h).length_eq

theorem OfSorts.exists_sort {ts : List Expr} {ss : List FSort} (h : OfSorts ts ss) :
    ∀ t ∈ ts, ∃ s, t.OfSort s := by
  rw [ofSorts_iff] at h
  induction h with
  | nil => simp
  | cons head _ ih => exact List.forall_mem_cons.mpr ⟨⟨_, head⟩, ih⟩

namespace Expr

variable {e : Expr} {s : FSort}

theorem OfSort.nodeSort (h : e.OfSort s) : e.nodeSort = .first s := by
  induction e with
  | var v => exact congrArg LSort.first h
  | const c => exact h
  | apply f ts =>
    obtain ⟨domain, sort, -⟩ := h
    simp [Expr.nodeSort, sort, LSort.range]
  | ite c a b hc ha hb => exact ha h.2.1
  | some | someElse => exact h.elim
  | _ => exact congrArg LSort.first h.1.symm

theorem OfSort.sort_eval {D : Domain} (h : e.OfSort s) (M : Structure D) (env : Env D) : (e.eval M env).1 = s := by
  induction e with
  | var v => exact h
  | const c => exact congrArg LSort.range h
  | apply f ts =>
    obtain ⟨domain, sort, -⟩ := h
    exact congrArg LSort.range sort
  | ite c a b hc ha hb =>
    simp only [eval, Val.ite]
    split
    · exact ha h.2.1
    · exact hb h.2.2
  | some | someElse => exact h.elim
  | _ => exact h.1.symm

theorem OfSort.descriptionFree (h : e.OfSort s) : e.descriptionFree = true := by
  induction e generalizing s with
  | var v | const c => rfl
  | apply f ts ih =>
    obtain ⟨domain, -, sorts⟩ := h
    refine descriptionFreeList_iff.mpr fun t ht => ?_
    obtain ⟨t', sort⟩ := sorts.exists_sort t ht
    exact ih t ht sort
  | and ts ih | or ts ih =>
    exact descriptionFreeList_iff.mpr fun t ht => ih t ht (ofSorts_map.mp h.2 t ht)
  | not a ha | forAll vs a ha | «exists» vs a ha => exact ha h.2
  | eq a b ha hb =>
    obtain ⟨-, t, sortA, sortB⟩ := h
    rw [Expr.descriptionFree, ha sortA, hb sortB, Bool.and_self]
  | implies a b ha hb | iff a b ha hb => rw [Expr.descriptionFree, ha h.2.1, hb h.2.2, Bool.and_self]
  | ite c a b hc ha hb => rw [Expr.descriptionFree, hc h.1, ha h.2.1, hb h.2.2, Bool.and_self, Bool.and_self]
  | some | someElse => exact h.elim

theorem newEq_eq {a b e : Expr} (h : newEq a b = .some e) : e = .eq a b := by
  simp only [newEq] at h
  grind

theorem newIte_eq {c a b e : Expr} (h : newIte c a b = .some e) : e = .ite c a b := by
  simp only [newIte] at h
  grind

theorem ofSorts_substituteList {subs : List (Variable × Expr)} {ts us : List Expr} {ss : List FSort}
    (h : OfSorts ts ss) (sub : substituteList ts subs = .some us)
    (ih : ∀ t ∈ ts, ∀ s u, t.OfSort s → t.substitute subs = .some u → u.OfSort s) : OfSorts us ss := by
  induction ts generalizing ss us with
  | nil =>
    cases sub
    exact h
  | cons t ts tail =>
    simp only [substituteList, Option.bind_eq_some_iff, Option.map_eq_some_iff] at sub
    obtain ⟨u, hu, us', hus, rfl⟩ := sub
    cases ss with
    | nil => exact h
    | cons s ss =>
      exact ⟨ih t List.mem_cons_self s u h.1 hu,
        tail h.2 hus fun t ht => ih t (List.mem_cons_of_mem _ ht)⟩

theorem ofSort_substituteList {subs : List (Variable × Expr)} {ts us : List Expr}
    (h : ∀ t ∈ ts, t.OfSort s) (sub : substituteList ts subs = .some us)
    (ih : ∀ t ∈ ts, ∀ s u, t.OfSort s → t.substitute subs = .some u → u.OfSort s) : ∀ u ∈ us, u.OfSort s := by
  induction ts generalizing us with
  | nil =>
    cases sub
    exact fun _ hu => absurd hu List.not_mem_nil
  | cons t ts tail =>
    simp only [substituteList, Option.bind_eq_some_iff, Option.map_eq_some_iff] at sub
    obtain ⟨u, hu, us', hus, rfl⟩ := sub
    rw [List.forall_mem_cons] at h ⊢
    exact ⟨ih t List.mem_cons_self s u h.1 hu, tail h.2 hus fun t ht => ih t (List.mem_cons_of_mem _ ht)⟩

/-- An instance by terms of the right sorts keeps its sort. -/
theorem OfSort.substitute {subs : List (Variable × Expr)} {e' : Expr} (h : e.OfSort s)
    (sorts : ∀ v t, subs.lookup v = .some t → t.OfSort v.sort) (sub : e.substitute subs = .some e') :
    e'.OfSort s := by
  induction e generalizing subs e' s with
  | var v =>
    cases sub
    cases ht : subs.lookup v with
    | none => exact h
    | some t => exact h ▸ sorts v t ht
  | const c =>
    cases sub
    exact h
  | apply f ts ih =>
    obtain ⟨domain, sort, args⟩ := h
    simp only [Expr.substitute, Option.bind_eq_some_iff] at sub
    obtain ⟨us, hus, he⟩ := sub
    cases newApply_eq he
    exact ⟨domain, sort, ofSorts_substituteList args hus fun t ht s u hs hu => ih t ht hs sorts hu⟩
  | and ts ih | or ts ih =>
    simp only [Expr.substitute, Option.bind_eq_some_iff, newAnd, newOr] at sub
    obtain ⟨us, hus, he⟩ := sub
    have terms := ofSort_substituteList (ofSorts_map.mp h.2) hus fun t ht s u hs hu => ih t ht hs sorts hu
    split at he
    · cases he
      exact ⟨h.1, ofSorts_map.mpr terms⟩
    · contradiction
  | not a ha =>
    simp only [Expr.substitute, Option.bind_eq_some_iff, newNot] at sub
    obtain ⟨a', hsa, he⟩ := sub
    split at he
    · cases he
      exact ⟨h.1, ha h.2 sorts hsa⟩
    · contradiction
  | eq a b ha hb =>
    obtain ⟨bool, t, sortA, sortB⟩ := h
    simp only [Expr.substitute, Option.bind_eq_some_iff] at sub
    obtain ⟨a', hsa, b', hsb, he⟩ := sub
    cases newEq_eq he
    exact ⟨bool, t, ha sortA sorts hsa, hb sortB sorts hsb⟩
  | implies a b ha hb | iff a b ha hb =>
    simp only [Expr.substitute, Option.bind_eq_some_iff, newImplies, newIff] at sub
    obtain ⟨a', hsa, b', hsb, he⟩ := sub
    split at he
    · cases he
      exact ⟨h.1, ha h.2.1 sorts hsa, hb h.2.2 sorts hsb⟩
    · contradiction
  | ite c a b hc ha hb =>
    simp only [Expr.substitute, Option.bind_eq_some_iff] at sub
    obtain ⟨c', hsc, a', hsa, b', hsb, he⟩ := sub
    cases newIte_eq he
    exact ⟨hc h.1 sorts hsc, ha h.2.1 sorts hsa, hb h.2.2 sorts hsb⟩
  | forAll vs a ha | «exists» vs a ha =>
    simp only [Expr.substitute, Option.bind_eq_some_iff, newForAll, newExists] at sub
    obtain ⟨inner, hin, a', hsa, he⟩ := sub
    have inner' := (substituteWithoutBoundVariables_spec hin).1
    split at he
    · contradiction
    · cases he
      refine ⟨h.1, ha h.2 (fun v t ht => sorts v t ?_) hsa⟩
      rw [inner'] at ht
      split at ht
      · contradiction
      · exact ht
  | some | someElse => exact h.elim

end Expr

end Goivy
