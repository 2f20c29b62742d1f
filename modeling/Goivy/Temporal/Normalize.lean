import Goivy.Temporal.Meaning

/-! The binders that are introduced are normal already. -/
namespace Goivy

open TExpr

theorem map_eq_self {α : Type} {f : α → α} {l : List α} (h : ∀ a ∈ l, f a = a) : l.map f = l := by
  rw [List.map_congr_left h, List.map_id']

/-- A second renaming that moves no free variable changes nothing. -/
theorem substituteByName_fixed {u : TExpr} {s : FSort} (h : u.OfSort s) {subs τ : List (String × Variable)}
    (fixed : ∀ v ∈ (u.introduceBinders.substituteByName subs).occurrences, renamed τ v = v) :
    (u.introduceBinders.substituteByName subs).substituteByName τ = u.introduceBinders.substituteByName subs := by
  have list {ts : List TExpr} {subs τ : List (String × Variable)}
      (fixed : ∀ v ∈ occurrencesList (substituteByNameList (introduceBindersList ts) subs), renamed τ v = v)
      (ih : ∀ t ∈ ts, (∀ v ∈ (t.introduceBinders.substituteByName subs).occurrences, renamed τ v = v) →
        (t.introduceBinders.substituteByName subs).substituteByName τ = t.introduceBinders.substituteByName subs) :
      substituteByNameList (substituteByNameList (introduceBindersList ts) subs) τ =
        substituteByNameList (introduceBindersList ts) subs := by
    rw [substituteByNameList_eq_map _ subs, introduceBindersList_eq_map, List.map_map] at fixed ⊢
    rw [substituteByNameList_eq_map, List.map_map]
    refine List.map_congr_left fun t ht => ih t ht fun v hv => fixed v ?_
    rw [occurrencesList_eq_flatMap, List.flatMap_map]
    exact List.mem_flatMap.mpr ⟨t, ht, hv⟩
  have binder {name : String} {e : TExpr} {subs τ : List (String × Variable)}
      (ih : (∀ v ∈ (e.substituteByName subs).occurrences, renamed τ v = v) →
        (e.substituteByName subs).substituteByName τ = e.substituteByName subs)
      (fixed : ∀ v ∈ ((bindFreeVariables name e).substituteByName subs).occurrences, renamed τ v = v) :
      ((bindFreeVariables name e).substituteByName subs).substituteByName τ = (bindFreeVariables name e).substituteByName subs := by
    simp only [bindFreeVariables, normalizeFreeVariables] at fixed ⊢
    cases vars : e.freeVariablesInOrder with
    | nil =>
      rw [vars, numberedVariables, List.map_nil, List.zip_nil_left, substituteByName_nil, applyNamedBinder, substituteByName,
        occurrences, unboundNames_nil] at fixed
      rw [numberedVariables, List.map_nil, List.zip_nil_left, substituteByName_nil, applyNamedBinder, substituteByName,
        substituteByName, ih fixed]
    | cons x xs =>
      rw [vars, applyNamedBinder, substituteByName, occurrences, occurrencesList_eq_flatMap, substituteByNameList_eq_map,
        List.flatMap_map, List.flatMap_map] at fixed
      rw [applyNamedBinder, substituteByName, substituteByName, substituteByNameList_eq_map, substituteByNameList_eq_map,
        List.map_map, List.map_map, List.map_map]
      refine congrArg _ (List.map_congr_left fun w hw => congrArg TExpr.var ?_)
      exact fixed (renamed subs w) (List.mem_flatMap.mpr ⟨w, hw, List.mem_singleton_self _⟩)
  induction u generalizing s subs τ with
  | var v => exact congrArg TExpr.var (fixed _ List.mem_cons_self)
  | const c => rfl
  | apply f ts ih =>
    obtain ⟨domain, -, sorts⟩ := h
    refine congrArg (TExpr.apply f) (list fixed fun t ht fixed => ?_)
    obtain ⟨s, hs⟩ := exists_sort sorts t ht
    exact ih t ht hs fixed
  | and ts ih | or ts ih =>
    simp only [introduceBinders, substituteByName]
    rw [list fixed fun t ht fixed => ?_]
    obtain ⟨s, hs⟩ := exists_sort h.2 t ht
    exact ih t ht hs fixed
  | not a ha => exact congrArg TExpr.not (ha h.2 fixed)
  | eventually environ a ha => exact congrArg (TExpr.eventually environ) (ha h.2 fixed)
  | globally environ a ha => exact binder (ha h.2) fixed
  | whenOp name a b ha hb =>
    refine binder (fun fixed => ?_) fixed
    have both := List.forall_mem_append.mp fixed
    exact congrArg₂ TExpr.cond (hb h.2 both.1) (ha h.1 both.2)
  | forAll vs a ha | «exists» vs a ha =>
    simp only [introduceBinders, substituteByName]
    rw [ha h.2 fun v hv => ?_]
    rw [renamed_removeBoundNames]
    split
    · rfl
    · rename_i free
      exact fixed v (List.mem_filter.mpr ⟨hv, by simpa using free⟩)
  | eq a b ha hb =>
    obtain ⟨-, t, sortA, sortB⟩ := h
    have both := List.forall_mem_append.mp fixed
    exact congrArg₂ TExpr.eq (ha sortA both.1) (hb sortB both.2)
  | implies a b ha hb =>
    have both := List.forall_mem_append.mp fixed
    exact congrArg₂ TExpr.implies (ha h.2.1 both.1) (hb h.2.2 both.2)
  | iff a b ha hb =>
    have both := List.forall_mem_append.mp fixed
    exact congrArg₂ TExpr.iff (ha h.2.1 both.1) (hb h.2.2 both.2)
  | ite c a b hc ha hb =>
    have all := List.forall_mem_append.mp fixed
    have both := List.forall_mem_append.mp all.1
    simp only [introduceBinders, substituteByName, hc h.1 both.1, ha h.2.1 both.2, hb h.2.2 all.2]
  | cond | binder | applyBinder => exact h.elim

/-- The body of a binder, whose free variables have been numbered, is not changed by numbering them again. -/
theorem substituteByName_numbered {a : TExpr} {vs : List Variable}
    (free : ∀ v ∈ (a.substituteByName (normalSubs vs)).occurrences, v ∈ numberedVariables 0 vs)
    (fixed : ∀ τ, (∀ v ∈ (a.substituteByName (normalSubs vs)).occurrences, renamed τ v = v) →
      (a.substituteByName (normalSubs vs)).substituteByName τ = a.substituteByName (normalSubs vs)) :
    (a.substituteByName (normalSubs vs)).substituteByName
      (((numberedVariables 0 vs).map Variable.name).zip (numberedVariables 0 (numberedVariables 0 vs))).reverse =
        a.substituteByName (normalSubs vs) := by
  rw [numberedVariables_numberedVariables]
  exact fixed _ fun v hv => renamed_self (nodup_numberedVariables 0 vs) (free v hv)

/-- What is asked of a body so that the binder over its free variables is normal. -/
structure NormalBody (e : TExpr) (l : List Variable) : Prop where
  order : SameOrder e.occurrences l
  one : OneSort l
  occurrences : ∀ subs, ∀ v ∈ (e.substituteByName subs).occurrences, ∃ w ∈ l, v = renamed subs w
  fixed : ∀ subs τ, (∀ v ∈ (e.substituteByName subs).occurrences, renamed τ v = v) →
    (e.substituteByName subs).substituteByName τ = e.substituteByName subs
  normal : ∀ subs, (e.substituteByName subs).normalizeNamedBinders none = some (e.substituteByName subs)

theorem NormalBody.binder {e : TExpr} {l : List Variable} (h : NormalBody e l) (name : String) (subs : List (String × Variable)) :
    ((bindFreeVariables name e).substituteByName subs).normalizeNamedBinders none =
      some ((bindFreeVariables name e).substituteByName subs) := by
  have numbered : ∀ v ∈ (e.substituteByName (normalSubs (firstByName l))).occurrences, v ∈ numberedVariables 0 (firstByName l) := by
    intro v hv
    obtain ⟨w, hw, rfl⟩ := h.occurrences _ v hv
    obtain ⟨x, hx, name⟩ := exists_mem_firstByName w hw
    obtain rfl := h.one x (mem_of_mem_firstByName x hx) w hw name
    exact renamed_normalFrom_mem hx
  have again := substituteByName_numbered numbered (h.fixed _)
  have noClash : ¬ (numberedVariables 0 (numberedVariables 0 (firstByName l))).any fun nv =>
      nv.name ∈ (unboundNames (numberedVariables 0 (firstByName l))
        (e.substituteByName (normalSubs (firstByName l))).occurrences).map Variable.name := by
    rw [numberedVariables_numberedVariables, List.any_eq_true]
    rintro ⟨nv, hnv, clash⟩
    rw [decide_eq_true_eq] at clash
    obtain ⟨v, hv, same⟩ := List.mem_map.mp clash
    have free := List.of_mem_filter hv
    rw [decide_eq_true_eq] at free
    exact free (same ▸ List.mem_map_of_mem hnv)
  simp only [bindFreeVariables, normalizeFreeVariables, freeVariablesInOrder,
    show firstByName e.occurrences = firstByName l from h.order]
  cases vars : firstByName l with
  | nil =>
    rw [numberedVariables, List.map_nil, List.zip_nil_left, substituteByName_nil, applyNamedBinder, substituteByName,
      normalizeNamedBinders]
    simp [normalizesBinder, numberedVariables, h.normal subs]
  | cons x xs =>
    rw [vars] at again noClash
    have args : normalizeNamedBindersList none (substituteByNameList ((x :: xs).map TExpr.var) subs) =
        some (substituteByNameList ((x :: xs).map TExpr.var) subs) := by
      refine normalizeNamedBindersList_eq fun t ht => ?_
      rw [substituteByNameList_eq_map, List.map_map] at ht
      obtain ⟨w, -, rfl⟩ := List.mem_map.mp ht
      rfl
    have body := h.normal (normalSubs (x :: xs))
    rw [applyNamedBinder, substituteByName, normalizeNamedBinders, args]
    simp only [Option.bind_eq_bind, Option.bind_some, normalizesBinder, Option.all_none, if_true]
    rw [normalSubs] at body again noClash
    rw [if_neg noClash, body, Option.bind_some, again, numberedVariables_numberedVariables]

/-- Nothing is left to normalize, and no generated variable clashes. -/
theorem normalizeNamedBinders_introduceBinders {u : TExpr} {s : FSort} (h : u.OfSort s) (fits : u.Consistent)
    (subs : List (String × Variable)) : (u.introduceBinders.substituteByName subs).normalizeNamedBinders none =
      some (u.introduceBinders.substituteByName subs) := by
  have list {ts : List TExpr} {subs : List (String × Variable)}
      (ih : ∀ t ∈ ts, (t.introduceBinders.substituteByName subs).normalizeNamedBinders none =
        some (t.introduceBinders.substituteByName subs)) :
      normalizeNamedBindersList none (substituteByNameList (introduceBindersList ts) subs) =
        some (substituteByNameList (introduceBindersList ts) subs) := by
    rw [substituteByNameList_eq_map, introduceBindersList_eq_map, List.map_map]
    exact normalizeNamedBindersList_eq (List.forall_mem_map.mpr ih)
  induction u generalizing s subs with
  | var | const => rfl
  | apply f ts ih =>
    obtain ⟨domain, -, sorts⟩ := h
    simp only [introduceBinders, substituteByName, normalizeNamedBinders]
    rw [list fun t ht => ?_]
    · rfl
    · obtain ⟨s, hs⟩ := exists_sort sorts t ht
      exact ih t ht hs (consistentList_iff.mp fits t ht) subs
  | and ts ih | or ts ih =>
    simp only [introduceBinders, substituteByName, normalizeNamedBinders]
    rw [list fun t ht => ?_]
    · rfl
    · obtain ⟨s, hs⟩ := exists_sort h.2 t ht
      exact ih t ht hs (consistentList_iff.mp fits t ht) subs
  | not a ha | eventually environ a ha =>
    simp only [introduceBinders, substituteByName, normalizeNamedBinders]
    rw [ha h.2 fits subs]
    rfl
  | globally environ a ha =>
    have body : NormalBody a.introduceBinders a.scan := ⟨sameOrder_introduceBinders h.2, fits.1,
      occurrences_substituteByName h.2, fun _ _ fixed => substituteByName_fixed h.2 fixed, ha h.2 fits.2⟩
    exact body.binder _ subs
  | whenOp name a b ha hb =>
    have body : NormalBody (.cond b.introduceBinders a.introduceBinders) (b.scan ++ a.scan) := by
      refine ⟨(sameOrder_introduceBinders h.2).append (sameOrder_introduceBinders h.1), fits.1, fun subs => ?_,
        fun subs τ fixed => ?_, fun subs => ?_⟩
      · refine List.forall_mem_append.mpr ⟨fun v hv => ?_, fun v hv => ?_⟩
        · obtain ⟨w, hw, same⟩ := occurrences_substituteByName h.2 subs v hv
          exact ⟨w, List.mem_append_left _ hw, same⟩
        · obtain ⟨w, hw, same⟩ := occurrences_substituteByName h.1 subs v hv
          exact ⟨w, List.mem_append_right _ hw, same⟩
      · have both := List.forall_mem_append.mp fixed
        exact congrArg₂ TExpr.cond (substituteByName_fixed h.2 both.1) (substituteByName_fixed h.1 both.2)
      · simp only [substituteByName, normalizeNamedBinders]
        rw [hb h.2 fits.2.2 subs, ha h.1 fits.2.1 subs]
        rfl
    exact body.binder _ subs
  | forAll vs a ha | «exists» vs a ha =>
    simp only [introduceBinders, substituteByName, normalizeNamedBinders]
    rw [ha h.2 fits.2]
    rfl
  | eq a b ha hb =>
    obtain ⟨-, t, sortA, sortB⟩ := h
    simp only [introduceBinders, substituteByName, normalizeNamedBinders]
    rw [ha sortA fits.1 subs, hb sortB fits.2 subs]
    rfl
  | implies a b ha hb | iff a b ha hb =>
    simp only [introduceBinders, substituteByName, normalizeNamedBinders]
    rw [ha h.2.1 fits.1 subs, hb h.2.2 fits.2 subs]
    rfl
  | ite c a b hc ha hb =>
    simp only [introduceBinders, substituteByName, normalizeNamedBinders]
    rw [hc h.1 fits.1 subs, ha h.2.1 fits.2.1 subs, hb h.2.2 fits.2.2 subs]
    rfl
  | cond | binder | applyBinder => exact h.elim

end Goivy
