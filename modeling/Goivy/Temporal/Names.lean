import Goivy.Temporal.Binders

/-! Names of variables: in which order they are found, and when a renaming captures none. -/
namespace Goivy

namespace TExpr

theorem mem_of_mem_firstByName {l : List Variable} : ∀ v ∈ firstByName l, v ∈ l := by
  induction l with
  | nil => simp [firstByName]
  | cons v l ih =>
    rw [firstByName, List.forall_mem_cons]
    exact ⟨List.mem_cons_self, fun w hw => List.mem_cons_of_mem _ (ih w (List.mem_of_mem_filter hw))⟩

theorem exists_mem_firstByName {l : List Variable} : ∀ v ∈ l, ∃ w ∈ firstByName l, w.name = v.name := by
  induction l with
  | nil => simp
  | cons u l ih =>
    rw [List.forall_mem_cons, firstByName]
    refine ⟨⟨u, List.mem_cons_self, rfl⟩, fun v hv => ?_⟩
    by_cases same : v.name = u.name
    · exact ⟨u, List.mem_cons_self, same.symm⟩
    · obtain ⟨w, hw, name⟩ := ih v hv
      exact ⟨w, List.mem_cons_of_mem _ (List.mem_filter.mpr ⟨hw, by simpa [name] using same⟩), name⟩

theorem nodup_firstByName (l : List Variable) : ((firstByName l).map Variable.name).Nodup := by
  induction l with
  | nil => simp [firstByName]
  | cons v l ih =>
    rw [firstByName, List.map_cons, List.nodup_cons]
    refine ⟨fun mem => ?_, ih.sublist ((List.filter_sublist).map _)⟩
    obtain ⟨w, hw, same⟩ := List.mem_map.mp mem
    simpa [same] using List.of_mem_filter hw

theorem firstByName_filter (p : String → Bool) (l : List Variable) :
    firstByName (l.filter fun v => p v.name) = (firstByName l).filter fun v => p v.name := by
  induction l with
  | nil => rfl
  | cons v l ih =>
    by_cases hv : p v.name
    · rw [List.filter_cons_of_pos (by simpa using hv), firstByName, ih, firstByName,
        List.filter_cons_of_pos (by simpa using hv), List.filter_filter, List.filter_filter]
      simp only [Bool.and_comm]
    · rw [List.filter_cons_of_neg (by simpa using hv), ih, firstByName, List.filter_cons_of_neg (by simpa using hv),
        List.filter_filter]
      refine List.filter_congr fun w _ => ?_
      by_cases same : w.name = v.name
      · simp [same, hv]
      · simp [same]

theorem firstByName_append (l m : List Variable) :
    firstByName (l ++ m) = firstByName l ++ (firstByName m).filter fun v => v.name ∉ l.map Variable.name := by
  induction l with
  | nil => simp [firstByName]
  | cons v l ih =>
    rw [List.cons_append, firstByName, ih, firstByName, List.filter_append, List.filter_filter, List.cons_append]
    refine congrArg (v :: ·) (congrArg (_ ++ ·) (List.filter_congr fun w _ => ?_))
    by_cases same : w.name = v.name <;> simp [same]

theorem firstByName_idem (l : List Variable) : firstByName (firstByName l) = firstByName l := by
  induction l with
  | nil => rfl
  | cons v l ih =>
    have filter := firstByName_filter (fun n => decide (n ≠ v.name)) (firstByName l)
    rw [ih] at filter
    rw [firstByName, firstByName, filter, List.filter_filter]
    simp only [Bool.and_self]

/-- Two lists with the same first variables, in the same order. -/
def SameOrder (l m : List Variable) : Prop := firstByName l = firstByName m

theorem SameOrder.mem_names {l m : List Variable} (h : SameOrder l m) {n : String} :
    n ∈ l.map Variable.name ↔ n ∈ m.map Variable.name := by
  have half : ∀ {l m : List Variable}, SameOrder l m → n ∈ l.map Variable.name → n ∈ m.map Variable.name := by
    intro l m h mem
    obtain ⟨v, hv, rfl⟩ := List.mem_map.mp mem
    obtain ⟨w, hw, name⟩ := exists_mem_firstByName v hv
    exact name ▸ List.mem_map_of_mem (mem_of_mem_firstByName w (h ▸ hw))
  exact ⟨half h, half h.symm⟩

theorem SameOrder.append {l l' m m' : List Variable} (h : SameOrder l l') (h' : SameOrder m m') :
    SameOrder (l ++ m) (l' ++ m') := by
  rw [SameOrder, firstByName_append, firstByName_append, h, h']
  refine congrArg (_ ++ ·) (List.filter_congr fun v _ => ?_)
  simp only [h.mem_names]

theorem SameOrder.unboundNames {l m : List Variable} (h : SameOrder l m) (vs : List Variable) :
    SameOrder (unboundNames vs l) (unboundNames vs m) := by
  have filter := firstByName_filter fun n => decide (n ∉ vs.map Variable.name)
  rw [SameOrder, TExpr.unboundNames, TExpr.unboundNames, filter, filter, h]

theorem SameOrder.flatMap {α : Type} {f g : α → List Variable} {l : List α} (h : ∀ a ∈ l, SameOrder (f a) (g a)) :
    SameOrder (l.flatMap f) (l.flatMap g) := by
  induction l with
  | nil => rfl
  | cons a l ih =>
    rw [List.flatMap_cons, List.flatMap_cons]
    exact (h a List.mem_cons_self).append (ih fun b hb => h b (List.mem_cons_of_mem _ hb))

mutual
/-- The free occurrences of variables in the order in which the result has them: the condition of a `when` comes first. -/
def scan : TExpr → List Variable
  | .var v => [v]
  | .const _ => []
  | .apply _ ts | .and ts | .or ts | .applyBinder _ _ _ _ ts => scanList ts
  | .eq a b | .implies a b | .iff a b | .cond a b => a.scan ++ b.scan
  | .whenOp _ a b => b.scan ++ a.scan
  | .not a | .globally _ a | .eventually _ a => a.scan
  | .ite c a b => c.scan ++ a.scan ++ b.scan
  | .forAll vs a | .exists vs a | .binder _ vs _ a => unboundNames vs a.scan
def scanList : List TExpr → List Variable
  | [] => []
  | t :: ts => t.scan ++ scanList ts
end

theorem scanList_eq_flatMap (ts : List TExpr) : scanList ts = ts.flatMap scan := by
  induction ts with
  | nil => rfl
  | cons t ts ih => simp [scanList, ih]

/-- The new name of a variable. -/
def renamed (subs : List (String × Variable)) (v : Variable) : Variable := (subs.lookup v.name).getD v

/-- The renaming of these variables to `V0`, `V1` and so on. -/
def normalSubs (vs : List Variable) : List (String × Variable) := (vs.map Variable.name).zip (numberedVariables 0 vs)

mutual
/-- No quantifier outside of inner temporal operators binds the new name of a variable that is free under it. -/
def NoCapture : TExpr → List (String × Variable) → Prop
  | .var _, _ | .const _, _ => True
  | .apply _ ts, subs | .and ts, subs | .or ts, subs | .applyBinder _ _ _ _ ts, subs => NoCaptureList ts subs
  | .eq a b, subs | .implies a b, subs | .iff a b, subs | .cond a b, subs => a.NoCapture subs ∧ b.NoCapture subs
  | .not a, subs | .eventually _ a, subs => a.NoCapture subs
  | .ite c a b, subs => c.NoCapture subs ∧ a.NoCapture subs ∧ b.NoCapture subs
  | .forAll vs a, subs | .exists vs a, subs =>
    (∀ v ∈ a.scan, v.name ∉ vs.map Variable.name → (renamed subs v).name ∉ vs.map Variable.name) ∧
      a.NoCapture (removeBoundNames subs vs)
  | .globally _ _, _ | .whenOp _ _ _, _ | .binder _ _ _ _, _ => True
def NoCaptureList : List TExpr → List (String × Variable) → Prop
  | [], _ => True
  | t :: ts, subs => t.NoCapture subs ∧ NoCaptureList ts subs
end

theorem noCaptureList_iff {ts : List TExpr} {subs : List (String × Variable)} :
    NoCaptureList ts subs ↔ ∀ t ∈ ts, t.NoCapture subs := by
  induction ts with
  | nil => simp [NoCaptureList]
  | cons t ts ih => rw [NoCaptureList, ih, List.forall_mem_cons]

/-- Variables of one name have one sort. -/
def OneSort (l : List Variable) : Prop := ∀ v ∈ l, ∀ w ∈ l, v.name = w.name → v = w

mutual
/-- Variables of one name have one sort, in the body of a temporal operator and in the scope of a quantifier. -/
def Consistent : TExpr → Prop
  | .var _ | .const _ | .binder _ _ _ _ => True
  | .apply _ ts | .and ts | .or ts | .applyBinder _ _ _ _ ts => ConsistentList ts
  | .eq a b | .implies a b | .iff a b | .cond a b => a.Consistent ∧ b.Consistent
  | .not a | .eventually _ a => a.Consistent
  | .ite c a b => c.Consistent ∧ a.Consistent ∧ b.Consistent
  | .forAll vs a | .exists vs a => (∀ v ∈ a.scan, ∀ w ∈ vs, v.name = w.name → v = w) ∧ a.Consistent
  | .globally _ a => OneSort a.scan ∧ a.Consistent
  | .whenOp _ a b => OneSort (b.scan ++ a.scan) ∧ a.Consistent ∧ b.Consistent
def ConsistentList : List TExpr → Prop
  | [] => True
  | t :: ts => t.Consistent ∧ ConsistentList ts
end

theorem consistentList_iff {ts : List TExpr} : ConsistentList ts ↔ ∀ t ∈ ts, t.Consistent := by
  induction ts with
  | nil => simp [ConsistentList]
  | cons t ts ih => rw [ConsistentList, ih, List.forall_mem_cons]

mutual
/-- No renaming of the free variables of a temporal operator's body captures one. -/
def CaptureFree : TExpr → Prop
  | .var _ | .const _ | .binder _ _ _ _ => True
  | .apply _ ts | .and ts | .or ts | .applyBinder _ _ _ _ ts => CaptureFreeList ts
  | .eq a b | .implies a b | .iff a b | .cond a b => a.CaptureFree ∧ b.CaptureFree
  | .not a | .eventually _ a | .forAll _ a | .exists _ a => a.CaptureFree
  | .ite c a b => c.CaptureFree ∧ a.CaptureFree ∧ b.CaptureFree
  | .globally _ a => a.NoCapture (normalSubs (firstByName a.scan)) ∧ a.CaptureFree
  | .whenOp _ a b =>
    (a.NoCapture (normalSubs (firstByName (b.scan ++ a.scan))) ∧
      b.NoCapture (normalSubs (firstByName (b.scan ++ a.scan)))) ∧ a.CaptureFree ∧ b.CaptureFree
def CaptureFreeList : List TExpr → Prop
  | [] => True
  | t :: ts => t.CaptureFree ∧ CaptureFreeList ts
end

theorem captureFreeList_iff {ts : List TExpr} : CaptureFreeList ts ↔ ∀ t ∈ ts, t.CaptureFree := by
  induction ts with
  | nil => simp [CaptureFreeList]
  | cons t ts ih => rw [CaptureFreeList, ih, List.forall_mem_cons]

@[simp] theorem substituteByName_nil (e : TExpr) : e.substituteByName [] = e := by
  induction e with
  | apply f ts ih | and ts ih | or ts ih =>
    rw [substituteByName, substituteByNameList_eq_map, List.map_congr_left ih, List.map_id']
  | applyBinder name vs environ body ts hbody ih =>
    rw [substituteByName, substituteByNameList_eq_map, List.map_congr_left ih, List.map_id']
  | var | const => rfl
  | not a ha | globally environ a ha | eventually environ a ha | binder name vs environ a ha => rw [substituteByName, ha]
  | forAll vs a ha | «exists» vs a ha => rw [substituteByName, removeBoundNames, List.filter_nil, ha]
  | eq a b ha hb | implies a b ha hb | iff a b ha hb | whenOp name a b ha hb | cond a b ha hb =>
    rw [substituteByName, ha, hb]
  | ite c a b hc ha hb => rw [substituteByName, hc, ha, hb]

theorem unboundNames_nil (l : List Variable) : unboundNames [] l = l := by
  simp [unboundNames]

theorem eq_nil_of_firstByName {l : List Variable} (h : firstByName l = []) : l = [] := by
  cases l with
  | nil => rfl
  | cons v l => simp [firstByName] at h

theorem occurrences_bindFreeVariables (name : String) (e : TExpr) :
    (bindFreeVariables name e).occurrences = e.freeVariablesInOrder := by
  simp only [bindFreeVariables, normalizeFreeVariables]
  cases h : e.freeVariablesInOrder with
  | nil =>
    rw [numberedVariables, List.map_nil, List.zip_nil_left, substituteByName_nil, applyNamedBinder, occurrences,
      unboundNames_nil, eq_nil_of_firstByName h]
  | cons v vs =>
    have vars : ∀ l : List Variable, (l.map TExpr.var).flatMap occurrences = l := by
      intro l
      rw [List.flatMap_map]
      exact List.flatMap_singleton' l
    rw [applyNamedBinder, occurrences, occurrencesList_eq_flatMap, vars]

/-- The binders have the free variables of the formula, in the same order. -/
theorem sameOrder_introduceBinders {u : TExpr} {s : FSort} (h : u.OfSort s) :
    SameOrder u.introduceBinders.occurrences u.scan := by
  have terms : ∀ {ts : List TExpr}, (∀ t ∈ ts, ∃ s, t.OfSort s) →
      (∀ t ∈ ts, ∀ s, t.OfSort s → SameOrder t.introduceBinders.occurrences t.scan) →
      SameOrder (occurrencesList (introduceBindersList ts)) (scanList ts) := by
    intro ts sorts ih
    rw [occurrencesList_eq_flatMap, introduceBindersList_eq_map, List.flatMap_map, scanList_eq_flatMap]
    refine SameOrder.flatMap fun t ht => ?_
    obtain ⟨s, hs⟩ := sorts t ht
    exact ih t ht s hs
  induction u generalizing s with
  | var | const => rfl
  | apply f ts ih =>
    obtain ⟨domain, -, sorts⟩ := h
    exact terms (exists_sort sorts) fun t ht s hs => ih t ht hs
  | and ts ih | or ts ih => exact terms (exists_sort h.2) fun t ht s hs => ih t ht hs
  | not a ha | eventually environ a ha => exact ha h.2
  | globally environ a ha =>
    rw [introduceBinders, occurrences_bindFreeVariables]
    exact (firstByName_idem _).trans (ha h.2)
  | whenOp name a b ha hb =>
    rw [introduceBinders, occurrences_bindFreeVariables]
    exact (firstByName_idem _).trans ((hb h.2).append (ha h.1))
  | forAll vs a ha | «exists» vs a ha => exact (ha h.2).unboundNames vs
  | eq a b ha hb =>
    obtain ⟨-, t, sortA, sortB⟩ := h
    exact (ha sortA).append (hb sortB)
  | implies a b ha hb | iff a b ha hb => exact (ha h.2.1).append (hb h.2.2)
  | ite c a b hc ha hb => exact ((hc h.1).append (ha h.2.1)).append (hb h.2.2)
  | cond | binder | applyBinder => exact h.elim

end TExpr

end Goivy
