import Goivy.Temporal.Normalize

/-! The formula behind a binder can be read back, up to the names of its free variables. -/
namespace Goivy

/-- A renaming that leaves bound names alone. -/
def exceptNames (vs : List Variable) (σ : Variable → Variable) (v : Variable) : Variable :=
  if v.name ∈ vs.map Variable.name then v else σ v

/-- The argument that is bound to a variable, under a renaming. -/
def argMap (vs : List Variable) (ts : List TExpr) (σ : Variable → Variable) (v : Variable) : Variable :=
  match ((vs.map Variable.name).zip ts).lookup v.name with
  | some (.var w) => σ w
  | _ => v

/-- The operator that a binder stands for, over a body that has been read back. -/
def readBack (name : String) (body : TExpr) : TExpr :=
  match binderKind name, body with
  | .globally environ, body => .globally environ body
  | .whenOp name, .cond a b => .whenOp name b a
  | .whenOp _, body => body

namespace TExpr

mutual
/-- The formula with other names for its free variables. -/
def renameBy : TExpr → (Variable → Variable) → TExpr
  | .var v, σ => .var (σ v)
  | .const c, _ => .const c
  | .apply f ts, σ => .apply f (renameByList ts σ)
  | .eq a b, σ => .eq (a.renameBy σ) (b.renameBy σ)
  | .not a, σ => .not (a.renameBy σ)
  | .and ts, σ => .and (renameByList ts σ)
  | .or ts, σ => .or (renameByList ts σ)
  | .implies a b, σ => .implies (a.renameBy σ) (b.renameBy σ)
  | .iff a b, σ => .iff (a.renameBy σ) (b.renameBy σ)
  | .ite c a b, σ => .ite (c.renameBy σ) (a.renameBy σ) (b.renameBy σ)
  | .forAll vs a, σ => .forAll vs (a.renameBy (exceptNames vs σ))
  | .exists vs a, σ => .exists vs (a.renameBy (exceptNames vs σ))
  | .globally environ a, σ => .globally environ (a.renameBy σ)
  | .eventually environ a, σ => .eventually environ (a.renameBy σ)
  | .whenOp name a b, σ => .whenOp name (a.renameBy σ) (b.renameBy σ)
  | .cond a b, σ => .cond (a.renameBy σ) (b.renameBy σ)
  | .binder name vs environ body, _ => .binder name vs environ body
  | .applyBinder name vs environ body ts, σ => .applyBinder name vs environ body (renameByList ts σ)
def renameByList : List TExpr → (Variable → Variable) → List TExpr
  | [], _ => []
  | t :: ts, σ => t.renameBy σ :: renameByList ts σ
end

mutual
/-- The formula with the temporal operators in place of their binders, and with other names for its free variables. -/
def restore : TExpr → (Variable → Variable) → TExpr
  | .var v, σ => .var (σ v)
  | .const c, _ => .const c
  | .apply f ts, σ => .apply f (restoreList ts σ)
  | .eq a b, σ => .eq (a.restore σ) (b.restore σ)
  | .not a, σ => .not (a.restore σ)
  | .and ts, σ => .and (restoreList ts σ)
  | .or ts, σ => .or (restoreList ts σ)
  | .implies a b, σ => .implies (a.restore σ) (b.restore σ)
  | .iff a b, σ => .iff (a.restore σ) (b.restore σ)
  | .ite c a b, σ => .ite (c.restore σ) (a.restore σ) (b.restore σ)
  | .forAll vs a, σ => .forAll vs (a.restore (exceptNames vs σ))
  | .exists vs a, σ => .exists vs (a.restore (exceptNames vs σ))
  | .globally environ a, σ => .globally environ (a.restore σ)
  | .eventually environ a, σ => .eventually environ (a.restore σ)
  | .whenOp name a b, σ => .whenOp name (a.restore σ) (b.restore σ)
  | .cond a b, σ => .cond (a.restore σ) (b.restore σ)
  | .binder name _ _ body, _ => readBack name (body.restore id)
  | .applyBinder name vs _ body ts, σ => readBack name (body.restore (argMap vs ts σ))
def restoreList : List TExpr → (Variable → Variable) → List TExpr
  | [], _ => []
  | t :: ts, σ => t.restore σ :: restoreList ts σ
end

theorem renameByList_eq_map (ts : List TExpr) (σ : Variable → Variable) :
    renameByList ts σ = ts.map fun t => t.renameBy σ := by
  induction ts with
  | nil => rfl
  | cons t ts ih => simp [renameByList, ih]

theorem restoreList_eq_map (ts : List TExpr) (σ : Variable → Variable) :
    restoreList ts σ = ts.map fun t => t.restore σ := by
  induction ts with
  | nil => rfl
  | cons t ts ih => simp [restoreList, ih]

end TExpr

open TExpr

theorem exceptNames_id (vs : List Variable) : exceptNames vs id = id := by
  funext v
  exact ite_self v

theorem renameBy_id (u : TExpr) : u.renameBy id = u := by
  induction u with
  | var | const | binder => rfl
  | apply f ts ih | and ts ih | or ts ih => rw [renameBy, renameByList_eq_map, map_eq_self ih]
  | applyBinder name vs environ body ts _ ih => rw [renameBy, renameByList_eq_map, map_eq_self ih]
  | not a ha | globally environ a ha | eventually environ a ha => rw [renameBy, ha]
  | eq a b ha hb | implies a b ha hb | iff a b ha hb | whenOp name a b ha hb | cond a b ha hb => rw [renameBy, ha, hb]
  | ite c a b hc ha hb => rw [renameBy, hc, ha, hb]
  | forAll vs a ha | «exists» vs a ha => rw [renameBy, exceptNames_id, ha]

theorem argMap_normal {vs : List Variable} (nodup : (vs.map Variable.name).Nodup) (k : Nat) (f σ : Variable → Variable) :
    ∀ v ∈ vs, argMap (numberedVariables k vs) (vs.map fun w => .var (f w)) σ (renamed (normalFrom k vs) v) = σ (f v) := by
  induction vs generalizing k with
  | nil => simp
  | cons u vs ih =>
    rw [List.map_cons, List.nodup_cons] at nodup
    intro v hv
    rw [renamed_normalFrom_cons]
    by_cases name : v.name = u.name
    · obtain rfl : v = u := (List.mem_cons.mp hv).resolve_right fun mem => nodup.1 (name ▸ List.mem_map_of_mem mem)
      rw [if_pos rfl, numberedVariables, List.map_cons, argMap, List.map_cons, List.zip_cons_cons, InsMap.lookup_cons, if_pos rfl]
    · have later : v ∈ vs := (List.mem_cons.mp hv).resolve_left fun same => name (congrArg Variable.name same)
      have other : (renamed (normalFrom (k + 1) vs) v).name ≠ "V" ++ toString k := by
        intro same
        obtain ⟨j, le, hj⟩ := name_of_mem_numberedVariables (renamed_normalFrom_mem (k := k + 1) later)
        have := numbered_injective (hj.symm.trans same)
        omega
      rw [if_neg name, ← ih nodup.2 (k + 1) v later, numberedVariables, List.map_cons, argMap, List.map_cons,
        List.zip_cons_cons, InsMap.lookup_cons, if_neg other]
      rfl

theorem argMap_congr {nvs vs : List Variable} {σ σ' : Variable → Variable} (agree : ∀ v ∈ vs, σ v = σ' v) :
    argMap nvs (vs.map .var) σ = argMap nvs (vs.map .var) σ' := by
  funext v
  simp only [argMap]
  cases found : ((nvs.map Variable.name).zip (vs.map TExpr.var)).lookup v.name with
  | none => rfl
  | some t =>
    obtain ⟨w, hw, rfl⟩ := List.mem_map.mp (List.of_mem_zip (InsMap.mem_of_lookup found)).2
    exact agree w hw

theorem exceptNames_congr {vs l : List Variable} {σ σ' : Variable → Variable} (agree : ∀ v ∈ unboundNames vs l, σ v = σ' v) :
    ∀ v ∈ l, exceptNames vs σ v = exceptNames vs σ' v := by
  intro v hv
  simp only [exceptNames]
  split
  · rfl
  · rename_i free
    exact agree v (List.mem_filter.mpr ⟨hv, by simpa using free⟩)

/-- Only the names of the free variables matter. -/
theorem restore_congr {u : TExpr} {s : FSort} (h : u.OfSort s) {σ σ' : Variable → Variable}
    (agree : ∀ v ∈ u.scan, σ v = σ' v) : u.introduceBinders.restore σ = u.introduceBinders.restore σ' := by
  have list {ts : List TExpr} {σ σ' : Variable → Variable} (agree : ∀ v ∈ scanList ts, σ v = σ' v)
      (ih : ∀ t ∈ ts, (∀ v ∈ t.scan, σ v = σ' v) → t.introduceBinders.restore σ = t.introduceBinders.restore σ') :
      restoreList (introduceBindersList ts) σ = restoreList (introduceBindersList ts) σ' := by
    rw [introduceBindersList_eq_map, restoreList_eq_map, restoreList_eq_map, List.map_map, List.map_map]
    refine List.map_congr_left fun t ht => ih t ht fun v hv => agree v ?_
    rw [scanList_eq_flatMap]
    exact List.mem_flatMap.mpr ⟨t, ht, hv⟩
  have binder {name : String} {e : TExpr} {l : List Variable} {σ σ' : Variable → Variable} (order : SameOrder e.occurrences l)
      (agree : ∀ v ∈ l, σ v = σ' v) : (bindFreeVariables name e).restore σ = (bindFreeVariables name e).restore σ' := by
    simp only [bindFreeVariables, normalizeFreeVariables, freeVariablesInOrder, show firstByName e.occurrences = firstByName l from order]
    cases vars : firstByName l with
    | nil => rfl
    | cons x xs =>
      rw [applyNamedBinder, restore, restore, argMap_congr fun v hv => agree v (mem_of_mem_firstByName v (vars ▸ hv))]
  induction u generalizing s σ σ' with
  | var v => exact congrArg TExpr.var (agree v List.mem_cons_self)
  | const c => rfl
  | apply f ts ih =>
    obtain ⟨domain, -, sorts⟩ := h
    refine congrArg (TExpr.apply f) (list agree fun t ht agree => ?_)
    obtain ⟨s, hs⟩ := exists_sort sorts t ht
    exact ih t ht hs agree
  | and ts ih | or ts ih =>
    simp only [introduceBinders, restore]
    rw [list agree fun t ht agree => ?_]
    obtain ⟨s, hs⟩ := exists_sort h.2 t ht
    exact ih t ht hs agree
  | not a ha => exact congrArg TExpr.not (ha h.2 agree)
  | eventually environ a ha => exact congrArg (TExpr.eventually environ) (ha h.2 agree)
  | globally environ a ha => exact binder (sameOrder_introduceBinders h.2) agree
  | whenOp name a b ha hb => exact binder ((sameOrder_introduceBinders h.2).append (sameOrder_introduceBinders h.1)) agree
  | forAll vs a ha => exact congrArg (TExpr.forAll vs) (ha h.2 (exceptNames_congr agree))
  | «exists» vs a ha => exact congrArg (TExpr.exists vs) (ha h.2 (exceptNames_congr agree))
  | eq a b ha hb =>
    obtain ⟨-, t, sortA, sortB⟩ := h
    have both := List.forall_mem_append.mp agree
    exact congrArg₂ TExpr.eq (ha sortA both.1) (hb sortB both.2)
  | implies a b ha hb =>
    have both := List.forall_mem_append.mp agree
    exact congrArg₂ TExpr.implies (ha h.2.1 both.1) (hb h.2.2 both.2)
  | iff a b ha hb =>
    have both := List.forall_mem_append.mp agree
    exact congrArg₂ TExpr.iff (ha h.2.1 both.1) (hb h.2.2 both.2)
  | ite c a b hc ha hb =>
    have all := List.forall_mem_append.mp agree
    have both := List.forall_mem_append.mp all.1
    simp only [introduceBinders, restore, hc h.1 both.1, ha h.2.1 both.2, hb h.2.2 all.2]
  | cond | binder | applyBinder => exact h.elim

/-- What is asked of a body so that the binder over its free variables can be read back. -/
structure Restorable (e : TExpr) (l : List Variable) (subs : List (String × Variable)) : Prop where
  substitute : ∀ τ, (e.substituteByName subs).restore τ = e.restore (τ ∘ renamed subs)
  congr : ∀ σ σ', (∀ v ∈ l, σ v = σ' v) → e.restore σ = e.restore σ'

/-- A binder, after a renaming of its arguments, is read back as the operator over its own body. -/
theorem restore_bindFreeVariables {e : TExpr} {l : List Variable} (order : SameOrder e.occurrences l) (one : OneSort l)
    (h : Restorable e l (normalSubs (firstByName l))) {subs : List (String × Variable)}
    (closed : l = [] → Restorable e l subs) (name : String) (τ : Variable → Variable) :
    ((bindFreeVariables name e).substituteByName subs).restore τ = readBack name (e.restore (τ ∘ renamed subs)) := by
  simp only [bindFreeVariables, normalizeFreeVariables, freeVariablesInOrder, show firstByName e.occurrences = firstByName l from order]
  cases vars : firstByName l with
  | nil =>
    have none := eq_nil_of_firstByName vars
    rw [numberedVariables, List.map_nil, List.zip_nil_left, substituteByName_nil, applyNamedBinder, substituteByName, restore,
      (closed none).substitute, h.congr (id ∘ renamed subs) (τ ∘ renamed subs) (by simp [none])]
  | cons x xs =>
    have body := h.substitute (argMap (numberedVariables 0 (x :: xs)) ((x :: xs).map fun w => .var (renamed subs w)) τ)
    rw [vars, normalSubs] at body
    rw [applyNamedBinder, substituteByName, restore, substituteByNameList_eq_map, List.map_map]
    refine congrArg (readBack name) (body.trans (h.congr _ _ fun v hv => ?_))
    obtain ⟨w, hw, same⟩ := exists_mem_firstByName v hv
    obtain rfl := one w (mem_of_mem_firstByName w hw) v hv same
    have nodup := nodup_firstByName l
    rw [vars] at nodup hw
    exact argMap_normal nodup 0 (renamed subs) τ w hw

theorem restore_bindFreeVariables_self {e : TExpr} {l : List Variable} (order : SameOrder e.occurrences l) (one : OneSort l)
    (h : Restorable e l (normalSubs (firstByName l))) (name : String) (σ : Variable → Variable) :
    (bindFreeVariables name e).restore σ = readBack name (e.restore σ) := by
  have closed : l = [] → Restorable e l [] := fun none => by
    subst none
    exact h
  have value := restore_bindFreeVariables order one h closed name σ
  rwa [substituteByName_nil] at value

theorem Restorable.cond {a b : TExpr} {l m : List Variable} {subs : List (String × Variable)} (ha : Restorable a l subs)
    (hb : Restorable b m subs) : Restorable (.cond a b) (l ++ m) subs :=
  ⟨fun τ => congrArg₂ TExpr.cond (ha.substitute τ) (hb.substitute τ), fun σ σ' agree =>
    congrArg₂ TExpr.cond (ha.congr σ σ' fun v hv => agree v (List.mem_append_left _ hv))
      (hb.congr σ σ' fun v hv => agree v (List.mem_append_right _ hv))⟩

theorem exceptNames_renamed {vs l : List Variable} {subs : List (String × Variable)} {τ : Variable → Variable}
    (clear : ∀ v ∈ l, v.name ∉ vs.map Variable.name → (renamed subs v).name ∉ vs.map Variable.name) :
    ∀ v ∈ l, (exceptNames vs τ ∘ renamed (TExpr.removeBoundNames subs vs)) v = exceptNames vs (τ ∘ renamed subs) v := by
  intro v hv
  rw [Function.comp_apply, renamed_removeBoundNames]
  by_cases bound : v.name ∈ vs.map Variable.name
  · rw [if_pos bound, exceptNames, exceptNames, if_pos bound, if_pos bound]
  · rw [if_neg bound, exceptNames, exceptNames, if_neg bound, if_neg (clear v hv bound), Function.comp_apply]

/-- A renaming that captures nothing can be read back with the rest. -/
theorem restorable_introduceBinders {u : TExpr} {s : FSort} (h : u.OfSort s) (fits : u.Consistent) (clear : u.CaptureFree)
    {subs : List (String × Variable)} (capture : u.NoCapture subs) : Restorable u.introduceBinders u.scan subs := by
  suffices substitute : ∀ τ, (u.introduceBinders.substituteByName subs).restore τ = u.introduceBinders.restore (τ ∘ renamed subs) from
    ⟨substitute, fun _ _ agree => restore_congr h agree⟩
  have list {ts : List TExpr} {subs : List (String × Variable)} {τ : Variable → Variable}
      (ih : ∀ t ∈ ts, (t.introduceBinders.substituteByName subs).restore τ = t.introduceBinders.restore (τ ∘ renamed subs)) :
      restoreList (substituteByNameList (introduceBindersList ts) subs) τ =
        restoreList (introduceBindersList ts) (τ ∘ renamed subs) := by
    rw [introduceBindersList_eq_map, substituteByNameList_eq_map, restoreList_eq_map, restoreList_eq_map, List.map_map,
      List.map_map, List.map_map]
    exact List.map_congr_left ih
  induction u generalizing s subs with
  | var | const => exact fun _ => rfl
  | apply f ts ih =>
    obtain ⟨domain, -, sorts⟩ := h
    refine fun τ => congrArg (TExpr.apply f) (list fun t ht => ?_)
    obtain ⟨s, hs⟩ := exists_sort sorts t ht
    exact ih t ht hs (consistentList_iff.mp fits t ht) (captureFreeList_iff.mp clear t ht) (noCaptureList_iff.mp capture t ht) τ
  | and ts ih | or ts ih =>
    intro τ
    simp only [introduceBinders, substituteByName, restore]
    rw [list fun t ht => ?_]
    obtain ⟨s, hs⟩ := exists_sort h.2 t ht
    exact ih t ht hs (consistentList_iff.mp fits t ht) (captureFreeList_iff.mp clear t ht) (noCaptureList_iff.mp capture t ht) τ
  | not a ha => exact fun τ => congrArg TExpr.not (ha h.2 fits clear capture τ)
  | eventually environ a ha => exact fun τ => congrArg (TExpr.eventually environ) (ha h.2 fits clear capture τ)
  | globally environ a ha =>
    have body {subs : List (String × Variable)} (capture : a.NoCapture subs) : Restorable a.introduceBinders a.scan subs :=
      ⟨ha h.2 fits.2 clear.2 capture, fun _ _ agree => restore_congr h.2 agree⟩
    have order := sameOrder_introduceBinders h.2
    have closed : a.scan = [] → Restorable a.introduceBinders a.scan subs := fun none =>
      body (noCapture_of_unchanged (by simp [none]))
    exact fun τ => (restore_bindFreeVariables order fits.1 (body clear.1) closed _ τ).trans
      (restore_bindFreeVariables_self order fits.1 (body clear.1) _ _).symm
  | whenOp name a b ha hb =>
    have body {subs : List (String × Variable)} (capture : a.NoCapture subs) (capture' : b.NoCapture subs) :
        Restorable (.cond b.introduceBinders a.introduceBinders) (b.scan ++ a.scan) subs :=
      Restorable.cond ⟨hb h.2 fits.2.2 clear.2.2 capture', fun _ _ agree => restore_congr h.2 agree⟩
        ⟨ha h.1 fits.2.1 clear.2.1 capture, fun _ _ agree => restore_congr h.1 agree⟩
    have order : SameOrder (TExpr.cond b.introduceBinders a.introduceBinders).occurrences (b.scan ++ a.scan) :=
      (sameOrder_introduceBinders h.2).append (sameOrder_introduceBinders h.1)
    have closed : b.scan ++ a.scan = [] → Restorable (.cond b.introduceBinders a.introduceBinders) (b.scan ++ a.scan) subs :=
      fun none => body (noCapture_of_unchanged (by simp [(List.append_eq_nil_iff.mp none).2]))
        (noCapture_of_unchanged (by simp [(List.append_eq_nil_iff.mp none).1]))
    exact fun τ => (restore_bindFreeVariables order fits.1 (body clear.1.1 clear.1.2) closed _ τ).trans
      (restore_bindFreeVariables_self order fits.1 (body clear.1.1 clear.1.2) _ _).symm
  | forAll vs a ha =>
    intro τ
    refine congrArg (TExpr.forAll vs) ((ha h.2 fits.2 clear capture.2 _).trans ?_)
    exact restore_congr h.2 (exceptNames_renamed capture.1)
  | «exists» vs a ha =>
    intro τ
    refine congrArg (TExpr.exists vs) ((ha h.2 fits.2 clear capture.2 _).trans ?_)
    exact restore_congr h.2 (exceptNames_renamed capture.1)
  | eq a b ha hb =>
    obtain ⟨-, t, sortA, sortB⟩ := h
    exact fun τ => congrArg₂ TExpr.eq (ha sortA fits.1 clear.1 capture.1 τ) (hb sortB fits.2 clear.2 capture.2 τ)
  | implies a b ha hb =>
    exact fun τ => congrArg₂ TExpr.implies (ha h.2.1 fits.1 clear.1 capture.1 τ) (hb h.2.2 fits.2 clear.2 capture.2 τ)
  | iff a b ha hb =>
    exact fun τ => congrArg₂ TExpr.iff (ha h.2.1 fits.1 clear.1 capture.1 τ) (hb h.2.2 fits.2 clear.2 capture.2 τ)
  | ite c a b hc ha hb =>
    intro τ
    simp only [introduceBinders, substituteByName, restore, hc h.1 fits.1 clear.1 capture.1 τ,
      ha h.2.1 fits.2.1 clear.2.1 capture.2.1 τ, hb h.2.2 fits.2.2 clear.2.2 capture.2.2 τ]
  | cond | binder | applyBinder => exact h.elim

theorem readBack_globallyName (environ : Option String) (a : TExpr) : readBack (globallyName environ) a = .globally environ a := by
  unfold readBack
  rw [binderKind_globallyName]

theorem readBack_whenName (name : String) (a b : TExpr) : readBack (whenName name) (.cond b a) = .whenOp name a b := by
  unfold readBack
  rw [binderKind_whenName]

/-- Reading the binders back gives the formula, under the renaming. -/
theorem restore_introduceBinders {u : TExpr} {s : FSort} (h : u.OfSort s) (fits : u.Consistent) (clear : u.CaptureFree)
    (σ : Variable → Variable) : u.introduceBinders.restore σ = u.renameBy σ := by
  have list {ts : List TExpr} {σ : Variable → Variable} (ih : ∀ t ∈ ts, t.introduceBinders.restore σ = t.renameBy σ) :
      restoreList (introduceBindersList ts) σ = renameByList ts σ := by
    rw [introduceBindersList_eq_map, restoreList_eq_map, renameByList_eq_map, List.map_map]
    exact List.map_congr_left ih
  induction u generalizing s σ with
  | var | const => rfl
  | apply f ts ih =>
    obtain ⟨domain, -, sorts⟩ := h
    refine congrArg (TExpr.apply f) (list fun t ht => ?_)
    obtain ⟨s, hs⟩ := exists_sort sorts t ht
    exact ih t ht hs (consistentList_iff.mp fits t ht) (captureFreeList_iff.mp clear t ht) σ
  | and ts ih | or ts ih =>
    simp only [introduceBinders, restore, renameBy]
    rw [list fun t ht => ?_]
    obtain ⟨s, hs⟩ := exists_sort h.2 t ht
    exact ih t ht hs (consistentList_iff.mp fits t ht) (captureFreeList_iff.mp clear t ht) σ
  | not a ha | eventually environ a ha => rw [introduceBinders, restore, ha h.2 fits clear, renameBy]
  | globally environ a ha =>
    have body := restorable_introduceBinders h.2 fits.2 clear.2 clear.1
    rw [introduceBinders, restore_bindFreeVariables_self (sameOrder_introduceBinders h.2) fits.1 body, ha h.2 fits.2 clear.2,
      readBack_globallyName, renameBy]
  | whenOp name a b ha hb =>
    have order : SameOrder (TExpr.cond b.introduceBinders a.introduceBinders).occurrences (b.scan ++ a.scan) :=
      (sameOrder_introduceBinders h.2).append (sameOrder_introduceBinders h.1)
    have body := (restorable_introduceBinders h.2 fits.2.2 clear.2.2 clear.1.2).cond
      (restorable_introduceBinders h.1 fits.2.1 clear.2.1 clear.1.1)
    rw [introduceBinders, restore_bindFreeVariables_self order fits.1 body, restore, ha h.1 fits.2.1 clear.2.1,
      hb h.2 fits.2.2 clear.2.2, readBack_whenName, renameBy]
  | forAll vs a ha | «exists» vs a ha => rw [introduceBinders, restore, ha h.2 fits.2 clear, renameBy]
  | eq a b ha hb =>
    obtain ⟨-, t, sortA, sortB⟩ := h
    rw [introduceBinders, restore, ha sortA fits.1 clear.1, hb sortB fits.2 clear.2, renameBy]
  | implies a b ha hb | iff a b ha hb =>
    rw [introduceBinders, restore, ha h.2.1 fits.1 clear.1, hb h.2.2 fits.2 clear.2, renameBy]
  | ite c a b hc ha hb =>
    rw [introduceBinders, restore, hc h.1 fits.1 clear.1, ha h.2.1 fits.2.1 clear.2.1, hb h.2.2 fits.2.2 clear.2.2, renameBy]
  | cond | binder | applyBinder => exact h.elim

end Goivy
