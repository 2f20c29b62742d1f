import Goivy.Logic.Replace
import Goivy.Mc.CloneNode
import Goivy.Proof.Skolem

/-! Which formulas `SkolemizeFmla` can substitute in: no substitution it makes would capture a variable. -/
namespace Goivy

/-- The unique names of the variables of a quantifier that stays. -/
def newVariables (rn : UniqueRenamer) : List Variable → List Variable × UniqueRenamer
  | [] => ([], rn)
  | v :: vs =>
    let (u, rn) := uniquifyVar rn v
    let (us, rn) := newVariables rn vs
    (u :: us, rn)

theorem newVariables_used (rn : UniqueRenamer) (vs : List Variable) : rn.used ⊆ (newVariables rn vs).2.used := by
  induction vs generalizing rn with
  | nil => exact List.Subset.refl _
  | cons v vs ih =>
    simp only [newVariables, uniquifyVar_eq]
    exact List.Subset.trans (List.subset_cons_self _ _) (ih (rn.rename v.name).2)

theorem newVariables_mem_used (rn : UniqueRenamer) (vs : List Variable) :
    ∀ u ∈ (newVariables rn vs).1, u.name ∈ (newVariables rn vs).2.used := by
  induction vs generalizing rn with
  | nil => simp [newVariables]
  | cons v vs ih =>
    simp only [newVariables, uniquifyVar_eq, List.forall_mem_cons]
    exact ⟨newVariables_used _ _ List.mem_cons_self, ih _⟩

theorem newVariables_fresh (rn : UniqueRenamer) (vs : List Variable) :
    ∀ u ∈ (newVariables rn vs).1, u.name ∉ rn.used := by
  induction vs generalizing rn with
  | nil => simp [newVariables]
  | cons v vs ih =>
    simp only [newVariables, uniquifyVar_eq, List.forall_mem_cons]
    refine ⟨rn.rename_not_mem v.name, fun u hu mem => ih (rn.rename v.name).2 u hu ?_⟩
    exact List.mem_cons_of_mem _ mem

namespace Expr

mutual
/-- The names that are taken after a formula has been gone through. -/
def namesAfter : Expr → Bool → UniqueRenamer → UniqueRenamer
  | .not a, pos, rn => a.namesAfter (!pos) rn
  | .implies a b, pos, rn => b.namesAfter pos (a.namesAfter (!pos) rn)
  | .and ts, pos, rn | .or ts, pos, rn => namesAfterList ts pos rn
  | .forAll vs a, pos, rn => a.namesAfter pos (if pos then rn else (newVariables rn vs).2)
  | .exists vs a, pos, rn => a.namesAfter pos (if pos then (newVariables rn vs).2 else rn)
  | _, _, rn => rn
def namesAfterList : List Expr → Bool → UniqueRenamer → UniqueRenamer
  | [], _, rn => rn
  | t :: ts, pos, rn => namesAfterList ts pos (t.namesAfter pos rn)
end

/-- The Skolem terms for the variables `vs` of the body `a` capture nothing: where a variable is replaced, no outer
variable is bound again. -/
def SkolemClear (vs : List Variable) (a : Expr) (outer : List Variable) : Prop :=
  ∀ v ∈ vs, v ∈ a.freeVariables → ∀ x ∈ outer, x ∉ a.bindersAround v

/-- The new names `us` for `vs` capture nothing, neither in the body nor a variable of `free`. -/
def RenameClear (vs : List Variable) (a : Expr) (us free : List Variable) : Prop :=
  (∀ p ∈ vs.zip us, p.1 ∈ a.freeVariables → p.2 ∉ a.bindersAround p.1) ∧ ∀ u ∈ us, u ∉ free

section

/- Whether quantifiers are pulled out, and the free variables of the whole formula. -/
variable (prenex : Bool) (free : List Variable)

mutual
/-- No substitution in `SkolemizeFmla` would capture a variable, and no new quantifier captures a free variable. -/
def ClashFree : Expr → Bool → UniqueRenamer → List Variable → Prop
  | .not a, pos, rn, outer => a.ClashFree (!pos) rn outer
  | .implies a b, pos, rn, outer => a.ClashFree (!pos) rn outer ∧ b.ClashFree pos (a.namesAfter (!pos) rn) outer
  | .and ts, pos, rn, outer | .or ts, pos, rn, outer => ClashFreeList ts pos rn outer
  | .forAll vs a, pos, rn, outer =>
    if pos then SkolemClear vs a outer ∧ a.ClashFree pos rn outer
    else
      RenameClear vs a (newVariables rn vs).1 (if prenex then free else (Expr.forAll vs a).freeVariables) ∧
        a.ClashFree pos (newVariables rn vs).2 (outer ++ (newVariables rn vs).1)
  | .exists vs a, pos, rn, outer =>
    if pos then
      RenameClear vs a (newVariables rn vs).1 (if prenex then free else (Expr.exists vs a).freeVariables) ∧
        a.ClashFree pos (newVariables rn vs).2 (outer ++ (newVariables rn vs).1)
    else SkolemClear vs a outer ∧ a.ClashFree pos rn outer
  | _, _, _, _ => True
def ClashFreeList : List Expr → Bool → UniqueRenamer → List Variable → Prop
  | [], _, _, _ => True
  | t :: ts, pos, rn, outer => t.ClashFree pos rn outer ∧ ClashFreeList ts pos (t.namesAfter pos rn) outer
end

end

mutual
/-- No connective or quantifier occurs below an equation, an application or the like. -/
def PlainLeaves : Expr → Prop
  | .not a | .forAll _ a | .exists _ a => a.PlainLeaves
  | .implies a b => a.PlainLeaves ∧ b.PlainLeaves
  | .and ts | .or ts => AllPlainLeaves ts
  | e => e.isQuantifierFree = true
def AllPlainLeaves : List Expr → Prop
  | [] => True
  | t :: ts => t.PlainLeaves ∧ AllPlainLeaves ts
end


section

variable {subs : List (Variable × Expr)}

theorem Flat.namesAfter {t : Expr} (h : t.Flat) (pos : Bool) (rn : UniqueRenamer) : t.namesAfter pos rn = rn := by
  cases t <;> first | rfl | exact h.elim

theorem namesAfterList_congr {f : Expr → Expr} {ts : List Expr}
    (h : ∀ t ∈ ts, ∀ pos rn, (f t).namesAfter pos rn = t.namesAfter pos rn) (pos : Bool) (rn : UniqueRenamer) :
    namesAfterList (ts.map f) pos rn = namesAfterList ts pos rn := by
  induction ts generalizing rn with
  | nil => rfl
  | cons t ts ih =>
    rw [List.map_cons, namesAfterList, namesAfterList, h t List.mem_cons_self,
      ih fun u hu => h u (List.mem_cons_of_mem _ hu)]

theorem namesAfter_replace (flat : ∀ p ∈ subs, p.2.Flat) (e : Expr) (pos : Bool) (rn : UniqueRenamer) :
    (e.replace subs).namesAfter pos rn = e.namesAfter pos rn := by
  induction e generalizing subs pos rn with
  | var v =>
    rw [replace]
    cases ht : subs.lookup v with
    | none => rfl
    | some t => exact (flat _ (InsMap.mem_of_lookup ht)).namesAfter pos rn
  | and ts ih | or ts ih =>
    rw [replace, replaceList_eq_map]
    exact namesAfterList_congr (fun t ht pos rn => ih t ht flat pos rn) pos rn
  | not a ha => exact ha flat _ _
  | implies a b ha hb => rw [replace, namesAfter, namesAfter, ha flat, hb flat]
  | forAll vs a ha | «exists» vs a ha => exact ha (fun p hp => flat p (filter_subset_subs vs p hp).1) _ _
  | _ => rfl

theorem namesAfter_used (e : Expr) (pos : Bool) (rn : UniqueRenamer) : rn.used ⊆ (e.namesAfter pos rn).used := by
  induction e generalizing pos rn with
  | and ts ih | or ts ih =>
    rw [namesAfter]
    induction ts generalizing rn with
    | nil => exact List.Subset.refl _
    | cons t ts tail =>
      refine List.Subset.trans (ih t List.mem_cons_self pos rn) ?_
      exact tail (fun u hu => ih u (List.mem_cons_of_mem _ hu)) _
  | not a ha => exact ha _ _
  | implies a b ha hb => exact List.Subset.trans (ha _ _) (hb _ _)
  | forAll vs a ha | «exists» vs a ha =>
    refine List.Subset.trans ?_ (ha _ _)
    split
    · first | exact List.Subset.refl _ | exact newVariables_used rn vs
    · first | exact List.Subset.refl _ | exact newVariables_used rn vs
  | _ => exact List.Subset.refl _

theorem Flat.skolemDepth {t : Expr} (h : t.Flat) : t.skolemDepth = 0 := by
  cases t <;> first | rfl | exact h.elim

theorem skolemDepthList_congr {f : Expr → Expr} {ts : List Expr} (h : ∀ t ∈ ts, (f t).skolemDepth = t.skolemDepth) :
    skolemDepthList (ts.map f) = skolemDepthList ts := by
  induction ts with
  | nil => rfl
  | cons t ts ih =>
    rw [List.map_cons, skolemDepthList, skolemDepthList, h t List.mem_cons_self,
      ih fun u hu => h u (List.mem_cons_of_mem _ hu)]

theorem skolemDepth_replace (flat : ∀ p ∈ subs, p.2.Flat) (e : Expr) : (e.replace subs).skolemDepth = e.skolemDepth := by
  induction e generalizing subs with
  | var v =>
    rw [replace]
    cases ht : subs.lookup v with
    | none => rfl
    | some t => exact (flat _ (InsMap.mem_of_lookup ht)).skolemDepth
  | and ts ih | or ts ih =>
    rw [replace, replaceList_eq_map, skolemDepth, skolemDepthList_congr fun t ht => ih t ht flat, skolemDepth]
  | not a ha => rw [replace, skolemDepth, ha flat, skolemDepth]
  | implies a b ha hb => rw [replace, skolemDepth, ha flat, hb flat, skolemDepth]
  | forAll vs a ha | «exists» vs a ha =>
    rw [replace, skolemDepth, ha fun p hp => flat p (filter_subset_subs vs p hp).1, skolemDepth]
  | _ => rfl

theorem le_skolemDepthList {t : Expr} {ts : List Expr} (ht : t ∈ ts) : t.skolemDepth ≤ skolemDepthList ts := by
  induction ts with
  | nil => contradiction
  | cons u ts ih =>
    rw [skolemDepthList]
    rcases List.mem_cons.mp ht with rfl | ht
    · exact Nat.le_max_left _ _
    · exact Nat.le_trans (ih ht) (Nat.le_max_right _ _)

end

/-- The substitution `subs` captures nothing in `e`. -/
def CapturesNothing (subs : List (Variable × Expr)) (e : Expr) : Prop :=
  ∀ p ∈ subs, ∀ x ∈ p.2.freeVariables, x ∉ e.bindersAround p.1

section

variable {subs : List (Variable × Expr)}

theorem CapturesNothing.children {ts : List Expr} {e : Expr} (clear : CapturesNothing subs e)
    (around : ∀ y, e.bindersAround y = bindersAroundList y ts) : ∀ t ∈ ts, CapturesNothing subs t := by
  intro t ht p hp x hx mem
  refine clear p hp x hx ?_
  rw [around, bindersAroundList_eq_flatMap]
  exact List.mem_flatMap.mpr ⟨t, ht, mem⟩

theorem CapturesNothing.left {a b e : Expr} (clear : CapturesNothing subs e)
    (around : ∀ y, e.bindersAround y = a.bindersAround y ++ b.bindersAround y) : CapturesNothing subs a :=
  fun p hp x hx mem => clear p hp x hx (around p.1 ▸ List.mem_append_left _ mem)

theorem CapturesNothing.right {a b e : Expr} (clear : CapturesNothing subs e)
    (around : ∀ y, e.bindersAround y = a.bindersAround y ++ b.bindersAround y) : CapturesNothing subs b :=
  fun p hp x hx mem => clear p hp x hx (around p.1 ▸ List.mem_append_right _ mem)

theorem CapturesNothing.under {vs : List Variable} {a e : Expr} (clear : CapturesNothing subs e)
    (around : ∀ y, y ∉ vs → e.bindersAround y = vs ++ a.bindersAround y) :
    (∀ p ∈ subs.filter (·.1 ∉ vs), ∀ x ∈ p.2.freeVariables, x ∉ vs) ∧
      CapturesNothing (subs.filter (·.1 ∉ vs)) a := by
  have inner := @filter_subset_subs subs vs
  constructor
  · intro p hp x hx mem
    exact clear p (inner p hp).1 x hx (around p.1 (inner p hp).2 ▸ List.mem_append_left _ mem)
  · intro p hp x hx mem
    exact clear p (inner p hp).1 x hx (around p.1 (inner p hp).2 ▸ List.mem_append_right _ mem)

/-- The bound variables are free in the body after a replacement only if they were before. -/
theorem mem_freeVariables_of_replace {vs : List Variable} {a : Expr} (plain : a.descriptionFree = true)
    (outside : ∀ p ∈ subs, ∀ x ∈ p.2.freeVariables, x ∉ vs) {v : Variable} (hv : v ∈ vs)
    (mem : v ∈ (a.replace subs).freeVariables) : v ∈ a.freeVariables := by
  rcases freeVariables_replace plain v mem with ⟨old, -⟩ | ⟨p, hp, -, new⟩
  · exact old
  · exact absurd hv (outside p hp v new)

theorem SkolemClear.replace {vs outer : List Variable} {a : Expr} (plain : a.descriptionFree = true)
    (flat : ∀ p ∈ subs, p.2.Flat) (outside : ∀ p ∈ subs, ∀ x ∈ p.2.freeVariables, x ∉ vs) (h : a.SkolemClear vs outer) :
    (a.replace subs).SkolemClear vs outer := by
  intro v hv mem x hx
  rw [bindersAround_replace flat]
  exact h v hv (mem_freeVariables_of_replace plain outside hv mem) x hx

theorem RenameClear.replace {vs us free free' : List Variable} {a : Expr} (plain : a.descriptionFree = true)
    (flat : ∀ p ∈ subs, p.2.Flat) (outside : ∀ p ∈ subs, ∀ x ∈ p.2.freeVariables, x ∉ vs)
    (sub : ∀ u ∈ us, u ∈ free' → u ∈ free) (h : a.RenameClear vs us free) :
    (a.replace subs).RenameClear vs us free' := by
  refine ⟨fun p hp mem => ?_, fun u hu mem => h.2 u hu (sub u hu mem)⟩
  rw [bindersAround_replace flat]
  exact h.1 p hp (mem_freeVariables_of_replace plain outside (List.of_mem_zip hp).1 mem)

theorem clashFreeList_replace {prenex pos : Bool} {free outer : List Variable} {f : Expr → Expr} {ts : List Expr}
    {rn : UniqueRenamer} (names : ∀ t ∈ ts, ∀ pos rn, (f t).namesAfter pos rn = t.namesAfter pos rn)
    (each : ∀ t ∈ ts, ∀ rn' : UniqueRenamer, rn.used ⊆ rn'.used → t.ClashFree prenex free pos rn' outer →
      (f t).ClashFree prenex free pos rn' outer) (h : ClashFreeList prenex free ts pos rn outer) :
    ClashFreeList prenex free (ts.map f) pos rn outer := by
  induction ts generalizing rn with
  | nil => trivial
  | cons t ts ih =>
    refine ⟨each t List.mem_cons_self rn (List.Subset.refl _) h.1, ?_⟩
    rw [names t List.mem_cons_self]
    refine ih (fun u hu => names u (List.mem_cons_of_mem _ hu)) (fun u hu rn' sub => ?_) h.2
    exact each u (List.mem_cons_of_mem _ hu) rn' (List.Subset.trans (namesAfter_used t pos rn) sub)

/-- A replacement by terms over older variables leaves the condition as it is. -/
theorem clashFree_replace {prenex : Bool} {free : List Variable} (flat : ∀ p ∈ subs, p.2.Flat) {e : Expr}
    (plain : e.descriptionFree = true) (clear : CapturesNothing subs e) {pos : Bool} {rn : UniqueRenamer}
    {outer : List Variable} (old : ∀ p ∈ subs, ∀ x ∈ p.2.freeVariables, x.name ∈ rn.used)
    (h : e.ClashFree prenex free pos rn outer) : (e.replace subs).ClashFree prenex free pos rn outer := by
  induction e generalizing subs pos rn outer with
  | var v =>
    rw [replace]
    cases ht : subs.lookup v with
    | none => trivial
    | some t =>
      have := flat _ (InsMap.mem_of_lookup ht)
      rw [Option.getD_some]
      cases t <;> first | trivial | exact this.elim
  | and ts ih | or ts ih =>
    rw [descriptionFree, descriptionFreeList_iff] at plain
    rw [replace, replaceList_eq_map]
    refine clashFreeList_replace (fun t _ pos rn => namesAfter_replace flat t pos rn) (fun t ht rn' sub => ?_) h
    exact ih t ht flat (plain t ht) (clear.children (fun _ => rfl) t ht) fun p hp x hx => sub (old p hp x hx)
  | not a ha => exact ha flat plain clear old h
  | implies a b ha hb =>
    rw [descriptionFree, Bool.and_eq_true] at plain
    refine ⟨ha flat plain.1 (clear.left fun _ => rfl) old h.1, ?_⟩
    rw [namesAfter_replace flat]
    exact hb flat plain.2 (clear.right fun _ => rfl) (fun p hp x hx => namesAfter_used _ _ _ (old p hp x hx)) h.2
  | forAll vs a ha | «exists» vs a ha =>
    obtain ⟨outside, clear'⟩ := @CapturesNothing.under subs vs a _ clear fun y hy => if_neg hy
    have inner := @filter_subset_subs subs vs
    have flat' : ∀ p ∈ subs.filter (·.1 ∉ vs), p.2.Flat := fun p hp => flat p (inner p hp).1
    have old' : ∀ p ∈ subs.filter (·.1 ∉ vs), ∀ x ∈ p.2.freeVariables, x.name ∈ rn.used := fun p hp =>
      old p (inner p hp).1
    have later : ∀ p ∈ subs.filter (·.1 ∉ vs), ∀ x ∈ p.2.freeVariables, x.name ∈ (newVariables rn vs).2.used :=
      fun p hp x hx => newVariables_used rn vs (old' p hp x hx)
    -- a new variable is free in the quantifier only if it was before, since the terms have older variables only
    have kept : ∀ u ∈ (newVariables rn vs).1,
        u ∈ (if prenex then free else ((Expr.forAll vs a).replace subs).freeVariables) →
        u ∈ if prenex then free else (Expr.forAll vs a).freeVariables := by
      intro u hu mem
      cases prenex with
      | true => exact mem
      | false =>
      rcases freeVariables_replace (show (Expr.forAll vs a).descriptionFree = true from plain) u mem with
        ⟨here, -⟩ | ⟨p, hp, -, new⟩
      · exact here
      · exact absurd (old p hp u new) (newVariables_fresh rn vs u hu)
    rw [ClashFree] at h
    rw [replace, ClashFree]
    cases pos
    all_goals first
      | exact ⟨h.1.replace plain flat' outside, ha flat' plain clear' old' h.2⟩
      | exact ⟨h.1.replace plain flat' outside kept, ha flat' plain clear' later h.2⟩
  | _ => trivial

theorem Flat.isQuantifierFree {t : Expr} (h : t.Flat) : t.isQuantifierFree = true := by
  cases t with
  | var v | const c => rfl
  | apply f ts =>
    refine allQuantifierFree_iff.mpr fun t ht => ?_
    obtain ⟨v, rfl⟩ := h t ht
    rfl
  | _ => exact h.elim

theorem isQuantifierFree_replace (flat : ∀ p ∈ subs, p.2.Flat) {e : Expr} (h : e.isQuantifierFree = true) :
    (e.replace subs).isQuantifierFree = true := by
  induction e generalizing subs with
  | var v =>
    rw [replace]
    cases ht : subs.lookup v with
    | none => rfl
    | some t => exact (flat _ (InsMap.mem_of_lookup ht)).isQuantifierFree
  | const c => rfl
  | apply f ts ih | and ts ih | or ts ih =>
    rw [replace, replaceList_eq_map]
    refine allQuantifierFree_iff.mpr (List.forall_mem_map.mpr fun t ht => ?_)
    exact ih t ht flat (allQuantifierFree_iff.mp h t ht)
  | not a ha => exact ha flat h
  | eq a b ha hb | implies a b ha hb | iff a b ha hb =>
    rw [isQuantifierFree, Bool.and_eq_true] at h
    rw [replace, isQuantifierFree, ha flat h.1, hb flat h.2, Bool.and_self]
  | ite c a b hc ha hb =>
    simp only [isQuantifierFree, Bool.and_eq_true] at h
    rw [replace, isQuantifierFree, hc flat h.1.1, ha flat h.1.2, hb flat h.2, Bool.and_self, Bool.and_self]
  | forAll | «exists» | some | someElse => contradiction

theorem allPlainLeaves_iff {ts : List Expr} : AllPlainLeaves ts ↔ ∀ t ∈ ts, t.PlainLeaves := by
  induction ts with
  | nil => simp [AllPlainLeaves]
  | cons t ts ih => rw [AllPlainLeaves, ih, List.forall_mem_cons]

theorem plainLeaves_replace (flat : ∀ p ∈ subs, p.2.Flat) {e : Expr} (h : e.PlainLeaves) : (e.replace subs).PlainLeaves := by
  induction e generalizing subs with
  | var v =>
    rw [replace]
    cases ht : subs.lookup v with
    | none => rfl
    | some t =>
      have flat := flat _ (InsMap.mem_of_lookup ht)
      rw [Option.getD_some]
      cases t <;> first | exact flat.isQuantifierFree | exact flat.elim
  | and ts ih | or ts ih =>
    rw [replace, replaceList_eq_map]
    refine allPlainLeaves_iff.mpr (List.forall_mem_map.mpr fun t ht => ?_)
    exact ih t ht flat (allPlainLeaves_iff.mp h t ht)
  | not a ha => exact ha flat h
  | implies a b ha hb => exact ⟨ha flat h.1, hb flat h.2⟩
  | forAll vs a ha | «exists» vs a ha => exact ha (fun p hp => flat p (filter_subset_subs vs p hp).1) h
  | const c | some vs a | someElse vs a b c => exact h
  | apply f ts | eq a b | iff a b | ite c a b => exact isQuantifierFree_replace flat h

end

end Expr

end Goivy
