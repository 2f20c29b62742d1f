import Goivy.Logic.OfSort

/-! When a substitution is refused, and what it returns otherwise. -/
namespace Goivy

namespace Expr

mutual
/-- Quantifiers bind variables as their constructors leave them: at least one, sorted and without repetitions. -/
@[grind =] def Formed : Expr → Prop
  | .var _ | .const _ => True
  | .apply _ ts | .and ts | .or ts => AllFormed ts
  | .eq a b | .implies a b | .iff a b => a.Formed ∧ b.Formed
  | .not a => a.Formed
  | .ite a b c => a.Formed ∧ b.Formed ∧ c.Formed
  | .forAll vs a | .exists vs a => vs ≠ [] ∧ deduplicateAndSortVars vs = vs ∧ a.Formed
  | .some _ a => a.Formed
  | .someElse _ a b c => a.Formed ∧ b.Formed ∧ c.Formed
@[grind =] def AllFormed : List Expr → Prop
  | [] => True
  | t :: ts => t.Formed ∧ AllFormed ts
end

theorem allFormed_iff {ts : List Expr} : AllFormed ts ↔ ∀ t ∈ ts, t.Formed := by
  induction ts with
  | nil => simp [AllFormed]
  | cons t ts ih => rw [AllFormed, ih, List.forall_mem_cons]

mutual
/-- The variables that are bound where `y` is not. -/
@[grind =] def bindersAround (y : Variable) : Expr → List Variable
  | .var _ | .const _ => []
  | .apply _ ts | .and ts | .or ts => bindersAroundList y ts
  | .eq a b | .implies a b | .iff a b => a.bindersAround y ++ b.bindersAround y
  | .not a => a.bindersAround y
  | .ite a b c => a.bindersAround y ++ b.bindersAround y ++ c.bindersAround y
  | .forAll vs a | .exists vs a | .some vs a => if y ∈ vs then [] else vs ++ a.bindersAround y
  | .someElse vs a b c =>
    if y ∈ vs then [] else vs ++ a.bindersAround y ++ b.bindersAround y ++ c.bindersAround y
@[grind =] def bindersAroundList (y : Variable) : List Expr → List Variable
  | [] => []
  | t :: ts => t.bindersAround y ++ bindersAroundList y ts
end

theorem bindersAroundList_eq_flatMap (y : Variable) (ts : List Expr) :
    bindersAroundList y ts = ts.flatMap (bindersAround y) := by
  induction ts with
  | nil => rfl
  | cons t ts ih => simp [bindersAroundList, ih]

mutual
/-- The replacement of variables, whatever is captured. -/
@[grind =] def replace : Expr → List (Variable × Expr) → Expr
  | .var v, subs => (subs.lookup v).getD (.var v)
  | .const c, _ => .const c
  | .apply f ts, subs => .apply f (replaceList ts subs)
  | .eq a b, subs => .eq (a.replace subs) (b.replace subs)
  | .not a, subs => .not (a.replace subs)
  | .and ts, subs => .and (replaceList ts subs)
  | .or ts, subs => .or (replaceList ts subs)
  | .implies a b, subs => .implies (a.replace subs) (b.replace subs)
  | .iff a b, subs => .iff (a.replace subs) (b.replace subs)
  | .ite c a b, subs => .ite (c.replace subs) (a.replace subs) (b.replace subs)
  | .forAll vs a, subs => .forAll vs (a.replace (subs.filter (·.1 ∉ vs)))
  | .exists vs a, subs => .exists vs (a.replace (subs.filter (·.1 ∉ vs)))
  | .some vs a, subs => .some vs (a.replace (subs.filter (·.1 ∉ vs)))
  | .someElse vs a b c, subs =>
    let inner := subs.filter (·.1 ∉ vs)
    .someElse vs (a.replace inner) (b.replace inner) (c.replace inner)
@[grind =] def replaceList : List Expr → List (Variable × Expr) → List Expr
  | [], _ => []
  | t :: ts, subs => t.replace subs :: replaceList ts subs
end

theorem replaceList_eq_map (ts : List Expr) (subs : List (Variable × Expr)) :
    replaceList ts subs = ts.map fun t => t.replace subs := by
  induction ts with
  | nil => rfl
  | cons t ts ih => simp [replaceList, ih]

theorem substituteWithoutBoundVariables_eq {vs : List Variable} {subs : List (Variable × Expr)}
    (clear : ∀ p ∈ subs, p.1 ∉ vs → ∀ x ∈ p.2.freeVariables, x ∉ vs) :
    substituteWithoutBoundVariables vs subs = Option.some (subs.filter (·.1 ∉ vs)) := by
  rw [substituteWithoutBoundVariables]
  refine if_neg fun captured => ?_
  simp only [List.any_eq_true, decide_eq_true_eq, List.mem_filter] at captured
  obtain ⟨x, bound, p, ⟨hp, other⟩, free⟩ := captured
  exact clear p hp other x free bound

theorem substituteList_eq {ts : List Expr} {subs : List (Variable × Expr)}
    (ih : ∀ t ∈ ts, t.substitute subs = Option.some (t.replace subs)) :
    substituteList ts subs = Option.some (replaceList ts subs) := by
  induction ts with
  | nil => rfl
  | cons t ts tail =>
    rw [substituteList, ih t List.mem_cons_self, Option.bind_some, tail fun u hu => ih u (List.mem_cons_of_mem _ hu)]
    rfl

theorem newApply_of_ofSorts {f : Const} {ts : List Expr} {dom : List FSort} {s : FSort} (sort : f.sort = .function dom s)
    (args : OfSorts ts dom) : newApply f ts = Option.some (.apply f ts) := by
  have fits : (dom.zip ts).all (fun p => argumentFits p.1 p.2) = true := by
    clear sort
    induction ts generalizing dom with
    | nil => cases dom <;> rfl
    | cons t ts ih =>
      cases dom with
      | nil => rfl
      | cons s dom =>
        rw [List.zip_cons_cons, List.all_cons, ih args.2, Bool.and_true, argumentFits, args.1.nodeSort]
        simp
  rw [newApply, sort]
  exact if_pos ⟨args.length_eq.symm, fits⟩

theorem isBooleanOrTop_of_ofSort {a : Expr} (h : a.OfSort .boolean) : a.nodeSort.isBooleanOrTop = true := by
  rw [h.nodeSort]
  rfl

/-- Where no binder captures a variable of a replacement, the substitution is the replacement. -/
theorem substitute_eq_replace {e : Expr} {s : FSort} (h : e.OfSort s) (formed : e.Formed)
    {subs : List (Variable × Expr)} (sorts : ∀ p ∈ subs, p.2.OfSort p.1.sort)
    (clear : ∀ p ∈ subs, ∀ x ∈ p.2.freeVariables, x ∉ e.bindersAround p.1) :
    e.substitute subs = Option.some (e.replace subs) ∧ (e.replace subs).OfSort s := by
  have keeps {e : Expr} {s : FSort} {subs : List (Variable × Expr)} (h : e.OfSort s)
      (sorts : ∀ p ∈ subs, p.2.OfSort p.1.sort) {e' : Expr} (sub : e.substitute subs = Option.some e') : e'.OfSort s :=
    h.substitute (fun v t ht => sorts (v, t) (InsMap.mem_of_lookup ht)) sub
  suffices e.substitute subs = Option.some (e.replace subs) from ⟨this, keeps h sorts this⟩
  induction e generalizing s subs with
  | var v | const c => rfl
  | apply f ts ih =>
    obtain ⟨dom, sort, args⟩ := h
    rw [Formed, allFormed_iff] at formed
    have each : ∀ t ∈ ts, t.substitute subs = Option.some (t.replace subs) := by
      intro t ht
      obtain ⟨s', hs⟩ := args.exists_sort t ht
      refine ih t ht hs (formed t ht) sorts fun p hp x hx mem => clear p hp x hx ?_
      rw [bindersAround, bindersAroundList_eq_flatMap]
      exact List.mem_flatMap.mpr ⟨t, ht, mem⟩
    have list := substituteList_eq each
    have args' := ofSorts_substituteList args list fun t _ s u hs hu => keeps hs sorts hu
    rw [substitute, list, Option.bind_some, newApply_of_ofSorts sort args']
    rfl
  | and ts ih | or ts ih =>
    have args := ofSorts_map.mp h.2
    rw [Formed, allFormed_iff] at formed
    have each : ∀ t ∈ ts, t.substitute subs = Option.some (t.replace subs) := by
      intro t ht
      refine ih t ht (args t ht) (formed t ht) sorts fun p hp x hx mem => clear p hp x hx ?_
      rw [bindersAround, bindersAroundList_eq_flatMap]
      exact List.mem_flatMap.mpr ⟨t, ht, mem⟩
    have list := substituteList_eq each
    have all : (replaceList ts subs).all (fun t => t.nodeSort.isBooleanOrTop) = true := by
      rw [List.all_eq_true, replaceList_eq_map]
      rintro u hu
      obtain ⟨t, ht, rfl⟩ := List.mem_map.mp hu
      exact isBooleanOrTop_of_ofSort (keeps (args t ht) sorts (each t ht))
    rw [substitute, list, Option.bind_some]
    exact if_pos all
  | not a ha =>
    have body := ha h.2 formed sorts clear
    rw [substitute, body, Option.bind_some]
    exact if_pos (isBooleanOrTop_of_ofSort (keeps h.2 sorts body))
  | eq a b ha hb =>
    obtain ⟨-, t, sortA, sortB⟩ := h
    have left := ha sortA formed.1 sorts fun p hp x hx mem => clear p hp x hx (List.mem_append_left _ mem)
    have right := hb sortB formed.2 sorts fun p hp x hx mem => clear p hp x hx (List.mem_append_right _ mem)
    rw [substitute, left, Option.bind_some, right, Option.bind_some, newEq, (keeps sortA sorts left).nodeSort,
      (keeps sortB sorts right).nodeSort]
    simp [replace]
  | implies a b ha hb | iff a b ha hb =>
    have left := ha h.2.1 formed.1 sorts fun p hp x hx mem => clear p hp x hx (List.mem_append_left _ mem)
    have right := hb h.2.2 formed.2 sorts fun p hp x hx mem => clear p hp x hx (List.mem_append_right _ mem)
    rw [substitute, left, Option.bind_some, right, Option.bind_some]
    refine if_pos ?_
    rw [isBooleanOrTop_of_ofSort (keeps h.2.1 sorts left), isBooleanOrTop_of_ofSort (keeps h.2.2 sorts right)]
    rfl
  | ite c a b hc ha hb =>
    have cond := hc h.1 formed.1 sorts fun p hp x hx mem =>
      clear p hp x hx (List.mem_append_left _ (List.mem_append_left _ mem))
    have left := ha h.2.1 formed.2.1 sorts fun p hp x hx mem =>
      clear p hp x hx (List.mem_append_left _ (List.mem_append_right _ mem))
    have right := hb h.2.2 formed.2.2 sorts fun p hp x hx mem => clear p hp x hx (List.mem_append_right _ mem)
    rw [substitute, cond, Option.bind_some, left, Option.bind_some, right, Option.bind_some, newIte,
      isBooleanOrTop_of_ofSort (keeps h.1 sorts cond), (keeps h.2.1 sorts left).nodeSort,
      (keeps h.2.2 sorts right).nodeSort]
    simp [replace]
  | forAll vs a ha | «exists» vs a ha =>
    obtain ⟨nonempty, sorted, formed⟩ := formed
    have outside : ∀ p ∈ subs, p.1 ∉ vs → ∀ x ∈ p.2.freeVariables, x ∉ vs ++ a.bindersAround p.1 := by
      intro p hp other x hx
      have here := clear p hp x hx
      rwa [bindersAround, if_neg other] at here
    have capture := substituteWithoutBoundVariables_eq fun p hp other x hx mem =>
      outside p hp other x hx (List.mem_append_left _ mem)
    have inner : ∀ p ∈ subs.filter (·.1 ∉ vs), p ∈ subs ∧ p.1 ∉ vs := fun p hp =>
      ⟨List.mem_of_mem_filter hp, by simpa using List.of_mem_filter hp⟩
    have body := ha h.2 formed (fun p hp => sorts p (inner p hp).1) fun p hp x hx mem =>
      outside p (inner p hp).1 (inner p hp).2 x hx (List.mem_append_right _ mem)
    have bool := isBooleanOrTop_of_ofSort (keeps h.2 (fun p hp => sorts p (inner p hp).1) body)
    rw [substitute, capture, Option.bind_some, body, Option.bind_some]
    first
      | rw [newForAll, bool, sorted]
      | rw [newExists, bool, sorted]
    simp [replace, nonempty]
  | some | someElse => exact h.elim

theorem substituteList_some {ts us : List Expr} {subs : List (Variable × Expr)} (h : substituteList ts subs = Option.some us) :
    ∀ t ∈ ts, ∃ u, t.substitute subs = Option.some u := by
  induction ts generalizing us with
  | nil => simp
  | cons t ts ih =>
    simp only [substituteList, Option.bind_eq_some_iff, Option.map_eq_some_iff] at h
    obtain ⟨u, hu, us', hus, -⟩ := h
    exact List.forall_mem_cons.mpr ⟨⟨u, hu⟩, ih hus⟩

/-- A substitution that is not refused captures nothing. -/
theorem clear_of_substitute {e e' : Expr} (plain : e.descriptionFree = true) {subs : List (Variable × Expr)}
    (h : e.substitute subs = Option.some e') : ∀ p ∈ subs, ∀ x ∈ p.2.freeVariables, x ∉ e.bindersAround p.1 := by
  induction e generalizing subs e' with
  | var v | const c => simp [bindersAround]
  | apply f ts ih | and ts ih | or ts ih =>
    rw [descriptionFree, descriptionFreeList_iff] at plain
    simp only [substitute, Option.bind_eq_some_iff] at h
    obtain ⟨us, hus, -⟩ := h
    intro p hp x hx mem
    rw [bindersAround, bindersAroundList_eq_flatMap, List.mem_flatMap] at mem
    obtain ⟨t, ht, mem⟩ := mem
    obtain ⟨u, hu⟩ := substituteList_some hus t ht
    exact ih t ht (plain t ht) hu p hp x hx mem
  | not a ha =>
    simp only [substitute, Option.bind_eq_some_iff] at h
    obtain ⟨a', sub, -⟩ := h
    exact ha plain sub
  | eq a b ha hb | implies a b ha hb | iff a b ha hb =>
    rw [descriptionFree, Bool.and_eq_true] at plain
    simp only [substitute, Option.bind_eq_some_iff] at h
    obtain ⟨a', subA, b', subB, -⟩ := h
    intro p hp x hx mem
    rcases List.mem_append.mp mem with left | right
    · exact ha plain.1 subA p hp x hx left
    · exact hb plain.2 subB p hp x hx right
  | ite c a b hc ha hb =>
    simp only [descriptionFree, Bool.and_eq_true] at plain
    simp only [substitute, Option.bind_eq_some_iff] at h
    obtain ⟨c', subC, a', subA, b', subB, -⟩ := h
    intro p hp x hx mem
    simp only [bindersAround, List.mem_append] at mem
    rcases mem with (cond | left) | right
    · exact hc plain.1.1 subC p hp x hx cond
    · exact ha plain.1.2 subA p hp x hx left
    · exact hb plain.2 subB p hp x hx right
  | forAll vs a ha | «exists» vs a ha =>
    simp only [substitute, Option.bind_eq_some_iff] at h
    obtain ⟨inner, hin, a', sub, -⟩ := h
    intro p hp x hx mem
    rw [bindersAround] at mem
    split at mem
    · contradiction
    rename_i other
    have same : inner = subs.filter (·.1 ∉ vs) ∧ ¬ vs.any (fun v => inner.any fun p => v ∈ p.2.freeVariables) := by
      simp only [substituteWithoutBoundVariables] at hin
      split at hin
      · contradiction
      · rename_i captures
        cases hin
        exact ⟨rfl, captures⟩
    have hp' : p ∈ inner := same.1 ▸ List.mem_filter.mpr ⟨hp, by simpa using other⟩
    rcases List.mem_append.mp mem with bound | below
    · exact same.2 (List.any_eq_true.mpr ⟨x, bound, List.any_eq_true.mpr ⟨p, hp', decide_eq_true hx⟩⟩)
    · exact ha plain sub p hp' x hx below
  | some | someElse => simp [descriptionFree] at plain

section

variable {subs : List (Variable × Expr)}

theorem filter_subset_subs (vs : List Variable) : ∀ p ∈ subs.filter (·.1 ∉ vs), p ∈ subs ∧ p.1 ∉ vs := fun p hp =>
  ⟨List.mem_of_mem_filter hp, by simpa using List.of_mem_filter hp⟩

/-- The free variables after a replacement. -/
theorem freeVariables_replace {e : Expr} (plain : e.descriptionFree = true) : ∀ x ∈ (e.replace subs).freeVariables,
    x ∈ e.freeVariables ∧ subs.lookup x = none ∨ ∃ p ∈ subs, p.1 ∈ e.freeVariables ∧ x ∈ p.2.freeVariables := by
  induction e generalizing subs with
  | var v =>
    intro x hx
    rw [replace] at hx
    cases ht : subs.lookup v with
    | none =>
      rw [ht, Option.getD_none, freeVariables, List.mem_singleton] at hx
      subst hx
      exact .inl ⟨List.mem_cons_self, ht⟩
    | some t =>
      rw [ht, Option.getD_some] at hx
      exact .inr ⟨(v, t), InsMap.mem_of_lookup ht, List.mem_cons_self, hx⟩
  | const c => simp [replace, freeVariables]
  | apply f ts ih | and ts ih | or ts ih =>
    rw [descriptionFree, descriptionFreeList_iff] at plain
    intro x hx
    simp only [replace, freeVariables, freeVariablesList_eq_flatMap, replaceList_eq_map, List.mem_flatMap, List.mem_map,
      exists_exists_and_eq_and] at hx ⊢
    obtain ⟨t, ht, hx⟩ := hx
    rcases ih t ht (plain t ht) x hx with ⟨old, none⟩ | ⟨p, hp, old, new⟩
    · exact .inl ⟨⟨t, ht, old⟩, none⟩
    · exact .inr ⟨p, hp, ⟨t, ht, old⟩, new⟩
  | not a ha => exact ha plain
  | eq a b ha hb | implies a b ha hb | iff a b ha hb =>
    rw [descriptionFree, Bool.and_eq_true] at plain
    have left := @ha subs plain.1
    have right := @hb subs plain.2
    simp only [replace, freeVariables, List.mem_append]
    grind
  | ite c a b hc ha hb =>
    simp only [descriptionFree, Bool.and_eq_true] at plain
    have cond := @hc subs plain.1.1
    have left := @ha subs plain.1.2
    have right := @hb subs plain.2
    simp only [replace, freeVariables, List.mem_append]
    grind
  | forAll vs a ha | «exists» vs a ha =>
    intro x hx
    simp only [replace, freeVariables, List.mem_filter, decide_eq_true_eq] at hx ⊢
    rcases ha plain x hx.1 with ⟨old, none⟩ | ⟨p, hp, old, new⟩
    · rw [InsMap.lookup_filter_notMem, if_neg hx.2] at none
      exact .inl ⟨⟨old, hx.2⟩, none⟩
    · obtain ⟨hp, other⟩ := filter_subset_subs vs p hp
      exact .inr ⟨p, hp, ⟨old, other⟩, new⟩
  | some | someElse => simp [descriptionFree] at plain

/-- A variable, a symbol, or a symbol applied to variables. -/
def Flat : Expr → Prop
  | .var _ | .const _ => True
  | .apply _ ts => ∀ t ∈ ts, ∃ v, t = .var v
  | _ => False

theorem Flat.formed {t : Expr} (h : t.Flat) : t.Formed := by
  cases t with
  | var v | const c => trivial
  | apply f ts =>
    refine allFormed_iff.mpr fun t ht => ?_
    obtain ⟨v, rfl⟩ := h t ht
    trivial
  | _ => exact h.elim

theorem Flat.bindersAround {t : Expr} (h : t.Flat) (y : Variable) : t.bindersAround y = [] := by
  cases t with
  | var v | const c => rfl
  | apply f ts =>
    rw [Expr.bindersAround, bindersAroundList_eq_flatMap, List.flatMap_eq_nil_iff]
    intro t ht
    obtain ⟨v, rfl⟩ := h t ht
    rfl
  | _ => exact h.elim

theorem formed_replace (flat : ∀ p ∈ subs, p.2.Flat) {e : Expr} (formed : e.Formed) : (e.replace subs).Formed := by
  induction e generalizing subs with
  | var v =>
    rw [replace]
    cases ht : subs.lookup v with
    | none => trivial
    | some t => exact (flat _ (InsMap.mem_of_lookup ht)).formed
  | const c => trivial
  | apply f ts ih | and ts ih | or ts ih =>
    rw [replace, Formed, allFormed_iff, replaceList_eq_map, List.forall_mem_map]
    exact fun t ht => ih t ht flat (allFormed_iff.mp formed t ht)
  | not a ha => exact ha flat formed
  | eq a b ha hb | implies a b ha hb | iff a b ha hb => exact ⟨ha flat formed.1, hb flat formed.2⟩
  | ite c a b hc ha hb => exact ⟨hc flat formed.1, ha flat formed.2.1, hb flat formed.2.2⟩
  | forAll vs a ha | «exists» vs a ha =>
    exact ⟨formed.1, formed.2.1, ha (fun p hp => flat p (filter_subset_subs vs p hp).1) formed.2.2⟩
  | some vs a ha => exact ha (fun p hp => flat p (filter_subset_subs vs p hp).1) formed
  | someElse vs a b c ha hb hc =>
    have flat' := fun p hp => flat p (filter_subset_subs vs p hp).1
    exact ⟨ha flat' formed.1, hb flat' formed.2.1, hc flat' formed.2.2⟩

theorem bindersAround_replace (flat : ∀ p ∈ subs, p.2.Flat) (y : Variable) (e : Expr) :
    (e.replace subs).bindersAround y = e.bindersAround y := by
  induction e generalizing subs with
  | var v =>
    rw [replace]
    cases ht : subs.lookup v with
    | none => rfl
    | some t => exact (flat _ (InsMap.mem_of_lookup ht)).bindersAround y
  | const c => rfl
  | apply f ts ih | and ts ih | or ts ih =>
    rw [replace, bindersAround, bindersAround, bindersAroundList_eq_flatMap, bindersAroundList_eq_flatMap,
      replaceList_eq_map, List.flatMap_map]
    exact List.flatMap_congr fun t ht => ih t ht flat
  | not a ha => exact ha flat
  | eq a b ha hb | implies a b ha hb | iff a b ha hb => simp only [replace, bindersAround, ha flat, hb flat]
  | ite c a b hc ha hb => simp only [replace, bindersAround, hc flat, ha flat, hb flat]
  | forAll vs a ha | «exists» vs a ha | some vs a ha =>
    simp only [replace, bindersAround, ha fun p hp => flat p (filter_subset_subs vs p hp).1]
  | someElse vs a b c ha hb hc =>
    have flat' : ∀ p ∈ subs.filter (·.1 ∉ vs), p.2.Flat := fun p hp => flat p (filter_subset_subs vs p hp).1
    simp only [replace, bindersAround, ha flat', hb flat', hc flat']

end

end Expr

end Goivy
