import Goivy.Mc.Qelim
import Goivy.Logic.Sorting
import Goivy.Logic.Instance

/-! The instances of a quantified formula, and what they say about it. -/
namespace Goivy

/-- The terms that quantifiers are instantiated with. -/
inductive Expr.Ground : Expr → Prop
  | const (c : Const) : Ground (.const c)
  | fls : Ground .fls
  | tru : Ground .tru

namespace Expr.Ground

variable {t : Expr} {s : FSort}

theorem hasSort {bound bound' : List Variable} (h : t.Ground) (sort : t.HasSort bound s) :
    t.HasSort bound' s := by
  cases h with
  | const c => exact sort
  | fls | tru => exact ⟨sort.1, by simp [HasSorts]⟩

theorem eval_congr {D : Domain} {M : Structure D} (h : t.Ground) (env env' : Env D) :
    t.eval M env = t.eval M env' := by
  cases h <;> rfl

end Expr.Ground

/-- The values of the names keep the sorts, and all other variables stay bound. -/
structure Instantiates (subs : List (String × Expr)) (bound bound' : List Variable) : Prop where
  kept : ∀ v, Binds bound v → subs.lookup v.name = none → Binds bound' v
  ground : ∀ v t, Binds bound v → subs.lookup v.name = some t → t.Ground
  sorts : ∀ v t, Binds bound v → subs.lookup v.name = some t → t.HasSort [] v.sort

variable {D : Domain} {M : Structure D}

/-- `env'` gives the variables of `bound` the values that their terms have under `env`. -/
def Env.Gives (M : Structure D) (subs : List (String × Expr)) (bound : List Variable)
    (env env' : Env D) : Prop :=
  ∀ v, Binds bound v → (⟨v.sort, env' v⟩ : Val D) = ((subs.lookup v.name).getD (.var v)).eval M env

theorem lookup_removeBoundNames (subs : List (String × Expr)) (vs : List Variable) (n : String) :
    (removeBoundNames subs vs).lookup n = if n ∈ vs.map Variable.name then none else subs.lookup n :=
  InsMap.lookup_filter_notMem (vs.map Variable.name) subs n

section under

variable {subs : List (String × Expr)} {bound bound' vs : List Variable}

theorem Instantiates.under (h : Instantiates subs bound bound') (vs : List Variable) :
    Instantiates (removeBoundNames subs vs) (vs ++ bound) (vs ++ bound') where
  kept v hv free := by
    rw [lookup_removeBoundNames] at free
    rcases binds_append.mp hv with inner | ⟨other, outer⟩
    · exact binds_append.mpr (.inl inner)
    · exact binds_append.mpr (.inr ⟨other, h.kept v outer (by rwa [if_neg other] at free)⟩)
  ground v t hv value := by
    rw [lookup_removeBoundNames] at value
    split at value
    · contradiction
    · rename_i other
      exact h.ground v t ((binds_append.mp hv).resolve_left fun inner =>
        other (List.mem_map_of_mem inner.mem)).2 value
  sorts v t hv value := by
    rw [lookup_removeBoundNames] at value
    split at value
    · contradiction
    · rename_i other
      exact h.sorts v t ((binds_append.mp hv).resolve_left fun inner =>
        other (List.mem_map_of_mem inner.mem)).2 value

theorem Env.Gives.under {env env' envA envB : Env D} (h : Env.Gives M subs bound env env')
    (fits : Instantiates subs bound bound') (off : env.Off vs envA) (off' : env'.Off vs envB)
    (inner : ∀ v ∈ vs, envA v = envB v) :
    Env.Gives M (removeBoundNames subs vs) (vs ++ bound) envA envB := by
  intro v hv
  rw [lookup_removeBoundNames]
  rcases binds_append.mp hv with here | ⟨other, outer⟩
  · rw [if_pos (List.mem_map_of_mem here.mem), Option.getD_none, Expr.eval, inner v here.mem]
  · have free : v ∉ vs := fun hv => other (List.mem_map_of_mem hv)
    rw [if_neg other, off' v free, h v outer]
    cases value : subs.lookup v.name with
    | none => simp only [Option.getD_none, Expr.eval, off v free]
    | some t => exact (fits.ground v t outer value).eval_congr env envA

/-- Assignments of the same bound variables correspond to each other. -/
theorem Env.Gives.exists_off_iff {env env' : Env D} (h : Env.Gives M subs bound env env')
    (fits : Instantiates subs bound bound') {P Q : Env D → Prop}
    (same : ∀ envA envB, Env.Gives M (removeBoundNames subs vs) (vs ++ bound) envA envB →
      (P envA ↔ Q envB)) :
    (∃ envA, env.Off vs envA ∧ P envA) ↔ ∃ envB, env'.Off vs envB ∧ Q envB := by
  constructor
  · rintro ⟨envA, off, hP⟩
    obtain ⟨envB, off', inner⟩ := Env.Instance.exists_off envA env' vs
    exact ⟨envB, off', (same envA envB (h.under fits off off' inner)).mp hP⟩
  · rintro ⟨envB, off', hQ⟩
    obtain ⟨envA, off, inner⟩ := Env.Instance.exists_off envB env vs
    exact ⟨envA, off,
      (same envA envB (h.under fits off off' fun v hv => (inner v hv).symm)).mpr hQ⟩

theorem Env.Gives.forall_off_iff {env env' : Env D} (h : Env.Gives M subs bound env env')
    (fits : Instantiates subs bound bound') {P Q : Env D → Prop}
    (same : ∀ envA envB, Env.Gives M (removeBoundNames subs vs) (vs ++ bound) envA envB →
      (P envA ↔ Q envB)) :
    (∀ envA, env.Off vs envA → P envA) ↔ ∀ envB, env'.Off vs envB → Q envB := by
  have dual := h.exists_off_iff fits fun envA envB hi => not_congr (same envA envB hi)
  grind

end under

theorem substituteListByName_eq_map (ts : List Expr) (subs : List (String × Expr)) :
    substituteListByName ts subs = ts.map (·.substituteByName subs) := by
  induction ts with
  | nil => rfl
  | cons t ts ih => simp [substituteListByName, ih]

namespace Expr

variable {subs : List (String × Expr)} {bound bound' : List Variable} {e : Expr} {s : FSort}

theorem hasSort_substituteByName (h : e.HasSort bound s) (fits : Instantiates subs bound bound') :
    (e.substituteByName subs).HasSort bound' s := by
  induction e generalizing subs bound bound' s with
  | var v =>
    obtain ⟨binds, rfl⟩ := h
    rw [substituteByName]
    cases value : subs.lookup v.name with
    | none => exact ⟨fits.kept v binds value, rfl⟩
    | some t => exact (fits.ground v t binds value).hasSort (fits.sorts v t binds value)
  | const c => exact h
  | apply f ts ih =>
    obtain ⟨domain, sort, sorts⟩ := h
    refine ⟨domain, sort, ?_⟩
    rw [substituteListByName_eq_map]
    exact sorts.map fun t ht s hs => ih t ht hs fits
  | and ts ih | or ts ih =>
    obtain ⟨rfl, sorts⟩ := h
    refine ⟨rfl, ?_⟩
    rw [hasSorts_map] at sorts ⊢
    rw [substituteListByName_eq_map, List.forall_mem_map]
    exact fun t ht => ih t ht (sorts t ht) fits
  | not a ha => exact ⟨h.1, ha h.2 fits⟩
  | eq a b ha hb =>
    obtain ⟨rfl, t, sortA, sortB⟩ := h
    exact ⟨rfl, t, ha sortA fits, hb sortB fits⟩
  | implies a b ha hb | iff a b ha hb => exact ⟨h.1, ha h.2.1 fits, hb h.2.2 fits⟩
  | ite a b c ha hb hc => exact ⟨ha h.1 fits, hb h.2.1 fits, hc h.2.2 fits⟩
  | forAll vs a ha | «exists» vs a ha => exact ⟨h.1, h.2.1, ha h.2.2 (fits.under vs)⟩
  | some | someElse => exact h.elim

theorem eval_substituteByName (h : e.HasSort bound s) (fits : Instantiates subs bound bound')
    {env env' : Env D} (gives : Env.Gives M subs bound env env') :
    (e.substituteByName subs).eval M env = e.eval M env' := by
  induction e generalizing subs bound bound' s env env' with
  | var v => exact (gives v h.1).symm
  | const c => rfl
  | apply f ts ih =>
    obtain ⟨domain, -, sorts⟩ := h
    rw [substituteByName, eval, eval, substituteListByName_eq_map, evalList_eq_map, evalList_eq_map,
      List.map_map]
    refine congrArg (M.value f) (List.map_congr_left fun t ht => ?_)
    obtain ⟨s, hs⟩ := sorts.exists_sort t ht
    exact ih t ht hs fits gives
  | and ts ih | or ts ih =>
    have terms : ts.map (fun t => (t.substituteByName subs).eval M env) =
        ts.map (fun t => t.eval M env') :=
      List.map_congr_left fun t ht => ih t ht (hasSorts_map.mp h.2 t ht) fits gives
    simp only [substituteByName, eval, substituteListByName_eq_map, evalList_eq_map, List.map_map,
      Function.comp_def, terms]
  | not a ha => simp only [substituteByName, eval, ha h.2 fits gives]
  | eq a b ha hb =>
    obtain ⟨-, t, sortA, sortB⟩ := h
    simp only [substituteByName, eval, ha sortA fits gives, hb sortB fits gives]
  | implies a b ha hb | iff a b ha hb =>
    simp only [substituteByName, eval, ha h.2.1 fits gives, hb h.2.2 fits gives]
  | ite a b c ha hb hc =>
    simp only [substituteByName, eval, ha h.1 fits gives, hb h.2.1 fits gives, hc h.2.2 fits gives]
  | forAll vs a ha =>
    simp only [substituteByName, eval]
    exact congrArg Val.ofProp (propext (gives.forall_off_iff fits fun envA envB hi => by
      rw [ha h.2.2 (fits.under vs) hi]))
  | «exists» vs a ha =>
    simp only [substituteByName, eval]
    exact congrArg Val.ofProp (propext (gives.exists_off_iff fits fun envA envB hi => by
      rw [ha h.2.2 (fits.under vs) hi]))
  | some | someElse => exact h.elim

theorem mem_symbols_substituteByName {c : Const} (h : c ∈ (e.substituteByName subs).symbols) :
    c ∈ e.symbols ∨ ∃ p ∈ subs, c ∈ p.2.symbols := by
  induction e generalizing subs with
  | var v =>
    rw [substituteByName] at h
    cases value : subs.lookup v.name with
    | none => simp [value, symbols] at h
    | some t =>
      rw [value, Option.getD_some] at h
      exact .inr ⟨_, InsMap.mem_of_lookup value, h⟩
  | const d => exact .inl h
  | apply f ts ih =>
    simp only [substituteByName, symbols, symbolsList_eq_flatMap, substituteListByName_eq_map,
      List.mem_cons, List.mem_flatMap, List.mem_map, exists_exists_and_eq_and] at h ⊢
    rcases h with rfl | ⟨t, ht, hc⟩
    · exact .inl (.inl rfl)
    · exact (ih t ht hc).imp (fun hc => .inr ⟨t, ht, hc⟩) id
  | and ts ih | or ts ih =>
    simp only [substituteByName, symbols, symbolsList_eq_flatMap, substituteListByName_eq_map,
      List.mem_flatMap, List.mem_map, exists_exists_and_eq_and] at h ⊢
    obtain ⟨t, ht, hc⟩ := h
    exact (ih t ht hc).imp (fun hc => ⟨t, ht, hc⟩) id
  | not a ha => exact ha h
  | eq a b ha hb | implies a b ha hb | iff a b ha hb =>
    simp only [substituteByName, symbols, List.mem_append] at h ⊢
    rcases h with hc | hc
    · exact (ha hc).imp .inl id
    · exact (hb hc).imp .inr id
  | ite a b c ha hb hc =>
    simp only [substituteByName, symbols, List.mem_append] at h ⊢
    rcases h with (hd | hd) | hd
    · exact (ha hd).imp (fun hd => .inl (.inl hd)) id
    · exact (hb hd).imp (fun hd => .inl (.inr hd)) id
    · exact (hc hd).imp .inr id
  | forAll vs a ha | «exists» vs a ha =>
    refine (ha h).imp_right ?_
    rintro ⟨p, hp, hc⟩
    exact ⟨p, List.mem_of_mem_filter hp, hc⟩
  | some | someElse => exact .inl h

mutual
/-- The sorts of the bound variables. -/
def binderSorts : Expr → List FSort
  | .var _ | .const _ => []
  | .apply _ ts | .and ts | .or ts => binderSortsList ts
  | .eq a b | .implies a b | .iff a b => a.binderSorts ++ b.binderSorts
  | .not a => a.binderSorts
  | .ite c a b => c.binderSorts ++ a.binderSorts ++ b.binderSorts
  | .forAll vs a | .exists vs a => vs.map Variable.sort ++ a.binderSorts
  | .some _ a => a.binderSorts
  | .someElse _ a b c => a.binderSorts ++ b.binderSorts ++ c.binderSorts
def binderSortsList : List Expr → List FSort
  | [] => []
  | t :: ts => t.binderSorts ++ binderSortsList ts
end

theorem binderSortsList_eq_flatMap (ts : List Expr) :
    binderSortsList ts = ts.flatMap binderSorts := by
  induction ts with
  | nil => rfl
  | cons t ts ih => simp [binderSortsList, ih]

mutual
/-- What bounds the recursion of `QE`: the expansion of a macro takes two more calls. -/
def depth : Expr → Nat
  | .var _ | .const _ => 1
  | .apply f ts => (if f.name ∈ macroNames then 3 else 1) + depthList ts
  | .and ts | .or ts => 1 + depthList ts
  | .eq a b | .implies a b | .iff a b => 1 + max a.depth b.depth
  | .not a | .forAll _ a | .exists _ a => 1 + a.depth
  | .ite c a b => 1 + max c.depth (max a.depth b.depth)
  | .some _ a => 1 + a.depth
  | .someElse _ a b c => 1 + max a.depth (max b.depth c.depth)
def depthList : List Expr → Nat
  | [] => 0
  | t :: ts => max t.depth (depthList ts)
end

theorem depth_pos (e : Expr) : 0 < e.depth := by
  cases e with
  | apply f ts =>
    rw [depth]
    split <;> omega
  | _ => simp [depth]

theorem depth_le_depthList {ts : List Expr} : ∀ t ∈ ts, t.depth ≤ depthList ts := by
  induction ts with
  | nil => simp
  | cons t ts ih =>
    simp only [depthList, List.forall_mem_cons]
    exact ⟨le_max_left _ _, fun u hu => (ih u hu).trans (le_max_right _ _)⟩

/-- The values of the names are ground. -/
def GroundValues (subs : List (String × Expr)) : Prop := ∀ p ∈ subs, p.2.Ground

theorem GroundValues.removeBoundNames (h : GroundValues subs) (vs : List Variable) :
    GroundValues (removeBoundNames subs vs) := fun p hp => h p (List.mem_of_mem_filter hp)

theorem GroundValues.getD (h : GroundValues subs) (v : Variable) :
    ((subs.lookup v.name).getD (.var v)).binderSorts = [] ∧
      ((subs.lookup v.name).getD (.var v)).depth = 1 := by
  cases value : subs.lookup v.name with
  | none => exact ⟨rfl, rfl⟩
  | some t =>
    have ground := h _ (InsMap.mem_of_lookup value)
    rw [Option.getD_some]
    cases ground <;> exact ⟨rfl, rfl⟩

theorem binderSorts_substituteByName (ground : GroundValues subs) :
    (e.substituteByName subs).binderSorts = e.binderSorts := by
  induction e generalizing subs with
  | var v => exact (ground.getD v).1
  | const c => rfl
  | apply f ts ih | and ts ih | or ts ih =>
    simp only [substituteByName, binderSorts, substituteListByName_eq_map, binderSortsList_eq_flatMap,
      List.flatMap_map]
    exact List.flatMap_congr fun t ht => ih t ht ground
  | not a ha => exact ha ground
  | eq a b ha hb | implies a b ha hb | iff a b ha hb =>
    simp only [substituteByName, binderSorts, ha ground, hb ground]
  | ite a b c ha hb hc =>
    simp only [substituteByName, binderSorts, ha ground, hb ground, hc ground]
  | forAll vs a ha | «exists» vs a ha =>
    simp only [substituteByName, binderSorts, ha (ground.removeBoundNames vs)]
  | some | someElse => rfl

theorem depth_substituteByName (ground : GroundValues subs) :
    (e.substituteByName subs).depth = e.depth := by
  induction e generalizing subs with
  | var v => exact (ground.getD v).2
  | const c => rfl
  | apply f ts ih | and ts ih | or ts ih =>
    have list : depthList (substituteListByName ts subs) = depthList ts := by
      induction ts with
      | nil => rfl
      | cons t ts tail =>
        rw [substituteListByName, depthList, depthList, ih t List.mem_cons_self ground,
          tail fun u hu => ih u (List.mem_cons_of_mem _ hu)]
    simp only [substituteByName, depth, list]
  | not a ha => simp only [substituteByName, depth, ha ground]
  | eq a b ha hb | implies a b ha hb | iff a b ha hb =>
    simp only [substituteByName, depth, ha ground, hb ground]
  | ite a b c ha hb hc => simp only [substituteByName, depth, ha ground, hb ground, hc ground]
  | forAll vs a ha | «exists» vs a ha =>
    simp only [substituteByName, depth, ha (ground.removeBoundNames vs)]
  | some | someElse => rfl

end Expr

end Goivy
