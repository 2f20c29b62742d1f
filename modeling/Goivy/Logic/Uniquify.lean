import Goivy.Logic.OfSort
import Goivy.Logic.Key
import Goivy.Util.Renamer

/-! Renaming the bound variables of an expression apart. -/
namespace Goivy

/-- `VariableUniqifier`, with the new variables of those in scope. The entry set last comes first. -/
structure VariableUniqifier where
  rn : UniqueRenamer
  vmap : List (Variable × Variable)

namespace VariableUniqifier

/-- A new variable for each of the bound ones. -/
def bind (vu : VariableUniqifier) : List Variable → List Variable × VariableUniqifier
  | [] => ([], vu)
  | v :: vs =>
    let (name, rn) := vu.rn.rename v.name
    let nv : Variable := ⟨name, v.sort⟩
    let (nvs, vu') := bind ⟨rn, (v, nv) :: vu.vmap⟩ vs
    (nv :: nvs, vu')

/-- The entries of the bound variables are deleted, and those they have replaced are set again. -/
def leave (vu old : VariableUniqifier) (vs : List Variable) : VariableUniqifier :=
  let obs := vs.filterMap fun v => (old.vmap.lookup v).map (v, ·)
  ⟨vu.rn, obs ++ vu.vmap.filter (·.1 ∉ vs)⟩

end VariableUniqifier

namespace Expr

mutual
/-- The recursion of `Uniquify`. For an indefinite description `CloneBinder` drops the new body. -/
def uniquify : Expr → VariableUniqifier → Expr × VariableUniqifier
  | .var v, vu =>
    match vu.vmap.lookup v with
    | .some w => (.var w, vu)
    | none =>
      let (name, rn) := vu.rn.rename v.name
      let nv : Variable := ⟨name, v.sort⟩
      (.var nv, ⟨rn, (v, nv) :: vu.vmap⟩)
  | .const c, vu => (.const c, vu)
  | .apply f ts, vu => let (ts, vu) := uniquifyList ts vu; (.apply f ts, vu)
  | .and ts, vu => let (ts, vu) := uniquifyList ts vu; (.and ts, vu)
  | .or ts, vu => let (ts, vu) := uniquifyList ts vu; (.or ts, vu)
  | .eq a b, vu => let (a, vu) := a.uniquify vu; let (b, vu) := b.uniquify vu; (.eq a b, vu)
  | .not a, vu => let (a, vu) := a.uniquify vu; (.not a, vu)
  | .implies a b, vu => let (a, vu) := a.uniquify vu; let (b, vu) := b.uniquify vu; (.implies a b, vu)
  | .iff a b, vu => let (a, vu) := a.uniquify vu; let (b, vu) := b.uniquify vu; (.iff a b, vu)
  | .ite c a b, vu =>
    let (c, vu) := c.uniquify vu; let (a, vu) := a.uniquify vu; let (b, vu) := b.uniquify vu; (.ite c a b, vu)
  | .forAll vs a, old =>
    let (nvs, vu) := old.bind vs
    let (a, vu) := a.uniquify vu
    (.forAll (deduplicateAndSortVars nvs) a, vu.leave old vs)
  | .exists vs a, old =>
    let (nvs, vu) := old.bind vs
    let (a, vu) := a.uniquify vu
    (.exists (deduplicateAndSortVars nvs) a, vu.leave old vs)
  | .some vs a, old => let (nvs, vu) := old.bind vs; (.some nvs a, (a.uniquify vu).2.leave old vs)
  | .someElse vs a b c, old =>
    let (nvs, vu) := old.bind vs
    (.someElse nvs a b c, (a.uniquify vu).2.leave old vs)
def uniquifyList : List Expr → VariableUniqifier → List Expr × VariableUniqifier
  | [], vu => ([], vu)
  | t :: ts, vu => let (t, vu) := t.uniquify vu; let (ts, vu) := uniquifyList ts vu; (t :: ts, vu)
end

/-- `FreeVariablesList`: in the order of their keys. -/
def freeVariablesInOrder (e : Expr) : List Variable :=
  e.freeVariables.dedup.insertionSort fun v w =>
    (⟨v.name, .first v.sort⟩ : LogicVariable).sexp ≤ (⟨w.name, .first w.sort⟩ : LogicVariable).sexp

/-- `AlphaAvoidMap`, for the names of the variables, constants and sorts in the order in which their map is visited.
The variables among them keep their names where they are free, as all free variables do. -/
def alphaAvoidMap (e : Expr) (names : List String) : Expr :=
  let reserve (rn : UniqueRenamer) (name : String) := (rn.rename name).2
  let fvs := e.freeVariablesInOrder
  let rn := (fvs.map Variable.name).foldl reserve (names.foldl reserve ⟨"", []⟩)
  (e.uniquify ⟨rn, fvs.map fun v => (v, v)⟩).1

end Expr

namespace VariableUniqifier

variable {vu vu' vu₁ vu₂ old : VariableUniqifier} {vs nvs : List Variable}

/-- The new variables have the sorts of the old ones, and their names are used. An empty name is never chosen, so it need
not be. -/
structure Fits (vu : VariableUniqifier) : Prop where
  sort : ∀ {v w}, vu.vmap.lookup v = some w → w.sort = v.sort
  used : ∀ {v w}, vu.vmap.lookup v = some w → w.name ≠ "" → w.name ∈ vu.rn.used

/-- The same variables are in scope, under the same names. -/
structure Kept (vu vu' : VariableUniqifier) : Prop where
  lookup : ∀ v, vu'.vmap.lookup v = vu.vmap.lookup v
  used : vu.rn.used ⊆ vu'.rn.used

theorem Kept.refl (vu : VariableUniqifier) : Kept vu vu := ⟨fun _ => rfl, List.Subset.refl _⟩

theorem Kept.trans (h : Kept vu vu₁) (h' : Kept vu₁ vu₂) : Kept vu vu₂ :=
  ⟨fun v => (h'.lookup v).trans (h.lookup v), List.Subset.trans h.used h'.used⟩

theorem Kept.fits (h : Kept vu vu') (fits : vu.Fits) : vu'.Fits :=
  ⟨fun hw => fits.sort ((h.lookup _).symm.trans hw), fun hw name => h.used (fits.used ((h.lookup _).symm.trans hw) name)⟩

/-- What `bind` does to the scope. -/
structure Bound (vu vu' : VariableUniqifier) (vs nvs : List Variable) : Prop where
  used : vu.rn.used ⊆ vu'.rn.used
  fresh : ∀ w ∈ nvs, w.name ∉ vu.rn.used ∧ w.name ≠ ""
  lookup_mem : ∀ v ∈ vs, ∃ w ∈ nvs, vu'.vmap.lookup v = some w ∧ w.sort = v.sort ∧ w.name ∈ vu'.rn.used
  lookup_other : ∀ v, v ∉ vs → vu'.vmap.lookup v = vu.vmap.lookup v
  injective : ∀ v ∈ vs, ∀ u ∈ vs, vu'.vmap.lookup v = vu'.vmap.lookup u → v = u

theorem bind_bound (vu : VariableUniqifier) (vs : List Variable) : Bound vu (vu.bind vs).2 vs (vu.bind vs).1 := by
  induction vs generalizing vu with
  | nil =>
    refine ⟨List.Subset.refl _, ?_, ?_, fun _ _ => rfl, ?_⟩
    all_goals exact fun _ h => absurd h List.not_mem_nil
  | cons v vs ih =>
    have inner := ih ⟨(vu.rn.rename v.name).2, (v, ⟨(vu.rn.rename v.name).1, v.sort⟩) :: vu.vmap⟩
    simp only [bind]
    generalize hnv : (⟨(vu.rn.rename v.name).1, v.sort⟩ : Variable) = nv at inner ⊢
    have name : nv.name = (vu.rn.rename v.name).1 := by rw [← hnv]
    have sort : nv.sort = v.sort := by rw [← hnv]
    have used : (vu.rn.rename v.name).2.used = nv.name :: vu.rn.used := by rw [name]; rfl
    have fresh := inner.fresh
    have sub := inner.used
    simp only [used] at fresh sub
    have here : v ∉ vs → (bind ⟨(vu.rn.rename v.name).2, (v, nv) :: vu.vmap⟩ vs).2.vmap.lookup v = some nv := by
      intro hv
      rw [inner.lookup_other v hv, InsMap.lookup_cons, if_pos rfl]
    have later : ∀ u ∈ vs, (bind ⟨(vu.rn.rename v.name).2, (v, nv) :: vu.vmap⟩ vs).2.vmap.lookup u ≠ some nv := by
      intro u hu same
      obtain ⟨w, hw, hlu, -⟩ := inner.lookup_mem u hu
      obtain rfl : w = nv := Option.some.inj (hlu.symm.trans same)
      exact (fresh w hw).1 List.mem_cons_self
    constructor
    · exact fun n hn => sub (List.mem_cons_of_mem _ hn)
    · rw [List.forall_mem_cons]
      exact ⟨name ▸ ⟨vu.rn.rename_not_mem v.name, vu.rn.rename_ne_empty v.name⟩,
        fun w hw => ⟨fun hu => (fresh w hw).1 (List.mem_cons_of_mem _ hu), (fresh w hw).2⟩⟩
    · intro u hu
      by_cases mem : u ∈ vs
      · obtain ⟨w, hw, rest⟩ := inner.lookup_mem u mem
        exact ⟨w, List.mem_cons_of_mem _ hw, rest⟩
      · obtain rfl := (List.mem_cons.mp hu).resolve_right mem
        exact ⟨nv, List.mem_cons_self, here mem, sort, sub List.mem_cons_self⟩
    · intro u hu
      rw [List.mem_cons, not_or] at hu
      rw [inner.lookup_other u hu.2, InsMap.lookup_cons, if_neg hu.1]
    · intro u hu u' hu' same
      by_cases mem : u ∈ vs <;> by_cases mem' : u' ∈ vs
      · exact inner.injective u mem u' mem' same
      · obtain rfl := (List.mem_cons.mp hu').resolve_right mem'
        exact absurd (same.trans (here mem')) (later u mem)
      · obtain rfl := (List.mem_cons.mp hu).resolve_right mem
        exact absurd (same.symm.trans (here mem)) (later u' mem')
      · rw [(List.mem_cons.mp hu).resolve_right mem, (List.mem_cons.mp hu').resolve_right mem']

theorem Bound.fits (b : Bound vu vu' vs nvs) (fits : vu.Fits) : vu'.Fits := by
  have entry : ∀ {v w}, vu'.vmap.lookup v = some w → w.sort = v.sort ∧ (w.name ≠ "" → w.name ∈ vu'.rn.used) := by
    intro v w hw
    by_cases mem : v ∈ vs
    · obtain ⟨w', -, hw', sort, used⟩ := b.lookup_mem v mem
      obtain rfl : w' = w := Option.some.inj (hw'.symm.trans hw)
      exact ⟨sort, fun _ => used⟩
    · rw [b.lookup_other v mem] at hw
      exact ⟨fits.sort hw, fun name => b.used (fits.used hw name)⟩
  exact ⟨fun hw => (entry hw).1, fun hw => (entry hw).2⟩

theorem lookup_filterMap (f : Variable → Option Variable) (vs : List Variable) (v : Variable) :
    (vs.filterMap fun v => (f v).map (v, ·)).lookup v = if v ∈ vs then f v else none := by
  induction vs with
  | nil => rfl
  | cons u vs ih =>
    cases hu : f u with
    | none =>
      rw [List.filterMap_cons_none (by rw [hu]; rfl), ih]
      by_cases same : v = u
      · subst same
        simp [hu]
      · simp [same]
    | some w =>
      rw [List.filterMap_cons_some (by rw [hu]; rfl), InsMap.lookup_cons, ih]
      by_cases same : v = u
      · subst same
        simp [hu]
      · simp [same]

theorem leave_lookup (vu old : VariableUniqifier) (vs : List Variable) (v : Variable) :
    (vu.leave old vs).vmap.lookup v = if v ∈ vs then old.vmap.lookup v else vu.vmap.lookup v := by
  simp only [leave, List.lookup_append, lookup_filterMap, InsMap.lookup_filter_notMem]
  split
  · exact Option.or_none
  · exact Option.none_or

/-- After a binder the scope is what it was before. -/
theorem Bound.kept (b : Bound old vu vs nvs) (body : Kept vu vu') : Kept old (vu'.leave old vs) := by
  refine ⟨fun v => ?_, List.Subset.trans b.used body.used⟩
  rw [leave_lookup]
  split
  · rfl
  · rename_i free
    rw [body.lookup, b.lookup_other v free]

variable {D : Domain} {env env' envA envB : Env D}

/-- Two assignments give the old and the new variables the same values. -/
def Tracks (vu : VariableUniqifier) (env env' : Env D) : Prop :=
  ∀ {v w}, vu.vmap.lookup v = some w → (⟨v.sort, env v⟩ : Val D) = ⟨w.sort, env' w⟩

theorem Kept.tracks (h : Kept vu vu') (tracks : vu.Tracks env env') : vu'.Tracks env env' :=
  fun hw => tracks ((h.lookup _).symm.trans hw)

theorem Bound.not_mem (b : Bound vu vu' vs nvs) (fits : vu.Fits) {v w : Variable} (h : vu.vmap.lookup v = some w) :
    w ∉ nvs := fun mem => (b.fresh w mem).1 (fits.used h (b.fresh w mem).2)

/-- Values of the bound variables give values of the new ones. -/
theorem Bound.exists_new (b : Bound vu vu' vs nvs) (fits : vu.Fits) (tracks : vu.Tracks env env')
    (off : env.Off vs envA) : ∃ envB, env'.Off nvs envB ∧ vu'.Tracks envA envB := by
  have point : ∀ w : Variable, ∃ y : El D w.sort, (w ∉ nvs → y = env' w) ∧
      ∀ v, vu'.vmap.lookup v = some w → (⟨v.sort, envA v⟩ : Val D) = ⟨w.sort, y⟩ := by
    intro w
    by_cases new : w ∈ nvs
    · have bound : ∀ v, vu'.vmap.lookup v = some w → v ∈ vs := by
        intro v hw
        by_contra free
        exact b.not_mem fits ((b.lookup_other v free).symm.trans hw) new
      by_cases named : ∃ v, vu'.vmap.lookup v = some w
      · obtain ⟨v, hw⟩ := named
        obtain ⟨y, hy⟩ : ∃ y : El D w.sort, (⟨v.sort, envA v⟩ : Val D) = ⟨w.sort, y⟩ := by
          rw [(b.fits fits).sort hw]
          exact ⟨_, rfl⟩
        refine ⟨y, fun other => absurd new other, fun u hu => ?_⟩
        obtain rfl := b.injective v (bound v hw) u (bound u hu) (hw.trans hu.symm)
        exact hy
      · exact ⟨Classical.arbitrary _, fun other => absurd new other, fun v hw => absurd ⟨v, hw⟩ named⟩
    · refine ⟨env' w, fun _ => rfl, fun v hw => ?_⟩
      have free : v ∉ vs := by
        intro hv
        obtain ⟨w', mem, hw', -⟩ := b.lookup_mem v hv
        exact new (Option.some.inj (hw'.symm.trans hw) ▸ mem)
      rw [off v free]
      exact tracks ((b.lookup_other v free).symm.trans hw)
  choose envB off' same using point
  exact ⟨envB, off', fun hw => same _ _ hw⟩

/-- Values of the new variables give values of the bound ones. -/
theorem Bound.exists_old (b : Bound vu vu' vs nvs) (fits : vu.Fits) (tracks : vu.Tracks env env')
    (off : env'.Off nvs envB) : ∃ envA, env.Off vs envA ∧ vu'.Tracks envA envB := by
  have point : ∀ v : Variable, ∃ x : El D v.sort, (v ∉ vs → x = env v) ∧
      ∀ w, vu'.vmap.lookup v = some w → (⟨v.sort, x⟩ : Val D) = ⟨w.sort, envB w⟩ := by
    intro v
    by_cases bound : v ∈ vs
    · obtain ⟨w, -, hw, sort, -⟩ := b.lookup_mem v bound
      obtain ⟨x, hx⟩ : ∃ x : El D v.sort, (⟨v.sort, x⟩ : Val D) = ⟨w.sort, envB w⟩ := by
        rw [← sort]
        exact ⟨_, rfl⟩
      refine ⟨x, fun free => absurd bound free, fun w' hw' => ?_⟩
      obtain rfl := Option.some.inj (hw.symm.trans hw')
      exact hx
    · refine ⟨env v, fun _ => rfl, fun w hw => ?_⟩
      rw [b.lookup_other v bound] at hw
      rw [off w (b.not_mem fits hw)]
      exact tracks hw
  choose envA off' same using point
  exact ⟨envA, off', fun hw => same _ _ hw⟩

theorem Bound.exists_off_iff (b : Bound vu vu' vs nvs) (fits : vu.Fits) (tracks : vu.Tracks env env')
    {P Q : Env D → Prop} (same : ∀ envA envB, vu'.Tracks envA envB → (P envA ↔ Q envB)) :
    (∃ envA, env.Off vs envA ∧ P envA) ↔ ∃ envB, env'.Off nvs envB ∧ Q envB := by
  constructor
  · rintro ⟨envA, off, holds⟩
    obtain ⟨envB, off', tracksB⟩ := b.exists_new fits tracks off
    exact ⟨envB, off', (same envA envB tracksB).mp holds⟩
  · rintro ⟨envB, off, holds⟩
    obtain ⟨envA, off', tracksA⟩ := b.exists_old fits tracks off
    exact ⟨envA, off', (same envA envB tracksA).mpr holds⟩

theorem Bound.forall_off_iff (b : Bound vu vu' vs nvs) (fits : vu.Fits) (tracks : vu.Tracks env env')
    {P Q : Env D → Prop} (same : ∀ envA envB, vu'.Tracks envA envB → (P envA ↔ Q envB)) :
    (∀ envA, env.Off vs envA → P envA) ↔ ∀ envB, env'.Off nvs envB → Q envB := by
  have dual := b.exists_off_iff fits tracks fun envA envB h => not_congr (same envA envB h)
  grind

/-- The variables are in scope. -/
def Covers (vu : VariableUniqifier) (vs : List Variable) : Prop := ∀ v ∈ vs, ∃ w, vu.vmap.lookup v = some w

theorem Kept.covers (h : Kept vu vu') {vs : List Variable} (covers : vu.Covers vs) : vu'.Covers vs := by
  intro v hv
  obtain ⟨w, hw⟩ := covers v hv
  exact ⟨w, (h.lookup v).trans hw⟩

theorem Bound.covers (b : Bound vu vu' vs nvs) {fvs : List Variable} (covers : vu.Covers (fvs.filter (· ∉ vs))) :
    vu'.Covers fvs := by
  intro v hv
  by_cases bound : v ∈ vs
  · obtain ⟨w, -, hw, -⟩ := b.lookup_mem v bound
    exact ⟨w, hw⟩
  · obtain ⟨w, hw⟩ := covers v (List.mem_filter.mpr ⟨hv, decide_eq_true bound⟩)
    exact ⟨w, (b.lookup_other v bound).trans hw⟩

/-- What the recursion does where all free variables are in scope: the scope stays, and so do the sort and the value. -/
structure Uniquified (e : Expr) (vu : VariableUniqifier) (r : Expr × VariableUniqifier) : Prop where
  kept : Kept vu r.2
  ofSort : ∀ s, e.OfSort s → r.1.OfSort s
  eval : ∀ {D : Domain} (M : Structure D) (env env' : Env D), vu.Tracks env env' → r.1.eval M env' = e.eval M env

structure UniquifiedList (ts : List Expr) (vu : VariableUniqifier) (r : List Expr × VariableUniqifier) : Prop where
  kept : Kept vu r.2
  ofSorts : ∀ ss, OfSorts ts ss → OfSorts r.1 ss
  length : r.1.length = ts.length
  eval : ∀ {D : Domain} (M : Structure D) (env env' : Env D), vu.Tracks env env' →
    evalList M r.1 env' = evalList M ts env

theorem uniquifiedList (ts : List Expr) (ih : ∀ t ∈ ts, ∀ vu : VariableUniqifier, vu.Fits →
    vu.Covers t.freeVariables → Uniquified t vu (t.uniquify vu)) (fits : vu.Fits)
    (covers : vu.Covers (ts.flatMap Expr.freeVariables)) : UniquifiedList ts vu (Expr.uniquifyList ts vu) := by
  induction ts generalizing vu with
  | nil => exact ⟨Kept.refl vu, fun _ h => h, rfl, fun _ _ _ _ => rfl⟩
  | cons t ts tail =>
    rw [List.flatMap_cons, Covers, List.forall_mem_append] at covers
    have head := ih t List.mem_cons_self vu fits covers.1
    have rest := tail (fun u hu => ih u (List.mem_cons_of_mem _ hu)) (head.kept.fits fits) (head.kept.covers covers.2)
    refine ⟨head.kept.trans rest.kept, fun ss sorts => ?_, congrArg (· + 1) rest.length, fun M env env' tracks => ?_⟩
    · cases ss with
      | nil => exact sorts
      | cons s ss => exact ⟨head.ofSort s sorts.1, rest.ofSorts ss sorts.2⟩
    · simp only [Expr.uniquifyList, evalList, head.eval M env env' tracks,
        rest.eval M env env' (head.kept.tracks tracks)]

theorem uniquified {e : Expr} (plain : e.descriptionFree = true) (fits : vu.Fits) (covers : vu.Covers e.freeVariables) :
    Uniquified e vu (e.uniquify vu) := by
  induction e generalizing vu with
  | var v =>
    obtain ⟨w, hw⟩ := covers v List.mem_cons_self
    simp only [Expr.uniquify, hw]
    exact ⟨Kept.refl vu, fun s sort => (fits.sort hw).trans sort, fun M env env' tracks => (tracks hw).symm⟩
  | const c => exact ⟨Kept.refl vu, fun _ h => h, fun _ _ _ _ => rfl⟩
  | apply f ts ih =>
    rw [Expr.descriptionFree, Expr.descriptionFreeList_iff] at plain
    rw [Expr.freeVariables, Expr.freeVariablesList_eq_flatMap] at covers
    have terms := uniquifiedList ts (fun t ht vu => ih t ht (plain t ht)) fits covers
    refine ⟨terms.kept, fun s sort => ?_, fun M env env' tracks => ?_⟩
    · obtain ⟨domain, fsort, sorts⟩ := sort
      exact ⟨domain, fsort, terms.ofSorts domain sorts⟩
    · simp only [Expr.uniquify, Expr.eval, terms.eval M env env' tracks]
  | and ts ih | or ts ih =>
    rw [Expr.descriptionFree, Expr.descriptionFreeList_iff] at plain
    rw [Expr.freeVariables, Expr.freeVariablesList_eq_flatMap] at covers
    have terms := uniquifiedList ts (fun t ht vu => ih t ht (plain t ht)) fits covers
    refine ⟨terms.kept, fun s sort => ?_, fun M env env' tracks => ?_⟩
    · exact ⟨sort.1, OfSorts.replicate (terms.ofSorts _ sort.2) terms.length⟩
    · simp only [Expr.uniquify, Expr.eval, terms.eval M env env' tracks]
  | not a ha =>
    have body := ha plain fits covers
    refine ⟨body.kept, fun s sort => ⟨sort.1, body.ofSort _ sort.2⟩, fun M env env' tracks => ?_⟩
    simp only [Expr.uniquify, Expr.eval, body.eval M env env' tracks]
  | eq a b ha hb | implies a b ha hb | iff a b ha hb =>
    rw [Expr.descriptionFree, Bool.and_eq_true] at plain
    rw [Expr.freeVariables, Covers, List.forall_mem_append] at covers
    have left := ha plain.1 fits covers.1
    have right := hb plain.2 (left.kept.fits fits) (left.kept.covers covers.2)
    refine ⟨left.kept.trans right.kept, fun s sort => ?_, fun M env env' tracks => ?_⟩
    · first
        | exact ⟨sort.1, left.ofSort _ sort.2.1, right.ofSort _ sort.2.2⟩
        | exact ⟨sort.1, sort.2.imp fun t sorts => ⟨left.ofSort t sorts.1, right.ofSort t sorts.2⟩⟩
    · simp only [Expr.uniquify, Expr.eval, left.eval M env env' tracks,
        right.eval M env env' (left.kept.tracks tracks)]
  | ite c a b hc ha hb =>
    simp only [Expr.descriptionFree, Bool.and_eq_true] at plain
    simp only [Expr.freeVariables, Covers, List.forall_mem_append] at covers
    have cond := hc plain.1.1 fits covers.1.1
    have left := ha plain.1.2 (cond.kept.fits fits) (cond.kept.covers covers.1.2)
    have kept := cond.kept.trans left.kept
    have right := hb plain.2 (kept.fits fits) (kept.covers covers.2)
    refine ⟨kept.trans right.kept, fun s sort => ?_, fun M env env' tracks => ?_⟩
    · exact ⟨cond.ofSort _ sort.1, left.ofSort _ sort.2.1, right.ofSort _ sort.2.2⟩
    · simp only [Expr.uniquify, Expr.eval, cond.eval M env env' tracks,
        left.eval M env env' (cond.kept.tracks tracks), right.eval M env env' (kept.tracks tracks)]
  | forAll vs a ha =>
    have bound := bind_bound vu vs
    have body := ha plain (bound.fits fits) (bound.covers covers)
    refine ⟨bound.kept body.kept, fun s sort => ⟨sort.1, body.ofSort _ sort.2⟩, fun M env env' tracks => ?_⟩
    simp only [Expr.uniquify, Expr.eval, Env.off_deduplicateAndSortVars]
    exact congrArg Val.ofProp (propext (bound.forall_off_iff fits tracks fun envA envB tracksA => by
      rw [body.eval M envA envB tracksA]).symm)
  | «exists» vs a ha =>
    have bound := bind_bound vu vs
    have body := ha plain (bound.fits fits) (bound.covers covers)
    refine ⟨bound.kept body.kept, fun s sort => ⟨sort.1, body.ofSort _ sort.2⟩, fun M env env' tracks => ?_⟩
    simp only [Expr.uniquify, Expr.eval, Env.off_deduplicateAndSortVars]
    exact congrArg Val.ofProp (propext (bound.exists_off_iff fits tracks fun envA envB tracksA => by
      rw [body.eval M envA envB tracksA]).symm)
  | some vs a | someElse vs a b c => simp [Expr.descriptionFree] at plain

end VariableUniqifier

namespace Expr

variable {e : Expr} {s : FSort}

theorem uniquifyList_symbols (ts : List Expr) (vu : VariableUniqifier)
    (ih : ∀ t ∈ ts, ∀ vu : VariableUniqifier, (t.uniquify vu).1.symbols = t.symbols) :
    symbolsList (uniquifyList ts vu).1 = symbolsList ts := by
  induction ts generalizing vu with
  | nil => rfl
  | cons t ts tail =>
    simp only [uniquifyList, symbolsList, ih t List.mem_cons_self vu,
      tail (t.uniquify vu).2 fun u hu => ih u (List.mem_cons_of_mem _ hu)]

theorem uniquify_symbols (e : Expr) (vu : VariableUniqifier) : (e.uniquify vu).1.symbols = e.symbols := by
  induction e generalizing vu with
  | var v =>
    simp only [uniquify]
    split <;> rfl
  | const c | some vs a | someElse vs a b c => rfl
  | apply f ts ih | and ts ih | or ts ih =>
    simp only [uniquify, symbols, uniquifyList_symbols ts vu fun t ht vu => ih t ht vu]
  | not a ha | forAll vs a ha | «exists» vs a ha => exact ha _
  | eq a b ha hb | implies a b ha hb | iff a b ha hb => simp only [uniquify, symbols, ha, hb]
  | ite c a b hc ha hb => simp only [uniquify, symbols, hc, ha, hb]

theorem mem_freeVariablesInOrder {v : Variable} : v ∈ e.freeVariablesInOrder ↔ v ∈ e.freeVariables := by
  simp [freeVariablesInOrder]

theorem mem_used_reserve (names : List String) (rn : UniqueRenamer) :
    rn.used ⊆ (names.foldl (fun rn name => (rn.rename name).2) rn).used := by
  induction names generalizing rn with
  | nil => exact List.Subset.refl _
  | cons n names ih => exact List.Subset.trans (List.subset_cons_self _ _) (ih (rn.rename n).2)

theorem mem_reserve (names : List String) (rn : UniqueRenamer) (plain : rn.namePrefix = "") : ∀ n ∈ names, n ≠ "" →
    n ∈ (names.foldl (fun rn name => (rn.rename name).2) rn).used := by
  induction names generalizing rn with
  | nil => exact fun _ h => absurd h List.not_mem_nil
  | cons m names ih =>
    intro n hn name
    rcases List.mem_cons.mp hn with rfl | later
    · refine mem_used_reserve names _ ?_
      by_cases used : n ∈ rn.used
      · exact List.mem_cons_of_mem _ used
      · have same : (rn.rename n).1 = n := by
          rw [UniqueRenamer.rename, plain, String.empty_append, if_pos ⟨name, used⟩]
        rw [UniqueRenamer.rename_used, same]
        exact List.mem_cons_self
    · exact ih (rn.rename m).2 plain n later name

theorem reserve_namePrefix (names : List String) (rn : UniqueRenamer) :
    (names.foldl (fun rn name => (rn.rename name).2) rn).namePrefix = rn.namePrefix := by
  induction names generalizing rn with
  | nil => rfl
  | cons n names ih => exact ih (rn.rename n).2

theorem alphaAvoidMap_symbols (e : Expr) (names : List String) : (e.alphaAvoidMap names).symbols = e.symbols :=
  uniquify_symbols e _

/-- Alpha conversion keeps the sort and the value. -/
theorem alphaAvoidMap_spec (h : e.OfSort s) (names : List String) :
    (e.alphaAvoidMap names).OfSort s ∧
      ∀ {D : Domain} (M : Structure D) (env : Env D), (e.alphaAvoidMap names).eval M env = e.eval M env := by
  rw [alphaAvoidMap]
  generalize hrn : (List.foldl _ (List.foldl _ _ names) _) = rn
  have used : ∀ v ∈ e.freeVariablesInOrder, v.name ≠ "" → v.name ∈ rn.used := by
    intro v hv name
    rw [← hrn]
    exact mem_reserve _ _ (reserve_namePrefix names _) _ (List.mem_map_of_mem hv) name
  have entry : ∀ {v w}, (e.freeVariablesInOrder.map fun v => (v, v)).lookup v = Option.some w →
      w = v ∧ v ∈ e.freeVariablesInOrder := by
    intro v w hw
    rw [InsMap.lookup_graph] at hw
    split at hw
    · rename_i mem
      exact ⟨(Option.some.inj hw).symm, mem⟩
    · contradiction
  have fits : VariableUniqifier.Fits ⟨rn, e.freeVariablesInOrder.map fun v => (v, v)⟩ := by
    constructor
    · intro v w hw
      rw [(entry hw).1]
    · intro v w hw name
      obtain ⟨rfl, mem⟩ := entry hw
      exact used w mem name
  have covers : VariableUniqifier.Covers ⟨rn, e.freeVariablesInOrder.map fun v => (v, v)⟩ e.freeVariables := by
    intro v hv
    exact ⟨v, (InsMap.lookup_graph _ _ v).trans (if_pos (mem_freeVariablesInOrder.mpr hv))⟩
  have result := VariableUniqifier.uniquified h.descriptionFree fits covers
  refine ⟨result.ofSort s h, fun M env => result.eval M env env ?_⟩
  intro v w hw
  rw [(entry hw).1]

end Expr

end Goivy
