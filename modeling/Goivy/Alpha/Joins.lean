import Goivy.Alpha.Tables

/-! The product of two tables is their join. -/
namespace Goivy.Alpha

variable {vs ws : List Variable} {corr : List (Nat × Nat)} {i j : Nat} {P Q : (Variable → Const) → Prop} {x y : RelTable}

section Corr

/-- The positions of the names after the loop over `ws`, which begins at `k`. -/
theorem foldl_positions {ws : List Variable} {k : Nat} {d : String → Option Nat} (names : (ws.map Variable.name).Nodup) {n : String} :
    (((ws.map Term.var).zipIdx k).foldl notePosition d) n = some i ↔
      (∃ j w, ws[j]? = some w ∧ w.name = n ∧ i = k + j) ∨ n ∉ ws.map Variable.name ∧ d n = some i := by
  induction ws generalizing k d with
  | nil => simp
  | cons w ws ih =>
    rw [List.map_cons, List.nodup_cons] at names
    rw [List.map_cons, List.zipIdx_cons, List.foldl_cons, ih names.2, notePosition]
    constructor
    · rintro (⟨j, u, hu, same, rfl⟩ | ⟨new, found⟩)
      · exact .inl ⟨j + 1, u, hu, same, by omega⟩
      · by_cases same : n = w.name
        · rw [same, Function.update_self] at found
          exact .inl ⟨0, w, rfl, same.symm, (Option.some.inj found).symm⟩
        · rw [Function.update_of_ne same] at found
          exact .inr ⟨by simp [same, new], found⟩
    · rintro (⟨j, u, hu, same, rfl⟩ | ⟨new, found⟩)
      · cases j with
        | zero =>
          obtain rfl := Option.some.inj hu
          exact .inr ⟨same ▸ names.1, by rw [← same, Function.update_self, Nat.add_zero]⟩
        | succ j => exact .inl ⟨j, u, hu, same, by omega⟩
      · rw [List.map_cons, List.mem_cons, not_or] at new
        exact .inr ⟨new.2, by rw [Function.update_of_ne new.1, found]⟩

theorem mem_varCorr (names : (ws.map Variable.name).Nodup) :
    (j, i) ∈ varCorr (vs.map .var) (ws.map .var) ↔ ∃ v w, vs[j]? = some v ∧ ws[i]? = some w ∧ v.name = w.name := by
  simp only [varCorr, List.mem_filterMap, Prod.exists, List.mem_zipIdx_iff_getElem?, List.getElem?_map, Option.map_eq_some_iff,
    Option.bind_eq_some_iff]
  constructor
  · rintro ⟨-, j', ⟨v, hv, rfl⟩, u, hu, i', found, eq⟩
    obtain rfl : v = u := Option.some.inj hu
    obtain ⟨rfl, rfl⟩ := Prod.mk.inj eq
    rcases (foldl_positions names).mp found with ⟨i, w, hw, same, rfl⟩ | ⟨-, none⟩
    · exact ⟨v, w, hv, by rwa [Nat.zero_add], same.symm⟩
    · contradiction
  · rintro ⟨v, w, hv, hw, same⟩
    refine ⟨.var v, j, ⟨v, hv, rfl⟩, v, rfl, i, ?_, rfl⟩
    exact (foldl_positions names).mpr (.inl ⟨i, w, hw, same.symm, (Nat.zero_add i).symm⟩)

end Corr

section Match

variable {xr yr : List Const} {rows : List (List Const)}

/-- Two rows agree where they correspond. -/
def Agree (corr : List (Nat × Nat)) (xr yr : List Const) : Prop := ∀ p ∈ corr, xr[p.1]? = yr[p.2]?

instance : Decidable (Agree corr xr yr) := inferInstanceAs (Decidable (∀ p ∈ corr, _))

theorem allMatch_eq (fits : ∀ p ∈ corr, p.1 < xr.length ∧ p.2 < yr.length) :
    allMatch xr yr corr = some (decide (Agree corr xr yr)) := by
  induction corr with
  | nil => simp [allMatch, Agree]
  | cons p corr ih =>
    obtain ⟨i, j⟩ := p
    rw [List.forall_mem_cons] at fits
    rw [allMatch, List.getElem?_eq_getElem fits.1.1, List.getElem?_eq_getElem fits.1.2, Option.bind_some, Option.bind_some]
    have head : Agree ((i, j) :: corr) xr yr ↔ xr[i] = yr[j] ∧ Agree corr xr yr := by
      rw [Agree, List.forall_mem_cons, List.getElem?_eq_getElem fits.1.1, List.getElem?_eq_getElem fits.1.2, Option.some.injEq]
      rfl
    split
    · rename_i same
      rw [ih fits.2]
      simp [head, same]
    · rename_i other
      simp [head, other]

theorem matchRows_eq (fits : ∀ yr ∈ rows, ∀ p ∈ corr, p.1 < xr.length ∧ p.2 < yr.length) :
    matchRows corr xr rows = some ((rows.filter fun yr => Agree corr xr yr).map (xr ++ ·)) := by
  have each : ∀ yr ∈ rows, (allMatch xr yr corr).map (fun b => if b then [xr ++ yr] else []) =
      some (if Agree corr xr yr then [xr ++ yr] else []) := by
    intro yr hyr
    simp [allMatch_eq (fits yr hyr)]
  rw [matchRows, mapM_eq_map each, Option.map_some]
  congr 1
  clear each fits
  induction rows with
  | nil => rfl
  | cons yr rows ih =>
    rw [List.map_cons, List.flatten_cons, ih, List.filter_cons]
    by_cases agree : Agree corr xr yr
    · simp [agree]
    · simp [agree]

/-- The rows of the product before columns are dropped: the index does not lose any. -/
theorem prod_eq (print : Const → String) (fitsX : ∀ xr ∈ x.rows, ∀ p ∈ varCorr x.vars y.vars, p.1 < xr.length)
    (fitsY : ∀ yr ∈ y.rows, ∀ p ∈ varCorr x.vars y.vars, p.2 < yr.length) :
    prod print x y = compactTable ⟨x.vars ++ y.vars,
      x.rows.flatMap fun xr => (y.rows.filter fun yr => Agree (varCorr x.vars y.vars) xr yr).map (xr ++ ·)⟩ := by
  have all : ∀ xr ∈ x.rows, matchRows (varCorr x.vars y.vars) xr y.rows =
      some ((y.rows.filter fun yr => Agree (varCorr x.vars y.vars) xr yr).map (xr ++ ·)) :=
    fun xr hxr => matchRows_eq fun yr hyr p hp => ⟨fitsX xr hxr p hp, fitsY yr hyr p hp⟩
  rw [prod]
  cases h : varCorr x.vars y.vars with
  | nil =>
    rw [h] at all
    simp only [mapM_eq_map all, Option.bind_some, List.flatMap]
  | cons p corr =>
    obtain ⟨xc, yc⟩ := p
    rw [h] at fitsX fitsY
    have first : ∀ yr ∈ y.rows, (yr[yc]?.map fun c => (print c, yr)) = some (print (yr.getD yc default), yr) := by
      intro yr hyr
      have lt := fitsY yr hyr _ List.mem_cons_self
      rw [List.getD_eq_getElem?_getD, List.getElem?_eq_getElem lt]
      rfl
    have each : ∀ xr ∈ x.rows, (xr[xc]?.bind fun c => matchRows ((xc, yc) :: corr) xr
        (((y.rows.map fun yr => (print (yr.getD yc default), yr)).filter fun p => p.1 = print c).map Prod.snd)) =
        some ((y.rows.filter fun yr => Agree ((xc, yc) :: corr) xr yr).map (xr ++ ·)) := by
      intro xr hxr
      have lt := fitsX xr hxr _ List.mem_cons_self
      have narrow : (((y.rows.map fun yr => (print (yr.getD yc default), yr)).filter fun p => p.1 = print xr[xc]).map Prod.snd) =
          y.rows.filter fun yr => print (yr.getD yc default) = print xr[xc] := by
        rw [List.filter_map, List.map_map]
        exact List.map_id _
      rw [List.getElem?_eq_getElem lt, Option.bind_some, narrow, matchRows_eq, List.filter_filter]
      · congr 2
        refine List.filter_congr fun yr hyr => ?_
        -- rows that agree in the first common column print it alike
        have implies : Agree ((xc, yc) :: corr) xr yr → print (yr.getD yc default) = print xr[xc] := by
          intro agree
          have head := agree _ List.mem_cons_self
          rw [List.getElem?_eq_getElem lt] at head
          rw [List.getD_eq_getElem?_getD, ← head, Option.getD_some]
        by_cases agree : Agree ((xc, yc) :: corr) xr yr
        · simp only [agree, implies agree, decide_true, Bool.and_self]
        · simp only [agree, decide_false, Bool.false_and]
      · exact fun yr hyr p hp => ⟨fitsX xr hxr p hp, fitsY yr (List.mem_of_mem_filter hyr) p hp⟩
    simp only [mapM_eq_map first, mapM_eq_map each, Option.bind_some, List.flatMap]

end Match

section Join

/-- The assignment that is `σ` on `vs` and `τ` elsewhere. -/
def merge (vs : List Variable) (σ τ : Variable → Const) (v : Variable) : Const := if v ∈ vs then σ v else τ v

theorem agree_iff (namesY : (ws.map Variable.name).Nodup) (apart : NamesApart (vs ++ ws)) (σ τ : Variable → Const) :
    Agree (varCorr (vs.map .var) (ws.map .var)) (vs.map σ) (ws.map τ) ↔ ∀ v ∈ vs, v ∈ ws → σ v = τ v := by
  constructor
  · intro agree v hv hw
    obtain ⟨j, hj⟩ := List.mem_iff_getElem?.mp hv
    obtain ⟨i, hi⟩ := List.mem_iff_getElem?.mp hw
    have same := agree (j, i) ((mem_varCorr namesY).mpr ⟨v, v, hj, hi, rfl⟩)
    simpa [hj, hi] using same
  · rintro agree ⟨j, i⟩ hp
    obtain ⟨v, w, hj, hi, same⟩ := (mem_varCorr namesY).mp hp
    have hv := List.mem_of_getElem? hj
    have hw := List.mem_of_getElem? hi
    obtain rfl := apart v (List.mem_append_left _ hv) w (List.mem_append_right _ hw) same
    simp [hj, hi, agree v hv hw]

theorem prod_spec (print : Const → String) (hx : TableOf vs P x) (hy : TableOf ws Q y) (namesY : (ws.map Variable.name).Nodup)
    (apart : NamesApart (vs ++ ws)) (dependsP : DependsOn vs P) (dependsQ : DependsOn ws Q) :
    ∃ t, prod print x y = some t ∧ TableOf (firstSeen [] ((vs ++ ws).map .var)) (fun σ => P σ ∧ Q σ) t := by
  have bounds : ∀ p ∈ varCorr x.vars y.vars, p.1 < vs.length ∧ p.2 < ws.length := by
    rintro ⟨j, i⟩ hp
    rw [hx.vars, hy.vars, mem_varCorr namesY] at hp
    obtain ⟨v, w, hj, hi, -⟩ := hp
    exact ⟨(List.getElem?_eq_some_iff.mp hj).1, (List.getElem?_eq_some_iff.mp hi).1⟩
  have fitsX : ∀ xr ∈ x.rows, ∀ p ∈ varCorr x.vars y.vars, p.1 < xr.length := by
    intro xr hxr p hp
    obtain ⟨σ, -, rfl⟩ := (hx.rows xr).mp hxr
    rw [List.length_map]
    exact (bounds p hp).1
  have fitsY : ∀ yr ∈ y.rows, ∀ p ∈ varCorr x.vars y.vars, p.2 < yr.length := by
    intro yr hyr p hp
    obtain ⟨τ, -, rfl⟩ := (hy.rows yr).mp hyr
    rw [List.length_map]
    exact (bounds p hp).2
  rw [prod_eq print fitsX fitsY]
  refine compactTable_spec ⟨?_, fun row => ?_, ?_⟩ apart
  · rw [hx.vars, hy.vars, List.map_append]
  · simp only [List.mem_flatMap, List.mem_map, List.mem_filter, decide_eq_true_eq]
    constructor
    · rintro ⟨xr, hxr, yr, ⟨hyr, agree⟩, rfl⟩
      obtain ⟨σ, hσ, rfl⟩ := (hx.rows xr).mp hxr
      obtain ⟨τ, hτ, rfl⟩ := (hy.rows yr).mp hyr
      rw [hx.vars, hy.vars, agree_iff namesY apart] at agree
      have left : ∀ v ∈ vs, σ v = merge vs σ τ v := fun v hv => (if_pos hv).symm
      have right : ∀ w ∈ ws, τ w = merge vs σ τ w := by
        intro w hw
        rw [merge]
        split
        · rename_i hv
          exact (agree w hv hw).symm
        · rfl
      refine ⟨merge vs σ τ, ⟨dependsP _ _ left hσ, dependsQ _ _ right hτ⟩, ?_⟩
      rw [List.map_append, List.map_congr_left left, List.map_congr_left right]
    · rintro ⟨σ, ⟨hP, hQ⟩, rfl⟩
      refine ⟨vs.map σ, (hx.rows _).mpr ⟨σ, hP, rfl⟩, ws.map σ, ⟨(hy.rows _).mpr ⟨σ, hQ, rfl⟩, ?_⟩, List.map_append.symm⟩
      rw [hx.vars, hy.vars, agree_iff namesY apart]
      exact fun _ _ _ => rfl
  · have lengths : ∀ xr ∈ x.rows, xr.length = vs.length := by
      intro xr hxr
      obtain ⟨σ, -, rfl⟩ := (hx.rows xr).mp hxr
      exact List.length_map _
    rw [List.nodup_flatMap]
    refine ⟨fun xr _ => (hy.nodup.filter _).map fun _ _ => List.append_cancel_left, ?_⟩
    refine hx.nodup.imp_of_mem fun {a b} ha hb other row hrowA hrowB => ?_
    obtain ⟨ya, -, rfl⟩ := List.mem_map.mp hrowA
    obtain ⟨yb, -, same⟩ := List.mem_map.mp hrowB
    exact other (List.append_inj same ((lengths b hb).trans (lengths a ha).symm)).1.symm

end Join

end Goivy.Alpha
