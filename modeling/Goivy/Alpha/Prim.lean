import Goivy.Alpha.Joins

/-! The table of one literal. -/
namespace Goivy.Alpha

variable {M : HerbrandModel} {lit : LogicLiteral} {σ τ : Variable → Const} {v : Variable} {vs ws : List Variable}

section Assignments

theorem mem_enumerateAssignments {ranges : List (List Const)} {row : List Const} :
    row ∈ enumerateAssignments ranges ↔ List.Forall₂ (· ∈ ·) row ranges := by
  induction ranges generalizing row with
  | nil => simp [enumerateAssignments]
  | cons range ranges ih =>
    simp only [enumerateAssignments, List.mem_flatMap, List.mem_map, ih]
    constructor
    · rintro ⟨c, hc, rest, hrest, rfl⟩
      exact .cons hc hrest
    · rintro (_ | ⟨hc, hrest⟩)
      exact ⟨_, hc, _, hrest, rfl⟩

theorem nodup_enumerateAssignments {ranges : List (List Const)} (h : ∀ range ∈ ranges, range.Nodup) :
    (enumerateAssignments ranges).Nodup := by
  induction ranges with
  | nil => simp [enumerateAssignments]
  | cons range ranges ih =>
    rw [List.forall_mem_cons] at h
    rw [enumerateAssignments, List.nodup_flatMap]
    refine ⟨fun c _ => (ih h.2).map fun _ _ same => (List.cons.inj same).2, ?_⟩
    refine h.1.imp fun {a b} other row hrowA hrowB => ?_
    obtain ⟨ra, -, rfl⟩ := List.mem_map.mp hrowA
    obtain ⟨rb, -, same⟩ := List.mem_map.mp hrowB
    exact other (List.cons.inj same).1.symm

theorem map_assignment (nodup : vs.Nodup) {row : List Const} (length : row.length = vs.length) : vs.map (assignment vs row) = row := by
  induction vs generalizing row with
  | nil => exact (List.length_eq_zero_iff.mp length).symm
  | cons v vs ih =>
    obtain _ | ⟨c, row⟩ := row
    · contradiction
    · rw [List.nodup_cons] at nodup
      have rest : ∀ w ∈ vs, assignment (v :: vs) (c :: row) w = assignment vs row w := by
        intro w hw
        have other : (w == v) = false := by
          rw [beq_eq_false_iff_ne]
          rintro rfl
          exact nodup.1 hw
        simp [assignment, List.lookup, other]
      rw [List.map_cons, List.map_congr_left rest, ih nodup.2 (Nat.succ.inj length)]
      simp [assignment, List.lookup]

end Assignments

section Literals

theorem LogicLiteral.vars_perm (lit : LogicLiteral) : lit.vars.Perm (lit.terms.filterMap Term.asVariable).dedup :=
  List.perm_insertionSort _ _

theorem LogicLiteral.nodup_vars (lit : LogicLiteral) : lit.vars.Nodup := lit.vars_perm.nodup_iff.mpr (List.nodup_dedup _)

theorem LogicLiteral.mem_vars : v ∈ lit.vars ↔ .var v ∈ lit.terms := by
  rw [lit.vars_perm.mem_iff, List.mem_dedup, List.mem_filterMap]
  constructor
  · rintro ⟨t, ht, found⟩
    cases t with
    | var w => rwa [← Option.some.inj found]
    | const c => contradiction
  · exact fun h => ⟨.var v, h, rfl⟩

theorem HerbrandModel.Satisfies.congr (same : ∀ v ∈ lit.vars, σ v = τ v) (h : M.Satisfies σ lit) : M.Satisfies τ lit := by
  have eval : lit.terms.map (M.eval σ) = lit.terms.map (M.eval τ) := by
    refine List.map_congr_left fun t ht => ?_
    cases t with
    | var v => exact same v (LogicLiteral.mem_vars.mpr ht)
    | const c => rfl
  refine ⟨fun v hv => same v hv ▸ h.range v hv, ?_⟩
  rw [HerbrandModel.Holds, ← eval]
  exact h.holds

/-- `Check` returns exactly the assignments that satisfy the literal. -/
theorem mem_check {row : List Const} : row ∈ M.check lit ↔ ∃ σ, M.Satisfies σ lit ∧ row = lit.vars.map σ := by
  rw [HerbrandModel.check, List.mem_filter, mem_enumerateAssignments, decide_eq_true_eq]
  constructor
  · rintro ⟨values, holds⟩
    have row_eq := @map_assignment _ lit.nodup_vars row (by simpa using values.length_eq)
    refine ⟨assignment lit.vars row, ⟨fun v hv => ?_, holds⟩, row_eq.symm⟩
    rw [← row_eq, List.forall₂_map_left_iff, List.forall₂_map_right_iff, List.forall₂_same] at values
    exact values v hv
  · rintro ⟨σ, sat, rfl⟩
    have back := @map_assignment _ lit.nodup_vars (lit.vars.map σ) (List.length_map _)
    refine ⟨?_, (sat.congr fun v hv => (List.map_inj_left.mp back v hv).symm).holds⟩
    rw [List.forall₂_map_left_iff, List.forall₂_map_right_iff, List.forall₂_same]
    exact sat.range

theorem nodup_check : (M.check lit).Nodup := by
  refine (nodup_enumerateAssignments fun range hrange => ?_).filter _
  obtain ⟨v, -, rfl⟩ := List.mem_map.mp hrange
  exact M.nodup v.sort

end Literals

section Reading

/-- The distinct variables stand in the first places. -/
def FirstPlaces (lit : LogicLiteral) : Prop := (lit.terms.take lit.vars.length).Perm (lit.vars.map .var)

instance : Decidable (FirstPlaces lit) := inferInstanceAs (Decidable (List.Perm _ _))

/-- The column with the values of `v`, which is the argument in the place that `v` has among the variables, goes by the name
of another variable. -/
def LogicLiteral.reading (lit : LogicLiteral) (v : Variable) : Variable :=
  match lit.terms[lit.vars.idxOf v]? with
  | some (.var w) => w
  | _ => v

theorem reading_mem (hv : v ∈ lit.vars) : lit.reading v ∈ lit.vars := by
  rw [LogicLiteral.reading]
  split
  · rename_i w found
    exact LogicLiteral.mem_vars.mpr (List.mem_of_getElem? found)
  · exact hv

theorem Term.var_injective : Function.Injective Term.var := fun _ _ => Term.var.inj

theorem FirstPlaces.exists_vars (h : FirstPlaces lit) :
    ∃ ws : List Variable, lit.terms.take lit.vars.length = ws.map .var ∧ ws.Perm lit.vars ∧ lit.vars.map lit.reading = ws := by
  have vars : lit.terms.take lit.vars.length ∈ Set.range (List.map Term.var) := by
    rw [Set.range_list_map]
    intro t ht
    obtain ⟨v, -, rfl⟩ := List.mem_map.mp (h.subset ht)
    exact ⟨v, rfl⟩
  obtain ⟨ws, take⟩ := vars
  have perm : ws.Perm lit.vars := (List.map_perm_map_iff Term.var_injective).mp (take ▸ h)
  refine ⟨ws, take.symm, perm, List.ext_getElem (by rw [List.length_map, perm.length_eq]) fun i hi hws => ?_⟩
  rw [List.length_map] at hi
  have place : lit.terms[i]? = some (.var ws[i]) := by
    rw [← List.getElem?_take_of_lt hi, ← take, List.getElem?_map, List.getElem?_eq_getElem hws]
    rfl
  rw [List.getElem_map, LogicLiteral.reading, lit.nodup_vars.idxOf_getElem, place]

theorem cutRow_append {α : Type} {row more cut : List α} {cols : List Nat} (h : cutRow row cols = some cut) :
    cutRow (row ++ more) cols = some cut := by
  induction cols generalizing cut with
  | nil => exact h
  | cons col cols ih =>
    rw [cutRow, List.mapM_cons] at h ⊢
    obtain ⟨a, ha, rest⟩ := Option.bind_eq_some_iff.mp h
    obtain ⟨as, has, eq⟩ := Option.bind_eq_some_iff.mp rest
    have inside := (List.getElem?_eq_some_iff.mp ha).1
    have more : cols.mapM (fun col => (row ++ more)[col]?) = some as := ih has
    rw [List.getElem?_append_left inside, ha, more]
    exact eq

/-- The arguments after the first places are dropped. -/
theorem compactTable_first {rest : List Term} {rows : List (List Const)} (seen : ∀ w, .var w ∈ rest → w ∈ ws) :
    compactTable ⟨ws.map .var ++ rest, rows⟩ = compactTable ⟨ws.map .var, rows⟩ := by
  have cols : goodCols [] 0 (ws.map .var ++ rest) = goodCols [] 0 (ws.map .var) :=
    goodCols_append fun w hw => .inr ⟨w, List.mem_map_of_mem (seen w hw), rfl⟩
  simp only [compactTable, cols, cutRow_append (cutRow_self _), cutRow_self]

theorem mem_firstSeen_vars (apart : NamesApart ws) : v ∈ firstSeen [] (ws.map .var) ↔ v ∈ ws := by
  have mem : .var v ∈ ws.map Term.var ↔ v ∈ ws := List.mem_map_of_injective Term.var_injective
  constructor
  · exact fun h => mem.mp (mem_of_firstSeen h)
  · intro h
    refine (mem_firstSeen fun w hw => ?_).mpr (mem.mpr h)
    exact apart v h w ((List.mem_map_of_injective Term.var_injective).mp hw)

/-- The table of a literal, where no access is out of range. -/
theorem prim_spec (apart : NamesApart lit.vars) (places : (∃ σ, M.Satisfies σ lit) → FirstPlaces lit) :
    ∃ us t, prim M lit = some t ∧ (us.map Variable.name).Nodup ∧ (∀ v, v ∈ us ↔ v ∈ lit.vars) ∧
      TableOf us (fun σ => M.Satisfies (σ ∘ lit.reading) lit) t := by
  by_cases sat : ∃ σ, M.Satisfies σ lit
  · obtain ⟨ws, take, perm, reading⟩ := (places sat).exists_vars
    have split : lit.terms = ws.map .var ++ lit.terms.drop lit.vars.length := by rw [← take, List.take_append_drop]
    have seen : ∀ w, .var w ∈ lit.terms.drop lit.vars.length → w ∈ ws := fun w hw =>
      perm.mem_iff.mpr (LogicLiteral.mem_vars.mpr (List.mem_of_mem_drop hw))
    have raw : TableOf ws (fun σ => M.Satisfies (σ ∘ lit.reading) lit) ⟨ws.map .var, M.check lit⟩ := by
      have columns : ∀ σ : Variable → Const, lit.vars.map (σ ∘ lit.reading) = ws.map σ := by
        intro σ
        rw [← List.map_map, reading]
      refine ⟨rfl, fun row => mem_check.trans ⟨?_, ?_⟩, nodup_check⟩
      · rintro ⟨σ, hσ, rfl⟩
        have back : ws.map (assignment ws (lit.vars.map σ)) = lit.vars.map σ :=
          map_assignment (perm.nodup_iff.mpr lit.nodup_vars) (by rw [List.length_map, perm.length_eq])
        refine ⟨assignment ws (lit.vars.map σ), hσ.congr ?_, back.symm⟩
        rw [← columns] at back
        exact fun v hv => (List.map_inj_left.mp back v hv).symm
      · rintro ⟨σ, hσ, rfl⟩
        exact ⟨σ ∘ lit.reading, hσ, (columns σ).symm⟩
    have apart' : NamesApart ws := fun v hv w hw => apart v (perm.subset hv) w (perm.subset hw)
    obtain ⟨t, compact, table⟩ := compactTable_spec raw apart'
    refine ⟨_, t, ?_, firstSeen_names, fun v => (mem_firstSeen_vars apart').trans perm.mem_iff, table⟩
    rw [prim, split, compactTable_first seen, compact]
  · have empty : M.check lit = [] := by
      rw [List.eq_nil_iff_forall_not_mem]
      intro row hrow
      obtain ⟨σ, hσ, -⟩ := mem_check.mp hrow
      exact sat ⟨σ, hσ⟩
    refine ⟨firstSeen [] lit.terms, ⟨(firstSeen [] lit.terms).map .var, []⟩, ?_, firstSeen_names, fun v => ?_, rfl, ?_, .nil⟩
    · rw [prim, compactTable, cutRow_self, empty]
      rfl
    · constructor
      · exact fun h => LogicLiteral.mem_vars.mpr (mem_of_firstSeen h)
      · intro h
        refine (mem_firstSeen fun w hw => ?_).mpr (LogicLiteral.mem_vars.mp h)
        exact apart v h w (LogicLiteral.mem_vars.mpr hw)
    · simp only [List.not_mem_nil, false_iff]
      rintro row ⟨σ, hσ, -⟩
      exact sat ⟨_, hσ⟩

theorem range_of_sublist {cols : List Nat} {k n : Nat} (sub : cols.Sublist (List.range n)) (length : cols.length = k)
    (bound : ∀ c ∈ cols, c < k) : cols = List.range k := by
  have range : ((List.range n).filter (· < k)).Sublist (List.range k) := by
    rcases le_total n k with le | le
    · exact List.filter_sublist.trans (List.range_sublist.mpr le)
    · obtain ⟨m, rfl⟩ := Nat.exists_eq_add_of_le le
      have beyond : ((List.range m).map (k + ·)).filter (· < k) = [] := by simp [List.filter_eq_nil_iff]
      rw [List.range_add, List.filter_append, beyond, List.append_nil]
      exact List.filter_sublist
  have keep := sub.filter (· < k)
  rw [List.filter_eq_self.mpr (by simpa using bound)] at keep
  exact (keep.trans range).eq_of_length (by rw [length, List.length_range])

theorem cutRow_range {α : Type} (row : List α) : cutRow row (List.range row.length) = some row := by
  rw [cutRow, mapM_eq_some_iff, List.forall₂_iff_get]
  refine ⟨List.length_range, fun i _ hi => ?_⟩
  simp

/-- Where there are rows, no access is out of range only if the distinct variables stand in the first places. -/
theorem firstPlaces_of_prim {t : RelTable} (h : prim M lit = some t) (apart : NamesApart lit.vars)
    (sat : ∃ σ, M.Satisfies σ lit) : FirstPlaces lit := by
  have perm : (firstSeen [] lit.terms).Perm lit.vars := by
    rw [List.perm_ext_iff_of_nodup firstSeen_names.of_map lit.nodup_vars]
    intro v
    rw [LogicLiteral.mem_vars]
    refine ⟨mem_of_firstSeen, fun hv => (mem_firstSeen fun w hw => ?_).mpr hv⟩
    exact apart v (LogicLiteral.mem_vars.mpr hv) w (LogicLiteral.mem_vars.mpr hw)
  obtain ⟨σ, hσ⟩ := sat
  obtain ⟨vars, -, made⟩ := Option.bind_eq_some_iff.mp h
  obtain ⟨rows, cuts, -⟩ := Option.map_eq_some_iff.mp made
  obtain ⟨cut, -, cuts⟩ := exists_of_mapM cuts _ (mem_check.mpr ⟨σ, hσ, rfl⟩)
  have bound : ∀ col ∈ goodCols [] 0 lit.terms, col < lit.vars.length := by
    intro col hcol
    obtain ⟨c, -, found⟩ := exists_of_mapM cuts col hcol
    simpa using (List.getElem?_eq_some_iff.mp found).1
  have sub : (goodCols [] 0 lit.terms).Sublist (List.range lit.terms.length) := by
    rw [List.range_eq_range']
    exact goodCols_sublist
  have length : (goodCols [] 0 lit.terms).length = lit.vars.length := length_goodCols.trans perm.length_eq
  have cols : goodCols [] 0 lit.terms = List.range lit.vars.length := range_of_sublist sub length bound
  have take : lit.terms.take lit.vars.length = (firstSeen [] lit.terms).map .var := by
    have self := cutRow_self lit.terms
    have le : lit.vars.length ≤ lit.terms.length := by
      rw [← length]
      exact sub.length_le.trans_eq List.length_range
    have whole : cutRow (lit.terms.take lit.vars.length ++ lit.terms.drop lit.vars.length) _ = _ :=
      cutRow_append (cutRow_range (lit.terms.take lit.vars.length))
    rw [List.length_take_of_le le, List.take_append_drop, ← cols, self] at whole
    exact (Option.some.inj whole).symm
  rw [FirstPlaces, take]
  exact perm.map _

end Reading

end Goivy.Alpha
