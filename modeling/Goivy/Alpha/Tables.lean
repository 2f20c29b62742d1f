import Goivy.Alpha.RelAlg
import Goivy.Util.OptionList

/-! Columns and rows of tables. -/
namespace Goivy.Alpha

/-- Different variables have different names. -/
def NamesApart (vs : List Variable) : Prop := ∀ v ∈ vs, ∀ w ∈ vs, v.name = w.name → v = w

section Columns

variable {α : Type} {memo : List String} {v w : Variable} {vs ws : List Variable} {ts rest : List Term}

/-- The variables of the columns that are kept. -/
def firstSeen (memo : List String) : List Term → List Variable
  | [] => []
  | .var v :: ts => if v.name ∈ memo then firstSeen memo ts else v :: firstSeen (v.name :: memo) ts
  | .const _ :: ts => firstSeen memo ts

theorem cutRow_goodCols (f : Term → α) (before : List α) :
    cutRow (before ++ ts.map f) (goodCols memo before.length ts) = some ((firstSeen memo ts).map fun v => f (.var v)) := by
  induction ts generalizing before memo with
  | nil => rfl
  | cons t ts ih =>
    have next := fun memo => @ih memo (before ++ [f t])
    simp only [List.append_assoc, List.singleton_append, List.length_append, List.length_singleton] at next
    cases t with
    | const c => exact next memo
    | var v =>
      rw [goodCols, firstSeen]
      split
      · exact next memo
      · have here : (before ++ f (.var v) :: ts.map f)[before.length]? = some (f (.var v)) := by simp
        have there := next (v.name :: memo)
        rw [cutRow] at there ⊢
        rw [List.map_cons, List.mapM_cons, here, there]
        rfl

theorem firstSeen_sublist : (firstSeen memo ts).Sublist (ts.filterMap Term.asVariable) := by
  induction ts generalizing memo with
  | nil => exact .slnil
  | cons t ts ih =>
    cases t with
    | const c => exact ih
    | var v =>
      rw [firstSeen]
      split
      · exact ih.cons v
      · exact ih.cons_cons v

theorem mem_of_firstSeen (h : v ∈ firstSeen memo ts) : .var v ∈ ts := by
  obtain ⟨t, ht, found⟩ := List.mem_filterMap.mp (firstSeen_sublist.subset h)
  cases t with
  | var w => rwa [← Option.some.inj found]
  | const c => contradiction

theorem name_notMem_of_firstSeen (h : v ∈ firstSeen memo ts) : v.name ∉ memo := by
  induction ts generalizing memo with
  | nil => exact absurd h List.not_mem_nil
  | cons t ts ih =>
    cases t with
    | const c => exact ih h
    | var w =>
      rw [firstSeen] at h
      split at h
      · exact ih h
      · rename_i new
        rcases List.mem_cons.mp h with rfl | later
        · exact new
        · exact fun mem => ih later (List.mem_cons_of_mem _ mem)

theorem firstSeen_names : ((firstSeen memo ts).map Variable.name).Nodup := by
  induction ts generalizing memo with
  | nil => exact .nil
  | cons t ts ih =>
    cases t with
    | const c => exact ih
    | var v =>
      rw [firstSeen]
      split
      · exact ih
      · refine List.nodup_cons.mpr ⟨fun mem => ?_, ih⟩
        obtain ⟨w, hw, same⟩ := List.mem_map.mp mem
        exact name_notMem_of_firstSeen hw (same ▸ List.mem_cons_self)

theorem exists_firstSeen (h : .var v ∈ ts) (new : v.name ∉ memo) : ∃ w ∈ firstSeen memo ts, w.name = v.name := by
  induction ts generalizing memo with
  | nil => exact absurd h List.not_mem_nil
  | cons t ts ih =>
    cases t with
    | const c => exact ih ((List.mem_cons.mp h).resolve_left (by simp)) new
    | var w =>
      rw [firstSeen]
      split
      · rename_i seen
        refine ih ((List.mem_cons.mp h).resolve_left ?_) new
        rintro ⟨⟩
        exact new seen
      · by_cases same : w.name = v.name
        · exact ⟨w, List.mem_cons_self, same⟩
        · have later : .var v ∈ ts := (List.mem_cons.mp h).resolve_left (by rintro ⟨⟩; exact same rfl)
          have new' : v.name ∉ w.name :: memo := by simp [Ne.symm same, new]
          obtain ⟨u, hu, eq⟩ := ih later new'
          exact ⟨u, List.mem_cons_of_mem _ hu, eq⟩

theorem mem_firstSeen (apart : ∀ w, .var w ∈ ts → v.name = w.name → v = w) : v ∈ firstSeen [] ts ↔ .var v ∈ ts := by
  refine ⟨mem_of_firstSeen, fun h => ?_⟩
  obtain ⟨w, hw, same⟩ := exists_firstSeen h List.not_mem_nil
  exact apart w (mem_of_firstSeen hw) same.symm ▸ hw

/-- Arguments whose variables have all been seen add no column. -/
theorem goodCols_append {i : Nat} (seen : ∀ w, .var w ∈ rest → w.name ∈ memo ∨ ∃ v, .var v ∈ ts ∧ v.name = w.name) :
    goodCols memo i (ts ++ rest) = goodCols memo i ts := by
  induction ts generalizing memo i with
  | nil =>
    show goodCols memo i rest = []
    induction rest generalizing i with
    | nil => rfl
    | cons t rest ih =>
      have more := ih (i := i + 1) fun w hw => seen w (List.mem_cons_of_mem _ hw)
      cases t with
      | const c => exact more
      | var w =>
        rw [goodCols, if_pos ((seen w List.mem_cons_self).resolve_right (by simp))]
        exact more
  | cons t ts ih =>
    cases t with
    | const c =>
      refine ih fun w hw => (seen w hw).imp_right ?_
      rintro ⟨v, hv, same⟩
      exact ⟨v, (List.mem_cons.mp hv).resolve_left (by simp), same⟩
    | var u =>
      rw [List.cons_append, goodCols, goodCols]
      have later : ∀ memo' : List String, u.name ∈ memo' → memo ⊆ memo' → ∀ w, .var w ∈ rest →
          w.name ∈ memo' ∨ ∃ v, .var v ∈ ts ∧ v.name = w.name := by
        intro memo' hu sub w hw
        rcases seen w hw with old | ⟨v, hv, same⟩
        · exact .inl (sub old)
        · rcases List.mem_cons.mp hv with first | hv
          · obtain rfl := Term.var.inj first
            exact .inl (same ▸ hu)
          · exact .inr ⟨v, hv, same⟩
      split
      · rename_i old
        exact ih (later memo old (List.Subset.refl _))
      · rw [ih (later _ List.mem_cons_self (List.subset_cons_self _ _))]

theorem goodCols_sublist {i : Nat} : (goodCols memo i ts).Sublist (List.range' i ts.length) := by
  induction ts generalizing memo i with
  | nil => exact .slnil
  | cons t ts ih =>
    rw [List.length_cons, List.range'_succ]
    cases t with
    | const c => exact ih.cons i
    | var v =>
      rw [goodCols]
      split
      · exact ih.cons i
      · exact ih.cons_cons i

theorem length_goodCols {i : Nat} : (goodCols memo i ts).length = (firstSeen memo ts).length := by
  induction ts generalizing memo i with
  | nil => rfl
  | cons t ts ih =>
    cases t with
    | const c => exact ih
    | var v =>
      rw [goodCols, firstSeen]
      split
      · exact ih
      · rw [List.length_cons, List.length_cons, ih]

end Columns

section Compact

variable {vs : List Variable} {P : (Variable → Const) → Prop} {t t' : RelTable}

theorem cutRow_self (ts : List Term) : cutRow ts (goodCols [] 0 ts) = some ((firstSeen [] ts).map .var) := by
  have cut := @cutRow_goodCols _ [] ts id []
  rwa [List.nil_append, List.map_id] at cut

theorem cutRow_map (vs : List Variable) (σ : Variable → Const) :
    cutRow (vs.map σ) (goodCols [] 0 (vs.map .var)) = some ((firstSeen [] (vs.map .var)).map σ) := by
  have cut := @cutRow_goodCols _ [] (vs.map .var) (fun t => (t.asVariable.map σ).getD default) []
  simpa [Function.comp_def, Term.asVariable] using cut

theorem compactTable_vars (h : compactTable t = some t') : t'.vars = (firstSeen [] t.vars).map .var := by
  obtain ⟨vars, cut, rows⟩ := Option.bind_eq_some_iff.mp h
  obtain ⟨rows, -, rfl⟩ := Option.map_eq_some_iff.mp rows
  exact Option.some.inj (cut.symm.trans (cutRow_self t.vars))

theorem compactTable_spec (h : TableOf vs P t) (apart : NamesApart vs) :
    ∃ t', compactTable t = some t' ∧ TableOf (firstSeen [] (vs.map .var)) P t' := by
  have mem : ∀ v ∈ vs, v ∈ firstSeen [] (vs.map .var) := by
    intro v hv
    refine (mem_firstSeen fun w hw => ?_).mpr (List.mem_map_of_mem hv)
    exact apart v hv w (by simpa using hw)
  have cut : ∀ σ : Variable → Const, cutRow (vs.map σ) (goodCols [] 0 t.vars) = some ((firstSeen [] (vs.map .var)).map σ) := by
    intro σ
    rw [h.vars, cutRow_map]
  let g (row : List Const) : List Const := (cutRow row (goodCols [] 0 t.vars)).getD []
  have gMap : ∀ σ : Variable → Const, g (vs.map σ) = (firstSeen [] (vs.map .var)).map σ := by
    intro σ
    show (cutRow _ _).getD [] = _
    rw [cut, Option.getD_some]
  have each : ∀ row ∈ t.rows, cutRow row (goodCols [] 0 t.vars) = some (g row) := by
    intro row hrow
    obtain ⟨σ, -, rfl⟩ := (h.rows row).mp hrow
    rw [cut, gMap]
  refine ⟨⟨(firstSeen [] t.vars).map .var, t.rows.map g⟩, ?_, ?_, fun row => ?_, ?_⟩
  · rw [compactTable, cutRow_self, Option.bind_some, mapM_eq_map each]
    rfl
  · rw [h.vars]
  · simp only [List.mem_map, h.rows]
    constructor
    · rintro ⟨-, ⟨σ, hσ, rfl⟩, rfl⟩
      exact ⟨σ, hσ, gMap σ⟩
    · rintro ⟨σ, hσ, rfl⟩
      exact ⟨_, ⟨σ, hσ, rfl⟩, gMap σ⟩
  · refine List.Nodup.map_on (fun r hr r' hr' same => ?_) h.nodup
    obtain ⟨σ, -, rfl⟩ := (h.rows r).mp hr
    obtain ⟨τ, -, rfl⟩ := (h.rows r').mp hr'
    rw [gMap, gMap] at same
    exact List.map_congr_left fun v hv => List.map_inj_left.mp same v (mem v hv)

end Compact

end Goivy.Alpha
