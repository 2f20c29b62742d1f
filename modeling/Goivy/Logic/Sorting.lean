import Goivy.Logic.Closed

/-! Well-sorted expressions without indefinite descriptions. A variable refers to the
innermost binder of its name. -/
namespace Goivy

/-- The innermost binder of the name of `v` binds `v` itself. -/
def Binds (bound : List Variable) (v : Variable) : Prop :=
  bound.find? (fun w => w.name = v.name) = some v

instance (bound : List Variable) (v : Variable) : Decidable (Binds bound v) :=
  inferInstanceAs (Decidable (_ = _))

theorem Binds.mem {bound : List Variable} {v : Variable} (h : Binds bound v) : v ∈ bound :=
  List.mem_of_find?_eq_some h

theorem binds_append {vs bound : List Variable} {v : Variable} :
    Binds (vs ++ bound) v ↔ Binds vs v ∨ v.name ∉ vs.map Variable.name ∧ Binds bound v := by
  simp only [Binds, List.find?_append]
  cases h : vs.find? (fun w => w.name = v.name) with
  | none =>
    simp only [List.find?_eq_none, decide_eq_true_eq] at h
    simp only [Option.none_or, reduceCtorEq, false_or, List.mem_map, not_exists, not_and]
    exact ⟨fun hb => ⟨h, hb⟩, And.right⟩
  | some w =>
    have name : w.name = v.name := by simpa using List.find?_some h
    have mem : v.name ∈ vs.map Variable.name :=
      List.mem_map.mpr ⟨w, List.mem_of_find?_eq_some h, name⟩
    simp [mem]

mutual
/-- `e` has the sort `s`, where its free variables are bound by `bound`, innermost first. -/
def Expr.HasSort : List Variable → Expr → FSort → Prop
  | bound, .var v, s => Binds bound v ∧ v.sort = s
  | _, .const c, s => c.sort = .first s
  | bound, .apply f ts, s => ∃ domain, f.sort = .function domain s ∧ HasSorts bound ts domain
  | bound, .eq a b, s => s = .boolean ∧ ∃ t, a.HasSort bound t ∧ b.HasSort bound t
  | bound, .not a, s => s = .boolean ∧ a.HasSort bound .boolean
  | bound, .and ts, s | bound, .or ts, s => s = .boolean ∧ HasSorts bound ts (ts.map fun _ => .boolean)
  | bound, .implies a b, s | bound, .iff a b, s =>
    s = .boolean ∧ a.HasSort bound .boolean ∧ b.HasSort bound .boolean
  | bound, .ite c a b, s => c.HasSort bound .boolean ∧ a.HasSort bound s ∧ b.HasSort bound s
  | bound, .forAll vs a, s | bound, .exists vs a, s =>
    s = .boolean ∧ (vs.map Variable.name).Nodup ∧ a.HasSort (vs ++ bound) .boolean
  | _, .some _ _, _ | _, .someElse _ _ _ _, _ => False
def HasSorts : List Variable → List Expr → List FSort → Prop
  | _, [], [] => True
  | bound, t :: ts, s :: ss => t.HasSort bound s ∧ HasSorts bound ts ss
  | _, _, _ => False
end

variable {bound : List Variable}

theorem hasSorts_iff {ts : List Expr} {ss : List FSort} :
    HasSorts bound ts ss ↔ List.Forall₂ (fun t s => t.HasSort bound s) ts ss := by
  induction ts generalizing ss with
  | nil => cases ss <;> simp [HasSorts]
  | cons t ts ih => cases ss <;> simp [HasSorts, ih]

theorem hasSorts_map {ts : List Expr} {s : FSort} :
    HasSorts bound ts (ts.map fun _ => s) ↔ ∀ t ∈ ts, t.HasSort bound s := by
  induction ts with
  | nil => simp [HasSorts]
  | cons t ts ih => simp only [List.map_cons, HasSorts, ih, List.forall_mem_cons]

/-- The terms of a list have sorts one by one. -/
theorem HasSorts.exists_sort {ts : List Expr} {ss : List FSort} (h : HasSorts bound ts ss) :
    ∀ t ∈ ts, ∃ s, t.HasSort bound s := by
  rw [hasSorts_iff] at h
  induction h with
  | nil => simp
  | cons head _ ih =>
    intro t ht
    rcases List.mem_cons.mp ht with rfl | ht
    · exact ⟨_, head⟩
    · exact ih t ht

theorem HasSorts.pair {ts : List Expr} {s s' : FSort} (h : HasSorts bound ts [s, s']) :
    ∃ a b, ts = [a, b] ∧ a.HasSort bound s ∧ b.HasSort bound s' := by
  rw [hasSorts_iff, List.forall₂_cons_right_iff] at h
  obtain ⟨a, rest, sortA, h, rfl⟩ := h
  rw [List.forall₂_cons_right_iff] at h
  obtain ⟨b, rest, sortB, h, rfl⟩ := h
  rw [List.forall₂_nil_right_iff.mp h]
  exact ⟨a, b, rfl, sortA, sortB⟩

theorem HasSorts.map {bound' : List Variable} {f : Expr → Expr} {ts : List Expr} {ss : List FSort}
    (h : HasSorts bound ts ss)
    (keeps : ∀ t ∈ ts, ∀ s, t.HasSort bound s → (f t).HasSort bound' s) :
    HasSorts bound' (ts.map f) ss := by
  induction ts generalizing ss with
  | nil => cases ss <;> exact h
  | cons t ts ih =>
    cases ss with
    | nil => exact h
    | cons s ss =>
      exact ⟨keeps t List.mem_cons_self s h.1, ih h.2 fun u hu => keeps u (List.mem_cons_of_mem _ hu)⟩

namespace Expr

variable {e : Expr} {s : FSort}

theorem nodeSort_of_hasSort (h : e.HasSort bound s) : e.nodeSort = .first s := by
  induction e with
  | var v => exact congrArg LSort.first h.2
  | const c => exact h
  | apply f ts =>
    obtain ⟨domain, sort, -⟩ := h
    simp [nodeSort, sort, LSort.range]
  | ite c a b hc ha hb => exact ha h.2.1
  | some | someElse => exact h.elim
  | _ => exact congrArg LSort.first h.1.symm

theorem sort_eval_of_hasSort {D : Domain} (M : Structure D) (h : e.HasSort bound s) (env : Env D) :
    (e.eval M env).1 = s := by
  induction e with
  | var v => exact h.2
  | const c => exact congrArg LSort.range h
  | apply f ts =>
    obtain ⟨domain, sort, -⟩ := h
    exact congrArg LSort.range sort
  | ite c a b hc ha hb =>
    simp only [eval, Val.ite]
    split
    · exact ha h.2.1
    · exact hb h.2.2
  | some | someElse => exact h.elim
  | _ => exact h.1.symm

theorem binds_of_mem_freeVariables (h : e.HasSort bound s) : ∀ v ∈ e.freeVariables, Binds bound v := by
  induction e generalizing bound s with
  | var v => simpa [freeVariables] using h.1
  | const c => simp [freeVariables]
  | apply f ts ih =>
    obtain ⟨domain, -, sorts⟩ := h
    simp only [freeVariables, freeVariablesList_eq_flatMap, List.mem_flatMap]
    rintro v ⟨t, ht, hv⟩
    obtain ⟨s, hs⟩ := sorts.exists_sort t ht
    exact ih t ht hs v hv
  | and ts ih | or ts ih =>
    simp only [freeVariables, freeVariablesList_eq_flatMap, List.mem_flatMap]
    rintro v ⟨t, ht, hv⟩
    exact ih t ht (hasSorts_map.mp h.2 t ht) v hv
  | not a ha => exact ha h.2
  | eq a b ha hb =>
    obtain ⟨-, t, sortA, sortB⟩ := h
    simp only [freeVariables, List.forall_mem_append]
    exact ⟨ha sortA, hb sortB⟩
  | implies a b ha hb | iff a b ha hb =>
    simp only [freeVariables, List.forall_mem_append]
    exact ⟨ha h.2.1, hb h.2.2⟩
  | ite a b c ha hb hc =>
    simp only [freeVariables, List.forall_mem_append]
    exact ⟨⟨ha h.1, hb h.2.1⟩, hc h.2.2⟩
  | forAll vs a ha | «exists» vs a ha =>
    simp only [freeVariables, List.mem_filter, decide_eq_true_eq]
    rintro v ⟨hv, free⟩
    rcases binds_append.mp (ha h.2.2 v hv) with inner | outer
    · exact absurd inner.mem free
    · exact outer.2
  | some | someElse => exact h.elim

theorem freeVariables_of_hasSort (h : e.HasSort [] s) : e.freeVariables = [] := by
  refine List.eq_nil_iff_forall_not_mem.mpr fun v hv => ?_
  have := (binds_of_mem_freeVariables h v hv).mem
  contradiction

end Expr

end Goivy
