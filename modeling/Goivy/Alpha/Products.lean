import Goivy.Alpha.Prim

/-! The products of the tables of literals, and their substitutions. -/
namespace Goivy.Alpha

variable {M : HerbrandModel} {lit : LogicLiteral} {lits done : List LogicLiteral} {vs ws : List Variable} {v : Variable}
  {P Q : (Variable → Const) → Prop} {t t' : RelTable}

section Products

/-- When the product of the tables of the literals is the table of the literals. -/
structure Readable (M : HerbrandModel) (lits : List LogicLiteral) : Prop where
  apart : NamesApart (lits.flatMap LogicLiteral.vars)
  places : ∀ lit ∈ lits, (∃ σ, M.Satisfies σ lit) → FirstPlaces lit
  /-- The order of the arguments does not matter: the literals together are true of the same assignments where each literal's
  variables are read in the order of their keys. -/
  order : ∀ σ, (∀ lit ∈ lits, M.Satisfies (σ ∘ lit.reading) lit) ↔ ∀ lit ∈ lits, M.Satisfies σ lit

theorem TableOf.congr (h : TableOf vs P t) (same : ∀ σ, P σ ↔ Q σ) : TableOf vs Q t :=
  ⟨h.vars, fun row => by simp only [h.rows, same], h.nodup⟩

theorem dependsOn_satisfies (sub : ∀ v ∈ lit.vars, v ∈ vs) : DependsOn vs fun σ => M.Satisfies (σ ∘ lit.reading) lit :=
  fun _ _ same h => h.congr fun v hv => same _ (sub _ (reading_mem hv))

theorem dependsOn_all (sub : ∀ lit ∈ lits, ∀ v ∈ lit.vars, v ∈ vs) :
    DependsOn vs fun σ => ∀ lit ∈ lits, M.Satisfies (σ ∘ lit.reading) lit :=
  fun σ τ same h lit hlit => dependsOn_satisfies (sub lit hlit) σ τ same (h lit hlit)

/-- What the table of the literals that are done is, where each literal is read in its own way. -/
structure Joined (M : HerbrandModel) (done : List LogicLiteral) (us : List Variable) (t : RelTable) : Prop where
  names : (us.map Variable.name).Nodup
  mem : ∀ v, v ∈ us ↔ v ∈ done.flatMap LogicLiteral.vars
  table : TableOf us (fun σ => ∀ lit ∈ done, M.Satisfies (σ ∘ lit.reading) lit) t

theorem joinAll_spec (print : Const → String) (apart : NamesApart ((lit :: lits).flatMap LogicLiteral.vars))
    (places : ∀ l ∈ lit :: lits, (∃ σ, M.Satisfies σ l) → FirstPlaces l) :
    ∃ us t, joinAll M print lit lits = some t ∧ Joined M (lit :: lits) us t := by
  have step : ∀ (rest done : List LogicLiteral) (us : List Variable) (t : RelTable), (∀ l ∈ rest, l ∈ lit :: lits) →
      (∀ l ∈ done, l ∈ lit :: lits) → Joined M done us t →
      ∃ us' t', rest.foldlM (fun t l => (prim M l).bind (prod print t)) t = some t' ∧ Joined M (done ++ rest) us' t' := by
    intro rest
    induction rest with
    | nil => exact fun done us t _ _ h => ⟨us, t, rfl, by rwa [List.append_nil]⟩
    | cons l rest ih =>
      intro done us t subRest subDone h
      rw [List.forall_mem_cons] at subRest
      have within : ∀ v ∈ l.vars, v ∈ (lit :: lits).flatMap LogicLiteral.vars := fun v hv =>
        List.mem_flatMap.mpr ⟨l, subRest.1, hv⟩
      have withinDone : ∀ v ∈ us, v ∈ (lit :: lits).flatMap LogicLiteral.vars := by
        intro v hv
        obtain ⟨l, hl, hv⟩ := List.mem_flatMap.mp ((h.mem v).mp hv)
        exact List.mem_flatMap.mpr ⟨l, subDone l hl, hv⟩
      obtain ⟨ws, y, returns, names, mem, table⟩ :=
        prim_spec (M := M) (fun v hv w hw => apart v (within v hv) w (within w hw)) (places l subRest.1)
      have both : NamesApart (us ++ ws) := by
        have sub : ∀ v ∈ us ++ ws, v ∈ (lit :: lits).flatMap LogicLiteral.vars := by
          intro v hv
          rcases List.mem_append.mp hv with old | new
          · exact withinDone v old
          · exact within v ((mem v).mp new)
        exact fun v hv w hw => apart v (sub v hv) w (sub w hw)
      have dependsDone : ∀ l ∈ done, ∀ v ∈ l.vars, v ∈ us := fun l hl v hv => (h.mem v).mpr (List.mem_flatMap.mpr ⟨l, hl, hv⟩)
      obtain ⟨t', joins, joined⟩ :=
        prod_spec print h.table table names both (dependsOn_all dependsDone) (dependsOn_satisfies fun v hv => (mem v).mpr hv)
      have next : Joined M (done ++ [l]) (firstSeen [] ((us ++ ws).map .var)) t' := by
        refine ⟨firstSeen_names, fun v => ?_, joined.congr fun σ => ?_⟩
        · rw [mem_firstSeen_vars both, List.mem_append, h.mem, mem]
          simp
        · simp only [List.forall_mem_append, List.forall_mem_singleton]
      have subNext : ∀ l' ∈ done ++ [l], l' ∈ lit :: lits :=
        List.forall_mem_append.mpr ⟨subDone, List.forall_mem_singleton.mpr subRest.1⟩
      obtain ⟨us'', t'', rest', final⟩ := ih (done ++ [l]) _ t' subRest.2 subNext next
      refine ⟨us'', t'', ?_, by rwa [List.append_assoc] at final⟩
      rw [List.foldlM_cons, returns, Option.bind_some, joins]
      exact rest'
  obtain ⟨ws, t, returns, names, mem, table⟩ :=
    prim_spec (M := M) (fun v hv w hw => apart v (by simp [hv]) w (by simp [hw])) (places lit List.mem_cons_self)
  have first : Joined M [lit] ws t := by
    refine ⟨names, fun v => ?_, table.congr fun σ => ?_⟩
    · rw [mem]
      simp
    · rw [List.forall_mem_singleton]
  obtain ⟨us, t', rest, joined⟩ := step lits [lit] ws t (fun l hl => List.mem_cons_of_mem _ hl) (by simp) first
  exact ⟨us, t', by rw [joinAll, returns, Option.bind_some, rest], joined⟩

theorem prim_of_joinAll {print : Const → String} (h : joinAll M print lit lits = some t) : ∀ l ∈ lit :: lits, ∃ t, prim M l = some t := by
  obtain ⟨t₀, first, rest⟩ := Option.bind_eq_some_iff.mp h
  refine List.forall_mem_cons.mpr ⟨⟨t₀, first⟩, ?_⟩
  clear h first
  induction lits generalizing t₀ with
  | nil => simp
  | cons l lits ih =>
    obtain ⟨t₁, one, more⟩ := Option.bind_eq_some_iff.mp rest
    obtain ⟨y, made, -⟩ := Option.bind_eq_some_iff.mp one
    exact List.forall_mem_cons.mpr ⟨⟨y, made⟩, ih t₁ more⟩

/-- The columns of a product have different names. -/
theorem joinAll_vars {print : Const → String} (h : joinAll M print lit lits = some t) : ∃ ts, t.vars = (firstSeen [] ts).map .var := by
  obtain ⟨t₀, first, rest⟩ := Option.bind_eq_some_iff.mp h
  have start : ∃ ts, t₀.vars = (firstSeen [] ts).map .var := ⟨_, compactTable_vars first⟩
  clear h first
  induction lits generalizing t₀ with
  | nil =>
    obtain rfl : t₀ = t := Option.some.inj rest
    exact start
  | cons l lits ih =>
    obtain ⟨t₁, one, more⟩ := Option.bind_eq_some_iff.mp rest
    obtain ⟨y, -, joins⟩ := Option.bind_eq_some_iff.mp one
    obtain ⟨rows, -, compact⟩ := Option.bind_eq_some_iff.mp joins
    exact ih t₁ more ⟨_, compactTable_vars compact⟩

theorem isTable_iff (print : Const → String) :
    (∃ t, joinAll M print lit lits = some t ∧ M.IsTable (lit :: lits) t) ↔ Readable M (lit :: lits) := by
  constructor
  · rintro ⟨t, returns, vs, nodup, mem, table⟩
    have mem' : ∀ v, v ∈ vs ↔ v ∈ (lit :: lits).flatMap LogicLiteral.vars := fun v => (mem v).trans List.mem_flatMap.symm
    have apart : NamesApart ((lit :: lits).flatMap LogicLiteral.vars) := by
      obtain ⟨ts, columns⟩ := joinAll_vars returns
      obtain rfl := List.map_injective_iff.mpr Term.var_injective (columns.symm.trans table.vars)
      intro v hv w hw same
      exact List.inj_on_of_nodup_map firstSeen_names ((mem' v).mpr hv) ((mem' w).mpr hw) same
    have places : ∀ l ∈ lit :: lits, (∃ σ, M.Satisfies σ l) → FirstPlaces l := by
      intro l hl sat
      obtain ⟨t', made⟩ := prim_of_joinAll returns l hl
      have within : ∀ v ∈ l.vars, v ∈ (lit :: lits).flatMap LogicLiteral.vars := fun v hv => List.mem_flatMap.mpr ⟨l, hl, hv⟩
      exact firstPlaces_of_prim made (fun v hv w hw => apart v (within v hv) w (within w hw)) sat
    refine ⟨apart, places, ?_⟩
    obtain ⟨us, t', returns', joined⟩ := joinAll_spec print apart places
    obtain rfl := Option.some.inj (returns.symm.trans returns')
    obtain rfl := List.map_injective_iff.mpr Term.var_injective (table.vars.symm.trans joined.table.vars)
    have within : ∀ l ∈ lit :: lits, ∀ v ∈ l.vars, v ∈ vs := fun l hl v hv => (mem v).mpr ⟨l, hl, hv⟩
    intro σ
    constructor
    · intro h
      obtain ⟨τ, hτ, same⟩ := (table.rows _).mp ((joined.table.rows _).mpr ⟨σ, h, rfl⟩)
      exact fun l hl => (hτ l hl).congr fun v hv => (List.map_inj_left.mp same v (within l hl v hv)).symm
    · intro h
      obtain ⟨τ, hτ, same⟩ := (joined.table.rows _).mp ((table.rows _).mpr ⟨σ, h, rfl⟩)
      exact dependsOn_all within τ σ (fun v hv => (List.map_inj_left.mp same v hv).symm) hτ
  · intro h
    obtain ⟨us, t, returns, joined⟩ := joinAll_spec print h.apart h.places
    exact ⟨t, returns, us, joined.names.of_map, fun v => (joined.mem v).trans List.mem_flatMap, joined.table.congr h.order⟩

/-- Literals whose arguments begin with their distinct variables in the order of the keys. -/
theorem readable_of_prefix (apart : NamesApart (lits.flatMap LogicLiteral.vars))
    (ordered : ∀ lit ∈ lits, lit.vars.map .var <+: lit.terms) : Readable M lits := by
  have reading : ∀ lit ∈ lits, ∀ v ∈ lit.vars, lit.reading v = v := by
    intro lit hlit v hv
    have lt : lit.vars.idxOf v < lit.vars.length := List.idxOf_lt_length_iff.mpr hv
    have place : lit.terms[lit.vars.idxOf v]? = some (.var v) := by
      obtain ⟨rest, split⟩ := ordered lit hlit
      rw [← split, List.getElem?_append_left (by simpa using lt), List.getElem?_map, List.getElem?_eq_getElem lt, List.getElem_idxOf lt]
      rfl
    rw [LogicLiteral.reading, place]
  refine ⟨apart, fun lit hlit _ => ?_, fun σ => forall₂_congr fun lit hlit => ⟨fun h => ?_, fun h => ?_⟩⟩
  · have take := List.prefix_iff_eq_take.mp (ordered lit hlit)
    rw [List.length_map] at take
    rw [FirstPlaces, ← take]
  · exact h.congr fun v hv => congrArg σ (reading lit hlit v hv)
  · exact h.congr fun v hv => congrArg σ (reading lit hlit v hv).symm

end Products

section Subst

variable {subs : String → Option Term}

/-- A map that takes variables to variables of their sorts. -/
def KeepsSorts (subs : String → Option Term) (vs : List Variable) : Prop :=
  ∀ v ∈ vs, ∀ w, (Term.var v).subst subs = .var w → w.sort = v.sort

/-- Different variables are taken to different variables. -/
def Renames (subs : String → Option Term) (vs : List Variable) : Prop :=
  (∀ v ∈ vs, ∃ w, (Term.var v).subst subs = .var w) ∧
    ∀ v ∈ vs, ∀ w ∈ vs, (Term.var v).subst subs = (Term.var w).subst subs → v = w

theorem mem_vars_subst {w : Variable} : w ∈ (lit.subst subs).vars ↔ ∃ v ∈ lit.vars, (Term.var v).subst subs = .var w := by
  simp only [LogicLiteral.mem_vars, LogicLiteral.subst, List.mem_map]
  constructor
  · rintro ⟨t, ht, same⟩
    cases t with
    | var v => exact ⟨v, ht, same⟩
    | const c => contradiction
  · rintro ⟨v, hv, same⟩
    exact ⟨.var v, hv, same⟩

/-- A literal after the substitution, under an assignment. -/
theorem satisfies_subst {ren : Variable → Variable} (renames : ∀ v ∈ lit.vars, (Term.var v).subst subs = .var (ren v))
    (sorts : ∀ v ∈ lit.vars, (ren v).sort = v.sort) (σ : Variable → Const) :
    M.Satisfies σ (lit.subst subs) ↔ M.Satisfies (σ ∘ ren) lit := by
  have eval : (lit.subst subs).terms.map (M.eval σ) = lit.terms.map (M.eval (σ ∘ ren)) := by
    rw [LogicLiteral.subst, List.map_map]
    refine List.map_congr_left fun t ht => ?_
    cases t with
    | var v =>
      rw [Function.comp_apply, renames v (LogicLiteral.mem_vars.mpr ht)]
      rfl
    | const c => rfl
  have holds : M.Holds (lit.subst subs) σ ↔ M.Holds lit (σ ∘ ren) := by
    rw [HerbrandModel.Holds, HerbrandModel.Holds, eval]
    rfl
  constructor
  · rintro ⟨range, h⟩
    refine ⟨fun v hv => ?_, holds.mp h⟩
    rw [← sorts v hv]
    exact range _ (mem_vars_subst.mpr ⟨v, hv, renames v hv⟩)
  · rintro ⟨range, h⟩
    refine ⟨fun w hw => ?_, holds.mpr h⟩
    obtain ⟨v, hv, same⟩ := mem_vars_subst.mp hw
    obtain rfl := Term.var.inj ((renames v hv).symm.trans same)
    rw [sorts v hv]
    exact range v hv

theorem subst_isTable_iff (h : M.IsTable lits t) (sorts : KeepsSorts subs (lits.flatMap LogicLiteral.vars)) :
    M.IsTable (lits.map (·.subst subs)) (t.subst subs) ↔ Renames subs (lits.flatMap LogicLiteral.vars) := by
  obtain ⟨vs, nodup, mem, table⟩ := h
  have mem' : ∀ v, v ∈ vs ↔ v ∈ lits.flatMap LogicLiteral.vars := fun v => (mem v).trans List.mem_flatMap.symm
  have columns : (t.subst subs).vars = vs.map fun v => (Term.var v).subst subs := by
    rw [RelTable.subst, table.vars, List.map_map]
    rfl
  constructor
  · rintro ⟨ws, nodup', -, table'⟩
    have same := columns.symm.trans table'.vars
    constructor
    · intro v hv
      have here : (Term.var v).subst subs ∈ ws.map Term.var := same ▸ List.mem_map_of_mem ((mem' v).mpr hv)
      obtain ⟨w, -, eq⟩ := List.mem_map.mp here
      exact ⟨w, eq.symm⟩
    · intro v hv w hw eq
      have distinct : (vs.map fun v => (Term.var v).subst subs).Nodup := same ▸ nodup'.map Term.var_injective
      exact List.inj_on_of_nodup_map distinct ((mem' v).mpr hv) ((mem' w).mpr hw) eq
  · rintro ⟨vars, injective⟩
    choose! ren renames using vars
    have within : ∀ lit ∈ lits, ∀ v ∈ lit.vars, v ∈ lits.flatMap LogicLiteral.vars := fun lit hlit v hv =>
      List.mem_flatMap.mpr ⟨lit, hlit, hv⟩
    have sat : ∀ σ, (∀ l ∈ lits.map (·.subst subs), M.Satisfies σ l) ↔ ∀ lit ∈ lits, M.Satisfies (σ ∘ ren) lit := by
      intro σ
      rw [List.forall_mem_map]
      refine forall₂_congr fun lit hlit => satisfies_subst (fun v hv => renames v (within lit hlit v hv)) ?_ σ
      exact fun v hv => sorts v (within lit hlit v hv) _ (renames v (within lit hlit v hv))
    have inj : ∀ v ∈ vs, ∀ w ∈ vs, ren v = ren w → v = w := by
      intro v hv w hw same
      refine injective v ((mem' v).mp hv) w ((mem' w).mp hw) ?_
      rw [renames v ((mem' v).mp hv), renames w ((mem' w).mp hw), same]
    refine ⟨vs.map ren, nodup.map_on inj, fun w => ?_, ?_, fun row => ?_, table.nodup⟩
    · simp only [List.mem_map, exists_exists_and_eq_and, mem_vars_subst, mem]
      constructor
      · rintro ⟨v, ⟨lit, hlit, hv⟩, rfl⟩
        exact ⟨lit, hlit, v, hv, renames v (within lit hlit v hv)⟩
      · rintro ⟨lit, hlit, v, hv, same⟩
        exact ⟨v, ⟨lit, hlit, hv⟩, Term.var.inj ((renames v (within lit hlit v hv)).symm.trans same)⟩
    · rw [columns, List.map_map]
      exact List.map_congr_left fun v hv => renames v ((mem' v).mp hv)
    · show row ∈ t.rows ↔ _
      simp only [table.rows, sat, List.map_map]
      constructor
      · rintro ⟨σ, hσ, rfl⟩
        have back : (vs.map ren).map (assignment (vs.map ren) (vs.map σ)) = vs.map σ :=
          map_assignment (nodup.map_on inj) (by rw [List.length_map, List.length_map])
        rw [List.map_map] at back
        refine ⟨assignment (vs.map ren) (vs.map σ), fun lit hlit => (hσ lit hlit).congr fun v hv => ?_, back.symm⟩
        exact (List.map_inj_left.mp back v ((mem v).mpr ⟨lit, hlit, hv⟩)).symm
      · rintro ⟨σ, hσ, rfl⟩
        exact ⟨σ ∘ ren, hσ, rfl⟩

end Subst

section Algebra

/-- When the product of the tables of literals is the table of the literals, and when the substitution of a table is the table
of the substituted literals. -/
theorem relAlg1_spec (M : HerbrandModel) (print : Const → String) (lit : LogicLiteral) (lits : List LogicLiteral) :
    ((∃ t, joinAll M print lit lits = some t ∧ M.IsTable (lit :: lits) t) ↔ Readable M (lit :: lits)) ∧
      ∀ subs t, KeepsSorts subs ((lit :: lits).flatMap LogicLiteral.vars) → M.IsTable (lit :: lits) t →
        (M.IsTable ((lit :: lits).map (·.subst subs)) (t.subst subs) ↔ Renames subs ((lit :: lits).flatMap LogicLiteral.vars)) :=
  ⟨isTable_iff print, fun _ _ sorts h => subst_isTable_iff h sorts⟩

/-- One value of every sort, and every relation is true. -/
def oneValue : HerbrandModel where
  variableRange s := [⟨"0", .first s⟩]
  nodup _ := List.nodup_singleton _
  value := id
  rel _ _ := true

/-- The literal `p(X, c)`. -/
def constantLast : LogicLiteral :=
  ⟨true, ⟨"p", .function [.uninterpreted "s", .uninterpreted "s"] .boolean⟩,
    [.var ⟨"X", .uninterpreted "s"⟩, .const ⟨"c", .first (.uninterpreted "s")⟩]⟩

theorem relAlg1_spec_constantLast : ∃ t, joinAll oneValue Const.name constantLast [] = some t ∧
    oneValue.IsTable ([constantLast].map (·.subst fun _ => some (.var ⟨"Y", .uninterpreted "s"⟩)))
      (t.subst fun _ => some (.var ⟨"Y", .uninterpreted "s"⟩)) := by
  have vars : constantLast.vars = [⟨"X", .uninterpreted "s"⟩] := rfl
  have whole : [constantLast].flatMap LogicLiteral.vars = [⟨"X", .uninterpreted "s"⟩] := rfl
  have readable : Readable oneValue [constantLast] := by
    refine readable_of_prefix ?_ ?_
    · rw [whole]
      intro v hv w hw _
      rw [List.mem_singleton.mp hv, List.mem_singleton.mp hw]
    · rw [List.forall_mem_singleton, vars]
      exact ⟨[.const ⟨"c", .first (.uninterpreted "s")⟩], rfl⟩
  obtain ⟨t, returns, table⟩ := (relAlg1_spec oneValue Const.name constantLast []).1.mpr readable
  refine ⟨t, returns, ((relAlg1_spec oneValue Const.name constantLast []).2 _ t ?_ table).mpr ?_⟩
  · intro v hv w same
    rw [whole, List.mem_singleton] at hv
    obtain rfl := Term.var.inj same
    rw [hv]
  · rw [whole]
    refine ⟨fun v _ => ⟨_, rfl⟩, fun v hv w hw _ => ?_⟩
    rw [List.mem_singleton.mp hv, List.mem_singleton.mp hw]

/-- The literal `p(c, X)`. -/
def constantFirst : LogicLiteral :=
  ⟨true, ⟨"p", .function [.uninterpreted "s", .uninterpreted "s"] .boolean⟩,
    [.const ⟨"c", .first (.uninterpreted "s")⟩, .var ⟨"X", .uninterpreted "s"⟩]⟩

/-- The column of `X` is out of range. -/
theorem relAlg1_spec_fails : ¬ ∃ t, joinAll oneValue Const.name constantFirst [] = some t ∧ oneValue.IsTable [constantFirst] t := by
  have crash : joinAll oneValue Const.name constantFirst [] = none := by rfl
  rw [crash]
  simp

end Algebra

end Goivy.Alpha
