import Goivy.TransRel.Image

/-! Hiding symbols of an update, and the variant of the quantifier that merges symbols
along the definitions which equate them. -/
namespace Goivy

variable {D : Domain}

/-- What clauses say about the other symbols: some values of the given ones and of the
skolems make them true. -/
def Clauses.SatHiding (syms : List Const) (M : Structure D) (cl : Clauses) : Prop :=
  ∃ N, AgreeOff (fun c => c ∈ syms ∨ c.Skolem) M N ∧ cl.Sat N

/-- Clauses read through fresh names leave the values of the renamed symbols open. -/
theorem FreshRenaming.satHiding_iff {ρ : Renaming} {used : List String} {syms : List Const}
    (fresh : FreshRenaming "__" used syms ρ) {cl : Clauses} (M : Structure D)
    (names : ∀ c ∈ cl.symbols, c.name ∈ used) :
    (∃ N, AgreeOff Const.Skolem M N ∧ cl.Sat (N.comap ρ)) ↔ cl.SatHiding syms M := by
  constructor
  · rintro ⟨N, agree, sat⟩
    refine ⟨N.comap ρ, fun c hc => ?_, sat⟩
    obtain ⟨off, hs⟩ := not_or.mp hc
    exact (agree c hs).trans (congrArg (N · c.sort) (fresh.off c off)).symm
  · rintro ⟨K, agree, sat⟩
    -- the fresh names take the values of the hidden symbols
    let N := Structure.push ρ {c | c ∈ syms} K (.patch {c | isSkolem c.name = true} K M)
    have offSkolem : ∀ c : Const, isSkolem c.name = false → SameAt N M c := by
      intro c hc
      refine SameAt.trans (Structure.push_off fun x hx image => ?_)
        (Structure.patch_not_mem (by simp [hc]))
      have := (fresh.basedOn x hx).isSkolem (isSkolem_append_right (by decide) x.name)
      rw [show ρ.name x = c.name from congrArg Const.name image, hc] at this
      contradiction
    refine ⟨N, fun c hc => (offSkolem c (by simpa [Const.Skolem] using hc)).symm,
      (Clauses.sat_congr fun c hc => ?_).mpr sat⟩
    by_cases mem : c ∈ syms
    · exact Structure.push_image
        (fun d hd same => fresh.distinct c mem d hd (congrArg Const.name same)) mem
    · refine Eq.trans (congrArg (N · c.sort) (fresh.off c mem)) ?_
      cases hs : isSkolem c.name with
      | true =>
        refine Eq.trans (Structure.push_off fun x hx image => fresh.fresh x hx ?_)
          (Structure.patch_mem hs)
        rw [show ρ.name x = c.name from congrArg Const.name image]
        exact names c hc
      | false => exact (offSkolem c hs).trans (agree c (by simp [mem, Const.Skolem, hs]))

namespace Clauses

theorem satSkolem_existQuant (syms : List Const) (cl : Clauses) (M : Structure D) :
    (cl.existQuant syms).2.SatSkolem M ↔ cl.SatHiding syms M := by
  rw [← (existQuant_fresh syms cl).satHiding_iff M fun c hc => List.mem_map_of_mem hc]
  exact exists_congr fun N => and_congr_right fun _ => sat_existQuant syms cl

end Clauses

namespace Update

/-- One round of the loop of `Hide` over the modified symbols: the `new_` symbol of a
hidden one is hidden as well. -/
def hideNew (syms : List Const) (s : Const) : List Const :=
  if s ∈ syms then
    if newActionConst s ∈ syms then syms else syms ++ [newActionConst s]
  else syms

/-- The symbols that `Hide` quantifies. -/
def hiddenSyms (u : Update) (inputSyms : List Const) : List Const :=
  if u.modifiedAll then inputSyms.eraseDups else u.modified.foldl hideNew inputSyms.eraseDups

/-- `Hide`. -/
def hide (u : Update) (inputSyms : List Const) : Update :=
  let syms := u.hiddenSyms inputSyms
  { modified := if u.modifiedAll then [] else u.modified.filter (· ∉ syms)
    modifiedAll := u.modifiedAll
    tr := (u.tr.existQuant syms).2
    pre := (u.pre.existQuant syms).2 }

theorem mem_hideNew {syms : List Const} {s c : Const} :
    c ∈ hideNew syms s ↔ c ∈ syms ∨ s ∈ syms ∧ c = newActionConst s := by
  unfold hideNew
  split
  · split
    · rename_i mem new
      exact ⟨.inl, fun h => h.elim id fun eq => eq.2 ▸ new⟩
    · rename_i mem new
      simp [mem]
  · rename_i mem
    simp [mem]

/-- The loop adds the `new_` symbols of the hidden modified ones and nothing else: these
are none of the modified symbols themselves. -/
theorem mem_foldl_hideNew {modified syms : List Const} {c : Const}
    (old : ∀ s ∈ modified, isNew s.name = false) :
    c ∈ modified.foldl hideNew syms ↔
      c ∈ syms ∨ ∃ s ∈ modified, s ∈ syms ∧ c = newActionConst s := by
  induction modified generalizing syms with
  | nil => simp
  | cons s rest ih =>
    rw [List.forall_mem_cons] at old
    have later : ∀ x ∈ rest, x ∈ hideNew syms s ↔ x ∈ syms := by
      intro x hx
      refine mem_hideNew.trans ⟨fun h => h.elim id ?_, .inl⟩
      rintro ⟨-, rfl⟩
      have := old.2 _ hx
      rw [newActionConst, isNew_actionNewName] at this
      contradiction
    rw [List.foldl_cons, ih old.2, mem_hideNew]
    constructor
    · rintro ((h | h) | ⟨x, hx, mem, eq⟩)
      · exact .inl h
      · exact .inr ⟨s, List.mem_cons_self, h⟩
      · exact .inr ⟨x, List.mem_cons_of_mem s hx, (later x hx).mp mem, eq⟩
    · rintro (h | ⟨x, hx, mem, eq⟩)
      · exact .inl (.inl h)
      · obtain rfl | hx := List.mem_cons.mp hx
        · exact .inl (.inr ⟨mem, eq⟩)
        · exact .inr ⟨x, hx, (later x hx).mpr mem, eq⟩

/-- The symbols whose values in the second state are quantified. -/
def HiddenAfter (u : Update) (syms : List Const) (c : Const) : Prop :=
  newActionConst c ∈ syms ∨ c ∈ syms ∧ c ∈ u.modified

/-- Some values of the hidden symbols in both states, and of the skolems, make the
clauses true. -/
def HidesIn (u : Update) (syms : List Const) (cl : Clauses) (s s' : Structure D) : Prop :=
  ∃ t t' : Structure D, AgreeOff (· ∈ syms) s t ∧ AgreeOff (HiddenAfter u syms) s' t' ∧
    cl.SatSkolem (t.joint t')

section Style

variable {u : Update} (style : u.ActionStyle) {syms : List Const} {c : Const}

include style in
theorem mem_hiddenSyms :
    c ∈ hiddenSyms u syms ↔ c ∈ syms ∨ ∃ s ∈ u.modified, s ∈ syms ∧ c = newActionConst s := by
  rw [hiddenSyms, style.notAll, if_neg (by decide),
    mem_foldl_hideNew fun s hs => (style.state s hs).notNew]
  simp only [List.mem_eraseDups]

include style in
theorem mem_hiddenSyms_old (h : isNew c.name = false) : c ∈ hiddenSyms u syms ↔ c ∈ syms := by
  refine (mem_hiddenSyms style).trans ⟨fun hc => hc.elim id ?_, .inl⟩
  rintro ⟨s, -, -, rfl⟩
  rw [newActionConst, isNew_actionNewName] at h
  contradiction

include style in
theorem mem_hiddenSyms_new :
    newActionConst c ∈ hiddenSyms u syms ↔ HiddenAfter u syms c := by
  refine (mem_hiddenSyms style).trans (or_congr_right ⟨?_, fun h => ⟨c, h.2, h.1, rfl⟩⟩)
  rintro ⟨s, modified, hidden, eq⟩
  rw [newActionConst_injective eq]
  exact ⟨hidden, modified⟩

include style in
theorem satHiding_hiddenSyms (cl : Clauses) (s s' : Structure D) :
    cl.SatHiding (hiddenSyms u syms) (s.joint s') ↔ HidesIn u syms cl s s' := by
  constructor
  · rintro ⟨N, agree, sat⟩
    have kept : ∀ c ∉ hiddenSyms u syms, isSkolem c.name = false → SameAt (s.joint s') N c :=
      fun c off hs => agree c (by simp [off, Const.Skolem, hs])
    let after : Structure D := fun n srt => N (actionNewName n) srt
    refine ⟨.patch {c | c ∈ syms} N s, .patch {c | HiddenAfter u syms c} after s',
      fun c hc => (Structure.patch_not_mem hc).symm, fun c hc => (Structure.patch_not_mem hc).symm,
      Clauses.satSkolem_iff.mpr ⟨N, fun c _ hs => ?_, sat⟩⟩
    cases hn : isNew c.name with
    | true =>
      obtain ⟨x, rfl⟩ : ∃ x, c = newActionConst x :=
        ⟨⟨newOf c.name, c.sort⟩, congrArg (Const.mk · c.sort) (actionNewName_newOf hn).symm⟩
      refine Eq.trans (Structure.joint_new _ _ x) ?_
      by_cases hidden : HiddenAfter u syms x
      · exact Structure.patch_mem (S := {c | HiddenAfter u syms c}) hidden
      · refine Eq.trans (Structure.patch_not_mem (S := {c | HiddenAfter u syms c}) hidden) ?_
        exact (Structure.joint_new s s' x).symm.trans
          (kept _ (mt (mem_hiddenSyms_new style).mp hidden) hs)
    | false =>
      refine Eq.trans (Structure.joint_state hn) ?_
      by_cases hidden : c ∈ syms
      · exact Structure.patch_mem hidden
      · refine Eq.trans (Structure.patch_not_mem hidden) ?_
        exact (Structure.joint_state hn).symm.trans
          (kept c (mt (mem_hiddenSyms_old style hn).mp hidden) hs)
  · rintro ⟨t, t', before, after, N, agree, sat⟩
    refine ⟨N, fun c hc => ?_, sat⟩
    obtain ⟨off, hs⟩ := not_or.mp hc
    refine SameAt.trans ?_ (agree c hs)
    cases hn : isNew c.name with
    | true =>
      obtain ⟨x, rfl⟩ : ∃ x, c = newActionConst x :=
        ⟨⟨newOf c.name, c.sort⟩, congrArg (Const.mk · c.sort) (actionNewName_newOf hn).symm⟩
      have shown := after x (mt (mem_hiddenSyms_new style).mpr off)
      exact (Structure.joint_new s s' x).trans (Eq.trans shown (Structure.joint_new t t' x).symm)
    | false =>
      have shown := before c (mt (mem_hiddenSyms_old style hn).mpr off)
      exact (Structure.joint_state hn).trans (shown.trans (Structure.joint_state hn).symm)

include style in
theorem mem_hide_modified : c ∈ (hide u syms).modified ↔ c ∈ u.modified ∧ c ∉ syms := by
  simp only [hide, style.notAll, Bool.false_eq_true, if_false, List.mem_filter, decide_eq_true_eq]
  refine and_congr_right fun hc => not_congr ?_
  exact mem_hiddenSyms_old style (style.state c hc).notNew

end Style

end Update

namespace Clauses

/-- The symbols still to be quantified, and the symbols merged into each key. -/
structure EqClasses where
  symset : List Const
  map2 : InsMap Const (List Const)

def EqClasses.members (m : EqClasses) (c : Const) : List Const := (m.map2.get c).getD []

/-- `EqcmUpd`. -/
def eqcmUpd (lhs rhs : Expr) (m : EqClasses) : Option EqClasses :=
  match lhs, rhs with
  | .const l, .const r =>
    if l ∈ m.symset then
      some ⟨m.symset.filter (· ≠ l),
        (m.map2.set r (m.members r ++ l :: m.members l)).set l []⟩
    else none
  | _, _ => none

/-- The definitions that no call of `EqcmUpd` takes, and the classes at the end. -/
def eqcmDefs : List Definition → EqClasses → List Definition × EqClasses
  | [], m => ([], m)
  | d :: ds, m =>
    match (eqcmUpd d.lhs d.rhs m).or (eqcmUpd d.rhs d.lhs m) with
    | some m => eqcmDefs ds m
    | none => (d :: (eqcmDefs ds m).1, (eqcmDefs ds m).2)

/-- The entries of `map1` that lead from a member of a class to its key. -/
def EqClasses.entries (m : EqClasses) : Renaming :=
  m.map2.entries.flatMap (fun p => p.2.map (fun x => (x, p.1.name)))

/-- `ExistsQuantClausesMap`: the fresh names overwrite the entries of the classes. -/
def existsQuantMap (syms : List Const) (cl : Clauses) : Renaming × Clauses :=
  let (defs, classes) := eqcmDefs cl.defs ⟨syms, .empty⟩
  let ρ := ((⟨"__", cl.usedSymbolNames⟩ : UniqueRenamer).renameSymbols syms).1 ++ classes.entries
  (ρ, (new cl.fmlas defs).rename ρ)

/-- The clauses without the definitions that the quantifier drops. -/
def withoutEquations (syms : List Const) (cl : Clauses) : Clauses :=
  ⟨cl.fmlas, (eqcmDefs cl.defs ⟨syms, .empty⟩).1⟩

/-- The dropped equations say nothing about the other symbols: where the kept clauses are
true, they are true together with the equations for some values of the quantified
symbols and the skolems. -/
def EquationsRedundant (D : Domain) (syms : List Const) (cl : Clauses) : Prop :=
  ∀ M : Structure D, (cl.withoutEquations syms).Sat M → cl.SatHiding syms M

/-- Every member of a class is a quantified symbol. -/
def EqClasses.Within (syms : List Const) (m : EqClasses) : Prop :=
  m.symset ⊆ syms ∧ ∀ c, m.members c ⊆ syms

theorem within_start (syms : List Const) : EqClasses.Within syms ⟨syms, .empty⟩ :=
  ⟨List.Subset.refl syms, fun _ => List.nil_subset syms⟩

theorem members_set (m : EqClasses) (symset : List Const) (k c : Const) (xs : List Const) :
    (⟨symset, m.map2.set k xs⟩ : EqClasses).members c = if c = k then xs else m.members c := by
  simp only [EqClasses.members, InsMap.get_set]
  split <;> rfl

theorem eqcmUpd_within {syms : List Const} {lhs rhs : Expr} {m m' : EqClasses}
    (within : m.Within syms) (step : eqcmUpd lhs rhs m = some m') : m'.Within syms := by
  unfold eqcmUpd at step
  split at step
  · rename_i l r
    split at step
    · rename_i mem
      cases step
      refine ⟨fun c hc => within.1 (List.mem_filter.mp hc).1, fun c => ?_⟩
      rw [members_set ⟨m.symset, m.map2.set r _⟩, members_set]
      split
      · exact List.nil_subset syms
      · split
        · exact List.append_subset.mpr ⟨within.2 r,
            List.cons_subset.mpr ⟨within.1 mem, within.2 l⟩⟩
        · exact within.2 c
    · contradiction
  · contradiction

/-- The loop over the definitions keeps the classes among the quantified symbols, and the
definitions it keeps are some of those it is given. -/
theorem eqcmDefs_spec {syms : List Const} {m : EqClasses} (within : m.Within syms)
    (ds : List Definition) :
    (eqcmDefs ds m).2.Within syms ∧ (eqcmDefs ds m).1.Sublist ds := by
  induction ds generalizing m with
  | nil => exact ⟨within, List.Sublist.refl []⟩
  | cons d ds ih =>
    rw [eqcmDefs]
    cases step : (eqcmUpd d.lhs d.rhs m).or (eqcmUpd d.rhs d.lhs m) with
    | none => exact ⟨(ih within).1, (ih within).2.cons_cons d⟩
    | some m' =>
      have within' : m'.Within syms := by
        obtain h | ⟨-, h⟩ := Option.or_eq_some_iff.mp step
        · exact eqcmUpd_within within h
        · exact eqcmUpd_within within h
      exact ⟨(ih within').1, (ih within').2.cons d⟩

theorem mem_entries_within {syms : List Const} {m : EqClasses} (within : m.Within syms)
    {p : Const × String} (h : p ∈ m.entries) : p.1 ∈ syms := by
  obtain ⟨⟨k, xs⟩, hk, hp⟩ := List.mem_flatMap.mp h
  obtain ⟨x, hx, rfl⟩ := List.mem_map.mp hp
  have get : m.map2.get k = some xs := InsMap.mem_entries.mp hk
  exact within.2 k (by rw [EqClasses.members, get]; exact hx)

theorem withoutEquations_subset (syms : List Const) (cl : Clauses) :
    (cl.withoutEquations syms).symbols ⊆ cl.symbols := by
  have kept := (eqcmDefs_spec (within_start syms) cl.defs).2
  refine List.append_subset.mpr ⟨List.subset_append_left _ _, fun c hc => ?_⟩
  obtain ⟨d, hd, hc⟩ := List.mem_flatMap.mp hc
  exact List.mem_append_right _ (List.mem_flatMap.mpr ⟨d, kept.subset hd, hc⟩)

/-- The map of the optimized quantifier gives every symbol the name of the plain one. -/
theorem existsQuantMap_name (syms : List Const) (cl : Clauses) (c : Const) :
    (cl.existsQuantMap syms).1.name c =
      Renaming.name ((⟨"__", cl.usedSymbolNames⟩ : UniqueRenamer).renameSymbols syms).1 c := by
  have within := (eqcmDefs_spec (within_start syms) cl.defs).1
  have keys := UniqueRenamer.renameSymbols_keys ⟨"__", cl.usedSymbolNames⟩ syms
  simp only [existsQuantMap, Renaming.name, List.lookup_append]
  cases h : (UniqueRenamer.renameSymbols ⟨"__", cl.usedSymbolNames⟩ syms).1.lookup c with
  | some n => rfl
  | none =>
    rw [Renaming.lookup_eq_none, keys, List.mem_reverse] at h
    have : (eqcmDefs cl.defs ⟨syms, .empty⟩).2.entries.lookup c = none := by
      rw [Renaming.lookup_eq_none, List.mem_map]
      rintro ⟨p, hp, rfl⟩
      exact h (mem_entries_within within hp)
    rw [this]
    rfl

theorem satSkolem_existsQuantMap (syms : List Const) (cl : Clauses) (M : Structure D) :
    (cl.existsQuantMap syms).2.SatSkolem M ↔ (cl.withoutEquations syms).SatHiding syms M := by
  have fresh := UniqueRenamer.renameSymbols_fresh ⟨"__", cl.usedSymbolNames⟩ syms
  rw [← fresh.satHiding_iff M fun c hc =>
    List.mem_map_of_mem (withoutEquations_subset syms cl hc)]
  refine exists_congr fun N => and_congr_right fun _ => ?_
  have same : N.comap (cl.existsQuantMap syms).1 =
      N.comap ((⟨"__", cl.usedSymbolNames⟩ : UniqueRenamer).renameSymbols syms).1 := by
    funext n s
    exact congrArg (N · s) (existsQuantMap_name syms cl ⟨n, s⟩)
  exact sat_rename.trans (same ▸ sat_new)

theorem withoutEquations_sat {syms : List Const} {cl : Clauses} {M : Structure D}
    (sat : cl.Sat M) : (cl.withoutEquations syms).Sat M := by
  have kept := (eqcmDefs_spec (within_start syms) cl.defs).2
  exact ⟨sat.1, fun d hd => sat.2 d (kept.subset hd)⟩

theorem SatHiding.trans {syms : List Const} {cl cl' : Clauses} {M : Structure D}
    (h : cl.SatHiding syms M) (step : ∀ N : Structure D, cl.Sat N → cl'.SatHiding syms N) :
    cl'.SatHiding syms M := by
  obtain ⟨N, agree, sat⟩ := h
  obtain ⟨K, agree', sat'⟩ := step N sat
  exact ⟨K, agree.trans agree', sat'⟩

/-- The two quantifiers agree exactly where the dropped equations are redundant. -/
theorem existsQuantMap_agrees_iff (D : Domain) (syms : List Const) (cl : Clauses) :
    (∀ M : Structure D, (cl.existsQuantMap syms).2.SatSkolem M ↔
        (cl.existQuant syms).2.SatSkolem M) ↔ cl.EquationsRedundant D syms := by
  simp only [satSkolem_existsQuantMap, satSkolem_existQuant]
  constructor
  · intro agrees M sat
    exact (agrees M).mp ⟨M, AgreeOff.refl _ _, sat⟩
  · intro redundant M
    exact ⟨fun h => h.trans redundant,
      fun h => h.trans fun N sat => ⟨N, AgreeOff.refl _ _, withoutEquations_sat sat⟩⟩

/-- No definition equates a quantified symbol with a constant. -/
def NoEquation (syms : List Const) (cl : Clauses) : Prop :=
  ∀ d ∈ cl.defs, ∀ l r : Const, d.lhs = .const l → d.rhs = .const r → l ∉ syms ∧ r ∉ syms

theorem eqcmDefs_none {syms : List Const} {ds : List Definition} {map2 : InsMap Const (List Const)}
    (none : ∀ d ∈ ds, ∀ l r : Const, d.lhs = .const l → d.rhs = .const r → l ∉ syms ∧ r ∉ syms) :
    eqcmDefs ds ⟨syms, map2⟩ = (ds, ⟨syms, map2⟩) := by
  induction ds with
  | nil => rfl
  | cons d ds ih =>
    rw [List.forall_mem_cons] at none
    obtain ⟨lhs, rhs⟩ := d
    have stays : (eqcmUpd lhs rhs ⟨syms, map2⟩).or (eqcmUpd rhs lhs ⟨syms, map2⟩) = .none := by
      unfold eqcmUpd
      cases lhs with
      | const l =>
        cases rhs with
        | const r => simp [none.1 l r rfl rfl]
        | _ => rfl
      | _ => cases rhs <;> rfl
    rw [eqcmDefs, stays, ih none.2]

/-- Where no definition equates a quantified symbol with a constant, nothing is dropped. -/
theorem NoEquation.redundant {syms : List Const} {cl : Clauses} (none : cl.NoEquation syms) :
    cl.EquationsRedundant D syms := by
  intro M sat
  refine ⟨M, AgreeOff.refl _ _, ?_⟩
  rwa [withoutEquations, eqcmDefs_none none] at sat

end Clauses

/-- Hiding symbols of an update is existential quantification over their values. The
quantifier that merges equated symbols agrees with the plain one exactly where the
equations it drops are redundant. -/
theorem hide_spec (D : Domain) :
    (∀ u : Update, u.ActionStyle → ∀ syms : List Const,
      (∀ c ∈ syms, c ∉ (u.hide syms).modified) ∧ ∀ s s' : Structure D,
        ((u.hide syms).tr.SatSkolem (s.joint s') ↔ u.HidesIn syms u.tr s s') ∧
        ((u.hide syms).pre.SatSkolem (s.joint s') ↔ u.HidesIn syms u.pre s s')) ∧
      ∀ (syms : List Const) (cl : Clauses),
        (∀ M : Structure D, (cl.existsQuantMap syms).2.SatSkolem M ↔
          (cl.existQuant syms).2.SatSkolem M) ↔ cl.EquationsRedundant D syms := by
  refine ⟨fun u style syms => ⟨fun c hc mem => ?_, fun s s' => ⟨?_, ?_⟩⟩,
    Clauses.existsQuantMap_agrees_iff D⟩
  · exact (Update.mem_hide_modified style).mp mem |>.2 hc
  · exact (Clauses.satSkolem_existQuant _ _ _).trans (Update.satHiding_hiddenSyms style u.tr s s')
  · exact (Clauses.satSkolem_existQuant _ _ _).trans (Update.satHiding_hiddenSyms style u.pre s s')

theorem hide_spec_assign : boolConst "x" ∉ (Update.assignA.hide [boolConst "x"]).modified ∧
    ∀ s s' : Structure Domain.unit,
      (Update.assignA.hide [boolConst "x"]).tr.SatSkolem (s.joint s') ↔
        Update.assignA.HidesIn [boolConst "x"] Update.assignA.tr s s' := by
  have hidden := (hide_spec Domain.unit).1 Update.assignA Update.assignA_style [boolConst "x"]
  exact ⟨hidden.1 _ (by simp), fun s s' => (hidden.2 s s').1⟩

/-- The equation of `a` and `c` goes with `a`, which then says nothing about `c`. -/
theorem hide_spec_fails :
    let cl := Clauses.new [.const (boolConst "a")] [boolDef "a" "c"]
    ¬ ∀ M : Structure Domain.unit, (cl.existsQuantMap [boolConst "a"]).2.SatSkolem M ↔
      (cl.existQuant [boolConst "a"]).2.SatSkolem M := by
  intro cl agrees
  have kept : cl.withoutEquations [boolConst "a"] = ⟨[.const (boolConst "a")], []⟩ := by decide
  obtain ⟨N, agree, sat⟩ := (Clauses.existsQuantMap_agrees_iff _ _ _).mp agrees (.ofNames ["a"]) (by
    rw [kept]
    simp [Clauses.Sat, Expr.Valid, Expr.holds_ofNames])
  have a : (Expr.const (boolConst "a")).Holds N (Classical.arbitrary _) :=
    sat.1 (.const (boolConst "a")) (by decide) (Classical.arbitrary _)
  have same := sat.2 (boolDef "a" "c") (by decide) (Classical.arbitrary _)
  have c : (Expr.const (boolConst "c")).Holds N (Classical.arbitrary _) :=
    ((Expr.holds_iff N _ _ _).mp same).mp a
  have shown : SameAt (.ofNames ["a"]) N (boolConst "c") :=
    agree _ (not_or.mpr ⟨by decide, by unfold Const.Skolem; decide⟩)
  rw [← shown.holds_const, Expr.holds_ofNames] at c
  simp at c

end Goivy
