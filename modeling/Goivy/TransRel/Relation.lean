import Goivy.TransRel.Update

/-! The relation between two states that an update denotes, and how conjunctions
rename the skolems of their second part apart. -/
namespace Goivy

variable {D : Domain}

/-- The structure of a pair of states: `new_x` is `x` in the second one. -/
def Structure.joint (s s' : Structure D) : Structure D :=
  fun n srt => if isNew n then s' (newOf n) srt else s n srt

/-- A symbol of the states themselves. -/
structure Const.State (c : Const) : Prop where
  notNew : isNew c.name = false
  notSkolem : isSkolem c.name = false

theorem Structure.joint_state {s s' : Structure D} {c : Const} (h : isNew c.name = false) :
    SameAt (joint s s') s c := by
  show joint s s' c.name c.sort = s c.name c.sort
  rw [joint, if_neg (by simp [h])]

theorem Structure.joint_new (s s' : Structure D) (c : Const) :
    joint s s' (actionNewName c.name) c.sort = s' c.name c.sort := by
  rw [joint, if_pos (isNew_actionNewName c.name), newOf_actionNewName]

/-- A pair of propositional states is a valuation of both vocabularies. -/
theorem joint_ofNames (A B : List String) : (Structure.ofNames A).joint (.ofNames B) =
    .ofNames (A.filter (fun n => !isNew n) ++ B.map actionNewName) := by
  funext n s vs
  cases h : isNew n with
  | true =>
    have : newOf n ∈ B ↔ n ∈ B.map actionNewName := by
      rw [List.mem_map]
      constructor
      · intro mem
        exact ⟨_, mem, actionNewName_newOf h⟩
      · rintro ⟨m, mem, rfl⟩
        rwa [newOf_actionNewName]
    simp only [Structure.joint, h, if_true, Structure.ofNames, this, List.mem_append,
      List.mem_filter, Bool.not_true, Bool.false_eq_true, and_false, false_or]
  | false =>
    have : n ∉ B.map actionNewName := by
      intro mem
      obtain ⟨m, -, rfl⟩ := List.mem_map.mp mem
      rw [isNew_actionNewName] at h
      contradiction
    simp only [Structure.joint, h, Bool.false_eq_true, if_false, Structure.ofNames, List.mem_append,
      List.mem_filter, Bool.not_false, and_true, this, or_false]

/-- Valuations agree off the skolems when they have the same other names. -/
theorem agreeOff_ofNames {A B : List String}
    (same : A.filter (fun n => !isSkolem n) = B.filter (fun n => !isSkolem n)) :
    AgreeOff Const.Skolem (.ofNames A) (.ofNames B) := by
  intro c hc
  have mem : ∀ l : List String, c.name ∈ l ↔ c.name ∈ l.filter (fun n => !isSkolem n) := by
    intro l
    simpa [Const.Skolem] using fun _ => hc
  funext vs
  simp only [Structure.ofNames, mem A, same, ← mem B]

namespace Update

/-- The symbols outside `Modified` are unchanged. -/
def Frame (u : Update) (s s' : Structure D) : Prop := ∀ c : Const, c.State → c ∉ u.modified → SameAt s s' c

/-- The pairs of states in the transition relation. -/
def Step (u : Update) (s s' : Structure D) : Prop := u.Frame s s' ∧ u.tr.SatSkolem (s.joint s')

/-- The states from which the action fails. -/
def Fails (u : Update) (s : Structure D) : Prop := ∃ s' : Structure D, u.pre.SatSkolem (s.joint s')

/-- The `new_` symbols of clauses are the ones of modified symbols. -/
def NewOnly (modified : List Const) (cl : Clauses) : Prop :=
  ∀ c ∈ cl.symbols, isSkolem c.name = false → isNew c.name = true →
    ∃ x ∈ modified, c = newActionConst x

/-- The modified symbols are symbols of a state, and the transition relation has the
`new_` symbols of these only. -/
structure TransitionStyle (u : Update) : Prop where
  state : ∀ c ∈ u.modified, c.State
  newState : ∀ c ∈ u.modified, isSkolem (actionNewName c.name) = false
  tr : NewOnly u.modified u.tr

/-- An update of the action style. -/
structure ActionStyle (u : Update) : Prop extends u.TransitionStyle where
  notAll : u.modifiedAll = false
  pre : NewOnly u.modified u.pre

end Update

namespace Clauses

/-- The values of symbols that do not occur do not matter. -/
theorem satSkolem_iff {M : Structure D} {cl : Clauses} : cl.SatSkolem M ↔
    ∃ N, (∀ c ∈ cl.symbols, isSkolem c.name = false → SameAt M N c) ∧ cl.Sat N := by
  constructor
  · rintro ⟨N, agree, sat⟩
    exact ⟨N, fun c _ hc => agree c (by simp [Const.Skolem, hc]), sat⟩
  · rintro ⟨N, same, sat⟩
    refine ⟨.patch {c | isSkolem c.name = true} N M, fun c hc => ?_, (sat_congr fun c hc => ?_).mpr sat⟩
    · exact (Structure.patch_not_mem hc).symm
    · cases hs : isSkolem c.name with
      | true => exact Structure.patch_mem hs
      | false => exact (Structure.patch_not_mem (by simp [hs])).trans (same c hc hs)

theorem satSkolem_congr {M N : Structure D} {cl : Clauses}
    (same : ∀ c ∈ cl.symbols, isSkolem c.name = false → SameAt M N c) :
    cl.SatSkolem M ↔ cl.SatSkolem N := by
  simp only [satSkolem_iff]
  exact exists_congr fun O => and_congr_left fun _ => forall₃_congr fun c hc hs =>
    ⟨fun h => (same c hc hs).symm.trans h, fun h => (same c hc hs).trans h⟩

theorem mem_localSkolems {cl : Clauses} {c : Const} : c ∈ cl.localSkolems ↔
    c ∈ cl.symbols ∧ isSkolem c.name = true ∧ isGlobalSkolem c.name = false := by
  simp [localSkolems, List.mem_eraseDups]

section Distinct

variable (c₁ c₂ : Clauses)

theorem distinctRenaming_fresh :
    FreshRenaming "" c₂.usedSymbolNames c₁.localSkolems (distinctRenaming c₁ c₂) :=
  UniqueRenamer.renameSymbols_fresh ⟨"", c₂.usedSymbolNames⟩ c₁.localSkolems

theorem distinctRenaming_off {c : Const} (h : isSkolem c.name = false) :
    (distinctRenaming c₁ c₂).name c = c.name := by
  refine (distinctRenaming_fresh c₁ c₂).off c fun mem => ?_
  exact absurd (mem_localSkolems.mp mem).2.1 (by simp [h])

theorem sat_renameDistinct {M : Structure D} :
    (c₁.renameDistinct c₂).Sat M ↔ c₁.Sat (M.comap (distinctRenaming c₁ c₂)) := by
  unfold renameDistinct
  split
  · rename_i h
    rw [distinctRenaming, List.isEmpty_iff.mp h]
    exact sat_congr fun _ _ => rfl
  · exact sat_rename

theorem mem_symbols_renameDistinct {c : Const} : c ∈ (c₁.renameDistinct c₂).symbols ↔
    ∃ d ∈ c₁.symbols, (distinctRenaming c₁ c₂).const d = c := by
  unfold renameDistinct
  split
  · rename_i h
    rw [distinctRenaming, List.isEmpty_iff.mp h]
    exact ⟨fun hc => ⟨c, hc, rfl⟩, fun ⟨d, hd, same⟩ => same ▸ hd⟩
  · rw [symbols_rename, List.mem_map]

variable {c₁ c₂}

variable (c₁ c₂) in
theorem distinctRenaming_skolem {c : Const} (h : isSkolem c.name = true) :
    isSkolem ((distinctRenaming c₁ c₂).name c) = true := by
  by_cases mem : c ∈ c₁.localSkolems
  · have := (distinctRenaming_fresh c₁ c₂).basedOn c mem
    rw [String.empty_append] at this
    exact this.isSkolem h
  · rw [(distinctRenaming_fresh c₁ c₂).off c mem]
    exact h

theorem distinctRenaming_injective {c d : Const} (hc : c ∈ c₁.symbols) (hd : d ∈ c₁.symbols)
    (cs : isSkolem c.name = true) (ds : isSkolem d.name = true)
    (same : (distinctRenaming c₁ c₂).const c = (distinctRenaming c₁ c₂).const d) : c = d := by
  have fresh := distinctRenaming_fresh c₁ c₂
  have names : (distinctRenaming c₁ c₂).name c = (distinctRenaming c₁ c₂).name d :=
    congrArg Const.name same
  have sorts : c.sort = d.sort := congrArg (fun c => c.sort) same
  -- a fresh name is never the name of a global skolem
  have apart : ∀ x ∈ c₁.localSkolems, ∀ y ∉ c₁.localSkolems, y ∈ c₁.symbols →
      isSkolem y.name = true → (distinctRenaming c₁ c₂).name x ≠ (distinctRenaming c₁ c₂).name y := by
    intro x hx y hy ys yk eq
    rw [fresh.off y hy] at eq
    have hglobal : isGlobalSkolem y.name = true := by
      by_contra h
      exact hy (mem_localSkolems.mpr ⟨ys, yk, by simpa using h⟩)
    obtain ⟨-, xk, xg⟩ := mem_localSkolems.mp hx
    have based := fresh.basedOn x hx
    rw [String.empty_append] at based
    have := based.not_isGlobalSkolem xk xg
    rw [eq, hglobal] at this
    contradiction
  by_cases h : c ∈ c₁.localSkolems <;> by_cases h' : d ∈ c₁.localSkolems
  · exact fresh.distinct c h d h' names
  · exact absurd names (apart c h d h' hd ds)
  · exact absurd names.symm (apart d h' c h hc cs)
  · rw [fresh.off c h, fresh.off d h'] at names
    exact congrArg₂ Const.mk names sorts

/-- A renamed skolem is none of the other clauses', unless both share a global one. -/
theorem distinctRenaming_not_mem {d : Const} (hd : d ∈ c₁.symbols) (ds : isSkolem d.name = true)
    (global : ∀ c ∈ c₁.symbols, c ∈ c₂.symbols → isGlobalSkolem c.name = false) :
    (distinctRenaming c₁ c₂).const d ∉ c₂.symbols := by
  intro mem
  have fresh := distinctRenaming_fresh c₁ c₂
  by_cases h : d ∈ c₁.localSkolems
  · exact fresh.fresh d h (List.mem_map_of_mem (f := Const.name) mem)
  · rw [Renaming.const_eq_self (fresh.off d h)] at mem
    exact h (mem_localSkolems.mpr ⟨hd, ds, global d hd mem⟩)

variable (c₁ c₂) in
/-- A structure for the first clauses and one for the second, which agree with `M` off
the skolems, fit into one for the first and the renamed second. -/
theorem exists_joined (M N₁ N₂ : Structure D)
    (same₁ : ∀ c ∈ c₂.symbols, isSkolem c.name = false → SameAt M N₁ c)
    (same₂ : ∀ c ∈ c₁.symbols, isSkolem c.name = false → SameAt M N₂ c)
    (global : ∀ c ∈ c₁.symbols, c ∈ c₂.symbols → isGlobalSkolem c.name = false) :
    ∃ N : Structure D, AgreeOff Const.Skolem M N ∧ (∀ c ∈ c₂.symbols, SameAt N N₁ c) ∧
      ∀ c ∈ c₁.symbols, SameAt (N.comap (distinctRenaming c₁ c₂)) N₂ c := by
  let S : Set Const := {c | c ∈ c₁.symbols ∧ isSkolem c.name = true}
  let T : Set Const := {c | c ∈ c₂.symbols ∧ isSkolem c.name = true}
  let N := Structure.push (distinctRenaming c₁ c₂) S N₂ (.patch T N₁ M)
  have off : ∀ c, isSkolem c.name = false → SameAt N M c := by
    intro c hc
    have pushed : SameAt N (.patch T N₁ M) c := by
      refine Structure.push_off fun d hd image => ?_
      have := distinctRenaming_skolem c₁ c₂ hd.2
      rw [show (distinctRenaming c₁ c₂).name d = c.name from congrArg Const.name image, hc] at this
      contradiction
    exact pushed.trans (Structure.patch_not_mem fun h => by simp [h.2] at hc)
  refine ⟨N, fun c hc => (off c (by simpa [Const.Skolem] using hc)).symm, fun c hc => ?_,
    fun c hc => ?_⟩
  · cases hs : isSkolem c.name with
    | true =>
      have pushed : SameAt N (.patch T N₁ M) c := by
        refine Structure.push_off fun d hd image => ?_
        exact distinctRenaming_not_mem hd.1 hd.2 global (image ▸ hc)
      exact pushed.trans (Structure.patch_mem ⟨hc, hs⟩)
    | false => exact (off c hs).trans (same₁ c hc hs)
  · cases hs : isSkolem c.name with
    | true =>
      exact Structure.push_image
        (fun d hd image => distinctRenaming_injective hc hd.1 hs hd.2 image) ⟨hc, hs⟩
    | false =>
      have here : SameAt (N.comap (distinctRenaming c₁ c₂)) N c := by
        show N ((distinctRenaming c₁ c₂).name c) c.sort = N c.name c.sort
        rw [distinctRenaming_off c₁ c₂ hs]
      exact here.trans ((off c hs).trans (same₂ c hc hs))

/-- The first part of a conjunction keeps its skolems, the second one's are renamed. -/
theorem of_sat_conjoin {M : Structure D} (sat : (c₁.conjoin c₂).Sat M) :
    c₁.Sat M ∧ c₂.SatSkolem M := by
  rw [conjoin, sat_and] at sat
  refine ⟨sat _ (by simp), _, fun c hc => ?_, (sat_renameDistinct c₂ c₁).mp (sat _ (by simp))⟩
  show M c.name c.sort = M ((distinctRenaming c₂ c₁).name c) c.sort
  rw [distinctRenaming_off c₂ c₁ (by simpa [Const.Skolem] using hc)]

theorem mem_symbols_conjoin {c : Const} (h : c ∈ (c₁.conjoin c₂).symbols)
    (hs : isSkolem c.name = false) : c ∈ c₁.symbols ∨ c ∈ c₂.symbols := by
  obtain ⟨a, ha, hc⟩ := mem_symbols_and h
  simp only [List.mem_cons, List.not_mem_nil, or_false] at ha
  obtain rfl | rfl := ha
  · exact .inl hc
  · obtain ⟨d, hd, rfl⟩ := (mem_symbols_renameDistinct c₂ c₁).mp hc
    refine .inr ?_
    have ds : isSkolem d.name = false := by
      by_contra skolem
      have := distinctRenaming_skolem c₂ c₁ (by simpa using skolem)
      exact absurd hs (by simpa [Renaming.const] using this)
    rwa [Renaming.const_eq_self (distinctRenaming_off c₂ c₁ ds)]

/-- A conjunction is true for some skolem values exactly when both parts are. -/
theorem satSkolem_conjoin {M : Structure D}
    (global : ∀ c ∈ c₁.symbols, c ∈ c₂.symbols → isGlobalSkolem c.name = false) :
    (c₁.conjoin c₂).SatSkolem M ↔ c₁.SatSkolem M ∧ c₂.SatSkolem M := by
  constructor
  · rintro ⟨N, agree, sat⟩
    obtain ⟨first, N₂, agree₂, second⟩ := of_sat_conjoin sat
    exact ⟨⟨N, agree, first⟩, N₂, agree.trans agree₂, second⟩
  · rintro ⟨⟨N₁, agree₁, sat₁⟩, N₂, agree₂, sat₂⟩
    obtain ⟨N, agree, first, second⟩ := exists_joined c₂ c₁ M N₁ N₂
      (fun c _ hs => agree₁ c (by simp [Const.Skolem, hs]))
      (fun c _ hs => agree₂ c (by simp [Const.Skolem, hs])) fun c hc hc' => global c hc' hc
    refine ⟨N, agree, sat_and.mpr ?_⟩
    simp only [List.mem_cons, List.not_mem_nil, or_false, forall_eq_or_imp, forall_eq]
    exact ⟨(sat_congr first).mpr sat₁, (sat_renameDistinct c₂ c₁).mpr ((sat_congr second).mpr sat₂)⟩

end Distinct

end Clauses

namespace Update

/-- Clauses of the first update, with a frame for what only the second one modifies. -/
def framed (u₁ u₂ : Update) (axioms second : Clauses) : Clauses :=
  .and [second, diffFrame u₁ u₂ newActionConst axioms]

/-- What only the second update modifies is unchanged, unless the axioms define it. -/
def Unchanged (u₁ u₂ : Update) (axioms : Clauses) (s s' : Structure D) : Prop :=
  ∀ c ∈ u₂.modified, c ∉ u₁.modified → .const c ∉ axioms.defs.map Definition.defines → SameAt s s' c

theorem satSkolem_framed {u₁ u₂ : Update} {axioms cl : Clauses} {s s' : Structure D}
    (notAll : u₁.modifiedAll = false) (style₂ : u₂.ActionStyle) :
    (framed u₁ u₂ axioms cl).SatSkolem (s.joint s') ↔
      cl.SatSkolem (s.joint s') ∧ Unchanged u₁ u₂ axioms s s' := by
  have frame : ∀ N : Structure D, AgreeOff Const.Skolem (s.joint s') N →
      ((diffFrame u₁ u₂ newActionConst axioms).Sat N ↔ Unchanged u₁ u₂ axioms s s') := by
    intro N agree
    rw [sat_diffFrame notAll style₂.notAll]
    refine forall₄_congr fun c hc _ _ => ?_
    have state := style₂.state c hc
    have new : N (actionNewName c.name) c.sort = s' c.name c.sort := by
      rw [← Structure.joint_new s s' c]
      exact (agree (newActionConst c)
        (by simp [Const.Skolem, newActionConst, style₂.newState c hc])).symm
    have old : N c.name c.sort = s c.name c.sort :=
      (agree c (by simp [Const.Skolem, state.notSkolem])).symm.trans (Structure.joint_state state.notNew)
    rw [new, old]
    exact ⟨Eq.symm, Eq.symm⟩
  simp only [framed, Clauses.SatSkolem, Clauses.sat_and, List.forall_mem_cons, List.not_mem_nil,
    false_imp_iff, implies_true, and_true]
  constructor
  · rintro ⟨N, agree, sat, framed⟩
    exact ⟨⟨N, agree, sat⟩, (frame N agree).mp framed⟩
  · rintro ⟨⟨N, agree, sat⟩, unchanged⟩
    exact ⟨N, agree, sat, (frame N agree).mpr unchanged⟩

/-- The frame of a precondition does not restrict the states it holds in. -/
theorem framed_fails_iff {u₁ u₂ : Update} (axioms : Clauses) {s : Structure D}
    (style₁ : u₁.ActionStyle) (style₂ : u₂.ActionStyle) :
    (∃ s' : Structure D, (framed u₁ u₂ axioms u₁.pre).SatSkolem (s.joint s')) ↔ u₁.Fails s := by
  constructor
  · rintro ⟨s', N, agree, sat⟩
    exact ⟨s', N, agree, Clauses.sat_and.mp sat _ (by simp)⟩
  · rintro ⟨s', N, agree, sat⟩
    let s'' : Structure D := .patch {c | c ∈ u₁.modified} s' s
    let N' : Structure D := .patch {c | c ∈ u₁.pre.symbols} N (s.joint s'')
    have inside : ∀ c ∈ u₁.pre.symbols, SameAt N' N c := fun c hc => Structure.patch_mem hc
    have modified : ∀ x ∈ u₁.modified, s'' x.name x.sort = s' x.name x.sort :=
      fun x hx => Structure.patch_mem (S := {c | c ∈ u₁.modified}) hx
    have offSkolem : ∀ c : Const, isSkolem c.name = false → SameAt N' (s.joint s'') c := by
      intro c hc
      by_cases mem : c ∈ u₁.pre.symbols
      · refine (inside c mem).trans ((agree c (by simp [Const.Skolem, hc])).symm.trans ?_)
        cases hn : isNew c.name with
        | true =>
          obtain ⟨x, hx, rfl⟩ := style₁.pre c mem hc hn
          show s.joint s' (actionNewName x.name) x.sort = s.joint s'' (actionNewName x.name) x.sort
          rw [Structure.joint_new, Structure.joint_new, modified x hx]
        | false => exact (Structure.joint_state hn).trans (Structure.joint_state hn).symm
      · exact Structure.patch_not_mem mem
    refine ⟨s'', N', fun c hc => (offSkolem c (by simpa [Const.Skolem] using hc)).symm, ?_⟩
    refine Clauses.sat_and.mpr ?_
    simp only [List.forall_mem_cons, List.not_mem_nil, false_imp_iff, implies_true, and_true]
    refine ⟨(Clauses.sat_congr inside).mpr sat, ?_⟩
    refine (sat_diffFrame style₁.notAll style₂.notAll).mpr fun c hc hc' _ => ?_
    have state := style₂.state c hc
    have new : N' (actionNewName c.name) c.sort = s.joint s'' (actionNewName c.name) c.sort :=
      offSkolem (newActionConst c) (style₂.newState c hc)
    rw [new, Structure.joint_new]
    exact (Structure.patch_not_mem (S := {c | c ∈ u₁.modified}) hc').trans
      ((offSkolem c state.notSkolem).trans (Structure.joint_state state.notNew)).symm

end Update

end Goivy
