import Goivy.TransRel.Relation

/-! `ComposeUpdates` is relational composition. -/
namespace Goivy

namespace Update

/-- The symbols that both updates modify. -/
def mid (u₁ u₂ : Update) : List Const := u₁.modified.filter (fun c => c ∈ u₂.modified)

/-- The names that the intermediate values must not have. -/
def midUsed (u₁ u₂ : Update) : List String :=
  let combined := Clauses.and [u₁.tr, u₂.tr.renameDistinct u₁.tr]
  combined.usedSymbolNames ++ u₁.pre.usedSymbolNames ++
    (u₂.pre.renameDistinct u₁.tr).usedSymbolNames

/-- The fresh names for the intermediate values of the symbols that both modify. -/
def midRenaming (u₁ u₂ : Update) : Renaming :=
  ((⟨"__m_", midUsed u₁ u₂⟩ : UniqueRenamer).renameSymbols (mid u₁ u₂)).1

/-- `map1`: `new_x` becomes the fresh symbol of `x`. -/
def map₁ (ρ : Renaming) : Renaming := ρ.map (fun p => (newActionConst p.1, p.2))

/-- `map2`: `x` becomes its fresh symbol, or `new_x` where only the first update
modifies it. -/
def map₂ (ρ : Renaming) (updated₁ : List Const) : Renaming :=
  ρ ++ updated₁.map (fun v => (v, actionNewName v.name))

/-- The first transition relation followed by the clauses `second` of the second update. -/
def followed (u₁ : Update) (axioms : Clauses) (u₂ : Update) (second : Clauses) : Clauses :=
  let ρ := midRenaming u₁ u₂
  let midAx := axioms.usingSymbols (mid u₁ u₂)
  .and [u₁.tr.rename (map₁ ρ),
    (Clauses.and [second.renameDistinct u₁.tr, midAx]).rename (map₂ ρ u₁.modified)]

/-- `ComposeUpdates`. -/
def compose (u₁ : Update) (axioms : Clauses) (u₂ : Update) : Update where
  modified :=
    if u₁.modifiedAll || u₂.modifiedAll then [] else updatedJoin u₁.modified u₂.modified
  modifiedAll := u₁.modifiedAll || u₂.modifiedAll
  tr := followed u₁ axioms u₂ u₂.tr
  pre := .or [framed u₁ u₂ axioms u₁.pre, followed u₁ axioms u₂ u₂.pre]

theorem lookup_map₁ (ρ : Renaming) (c : Const) :
    (map₁ ρ).lookup (newActionConst c) = ρ.lookup c := by
  have inj : ∀ a b : Const, newActionConst a = newActionConst b ↔ a = b := by
    intro a b
    refine ⟨fun h => ?_, fun h => h ▸ rfl⟩
    have names := actionNewName_injective (congrArg Const.name h)
    exact congrArg₂ Const.mk names (congrArg (fun c => c.sort) h)
  induction ρ with
  | nil => rfl
  | cons p ρ ih =>
    obtain ⟨d, n⟩ := p
    simp only [map₁, List.map_cons, InsMap.lookup_cons, inj]
    rw [← ih]
    rfl

theorem mem_mid {u₁ u₂ : Update} {c : Const} :
    c ∈ mid u₁ u₂ ↔ c ∈ u₁.modified ∧ c ∈ u₂.modified := by
  simp [mid]

section Renamings

variable {ρ : Renaming} {pre : String} {used : List String} {syms updated₁ : List Const}
  (keys : ρ.map Prod.fst = syms.reverse)

include keys in
theorem lookup_isSome {c : Const} : (ρ.lookup c).isSome ↔ c ∈ syms := by
  rw [Option.isSome_iff_ne_none, ne_eq, Renaming.lookup_eq_none, not_not, keys, List.mem_reverse]

include keys in
theorem map₁_mid {c : Const} (h : c ∈ syms) : (map₁ ρ).name (newActionConst c) = ρ.name c := by
  obtain ⟨n, hn⟩ := Option.isSome_iff_exists.mp ((lookup_isSome keys).mpr h)
  simp [Renaming.name, lookup_map₁, hn]

include keys in
theorem map₁_off {c : Const} (h : ∀ x ∈ syms, c ≠ newActionConst x) :
    (map₁ ρ).name c = c.name := by
  have : (map₁ ρ).lookup c = none := by
    rw [Renaming.lookup_eq_none]
    intro mem
    simp only [map₁, List.map_map, List.mem_map] at mem
    obtain ⟨p, hp, rfl⟩ := mem
    refine h p.1 ?_ rfl
    rw [← List.mem_reverse, ← keys]
    exact List.mem_map_of_mem hp
  simp [Renaming.name, this]

include keys in
theorem map₂_mid {c : Const} (h : c ∈ syms) : (map₂ ρ updated₁).name c = ρ.name c := by
  obtain ⟨n, hn⟩ := Option.isSome_iff_exists.mp ((lookup_isSome keys).mpr h)
  simp [Renaming.name, map₂, List.lookup_append, hn]

theorem lookup_map_self (f : Const → String) (cs : List Const) (c : Const) :
    (cs.map (fun v => (v, f v))).lookup c = if c ∈ cs then some (f c) else none := by
  induction cs with
  | nil => rfl
  | cons d cs ih =>
    rw [List.map_cons, InsMap.lookup_cons, ih]
    by_cases h : c = d
    · simp [h]
    · simp [h]

include keys in
theorem map₂_first {c : Const} (h : c ∉ syms) (hc : c ∈ updated₁) :
    (map₂ ρ updated₁).name c = actionNewName c.name := by
  have none : ρ.lookup c = none := by
    rwa [← Option.not_isSome_iff_eq_none, lookup_isSome keys]
  rw [Renaming.name, map₂, List.lookup_append, none, lookup_map_self, if_pos hc]
  rfl

include keys in
theorem map₂_off {c : Const} (sub : syms ⊆ updated₁) (h : c ∉ updated₁) :
    (map₂ ρ updated₁).name c = c.name := by
  have none : ρ.lookup c = none := by
    rw [← Option.not_isSome_iff_eq_none, lookup_isSome keys]
    exact fun mem => h (sub mem)
  rw [Renaming.name, map₂, List.lookup_append, none, lookup_map_self, if_neg h]
  rfl

end Renamings

theorem midRenaming_keys (u₁ u₂ : Update) :
    (midRenaming u₁ u₂).map Prod.fst = (mid u₁ u₂).reverse :=
  UniqueRenamer.renameSymbols_keys _ _

theorem midRenaming_fresh (u₁ u₂ : Update) :
    FreshRenaming "__m_" (midUsed u₁ u₂) (mid u₁ u₂) (midRenaming u₁ u₂) :=
  UniqueRenamer.renameSymbols_fresh ⟨"__m_", midUsed u₁ u₂⟩ _

theorem mid_subset (u₁ u₂ : Update) : mid u₁ u₂ ⊆ u₁.modified := List.filter_subset_self _

section Followed

variable {D : Domain} {u₁ u₂ : Update} {axioms second : Clauses} {s s' m J : Structure D}

theorem sat_followed : (followed u₁ axioms u₂ second).Sat J ↔
    u₁.tr.Sat (J.comap (map₁ (midRenaming u₁ u₂))) ∧
      second.Sat ((J.comap (map₂ (midRenaming u₁ u₂) u₁.modified)).comap
        (second.distinctRenaming u₁.tr)) ∧
      (axioms.usingSymbols (mid u₁ u₂)).Sat
        (J.comap (map₂ (midRenaming u₁ u₂) u₁.modified)) := by
  simp only [followed, Clauses.sat_and, List.forall_mem_cons, List.not_mem_nil, false_imp_iff,
    implies_true, and_true, Clauses.sat_rename, Clauses.sat_renameDistinct]

variable (style₁ : u₁.ActionStyle) (style₂ : u₂.ActionStyle)
  (news : NewOnly u₂.modified second)

include style₁ style₂ news in
/-- A structure of the composed clauses has an intermediate state: `x` at its fresh
symbol, at `new_x`, or unchanged. -/
theorem followed_split (agree : AgreeOff Const.Skolem (s.joint s') J)
    (sat : (followed u₁ axioms u₂ second).Sat J) :
    ∃ m : Structure D, u₁.Frame s m ∧ (∀ c ∈ u₁.modified, c ∉ u₂.modified → SameAt m s' c) ∧
      u₁.tr.SatSkolem (s.joint m) ∧ second.SatSkolem (m.joint s') ∧
      (axioms.usingSymbols (mid u₁ u₂)).Sat m := by
  have keys := midRenaming_keys u₁ u₂
  generalize hρ : midRenaming u₁ u₂ = ρ at keys
  obtain ⟨first, secondSat, ax⟩ := sat_followed.mp sat
  rw [hρ] at first secondSat ax
  have atState : ∀ c : Const, isSkolem c.name = false → isNew c.name = false → SameAt J s c :=
    fun c hs hn => (agree c (by simp [Const.Skolem, hs])).symm.trans (Structure.joint_state hn)
  have atNew : ∀ c : Const, isSkolem (actionNewName c.name) = false →
      J (actionNewName c.name) c.sort = s' c.name c.sort := by
    intro c hs
    have := agree (newActionConst c) (by simp [Const.Skolem, newActionConst, hs])
    rw [← Structure.joint_new s s' c]
    exact this.symm
  refine ⟨J.comap (map₂ ρ u₁.modified), ?_, ?_, ?_, ?_, ax⟩
  · intro c state hc
    show s c.name c.sort = J ((map₂ ρ u₁.modified).name c) c.sort
    rw [map₂_off keys (mid_subset u₁ u₂) hc]
    exact (atState c state.notSkolem state.notNew).symm
  · intro c hc hc'
    show J ((map₂ ρ u₁.modified).name c) c.sort = s' c.name c.sort
    rw [map₂_first keys (fun mem => hc' (mem_mid.mp mem).2) hc]
    exact atNew c (style₁.newState c hc)
  · refine Clauses.satSkolem_iff.mpr ⟨_, fun c hc hs => ?_, first⟩
    cases hn : isNew c.name with
    | true =>
      obtain ⟨x, hx, rfl⟩ := style₁.tr c hc hs hn
      show s.joint _ (actionNewName x.name) x.sort = J ((map₁ ρ).name (newActionConst x)) x.sort
      rw [Structure.joint_new]
      show J ((map₂ ρ u₁.modified).name x) x.sort = _
      by_cases hmid : x ∈ mid u₁ u₂
      · rw [map₂_mid keys hmid, map₁_mid keys hmid]
      · rw [map₂_first keys hmid hx, map₁_off keys fun y hy same => hmid ?_]
        · rfl
        · have names := actionNewName_injective (congrArg Const.name same)
          have : x = y := congrArg₂ Const.mk names (congrArg (fun c => c.sort) same)
          exact this ▸ hy
    | false =>
      refine (Structure.joint_state hn).trans ?_
      show s c.name c.sort = J ((map₁ ρ).name c) c.sort
      rw [map₁_off keys fun y _ same => ?_]
      · exact (atState c hs hn).symm
      · rw [same, newActionConst, isNew_actionNewName] at hn
        contradiction
  · refine Clauses.satSkolem_iff.mpr ⟨_, fun c hc hs => ?_, secondSat⟩
    have unrenamed := Clauses.distinctRenaming_off second u₁.tr hs
    show _ = J ((map₂ ρ u₁.modified).name ⟨(second.distinctRenaming u₁.tr).name c, c.sort⟩) c.sort
    rw [unrenamed]
    cases hn : isNew c.name with
    | true =>
      obtain ⟨x, hx, rfl⟩ := news c hc hs hn
      have : newActionConst x ∉ u₁.modified := fun mem => by
        have := (style₁.state _ mem).notNew
        rw [newActionConst, isNew_actionNewName] at this
        contradiction
      rw [show (⟨(newActionConst x).name, (newActionConst x).sort⟩ : Const) = newActionConst x from rfl,
        map₂_off keys (mid_subset u₁ u₂) this]
      exact (Structure.joint_new _ s' x).trans (atNew x (style₂.newState x hx)).symm
    | false => exact Structure.joint_state hn

/-- The fresh names are none of the first transition relation's and of the second clauses'. -/
def MidFresh (u₁ u₂ : Update) (second : Clauses) : Prop :=
  ∀ x ∈ mid u₁ u₂, (midRenaming u₁ u₂).const x ∉ u₁.tr.symbols ∧
    (midRenaming u₁ u₂).const x ∉ (second.renameDistinct u₁.tr).symbols

include style₁ style₂ news in
/-- The states and the skolems of both steps fit into one structure of the composed clauses. -/
theorem followed_join (fresh : MidFresh u₁ u₂ second)
    (axState : ∀ c ∈ axioms.symbols, c.State)
    (global : ∀ c ∈ second.symbols, c ∈ u₁.tr.symbols → isGlobalSkolem c.name = false)
    (frame : u₁.Frame s m) (kept : ∀ c ∈ u₁.modified, c ∉ u₂.modified → SameAt m s' c)
    (first : u₁.tr.SatSkolem (s.joint m)) (secondSat : second.SatSkolem (m.joint s'))
    (ax : (axioms.usingSymbols (mid u₁ u₂)).Sat m) :
    (followed u₁ axioms u₂ second).SatSkolem (s.joint s') := by
  have keys := midRenaming_keys u₁ u₂
  have freshNames := midRenaming_fresh u₁ u₂
  unfold MidFresh at fresh
  obtain ⟨N₁, agree₁, sat₁⟩ := first
  obtain ⟨N₂, agree₂, sat₂⟩ := secondSat
  -- the skolems of both parts, then the intermediate values at their fresh symbols
  let skolems := Structure.push (second.distinctRenaming u₁.tr)
    {c | c ∈ second.symbols ∧ isSkolem c.name = true} N₂
    (.patch {c | c ∈ u₁.tr.symbols ∧ isSkolem c.name = true} N₁ (s.joint s'))
  let J := Structure.push (midRenaming u₁ u₂) {c | c ∈ mid u₁ u₂} m skolems
  have midSkolem : ∀ x ∈ mid u₁ u₂, isSkolem ((midRenaming u₁ u₂).name x) = true := fun x hx =>
    (freshNames.basedOn x hx).isSkolem (isSkolem_append_right (by decide) x.name)
  have offSkolem : ∀ c : Const, isSkolem c.name = false → SameAt J (s.joint s') c := by
    intro c hc
    have outer : SameAt J skolems c := Structure.push_off fun x hx image => by
      have := midSkolem x hx
      rw [show (midRenaming u₁ u₂).name x = c.name from congrArg Const.name image, hc] at this
      contradiction
    have inner : SameAt skolems _ c := Structure.push_off fun d hd image => by
      have := Clauses.distinctRenaming_skolem second u₁.tr hd.2
      rw [show (second.distinctRenaming u₁.tr).name d = c.name from congrArg Const.name image,
        hc] at this
      contradiction
    exact outer.trans (inner.trans (Structure.patch_not_mem fun h => by simp [h.2] at hc))
  have atFirst : ∀ c ∈ u₁.tr.symbols, isSkolem c.name = true → SameAt J N₁ c := by
    intro c hc hs
    have outer : SameAt J skolems c :=
      Structure.push_off fun x hx image => (fresh x hx).1 (image ▸ hc)
    have inner : SameAt skolems _ c := Structure.push_off fun d hd image =>
      Clauses.distinctRenaming_not_mem hd.1 hd.2 global (image ▸ hc)
    exact outer.trans (inner.trans (Structure.patch_mem ⟨hc, hs⟩))
  have atSecond : ∀ c ∈ second.symbols, isSkolem c.name = true →
      SameAt (J.comap (second.distinctRenaming u₁.tr)) N₂ c := by
    intro c hc hs
    have outer : SameAt (J.comap (second.distinctRenaming u₁.tr))
        (skolems.comap (second.distinctRenaming u₁.tr)) c :=
      Structure.push_off fun x hx image => (fresh x hx).2
        ((Clauses.mem_symbols_renameDistinct second u₁.tr).mpr ⟨c, hc, image.symm⟩)
    exact outer.trans (Structure.push_image
      (fun d hd image => Clauses.distinctRenaming_injective hc hd.1 hs hd.2 image) ⟨hc, hs⟩)
  have atMid : ∀ x ∈ mid u₁ u₂, J ((midRenaming u₁ u₂).name x) x.sort = m x.name x.sort :=
    fun x hx => Structure.push_image
      (fun d hd image => freshNames.distinct x hx d hd (congrArg Const.name image)) hx
  have atNew : ∀ c : Const, isSkolem (actionNewName c.name) = false →
      J (actionNewName c.name) c.sort = s' c.name c.sort := by
    intro c hs
    rw [← Structure.joint_new s s' c]
    exact offSkolem (newActionConst c) hs
  have atState : ∀ c : Const, c.State →
      J ((map₂ (midRenaming u₁ u₂) u₁.modified).name c) c.sort = m c.name c.sort := by
    intro c state
    by_cases hc : c ∈ u₁.modified
    · by_cases hmid : c ∈ mid u₁ u₂
      · rw [map₂_mid keys hmid]
        exact atMid c hmid
      · rw [map₂_first keys hmid hc, atNew c (style₁.newState c hc)]
        exact (kept c hc fun h => hmid (mem_mid.mpr ⟨hc, h⟩)).symm
    · rw [map₂_off keys (mid_subset u₁ u₂) hc]
      exact (offSkolem c state.notSkolem).trans
        ((Structure.joint_state state.notNew).trans (frame c state hc))
  have map₂Other : ∀ c : Const, c ∉ u₁.modified →
      (map₂ (midRenaming u₁ u₂) u₁.modified).name c = c.name := fun c hc =>
    map₂_off keys (mid_subset u₁ u₂) hc
  refine ⟨J, fun c hc => (offSkolem c (by simpa [Const.Skolem] using hc)).symm,
    sat_followed.mpr ⟨?_, ?_, ?_⟩⟩
  · refine (Clauses.sat_congr fun c hc => ?_).mpr sat₁
    show J ((map₁ (midRenaming u₁ u₂)).name c) c.sort = N₁ c.name c.sort
    cases hs : isSkolem c.name with
    | true =>
      rw [map₁_off keys fun x hx same => ?_]
      · exact atFirst c hc hs
      · rw [same, newActionConst, style₁.newState x (mem_mid.mp hx).1] at hs
        contradiction
    | false =>
      rw [← show s.joint m c.name c.sort = N₁ c.name c.sort from
        agree₁ c (by simp [Const.Skolem, hs])]
      cases hn : isNew c.name with
      | true =>
        obtain ⟨x, hx, rfl⟩ := style₁.tr c hc hs hn
        show _ = s.joint m (actionNewName x.name) x.sort
        rw [Structure.joint_new]
        by_cases hmid : x ∈ mid u₁ u₂
        · rw [map₁_mid keys hmid]
          exact atMid x hmid
        · rw [map₁_off keys fun y hy same => hmid ?_]
          · exact (atNew x (style₁.newState x hx)).trans
              (kept x hx fun h => hmid (mem_mid.mpr ⟨hx, h⟩)).symm
          · have names := actionNewName_injective (congrArg Const.name same)
            have : x = y := congrArg₂ Const.mk names (congrArg (fun c => c.sort) same)
            exact this ▸ hy
      | false =>
        rw [map₁_off keys fun y _ same => ?_]
        · exact (offSkolem c hs).trans
            ((Structure.joint_state hn).trans (Structure.joint_state hn).symm)
        · rw [same, newActionConst, isNew_actionNewName] at hn
          contradiction
  · refine (Clauses.sat_congr fun c hc => ?_).mpr sat₂
    show J ((map₂ (midRenaming u₁ u₂) u₁.modified).name
      ⟨(second.distinctRenaming u₁.tr).name c, c.sort⟩) c.sort = N₂ c.name c.sort
    cases hs : isSkolem c.name with
    | true =>
      rw [map₂Other ⟨_, c.sort⟩ fun mem => ?_]
      · exact atSecond c hc hs
      · have := (style₁.state _ mem).notSkolem
        rw [Clauses.distinctRenaming_skolem _ _ hs] at this
        contradiction
    | false =>
      rw [Clauses.distinctRenaming_off second u₁.tr hs,
        ← show m.joint s' c.name c.sort = N₂ c.name c.sort from
          agree₂ c (by simp [Const.Skolem, hs])]
      cases hn : isNew c.name with
      | true =>
        obtain ⟨x, hx, rfl⟩ := news c hc hs hn
        rw [map₂Other ⟨_, _⟩ fun mem => ?_]
        · exact (atNew x (style₂.newState x hx)).trans (Structure.joint_new m s' x).symm
        · have := (style₁.state _ mem).notNew
          rw [newActionConst, isNew_actionNewName] at this
          contradiction
      | false =>
        exact (atState c ⟨hn, hs⟩).trans (Structure.joint_state hn).symm
  · refine (Clauses.sat_congr fun c hc => ?_).mpr ax
    exact atState c (axState c (Clauses.mem_symbols_usingSymbols hc))

end Followed

/-- Clauses that some structure satisfies are not false after the renaming either. -/
theorem not_isFalse_renameDistinct {D : Domain} {N : Structure D} {c₁ c₂ : Clauses}
    (global : ∀ c ∈ c₁.symbols, c ∈ c₂.symbols → isGlobalSkolem c.name = false)
    (sat : c₁.Sat N) : (c₁.renameDistinct c₂).isFalse = false := by
  obtain ⟨N', -, -, same⟩ := Clauses.exists_joined c₁ c₂ N N N (fun _ _ _ => rfl) (fun _ _ _ => rfl) global
  by_contra h
  exact Clauses.not_sat_of_isFalse (by simpa using h)
    ((Clauses.sat_renameDistinct c₁ c₂).mpr ((Clauses.sat_congr same).mpr sat))

/-- The fresh names avoid all symbols of a conjunction that is not false. -/
theorem midRenaming_not_mem {u₁ u₂ : Update} {x : Const} (hx : x ∈ mid u₁ u₂)
    (first : u₁.tr.isFalse = false) (second : (u₂.tr.renameDistinct u₁.tr).isFalse = false) :
    (midRenaming u₁ u₂).const x ∉ u₁.tr.symbols ∧
      (midRenaming u₁ u₂).const x ∉ (u₂.tr.renameDistinct u₁.tr).symbols := by
  have fresh := (midRenaming_fresh u₁ u₂).fresh x hx
  have both : ∀ a ∈ [u₁.tr, u₂.tr.renameDistinct u₁.tr], a.isFalse = false := by
    simp [first, second]
  have unused : ∀ a ∈ [u₁.tr, u₂.tr.renameDistinct u₁.tr],
      (midRenaming u₁ u₂).const x ∉ a.symbols := by
    intro a ha mem
    have := Clauses.mem_symbols_and_of_not_false both ha mem
    refine fresh ?_
    exact List.mem_append_left _ (List.mem_append_left _ (List.mem_map_of_mem (f := Const.name) this))
  exact ⟨unused _ (by simp), unused _ (by simp)⟩

section Composition

variable {D : Domain} {u₁ u₂ : Update} {axioms : Clauses} (style₁ : u₁.ActionStyle)
  (style₂ : u₂.ActionStyle) (axState : ∀ c ∈ axioms.symbols, c.State) {s s' : Structure D}

include style₁ style₂ in
theorem mem_modified_compose {c : Const} :
    c ∈ (u₁.compose axioms u₂).modified ↔ c ∈ u₁.modified ∨ c ∈ u₂.modified := by
  simp [compose, style₁.notAll, style₂.notAll, mem_updatedJoin]

include style₁ style₂ axState in
theorem compose_step_iff
    (global : ∀ c ∈ u₂.tr.symbols, c ∈ u₁.tr.symbols → isGlobalSkolem c.name = false) :
    (u₁.compose axioms u₂).Step s s' ↔ ∃ m : Structure D, u₁.Step s m ∧ u₂.Step m s' ∧
      (axioms.usingSymbols (mid u₁ u₂)).Sat m := by
  constructor
  · rintro ⟨frame, J, agree, sat⟩
    obtain ⟨m, frame₁, kept, first, second, ax⟩ :=
      followed_split style₁ style₂ style₂.tr agree sat
    refine ⟨m, ⟨frame₁, first⟩, ⟨fun c state hc => ?_, second⟩, ax⟩
    by_cases hc' : c ∈ u₁.modified
    · exact kept c hc' hc
    · have unmodified : c ∉ (u₁.compose axioms u₂).modified := by
        rw [mem_modified_compose style₁ style₂]
        exact not_or.mpr ⟨hc', hc⟩
      exact (frame₁ c state hc').symm.trans (frame c state unmodified)
  · rintro ⟨m, ⟨frame₁, first⟩, ⟨frame₂, second⟩, ax⟩
    refine ⟨fun c state hc => ?_, ?_⟩
    · rw [mem_modified_compose style₁ style₂, not_or] at hc
      exact (frame₁ c state hc.1).trans (frame₂ c state hc.2)
    · have fresh : MidFresh u₁ u₂ u₂.tr := by
        intro x hx
        obtain ⟨N₁, -, sat₁⟩ := first
        obtain ⟨N₂, -, sat₂⟩ := second
        refine midRenaming_not_mem hx ?_ (not_isFalse_renameDistinct global sat₂)
        by_contra h
        exact Clauses.not_sat_of_isFalse (by simpa using h) sat₁
      exact followed_join style₁ style₂ style₂.tr fresh axState global frame₁
        (fun c hc hc' => frame₂ c (style₁.state c hc) hc') first second ax

include style₁ style₂ axState in
theorem compose_fails_iff
    (global : ∀ c ∈ u₂.pre.symbols, c ∈ u₁.tr.symbols → isGlobalSkolem c.name = false)
    (fresh : (u₂.tr.renameDistinct u₁.tr).isFalse = true →
      ∀ x ∈ mid u₁ u₂, (midRenaming u₁ u₂).const x ∉ u₁.tr.symbols)
    (merge : let args := Clauses.nonFalse [framed u₁ u₂ axioms u₁.pre, followed u₁ axioms u₂ u₂.pre]
      2 ≤ args.length → Clauses.Mergeable args) :
    (u₁.compose axioms u₂).Fails s ↔ u₁.Fails s ∨ ∃ m : Structure D, u₁.Step s m ∧ u₂.Fails m ∧
      (axioms.usingSymbols (mid u₁ u₂)).Sat m := by
  have disjunction : (u₁.compose axioms u₂).Fails s ↔
      (∃ s' : Structure D, (framed u₁ u₂ axioms u₁.pre).SatSkolem (s.joint s')) ∨
        ∃ s' : Structure D, (followed u₁ axioms u₂ u₂.pre).SatSkolem (s.joint s') := by
    simp only [Fails, compose, Clauses.satSkolem_or merge, List.mem_cons, List.not_mem_nil,
      or_false, exists_eq_or_imp, exists_eq_left, exists_or]
  rw [disjunction, framed_fails_iff axioms style₁ style₂]
  refine or_congr_right ?_
  constructor
  · rintro ⟨s', J, agree, sat⟩
    obtain ⟨m, frame₁, -, first, second, ax⟩ := followed_split style₁ style₂ style₂.pre agree sat
    exact ⟨m, ⟨frame₁, first⟩, ⟨s', second⟩, ax⟩
  · rintro ⟨m, ⟨frame₁, first⟩, ⟨s'', second⟩, ax⟩
    -- what only the first update modifies has its intermediate value in the end
    let s' : Structure D := .patch {c | c ∈ u₂.modified} s'' m
    have second' : u₂.pre.SatSkolem (m.joint s') := by
      refine (Clauses.satSkolem_congr fun c hc hs => ?_).mpr second
      cases hn : isNew c.name with
      | true =>
        obtain ⟨x, hx, rfl⟩ := style₂.pre c hc hs hn
        show m.joint s' (actionNewName x.name) x.sort = m.joint s'' (actionNewName x.name) x.sort
        rw [Structure.joint_new, Structure.joint_new]
        exact Structure.patch_mem (S := {c | c ∈ u₂.modified}) hx
      | false => exact (Structure.joint_state hn).trans (Structure.joint_state hn).symm
    have midFresh : MidFresh u₁ u₂ u₂.pre := by
      intro x hx
      constructor
      · cases h : (u₂.tr.renameDistinct u₁.tr).isFalse with
        | true => exact fresh h x hx
        | false =>
          obtain ⟨N₁, -, sat₁⟩ := first
          refine (midRenaming_not_mem hx ?_ h).1
          by_contra h'
          exact Clauses.not_sat_of_isFalse (by simpa using h') sat₁
      · intro mem
        exact (midRenaming_fresh u₁ u₂).fresh x hx
          (List.mem_append_right _ (List.mem_map_of_mem (f := Const.name) mem))
    exact ⟨s', followed_join style₁ style₂ style₂.pre midFresh axState global frame₁
      (fun c _ hc' => (Structure.patch_not_mem hc').symm) first second' ax⟩

end Composition

/-- `ComposeUpdates` is relational composition of action-style updates that share no
global skolem. The failing states need the disjunction of the two preconditions to
be mergeable, and fresh names outside a transition relation that is followed by
a false one. -/
theorem compose_is_composition {u₁ u₂ : Update} {axioms : Clauses} (style₁ : u₁.ActionStyle)
    (style₂ : u₂.ActionStyle) (axState : ∀ c ∈ axioms.symbols, c.State)
    (global : ∀ c ∈ u₁.tr.symbols, c ∈ u₂.tr.symbols ∨ c ∈ u₂.pre.symbols →
      isGlobalSkolem c.name = false)
    (fresh : (u₂.tr.renameDistinct u₁.tr).isFalse = true →
      ∀ x ∈ mid u₁ u₂, (midRenaming u₁ u₂).const x ∉ u₁.tr.symbols)
    (merge : let args := Clauses.nonFalse [framed u₁ u₂ axioms u₁.pre, followed u₁ axioms u₂ u₂.pre]
      2 ≤ args.length → Clauses.Mergeable args) (D : Domain) (s : Structure D) :
    (∀ s', (u₁.compose axioms u₂).Step s s' ↔ ∃ m, u₁.Step s m ∧ u₂.Step m s' ∧
        (axioms.usingSymbols (mid u₁ u₂)).Sat m) ∧
      ((u₁.compose axioms u₂).Fails s ↔ u₁.Fails s ∨ ∃ m, u₁.Step s m ∧ u₂.Fails m ∧
        (axioms.usingSymbols (mid u₁ u₂)).Sat m) :=
  ⟨fun _ => compose_step_iff style₁ style₂ axState fun c hc hc' => global c hc' (.inl hc),
    compose_fails_iff style₁ style₂ axState (fun c hc hc' => global c hc' (.inr hc)) fresh merge⟩

/-- `x := a`, which fails where `p` is true. -/
def assignA : Update :=
  ⟨[boolConst "x"], false, .new [] [boolDef "new_x" "a"], .new [.const (boolConst "p")] []⟩

/-- `x := x`, which fails where `x` is true. -/
def assignX : Update :=
  ⟨[boolConst "x"], false, .new [] [boolDef "new_x" "x"], .new [.const (boolConst "x")] []⟩

theorem assignA_style : assignA.ActionStyle := by
  have state : ∀ c ∈ assignA.modified, c.State := by
    simp only [assignA, List.forall_mem_singleton]
    exact ⟨by decide, by decide⟩
  exact ⟨⟨state, by decide, by unfold NewOnly; decide⟩, rfl, by unfold NewOnly; decide⟩

theorem assignX_style : assignX.ActionStyle := by
  have state : ∀ c ∈ assignX.modified, c.State := by
    simp only [assignX, List.forall_mem_singleton]
    exact ⟨by decide, by decide⟩
  exact ⟨⟨state, by decide, by unfold NewOnly; decide⟩, rfl, by unfold NewOnly; decide⟩

theorem compose_is_composition_assign :
    (assignA.compose .tru assignX).Fails (.ofNames ["a"]) ↔ assignA.Fails (.ofNames ["a"]) ∨
      ∃ m, assignA.Step (.ofNames ["a"]) m ∧ assignX.Fails m ∧
        (Clauses.tru.usingSymbols (mid assignA assignX)).Sat m := by
  refine (compose_is_composition assignA_style assignX_style (by simp [Clauses.tru]) (by decide)
    (by decide)
    (fun _ => ?_) Domain.unit (.ofNames ["a"])).2
  have args : Clauses.nonFalse [framed assignA assignX .tru assignA.pre,
      followed assignA .tru assignX assignX.pre] = [⟨[.const (boolConst "p")], []⟩,
        ⟨[.const (boolConst "__m_x")], [boolDef "__m_x" "a"]⟩] := by decide
  have skolems : Clauses.toRename [⟨[.const (boolConst "p")], []⟩,
      ⟨[.const (boolConst "__m_x")], [boolDef "__m_x" "a"]⟩] = [boolConst "__m_x"] := by decide
  have allCaptured : ∀ e : Definition, e ∈ [boolDef "__m_x" "a"] →
      e.defines ∈ Clauses.captured [⟨[.const (boolConst "p")], []⟩,
        ⟨[.const (boolConst "__m_x")], [boolDef "__m_x" "a"]⟩] := by decide
  simp only [args]
  refine ⟨⟨?_, by decide, ?_, ?_⟩, ?_⟩
  · simp [boolDef, Definition.defines]
  · intro last hlast e he free
    cases hlast
    exact absurd (allCaptured e he) free
  · rw [skolems]
    intro a ha D M
    -- the fresh symbol gets the value of `a`
    refine ⟨.patch {boolConst "__m_x"} (fun _ => M "a") M, fun c hc => ?_, ?_⟩
    · exact (Structure.patch_not_mem (by simpa using hc)).symm
    · simp only [List.mem_cons, List.not_mem_nil, or_false] at ha
      obtain rfl | rfl := ha
      · simp
      · rintro d hd -
        obtain rfl := List.mem_singleton.mp hd
        refine valid_symInst_eq (n := "__m_x") (m := "a") (s := .first .boolean) |>.mpr ?_
        have fresh := Structure.patch_mem (S := {boolConst "__m_x"}) (N := fun _ => M "a")
          (M := M) (Set.mem_singleton (boolConst "__m_x"))
        have kept := Structure.patch_not_mem (S := {boolConst "__m_x"}) (N := fun _ => M "a")
          (M := M) (c := boolConst "a") (by decide)
        exact Eq.trans fresh (Eq.symm kept)
  · intro last hlast e he free
    cases hlast
    exact absurd (allCaptured e he) free

/-- An update that only assumes a global skolem, and one that assumes its negation. -/
def assumeGlobal : Update := ⟨[], false, .new [.const (boolConst "__X")] [], .fls⟩

def assumeNotGlobal : Update := ⟨[], false, .new [.not (.const (boolConst "__X"))] [], .fls⟩

/-- Both updates leave every state as it is, but they cannot follow each other. -/
theorem compose_shares_global : ¬ ((assumeGlobal.compose .tru assumeNotGlobal).Step
      (.ofNames []) (.ofNames []) ↔ ∃ m, assumeGlobal.Step (.ofNames []) m ∧
        assumeNotGlobal.Step m (.ofNames []) ∧
        (Clauses.tru.usingSymbols (mid assumeGlobal assumeNotGlobal)).Sat m) := by
  have composed : (assumeGlobal.compose .tru assumeNotGlobal).tr =
      ⟨[.const (boolConst "__X"), .not (.const (boolConst "__X"))], []⟩ := by decide
  intro same
  obtain ⟨-, N, -, sat⟩ := same.mpr ⟨.ofNames [],
    ⟨fun _ _ _ => rfl, .ofNames ["__X"], by
      rw [joint_ofNames]
      exact agreeOff_ofNames (by decide), by
      simp [assumeGlobal, Clauses.sat_new, Expr.Valid, Expr.holds_ofNames]⟩,
    ⟨fun _ _ _ => rfl, .ofNames [], by
      rw [joint_ofNames]
      exact agreeOff_ofNames (by decide), by
      simp [assumeNotGlobal, Clauses.sat_new, Expr.Valid, Expr.holds_ofNames]⟩,
    by simp [Clauses.usingSymbols, mid, assumeGlobal, Clauses.sat_new]⟩
  rw [composed] at sat
  have first := sat.1 (.const (boolConst "__X")) (by simp) (Classical.arbitrary _)
  have second := sat.1 (.not (.const (boolConst "__X"))) (by simp) (Classical.arbitrary _)
  exact (Expr.holds_not N _ _).mp second first

end Update

end Goivy
