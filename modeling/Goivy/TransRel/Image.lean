import Goivy.TransRel.Compose

/-! Forward and reverse images of state formulas through an update. -/
namespace Goivy

namespace Clauses

theorem existQuant_fresh (syms : List Const) (cl : Clauses) :
    FreshRenaming "__" cl.usedSymbolNames syms (cl.existQuant syms).1 := by
  unfold existQuant
  split
  · rename_i h
    rw [List.isEmpty_iff.mp h]
    exact ⟨fun _ _ => rfl, by simp, by simp, by simp⟩
  · exact UniqueRenamer.renameSymbols_fresh ⟨"__", cl.usedSymbolNames⟩ syms

theorem sat_existQuant {D : Domain} {M : Structure D} (syms : List Const) (cl : Clauses) :
    (cl.existQuant syms).2.Sat M ↔ cl.Sat (M.comap (cl.existQuant syms).1) := by
  unfold existQuant
  split
  · exact sat_congr fun _ _ => rfl
  · exact sat_rename

/-- Clauses over the symbols of a state and skolems. -/
def StateOnly (cl : Clauses) : Prop := ∀ c ∈ cl.symbols, isSkolem c.name = false → isNew c.name = false

theorem usingSymbols_none {syms : List Const} {cl : Clauses} (h : ∀ c ∈ syms, c ∉ cl.symbols) :
    cl.usingSymbols syms = ⟨[], []⟩ := by
  have fmlas : cl.fmlas.filter (fun f => syms.any (· ∈ f.symbols)) = [] := by
    simp only [List.filter_eq_nil_iff, List.any_eq_true, decide_eq_true_eq, not_exists, not_and]
    exact fun f hf c hc hcf => h c hc (List.mem_append_left _ (List.mem_flatMap.mpr ⟨f, hf, hcf⟩))
  have defs : cl.defs.filter (fun d => syms.any (· ∈ d.symbols)) = [] := by
    simp only [List.filter_eq_nil_iff, List.any_eq_true, decide_eq_true_eq, not_exists, not_and]
    exact fun d hd c hc hcd => h c hc (List.mem_append_right _ (List.mem_flatMap.mpr ⟨d, hd, hcd⟩))
  unfold usingSymbols
  split
  · rfl
  · rw [fmlas, defs]
    rfl

theorem renameDistinct_none (cl : Clauses) : (⟨[], []⟩ : Clauses).renameDistinct cl = ⟨[], []⟩ :=
  if_pos (by decide)

theorem sat_conjoin_none {D : Domain} {M : Structure D} {cl : Clauses} :
    (cl.conjoin ⟨[], []⟩).Sat M ↔ cl.Sat M := by
  rw [conjoin, sat_and, renameDistinct_none]
  simp [Sat]

theorem mem_symbols_conjoin_none {cl : Clauses} {c : Const} (h : c ∈ (cl.conjoin ⟨[], []⟩).symbols) :
    c ∈ cl.symbols := by
  obtain ⟨a, ha, hc⟩ := mem_symbols_and h
  rw [renameDistinct_none] at ha
  simp only [List.mem_cons, List.not_mem_nil, or_false] at ha
  obtain rfl | rfl := ha
  · exact hc
  · simp [symbols] at hc

end Clauses

namespace Update

/-- The map of `ForwardImage` back to the unprimed symbols. -/
def unprime (updated : List Const) : Renaming := updated.map (fun s => (newActionConst s, s.name))

/-- The map of `ReverseImage` to the `new_` symbols. -/
def prime (updated : List Const) : Renaming := updated.map (fun s => (s, actionNewName s.name))

/-- The pre-state, the axioms about what changes, and the transition relation. -/
def forwardClauses (preState axioms : Clauses) (u : Update) : Clauses :=
  (preState.conjoin (axioms.usingSymbols u.modified)).conjoin u.tr

/-- `ForwardImageMap`. -/
def forwardImageMap (preState axioms : Clauses) (u : Update) : Renaming × Clauses :=
  let (eqMap, quantified) := (forwardClauses preState axioms u).existQuant u.modified
  (eqMap, quantified.rename (unprime u.modified))

/-- `ForwardImage`. -/
def forwardImage (preState axioms : Clauses) (u : Update) : Clauses :=
  (forwardImageMap preState axioms u).2

/-- The transition relation, and the post-state over the `new_` symbols. -/
def reverseClauses (postState axioms : Clauses) (u : Update) : Clauses :=
  u.tr.conjoin ((postState.conjoin (axioms.usingSymbols u.modified)).rename (prime u.modified))

/-- `ReverseImage`. -/
def reverseImage (postState axioms : Clauses) (u : Update) : Clauses :=
  ((reverseClauses postState axioms u).existQuant (u.modified.map newActionConst)).2

theorem newActionConst_injective : Function.Injective newActionConst := by
  intro a b h
  have names := actionNewName_injective (congrArg Const.name h)
  exact congrArg₂ Const.mk names (congrArg (fun c => c.sort) h)

section Renamings

variable {updated : List Const}

theorem prime_mem {c : Const} (h : c ∈ updated) : (prime updated).name c = actionNewName c.name := by
  rw [Renaming.name, prime, lookup_map_self, if_pos h]
  rfl

theorem prime_off {c : Const} (h : c ∉ updated) : (prime updated).name c = c.name := by
  rw [Renaming.name, prime, lookup_map_self, if_neg h]
  rfl

theorem unprime_mem {c : Const} (h : c ∈ updated) : (unprime updated).name (newActionConst c) = c.name := by
  have lookup : (unprime updated).lookup (newActionConst c) = some c.name := by
    induction updated with
    | nil => simp at h
    | cons d ds ih =>
      rw [unprime, List.map_cons, InsMap.lookup_cons]
      by_cases same : c = d
      · rw [same, if_pos rfl]
      · rw [if_neg fun eq => same (newActionConst_injective eq)]
        exact ih ((List.mem_cons.mp h).resolve_left same)
  rw [Renaming.name, lookup]
  rfl

theorem unprime_off {c : Const} (h : ∀ x ∈ updated, c ≠ newActionConst x) :
    (unprime updated).name c = c.name := by
  have : (unprime updated).lookup c = none := by
    rw [Renaming.lookup_eq_none]
    simpa [unprime, eq_comm] using h
  rw [Renaming.name, this]
  rfl

end Renamings

section Images

variable {D : Domain} {u : Update} {axioms cl : Clauses} {M s s' : Structure D}
  (style : u.TransitionStyle)

include style in
theorem newActionConst_not_modified (x : Const) : newActionConst x ∉ u.modified := by
  intro mem
  have := (style.state _ mem).notNew
  rw [newActionConst, isNew_actionNewName] at this
  contradiction

theorem forwardImageMap_fresh (preState axioms : Clauses) (u : Update) :
    FreshRenaming "__" (forwardClauses preState axioms u).usedSymbolNames u.modified
      (forwardImageMap preState axioms u).1 :=
  Clauses.existQuant_fresh u.modified (forwardClauses preState axioms u)

include style in
/-- The image keeps what the quantifier makes of the symbols of a state. -/
theorem unprime_forwardImageMap {preState : Clauses} {c : Const}
    (old : isSkolem c.name = false → isNew c.name = false) :
    (unprime u.modified).name ((forwardImageMap preState axioms u).1.const c) =
      (forwardImageMap preState axioms u).1.name c := by
  have fresh := forwardImageMap_fresh preState axioms u
  refine unprime_off fun x hx same => ?_
  have name : (forwardImageMap preState axioms u).1.name c = actionNewName x.name :=
    congrArg Const.name same
  by_cases hc : c ∈ u.modified
  · have skolem := (fresh.basedOn c hc).isSkolem (isSkolem_append_right (by decide) c.name)
    rw [name, style.newState x hx] at skolem
    contradiction
  · rw [fresh.off c hc] at name
    have := old (by rw [name, style.newState x hx])
    rw [name, isNew_actionNewName] at this
    contradiction

include style in
theorem unprime_forwardImageMap_new {preState : Clauses} {x : Const} (hx : x ∈ u.modified) :
    (unprime u.modified).name ((forwardImageMap preState axioms u).1.const (newActionConst x)) =
      x.name := by
  rw [Renaming.const_eq_self ((forwardImageMap_fresh preState axioms u).off _
    (newActionConst_not_modified style x)), unprime_mem hx]

include style in
/-- A structure of the forward image is reached from the one that reads every symbol
through the recorded map. -/
theorem forwardImage_step {preState : Clauses} (state : preState.StateOnly)
    (sat : (forwardImage preState axioms u).Sat M) :
    let s := M.comap (forwardImageMap preState axioms u).1
    preState.Sat s ∧ u.Step s M := by
  intro s
  have quantified := (Clauses.sat_existQuant u.modified (forwardClauses preState axioms u)).mp
    (Clauses.sat_rename.mp sat)
  obtain ⟨pre, N, agree, tr⟩ := Clauses.of_sat_conjoin quantified
  have old : ∀ c : Const, (isSkolem c.name = false → isNew c.name = false) →
      SameAt ((M.comap (unprime u.modified)).comap (forwardImageMap preState axioms u).1) s c :=
    fun c hc => congrArg (M · c.sort) (unprime_forwardImageMap style hc)
  refine ⟨(Clauses.sat_congr fun c hc => old c (state c hc)).mp (Clauses.of_sat_conjoin pre).1,
    fun c _ hc => ?_, (Clauses.satSkolem_congr fun c hc hs => ?_).mp ⟨N, agree, tr⟩⟩
  · exact congrArg (M · c.sort) ((forwardImageMap_fresh preState axioms u).off c hc)
  · cases hn : isNew c.name with
    | true =>
      obtain ⟨x, hx, rfl⟩ := style.tr c hc hs hn
      refine (congrArg (M · x.sort) (unprime_forwardImageMap_new style hx)).trans ?_
      exact (Structure.joint_new s M x).symm
    | false => exact (old c fun _ => hn).trans (Structure.joint_state hn).symm

include style in
/-- The transitions into a state do not depend on the skolems of that state. -/
theorem step_congr (agree : AgreeOff Const.Skolem s' M) : u.Step s s' ↔ u.Step s M := by
  refine and_congr (forall₃_congr fun c state _ => ?_) (Clauses.satSkolem_congr fun c hc hs => ?_)
  · have same : SameAt s' M c := agree c (by simp [Const.Skolem, state.notSkolem])
    exact ⟨fun h => h.trans same, fun h => h.trans same.symm⟩
  · cases hn : isNew c.name with
    | true =>
      obtain ⟨x, hx, rfl⟩ := style.tr c hc hs hn
      refine (Structure.joint_new s s' x).trans (Eq.trans ?_ (Structure.joint_new s M x).symm)
      exact agree x (by simp [Const.Skolem, (style.state x hx).notSkolem])
    | false => exact (Structure.joint_state hn).trans (Structure.joint_state hn).symm

include style in
/-- A transition from a state of the first clauses gives a structure of the forward image. -/
theorem satSkolem_forwardImage {preState : Clauses}
    (foreign : ∀ c ∈ u.modified, c ∉ axioms.symbols) (state : preState.StateOnly)
    (global : ∀ c ∈ preState.symbols, c ∈ u.tr.symbols → isGlobalSkolem c.name = false)
    (pre : preState.SatSkolem s) (step : u.Step s s') :
    (forwardImage preState axioms u).SatSkolem s' := by
  have fresh := forwardImageMap_fresh preState axioms u
  have none := Clauses.usingSymbols_none foreign
  -- one structure for the pre-state and the transition relation
  obtain ⟨K, agree, sat⟩ : (forwardClauses preState axioms u).SatSkolem (s.joint s') := by
    rw [forwardClauses, none]
    refine (Clauses.satSkolem_conjoin fun c hc => global c (Clauses.mem_symbols_conjoin_none hc)).mpr
      ⟨?_, step.2⟩
    obtain ⟨N, agree, sat⟩ := (Clauses.satSkolem_congr (N := s.joint s') fun c hc hs =>
      (Structure.joint_state (state c hc hs)).symm).mp pre
    exact ⟨N, agree, Clauses.sat_conjoin_none.mpr sat⟩
  have joint : ∀ c : Const, isSkolem c.name = false → SameAt K (s.joint s') c :=
    fun c hc => (agree c (by simp [Const.Skolem, hc])).symm
  -- the old values go to the fresh symbols
  let N := Structure.push (forwardImageMap preState axioms u).1 {c | c ∈ u.modified} K
    (.patch {c | isSkolem c.name = true} K s')
  have skolem : ∀ x ∈ u.modified,
      isSkolem ((forwardImageMap preState axioms u).1.name x) = true := fun x hx =>
    (fresh.basedOn x hx).isSkolem (isSkolem_append_right (by decide) x.name)
  have offSkolem : ∀ c : Const, isSkolem c.name = false → SameAt N s' c := by
    intro c hc
    refine SameAt.trans (Structure.push_off fun x hx image => ?_)
      (Structure.patch_not_mem (by simp [hc]))
    have := skolem x hx
    rw [show (forwardImageMap preState axioms u).1.name x = c.name from congrArg Const.name image,
      hc] at this
    contradiction
  refine ⟨N, fun c hc => (offSkolem c (by simpa [Const.Skolem] using hc)).symm, ?_⟩
  refine Clauses.sat_rename.mpr ((Clauses.sat_existQuant _ _).mpr
    ((Clauses.sat_congr fun c hc => ?_).mpr sat))
  show N ((unprime u.modified).name ((forwardImageMap preState axioms u).1.const c)) c.sort =
    K c.name c.sort
  by_cases old : isSkolem c.name = false → isNew c.name = false
  · rw [unprime_forwardImageMap style old]
    by_cases mem : c ∈ u.modified
    · exact Structure.push_image
        (fun d hd same => fresh.distinct c mem d hd (congrArg Const.name same)) mem
    · rw [fresh.off c mem]
      cases hs : isSkolem c.name with
      | true =>
        refine Eq.trans (Structure.push_off fun x hx image => ?_) (Structure.patch_mem hs)
        refine fresh.fresh x hx ?_
        rw [show (forwardImageMap preState axioms u).1.name x = c.name from
          congrArg Const.name image]
        exact List.mem_map_of_mem hc
      | false =>
        have symbol : c.State := ⟨old hs, hs⟩
        exact (offSkolem c hs).trans ((step.1 c symbol mem).symm.trans
          ((joint c hs).trans (Structure.joint_state symbol.notNew)).symm)
  · simp only [Classical.not_imp, Bool.not_eq_false] at old
    obtain ⟨hs, hn⟩ := old
    obtain ⟨x, hx, rfl⟩ : ∃ x ∈ u.modified, c = newActionConst x := by
      obtain hpre | htr := Clauses.mem_symbols_conjoin hc hs
      · rw [none] at hpre
        have := state c (Clauses.mem_symbols_conjoin_none hpre) hs
        rw [hn] at this
        contradiction
      · exact style.tr c htr hs hn
    refine (congrArg (N · x.sort) (unprime_forwardImageMap_new style hx)).trans ?_
    refine Eq.trans (offSkolem x (style.state x hx).notSkolem) ?_
    exact (Structure.joint_new s s' x).symm.trans (joint (newActionConst x) hs).symm

include style in
theorem isSkolem_prime {c : Const} (hs : isSkolem c.name = false) :
    isSkolem ((prime u.modified).name c) = false := by
  by_cases h : c ∈ u.modified
  · rw [prime_mem h]
    exact style.newState c h
  · rwa [prime_off h]

include style in
/-- A structure of the reverse image is a state with a transition to one of the
post-state's clauses. -/
theorem of_satSkolem_reverseImage {postState : Clauses}
    (sat : (reverseImage postState axioms u).SatSkolem s) :
    ∃ s' : Structure D, u.Step s s' ∧ postState.SatSkolem s' := by
  obtain ⟨N, agree, sat⟩ := sat
  let eqMap := ((reverseClauses postState axioms u).existQuant (u.modified.map newActionConst)).1
  have fresh := Clauses.existQuant_fresh (u.modified.map newActionConst)
    (reverseClauses postState axioms u)
  have quantified := (Clauses.sat_existQuant _ _).mp sat
  obtain ⟨tr, K, agreeK, post⟩ := Clauses.of_sat_conjoin quantified
  have symbol : ∀ c : Const, isSkolem c.name = false → isNew c.name = false →
      SameAt (N.comap eqMap) s c := by
    intro c hs hn
    have off : c ∉ u.modified.map newActionConst := by
      intro mem
      obtain ⟨x, -, rfl⟩ := List.mem_map.mp mem
      rw [newActionConst, isNew_actionNewName] at hn
      contradiction
    exact (congrArg (N · c.sort) (fresh.off c off)).trans (agree c (by simp [Const.Skolem, hs])).symm
  refine ⟨(N.comap eqMap).comap (prime u.modified), ⟨fun c hc mem => ?_,
    Clauses.satSkolem_iff.mpr ⟨N.comap eqMap, fun c hc hs => ?_, tr⟩⟩,
    Clauses.satSkolem_iff.mpr ⟨K.comap (prime u.modified), fun c hc hs => ?_, ?_⟩⟩
  · exact (symbol c hc.notSkolem hc.notNew).symm.trans
      (congrArg (N.comap eqMap · c.sort) (prime_off mem)).symm
  · cases hn : isNew c.name with
    | true =>
      obtain ⟨x, hx, rfl⟩ := style.tr c hc hs hn
      refine (Structure.joint_new s _ x).trans ?_
      exact congrArg (N.comap eqMap · x.sort) (prime_mem hx)
    | false => exact (Structure.joint_state hn).trans (symbol c hs hn).symm
  · refine agreeK ((prime u.modified).const c) ?_
    simpa [Const.Skolem, Renaming.const] using isSkolem_prime style hs
  · exact (Clauses.of_sat_conjoin (Clauses.sat_rename.mp post)).1

include style in
/-- A transition to a state of the second clauses gives a structure of the reverse image. -/
theorem satSkolem_reverseImage {postState : Clauses}
    (foreign : ∀ c ∈ u.modified, c ∉ axioms.symbols) (state : postState.StateOnly)
    (global : ∀ c ∈ postState.symbols, c ∈ u.tr.symbols → isGlobalSkolem c.name = false)
    (step : u.Step s s') (post : postState.SatSkolem s') :
    (reverseImage postState axioms u).SatSkolem s := by
  have none := Clauses.usingSymbols_none foreign
  let postClauses := (postState.conjoin ⟨[], []⟩).rename (prime u.modified)
  have postSymbols : ∀ c ∈ postClauses.symbols,
      ∃ d ∈ postState.symbols, (prime u.modified).const d = c := by
    intro c hc
    rw [Clauses.symbols_rename, List.mem_map] at hc
    obtain ⟨d, hd, same⟩ := hc
    exact ⟨d, Clauses.mem_symbols_conjoin_none hd, same⟩
  have globals : ∀ c ∈ u.tr.symbols, c ∈ postClauses.symbols → isGlobalSkolem c.name = false := by
    intro c htr hpost
    obtain ⟨d, hd, rfl⟩ := postSymbols c hpost
    by_cases mem : d ∈ u.modified
    · by_contra h
      have := isSkolem_of_isGlobalSkolem (by simpa using h)
      rw [Renaming.const, prime_mem mem, style.newState d mem] at this
      contradiction
    · rw [Renaming.const_eq_self (prime_off mem)] at htr ⊢
      exact global d hd htr
  -- the post-state's clauses over the `new_` symbols
  have primed : postClauses.SatSkolem (s.joint s') := by
    obtain ⟨W, agree, sat⟩ := post
    let W' := Structure.patch {c | isSkolem c.name = true} W (s.joint s')
    refine ⟨W', fun c hc => (Structure.patch_not_mem hc).symm, Clauses.sat_rename.mpr
      (Clauses.sat_conjoin_none.mpr ((Clauses.sat_congr fun c hc => ?_).mpr sat))⟩
    show W' ((prime u.modified).name c) c.sort = W c.name c.sort
    have offSkolem : ∀ d : Const, isSkolem d.name = false → SameAt W' (s.joint s') d :=
      fun d hd => Structure.patch_not_mem (by simp [hd])
    by_cases mem : c ∈ u.modified
    · rw [prime_mem mem]
      refine Eq.trans (offSkolem (newActionConst c) (style.newState c mem)) ?_
      refine (Structure.joint_new s s' c).trans (agree c ?_)
      simp [Const.Skolem, (style.state c mem).notSkolem]
    · rw [prime_off mem]
      cases hs : isSkolem c.name with
      | true => exact Structure.patch_mem hs
      | false =>
        have symbol : c.State := ⟨state c hc hs, hs⟩
        exact (offSkolem c hs).trans ((Structure.joint_state symbol.notNew).trans
          ((step.1 c symbol mem).trans (agree c (by simp [Const.Skolem, hs]))))
  obtain ⟨K, agree, sat⟩ := (Clauses.satSkolem_conjoin globals).mpr ⟨step.2, primed⟩
  -- the new values go to the fresh symbols
  have fresh := Clauses.existQuant_fresh (u.modified.map newActionConst)
    (reverseClauses postState axioms u)
  let eqMap := ((reverseClauses postState axioms u).existQuant (u.modified.map newActionConst)).1
  let N := Structure.push eqMap {c | c ∈ u.modified.map newActionConst} K
    (.patch {c | isSkolem c.name = true} K s)
  have offSkolem : ∀ c : Const, isSkolem c.name = false → SameAt N s c := by
    intro c hc
    refine SameAt.trans (Structure.push_off fun x hx image => ?_)
      (Structure.patch_not_mem (by simp [hc]))
    have := (fresh.basedOn x hx).isSkolem (isSkolem_append_right (by decide) x.name)
    rw [show eqMap.name x = c.name from congrArg Const.name image, hc] at this
    contradiction
  refine ⟨N, fun c hc => (offSkolem c (by simpa [Const.Skolem] using hc)).symm,
    (Clauses.sat_existQuant _ _).mpr ((Clauses.sat_congr (N := K) fun c hc => ?_).mpr ?_)⟩
  · by_cases mem : c ∈ u.modified.map newActionConst
    · exact Structure.push_image
        (fun d hd same => fresh.distinct c mem d hd (congrArg Const.name same)) mem
    · refine Eq.trans (congrArg (N · c.sort) (fresh.off c mem)) ?_
      cases hs : isSkolem c.name with
      | true =>
        refine Eq.trans (Structure.push_off fun x hx image => fresh.fresh x hx ?_)
          (Structure.patch_mem hs)
        rw [show eqMap.name x = c.name from congrArg Const.name image]
        exact List.mem_map_of_mem hc
      | false =>
        have hn : isNew c.name = false := by
          by_contra new
          refine mem (List.mem_map.mpr ?_)
          obtain htr | hpost := Clauses.mem_symbols_conjoin hc hs
          · obtain ⟨x, hx, same⟩ := style.tr c htr hs (by simpa using new)
            exact ⟨x, hx, same.symm⟩
          · rw [none] at hpost
            obtain ⟨d, hd, rfl⟩ := postSymbols c hpost
            by_cases hmod : d ∈ u.modified
            · exact ⟨d, hmod, congrArg (Const.mk · d.sort) (prime_mem hmod).symm⟩
            · rw [Renaming.const_eq_self (prime_off hmod)] at hs new
              exact absurd (state d hd hs) new
        exact Eq.trans (offSkolem c hs) ((Structure.joint_state hn).symm.trans
          (agree c (by simp [Const.Skolem, hs])))
  · rw [reverseClauses, none]
    exact sat

end Images

/-- Images are existential quantification over the other state, of updates that share
no global skolem with the state's clauses; so they are adjoint. -/
theorem images_are_adjoint {u : Update} {axioms preState postState : Clauses}
    (style : u.TransitionStyle) (foreign : ∀ c ∈ u.modified, c ∉ axioms.symbols)
    (preOnly : preState.StateOnly) (postOnly : postState.StateOnly)
    (preGlobal : ∀ c ∈ preState.symbols, c ∈ u.tr.symbols → isGlobalSkolem c.name = false)
    (postGlobal : ∀ c ∈ postState.symbols, c ∈ u.tr.symbols → isGlobalSkolem c.name = false)
    (D : Domain) :
    (∀ s' : Structure D, (forwardImage preState axioms u).SatSkolem s' ↔
        ∃ s, preState.SatSkolem s ∧ u.Step s s') ∧
      (∀ s : Structure D, (reverseImage postState axioms u).SatSkolem s ↔
        ∃ s', u.Step s s' ∧ postState.SatSkolem s') ∧
      ((∃ s' : Structure D, (forwardImage preState axioms u).SatSkolem s' ∧ postState.SatSkolem s') ↔
        ∃ s : Structure D, preState.SatSkolem s ∧ (reverseImage postState axioms u).SatSkolem s) := by
  have forward : ∀ s' : Structure D, (forwardImage preState axioms u).SatSkolem s' ↔
      ∃ s, preState.SatSkolem s ∧ u.Step s s' := by
    intro s'
    constructor
    · rintro ⟨M, agree, sat⟩
      obtain ⟨pre, step⟩ := forwardImage_step style preOnly sat
      exact ⟨_, ⟨_, AgreeOff.refl _ _, pre⟩, (step_congr style agree).mpr step⟩
    · rintro ⟨s, pre, step⟩
      exact satSkolem_forwardImage style foreign preOnly preGlobal pre step
  have reverse : ∀ s : Structure D, (reverseImage postState axioms u).SatSkolem s ↔
      ∃ s', u.Step s s' ∧ postState.SatSkolem s' := by
    refine fun s => ⟨of_satSkolem_reverseImage style, ?_⟩
    rintro ⟨s', step, post⟩
    exact satSkolem_reverseImage style foreign postOnly postGlobal step post
  refine ⟨forward, reverse, ?_⟩
  simp only [forward, reverse]
  constructor
  · rintro ⟨s', ⟨s, pre, step⟩, post⟩
    exact ⟨s, pre, s', step, post⟩
  · rintro ⟨s, pre, s', step, post⟩
    exact ⟨s', ⟨s, pre, step⟩, post⟩

theorem images_are_adjoint_assign :
    (∃ s' : Structure Domain.unit,
        (forwardImage (.new [.const (boolConst "a")] []) .tru assignA).SatSkolem s' ∧
          (Clauses.new [.const (boolConst "x")] []).SatSkolem s') ↔
      ∃ s : Structure Domain.unit, (Clauses.new [.const (boolConst "a")] []).SatSkolem s ∧
        (reverseImage (.new [.const (boolConst "x")] []) .tru assignA).SatSkolem s :=
  (images_are_adjoint assignA_style.toTransitionStyle (by simp [Clauses.tru]) (by unfold Clauses.StateOnly; decide)
    (by unfold Clauses.StateOnly; decide) (by decide) (by decide) Domain.unit).2.2

/-- A global skolem of the state is the same constant in the transition relation. -/
theorem image_shares_global : ¬ ((forwardImage (.new [.const (boolConst "__X")] []) .tru
      assumeNotGlobal).SatSkolem (.ofNames []) ↔
    ∃ s, (Clauses.new [.const (boolConst "__X")] []).SatSkolem s ∧
      assumeNotGlobal.Step s (.ofNames [])) := by
  have image : forwardImage (.new [.const (boolConst "__X")] []) .tru assumeNotGlobal =
      ⟨[.const (boolConst "__X"), .not (.const (boolConst "__X"))], []⟩ := by decide
  intro same
  obtain ⟨N, -, sat⟩ := same.mpr ⟨.ofNames [], ⟨.ofNames ["__X"], agreeOff_ofNames (by decide), by
      simp [Clauses.sat_new, Expr.Valid, Expr.holds_ofNames]⟩,
    fun _ _ _ => rfl, .ofNames [], by
      rw [joint_ofNames]
      exact agreeOff_ofNames (by decide), by
      simp [assumeNotGlobal, Clauses.sat_new, Expr.Valid, Expr.holds_ofNames]⟩
  rw [image] at sat
  have first := sat.1 (.const (boolConst "__X")) (by simp) (Classical.arbitrary _)
  have second := sat.1 (.not (.const (boolConst "__X"))) (by simp) (Classical.arbitrary _)
  exact (Expr.holds_not N _ _).mp second first

end Update

end Goivy
