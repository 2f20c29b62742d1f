import Goivy.TransRel.Image

/-! Histories: the symbolic post-state of a run of updates, with the maps by which
the values of past times are found in a model of it. -/
namespace Goivy

/-- `ActionComposeMaps`: the first map, followed through the second one. -/
def composeMaps (m₁ m₂ : Renaming) : Renaming :=
  m₁.map (fun (k, n) => (k, m₂.name ⟨n, k.sort⟩)) ++ m₂

structure History where
  post : Clauses
  maps : List Renaming

namespace History

/-- `NewHistory`, which panics unless the update is a pure state. -/
def new (state : Update) : Option History :=
  if state.modifiedAll then some ⟨state.tr, []⟩ else none

/-- The part of the quantifier's map that `ForwardStep` records. -/
def recorded (eqMap : Renaming) (modified : List Const) : Renaming :=
  modified.filterMap (fun s => (eqMap.lookup s).map (fun n => (s, n)))

/-- `ForwardStep`. -/
def forwardStep (h : History) (axioms : Clauses) (u : Update) : History where
  post := (Update.forwardImageMap h.post axioms u).2
  maps := h.maps ++ [recorded (Update.forwardImageMap h.post axioms u).1 u.modified]

/-- `Assume`. -/
def assume (h : History) (cl : Clauses) : History :=
  { h with post := .and [h.post, cl.renameDistinct h.post] }

inductive Operation where
  | forwardStep (axioms : Clauses) (u : Update)
  | assume (cl : Clauses)

def apply (h : History) : Operation → History
  | .forwardStep axioms u => h.forwardStep axioms u
  | .assume cl => h.assume cl

def run (h : History) (ops : List Operation) : History := ops.foldl apply h

/-- The loop of `SatisfyWithCond` over the reversed maps: the renaming by which each
time is read, the last time first. -/
def renamingsBack (ρ : Renaming) : List Renaming → List Renaming
  | [] => [ρ]
  | m :: ms => ρ :: renamingsBack (composeMaps m ρ) ms

variable {D : Domain}

/-- The states that a model of the post-state embeds, from the first time on. -/
def reconstruct (M : Structure D) (maps : List Renaming) : List (Structure D) :=
  ((renamingsBack [] maps.reverse).map M.comap).reverse

/-- The states of an execution of the operations: every step is a transition, and
what is assumed holds in the state at that time. -/
inductive Execution (initial : Clauses) : List Operation → List (Structure D) → Prop
  | start {s : Structure D} : initial.Sat s → Execution initial [] [s]
  | forwardStep {ops : List Operation} {past : List (Structure D)} {s s' : Structure D}
      {axioms : Clauses} {u : Update} : Execution initial ops (past ++ [s]) → u.Step s s' →
      Execution initial (ops ++ [.forwardStep axioms u]) (past ++ [s, s'])
  | assume {ops : List Operation} {past : List (Structure D)} {s : Structure D} {cl : Clauses} :
      Execution initial ops (past ++ [s]) → cl.SatSkolem s →
      Execution initial (ops ++ [.assume cl]) (past ++ [s])

/-- Steps by updates of transition style, and formulas over the symbols of a state. -/
def Operation.WellFormed : Operation → Prop
  | .forwardStep axioms u => u.TransitionStyle ∧ axioms.StateOnly
  | .assume cl => cl.StateOnly

end History

theorem composeMaps_name (m₁ m₂ : Renaming) (c : Const) :
    (composeMaps m₁ m₂).name c = m₂.name (m₁.const c) := by
  have lookup : (m₁.map (fun (k, n) => (k, m₂.name ⟨n, k.sort⟩))).lookup c =
      (m₁.lookup c).map (fun n => m₂.name ⟨n, c.sort⟩) := by
    induction m₁ with
    | nil => rfl
    | cons p m₁ ih =>
      obtain ⟨k, n⟩ := p
      rw [List.map_cons, InsMap.lookup_cons, InsMap.lookup_cons, ih]
      by_cases same : c = k
      · simp [same]
      · simp [same]
  rw [Renaming.name, composeMaps, List.lookup_append, lookup]
  cases h : m₁.lookup c with
  | none => simp [Renaming.const, Renaming.name, h]
  | some n => simp [Renaming.const, Renaming.name, h]

theorem Structure.comap_composeMaps {D : Domain} (M : Structure D) (m₁ m₂ : Renaming) :
    M.comap (composeMaps m₁ m₂) = (M.comap m₂).comap m₁ := by
  funext n s
  simp only [comap, composeMaps_name]
  rfl

namespace History

variable {D : Domain}

theorem map_renamingsBack (M : Structure D) (ρ : Renaming) (ms : List Renaming) :
    (renamingsBack ρ ms).map M.comap = (renamingsBack [] ms).map (M.comap ρ).comap := by
  induction ms generalizing M ρ with
  | nil => rfl
  | cons m ms ih =>
    have ends : (M.comap ρ).comap [] = M.comap ρ := rfl
    simp only [renamingsBack, List.map_cons, ends]
    rw [ih M (composeMaps m ρ), ih (M.comap ρ) (composeMaps m []), Structure.comap_composeMaps,
      Structure.comap_composeMaps, ends]

/-- The last recorded map leads to the states before the last one. -/
theorem reconstruct_append (M : Structure D) (maps : List Renaming) (m : Renaming) :
    reconstruct M (maps ++ [m]) = reconstruct (M.comap m) maps ++ [M] := by
  have back := map_renamingsBack M (composeMaps m []) maps.reverse
  rw [Structure.comap_composeMaps] at back
  simp only [reconstruct, List.reverse_append, List.reverse_cons, List.reverse_nil,
    List.nil_append, List.singleton_append, renamingsBack, List.map_cons, back]
  rfl

/-- The last state is the model itself. -/
theorem reconstruct_last (M : Structure D) (maps : List Renaming) :
    ∃ past, reconstruct M maps = past ++ [M] := by
  cases h : maps.reverse with
  | nil => exact ⟨[], by rw [reconstruct, h]; rfl⟩
  | cons m ms =>
    have : maps = ms.reverse ++ [m] := by
      rw [← List.reverse_reverse maps, h, List.reverse_cons]
    exact ⟨_, this ▸ reconstruct_append M ms.reverse m⟩

theorem recorded_name {eqMap : Renaming} {modified : List Const}
    (off : ∀ c ∉ modified, eqMap.name c = c.name) (c : Const) :
    (recorded eqMap modified).name c = eqMap.name c := by
  have lookup : ∀ l : List Const, (recorded eqMap l).lookup c =
      if c ∈ l then eqMap.lookup c else none := by
    intro l
    induction l with
    | nil => rfl
    | cons d l ih =>
      cases h : eqMap.lookup d with
      | none =>
        rw [recorded, List.filterMap_cons_none (by simp [h]), ← recorded, ih]
        by_cases same : c = d
        · simp [same, h]
        · simp [same]
      | some n =>
        rw [recorded, List.filterMap_cons_some (by rw [h]; rfl), InsMap.lookup_cons, ← recorded, ih]
        by_cases same : c = d
        · simp [same, h]
        · simp [same]
  by_cases h : c ∈ modified
  · rw [Renaming.name, lookup, if_pos h]
    rfl
  · rw [Renaming.name, lookup, if_neg h, off c h]
    rfl

end History

namespace Update

variable {u : Update} {preState axioms : Clauses}

theorem mem_symbols_existQuant {syms : List Const} {cl : Clauses} {c : Const} :
    c ∈ (cl.existQuant syms).2.symbols ↔ ∃ d ∈ cl.symbols, (cl.existQuant syms).1.const d = c := by
  unfold Clauses.existQuant
  split
  · exact ⟨fun h => ⟨c, h, rfl⟩, fun ⟨d, hd, same⟩ => same ▸ hd⟩
  · rw [Clauses.symbols_rename, List.mem_map]

/-- The forward image is again over the symbols of a state. -/
theorem forwardImage_stateOnly (style : u.TransitionStyle) (state : preState.StateOnly)
    (axOnly : axioms.StateOnly) : (forwardImage preState axioms u).StateOnly := by
  intro c hc hs
  rw [forwardImage, forwardImageMap, Clauses.symbols_rename, List.mem_map] at hc
  obtain ⟨_, quantified, rfl⟩ := hc
  obtain ⟨d, hd, rfl⟩ := mem_symbols_existQuant.mp quantified
  change isSkolem ((unprime u.modified).name ((forwardImageMap preState axioms u).1.const d)) =
    false at hs
  change isNew ((unprime u.modified).name ((forwardImageMap preState axioms u).1.const d)) = false
  have fresh := forwardImageMap_fresh preState axioms u
  by_cases old : isSkolem d.name = false → isNew d.name = false
  · rw [unprime_forwardImageMap style old] at hs ⊢
    by_cases mem : d ∈ u.modified
    · have := (fresh.basedOn d mem).isSkolem (isSkolem_append_right (by decide) d.name)
      rw [hs] at this
      contradiction
    · rw [fresh.off d mem] at hs ⊢
      exact old hs
  · simp only [Classical.not_imp, Bool.not_eq_false] at old
    obtain ⟨ds, dn⟩ := old
    obtain hpre | htr := Clauses.mem_symbols_conjoin hd ds
    · obtain hst | hax := Clauses.mem_symbols_conjoin hpre ds
      · rw [state d hst ds] at dn
        contradiction
      · rw [axOnly d (Clauses.mem_symbols_usingSymbols hax) ds] at dn
        contradiction
    · obtain ⟨x, hx, rfl⟩ := style.tr d htr ds dn
      rw [unprime_forwardImageMap_new style hx]
      exact (style.state x hx).notNew

end Update

namespace History

variable {D : Domain}

theorem assume_stateOnly {h : History} {cl : Clauses} (state : h.post.StateOnly)
    (only : cl.StateOnly) : (h.assume cl).post.StateOnly := by
  intro c hc hs
  obtain hc | hc := Clauses.mem_symbols_conjoin (show c ∈ (h.post.conjoin cl).symbols from hc) hs
  · exact state c hc hs
  · exact only c hc hs

theorem run_stateOnly {h : History} (state : h.post.StateOnly) {ops : List Operation}
    (wf : ∀ op ∈ ops, op.WellFormed) : (h.run ops).post.StateOnly := by
  induction ops generalizing h with
  | nil => exact state
  | cons op ops ih =>
    refine ih ?_ fun o ho => wf o (List.mem_cons_of_mem _ ho)
    have here := wf op List.mem_cons_self
    cases op with
    | forwardStep axioms u => exact Update.forwardImage_stateOnly here.1 state here.2
    | assume cl => exact assume_stateOnly state here

theorem run_append (h : History) (ops : List Operation) (op : Operation) :
    h.run (ops ++ [op]) = (h.run ops).apply op := List.foldl_concat ..

/-- The model before a step reads every symbol of the post-state through the recorded map. -/
theorem forwardStep_model {h : History} {axioms : Clauses} {u : Update} {M : Structure D}
    (style : u.TransitionStyle) (state : h.post.StateOnly) (sat : (h.forwardStep axioms u).post.Sat M) :
    ∃ m, (h.forwardStep axioms u).maps = h.maps ++ [m] ∧
      h.post.Sat (M.comap m) ∧ u.Step (M.comap m) M := by
  have same : M.comap (recorded (Update.forwardImageMap h.post axioms u).1 u.modified) =
      M.comap (Update.forwardImageMap h.post axioms u).1 := by
    funext n s
    exact congrArg (M · s) (recorded_name (Update.forwardImageMap_fresh h.post axioms u).off ⟨n, s⟩)
  refine ⟨_, rfl, ?_⟩
  rw [same]
  exact Update.forwardImage_step style state sat

/-- Every model of the post-state of a history is an execution: the symbols at each
time are read through the composition of the maps from the end back to that time. -/
theorem reconstruct_is_execution {state : Update} {h : History} (start : new state = some h)
    (initialOnly : state.tr.StateOnly) {ops : List Operation} (wf : ∀ op ∈ ops, op.WellFormed)
    (M : Structure D) (sat : (h.run ops).post.Sat M) :
    Execution state.tr ops (reconstruct M (h.run ops).maps) := by
  obtain rfl : ⟨state.tr, []⟩ = h := by
    unfold new at start
    split at start
    · exact Option.some.inj start
    · contradiction
  induction ops using List.reverseRecOn generalizing M with
  | nil => exact .start sat
  | append_singleton ops op ih =>
    have before : ∀ o ∈ ops, o.WellFormed := fun o ho => wf o (List.mem_append_left _ ho)
    have stateOnly := run_stateOnly (h := ⟨state.tr, []⟩) initialOnly before
    have here := wf op (List.mem_append_right _ (List.mem_singleton_self op))
    rw [run_append] at sat ⊢
    cases op with
    | forwardStep axioms u =>
      obtain ⟨m, maps, pre, step⟩ := forwardStep_model here.1 stateOnly sat
      have earlier := ih before (M.comap m) pre
      obtain ⟨past, last⟩ := reconstruct_last (M.comap m) (run ⟨state.tr, []⟩ ops).maps
      rw [last] at earlier
      rw [apply, maps, reconstruct_append, last, List.append_assoc]
      exact .forwardStep earlier step
    | assume cl =>
      obtain ⟨post, assumed⟩ := Clauses.of_sat_conjoin sat
      have earlier := ih before M post
      obtain ⟨past, last⟩ := reconstruct_last M (run ⟨state.tr, []⟩ ops).maps
      rw [last] at earlier
      rw [apply, assume, last]
      exact .assume earlier assumed

/-- The state in which `x` is true, then `x := a`, then `x` is assumed. -/
def assignHistory : History := run ⟨.new [.const (boolConst "x")] [], []⟩
  [.forwardStep .tru Update.assignA, .assume (.new [.const (boolConst "x")] [])]

theorem reconstruct_is_execution_assign :
    Execution (.new [.const (boolConst "x")] [])
      [.forwardStep .tru Update.assignA, .assume (.new [.const (boolConst "x")] [])]
      (reconstruct (.ofNames ["__x", "x", "a"]) assignHistory.maps) := by
  have wf : ∀ op ∈ [Operation.forwardStep .tru Update.assignA,
      .assume (.new [.const (boolConst "x")] [])], op.WellFormed := by
    simp only [List.forall_mem_cons, List.not_mem_nil, false_imp_iff, implies_true, and_true]
    exact ⟨⟨Update.assignA_style.toTransitionStyle, by unfold Clauses.StateOnly; decide⟩,
      by unfold Operation.WellFormed Clauses.StateOnly; decide⟩
  refine reconstruct_is_execution
    (show new ⟨[], true, .new [.const (boolConst "x")] [], .fls⟩ = some _ from rfl)
    (by unfold Clauses.StateOnly; decide) wf _ ?_
  have post : assignHistory.post = ⟨[.const (boolConst "__x"), .const (boolConst "x")],
      [boolDef "x" "a"]⟩ := by decide
  have equal : (boolDef "x" "a").toConstraint =
      .iff (.const (boolConst "x")) (.const (boolConst "a")) := by decide
  show assignHistory.post.Sat _
  rw [post]
  simp [Clauses.Sat, Expr.Valid, equal, Expr.holds_ofNames]

end History

end Goivy
