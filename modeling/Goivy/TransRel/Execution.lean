import Goivy.TransRel.History
import Goivy.Util.Reachability

/-! Symbolic execution: forward images of clauses are the images of the states they
describe, and so the post-state of a history describes the ends of its executions. -/
namespace Goivy

open Reachability

/-- Every structure is a pair of states. -/
theorem Structure.joint_self {D : Domain} (M : Structure D) :
    M.joint (fun n srt => M (actionNewName n) srt) = M := by
  funext n srt
  unfold joint
  split
  · rename_i h
    show M (actionNewName (newOf n)) srt = M n srt
    rw [actionNewName_newOf h]
  · rfl

namespace Clauses

/-- No symbol is a global skolem. -/
def NoGlobal (cl : Clauses) : Prop := ∀ c ∈ cl.symbols, isGlobalSkolem c.name = false

/-- The states that clauses describe. -/
def states (D : Domain) (cl : Clauses) : Set (Structure D) := {s | cl.SatSkolem s}

variable {D : Domain} {cl : Clauses} {s s' : Structure D}

theorem mem_states : s ∈ cl.states D ↔ cl.SatSkolem s := Iff.rfl

theorem Sat.satSkolem {M : Structure D} (sat : cl.Sat M) : cl.SatSkolem M := ⟨M, AgreeOff.refl _ _, sat⟩

theorem sat_usingSymbols {syms : List Const} {M : Structure D} (sat : cl.Sat M) : (cl.usingSymbols syms).Sat M := by
  unfold usingSymbols
  split
  · simp [sat_new]
  · exact sat_new.mpr ⟨fun f hf => sat.1 f (List.mem_filter.mp hf).1, fun d hd => sat.2 d (List.mem_filter.mp hd).1⟩

/-- Skolems are no part of a state. -/
theorem mem_states_congr (agree : AgreeOff Const.Skolem s s') : s ∈ cl.states D ↔ s' ∈ cl.states D :=
  satSkolem_congr fun c _ hs => agree c (by simp [Const.Skolem, hs])

end Clauses

namespace Update

variable {D : Domain} {u : Update} {axioms preState : Clauses} {s s' : Structure D}

/-- A step from a state in which the axioms about what changes hold. -/
def StepIn (axioms : Clauses) (u : Update) (s s' : Structure D) : Prop :=
  (axioms.usingSymbols u.modified).SatSkolem s ∧ u.Step s s'

/-- An update that forward images follow exactly. -/
structure Runs (u : Update) : Prop extends u.TransitionStyle where
  noGlobal : u.tr.NoGlobal

/-- Neither the update nor the axioms mention certain symbols. -/
structure Ignores (P : Const → Prop) (axioms : Clauses) (u : Update) : Prop where
  modified : ∀ c ∈ u.modified, ¬ P c
  axioms : ∀ c ∈ axioms.symbols, ¬ P c
  tr : ∀ c ∈ u.tr.symbols, ¬ P c

/-- A step to a state with other values of such symbols comes from one with these values. -/
theorem StepIn.congr {P : Const → Prop} {t' : Structure D} (style : u.TransitionStyle)
    (ignores : u.Ignores P axioms) (step : u.StepIn axioms s s') (agree : AgreeOff P s' t') :
    ∃ t, AgreeOff P s t ∧ u.StepIn axioms t t' := by
  obtain ⟨holds, frame, tr⟩ := step
  let t := Structure.patch {c | P c} t' s
  have off : ∀ c : Const, ¬ P c → SameAt s t c := fun c hc => (Structure.patch_not_mem hc).symm
  refine ⟨t, off, (Clauses.satSkolem_congr fun c hc _ => ?_).mp holds, fun c state hc => ?_,
    (Clauses.satSkolem_congr fun c hc hs => ?_).mp tr⟩
  · exact off c (ignores.axioms c (Clauses.mem_symbols_usingSymbols hc))
  · by_cases mem : P c
    · exact Structure.patch_mem mem
    · exact (off c mem).symm.trans ((frame c state hc).trans (agree c mem))
  · cases hn : isNew c.name with
    | true =>
      obtain ⟨x, hx, rfl⟩ := style.tr c hc hs hn
      exact (Structure.joint_new s s' x).trans
        (Eq.trans (agree x (ignores.modified x hx)) (Structure.joint_new t t' x).symm)
    | false =>
      exact (Structure.joint_state hn).trans
        (Eq.trans (off c (ignores.tr c hc)) (Structure.joint_state hn).symm)

/-- The states after a path are determined off the symbols that it does not mention. -/
theorem mem_after_congr {P : Const → Prop} {cl : Clauses} {path : List Update}
    (start : ∀ c ∈ cl.symbols, ¬ P c)
    (ignores : ∀ u ∈ path, u.TransitionStyle ∧ u.Ignores P axioms) (agree : AgreeOff P s s')
    (mem : s ∈ after (StepIn axioms) (cl.states D) path) :
    s' ∈ after (StepIn axioms) (cl.states D) path := by
  refine after_congr (E := AgreeOff P) (fun r hr t same => ?_) (fun u hu r t t' step same => ?_)
    mem agree
  · exact (Clauses.satSkolem_congr fun c hc _ => same c (start c hc)).mp hr
  · exact step.congr (ignores u hu).1 (ignores u hu).2 same

section Quantified

variable {X : Clauses} (style : u.TransitionStyle)

include style in
theorem unprime_existQuant {c : Const} (old : isSkolem c.name = false → isNew c.name = false) :
    (unprime u.modified).name ((X.existQuant u.modified).1.const c) =
      (X.existQuant u.modified).1.name c := by
  have fresh := Clauses.existQuant_fresh u.modified X
  refine unprime_off fun x hx same => ?_
  have name : (X.existQuant u.modified).1.name c = actionNewName x.name := congrArg Const.name same
  by_cases hc : c ∈ u.modified
  · have skolem := (fresh.basedOn c hc).isSkolem (isSkolem_append_right (by decide) c.name)
    rw [name, style.newState x hx] at skolem
    contradiction
  · rw [fresh.off c hc] at name
    have := old (by rw [name, style.newState x hx])
    rw [name, isNew_actionNewName] at this
    contradiction

include style in
theorem unprime_existQuant_new {x : Const} (hx : x ∈ u.modified) :
    (unprime u.modified).name ((X.existQuant u.modified).1.const (newActionConst x)) = x.name := by
  rw [Renaming.const_eq_self ((Clauses.existQuant_fresh u.modified X).off _
    (newActionConst_not_modified style x)), unprime_mem hx]

include style in
/-- Quantifying the old values and unpriming the new ones leaves the states that some
state with the same unmodified symbols leads to. -/
theorem satSkolem_quantified (news : NewOnly u.modified X) :
    ((X.existQuant u.modified).2.rename (unprime u.modified)).SatSkolem s' ↔
      ∃ s, u.Frame s s' ∧ X.SatSkolem (s.joint s') := by
  have fresh := Clauses.existQuant_fresh u.modified X
  constructor
  · rintro ⟨M, agree, sat⟩
    have quantified := (Clauses.sat_existQuant u.modified X).mp (Clauses.sat_rename.mp sat)
    refine ⟨M.comap (X.existQuant u.modified).1, fun c state hc => ?_,
      Clauses.satSkolem_iff.mpr ⟨_, fun c hc hs => ?_, quantified⟩⟩
    · exact (congrArg (M · c.sort) (fresh.off c hc)).trans
        (agree c (by simp [Const.Skolem, state.notSkolem])).symm
    · cases hn : isNew c.name with
      | true =>
        obtain ⟨x, hx, rfl⟩ := news c hc hs hn
        have same : SameAt s' M x := agree x (by simp [Const.Skolem, (style.state x hx).notSkolem])
        refine (Structure.joint_new _ s' x).trans (Eq.trans same ?_)
        exact (congrArg (M · x.sort) (unprime_existQuant_new style hx)).symm
      | false =>
        exact (Structure.joint_state hn).trans
          (congrArg (M · c.sort) (unprime_existQuant style fun _ => hn)).symm
  · rintro ⟨s, frame, K, agree, sat⟩
    have joint : ∀ c : Const, isSkolem c.name = false → SameAt K (s.joint s') c :=
      fun c hc => (agree c (by simp [Const.Skolem, hc])).symm
    -- the old values go to the fresh symbols
    let N := Structure.push (X.existQuant u.modified).1 {c | c ∈ u.modified} K
      (.patch {c | isSkolem c.name = true} K s')
    have offSkolem : ∀ c : Const, isSkolem c.name = false → SameAt N s' c := by
      intro c hc
      refine SameAt.trans (Structure.push_off fun x hx image => ?_)
        (Structure.patch_not_mem (by simp [hc]))
      have := (fresh.basedOn x hx).isSkolem (isSkolem_append_right (by decide) x.name)
      rw [show (X.existQuant u.modified).1.name x = c.name from congrArg Const.name image, hc] at this
      contradiction
    refine ⟨N, fun c hc => (offSkolem c (by simpa [Const.Skolem] using hc)).symm, ?_⟩
    refine Clauses.sat_rename.mpr ((Clauses.sat_existQuant _ _).mpr
      ((Clauses.sat_congr fun c hc => ?_).mpr sat))
    show N ((unprime u.modified).name ((X.existQuant u.modified).1.const c)) c.sort = K c.name c.sort
    by_cases old : isSkolem c.name = false → isNew c.name = false
    · rw [unprime_existQuant style old]
      by_cases mem : c ∈ u.modified
      · exact Structure.push_image
          (fun d hd same => fresh.distinct c mem d hd (congrArg Const.name same)) mem
      · rw [fresh.off c mem]
        cases hs : isSkolem c.name with
        | true =>
          refine Eq.trans (Structure.push_off fun x hx image => ?_) (Structure.patch_mem hs)
          refine fresh.fresh x hx ?_
          rw [show (X.existQuant u.modified).1.name x = c.name from congrArg Const.name image]
          exact List.mem_map_of_mem hc
        | false =>
          have symbol : c.State := ⟨old hs, hs⟩
          exact (offSkolem c hs).trans ((frame c symbol mem).symm.trans
            ((joint c hs).trans (Structure.joint_state symbol.notNew)).symm)
    · simp only [Classical.not_imp, Bool.not_eq_false] at old
      obtain ⟨hs, hn⟩ := old
      obtain ⟨x, hx, rfl⟩ := news c hc hs hn
      refine (congrArg (N · x.sort) (unprime_existQuant_new style hx)).trans ?_
      refine Eq.trans (offSkolem x (style.state x hx).notSkolem) ?_
      exact (Structure.joint_new s s' x).symm.trans (joint (newActionConst x) hs).symm

end Quantified

section Image

variable (style : u.TransitionStyle) (state : preState.StateOnly) (axState : axioms.StateOnly)
include state axState

include style in
theorem newOnly_forwardClauses : NewOnly u.modified (forwardClauses preState axioms u) := by
  intro c hc hs hn
  obtain hpre | htr := Clauses.mem_symbols_conjoin hc hs
  · obtain hst | hax := Clauses.mem_symbols_conjoin hpre hs
    · rw [state c hst hs] at hn
      contradiction
    · rw [axState c (Clauses.mem_symbols_usingSymbols hax) hs] at hn
      contradiction
  · exact style.tr c htr hs hn

theorem satSkolem_forwardClauses (axGlobal : axioms.NoGlobal) (trGlobal : u.tr.NoGlobal) :
    (forwardClauses preState axioms u).SatSkolem (s.joint s') ↔
      preState.SatSkolem s ∧ (axioms.usingSymbols u.modified).SatSkolem s ∧
        u.tr.SatSkolem (s.joint s') := by
  have here : ∀ cl : Clauses, cl.StateOnly → (cl.SatSkolem (s.joint s') ↔ cl.SatSkolem s) :=
    fun cl only => Clauses.satSkolem_congr fun c hc hs => Structure.joint_state (only c hc hs)
  rw [forwardClauses, Clauses.satSkolem_conjoin fun c _ hc => trGlobal c hc,
    Clauses.satSkolem_conjoin fun c _ hc => axGlobal c (Clauses.mem_symbols_usingSymbols hc),
    here _ state, here _ fun c hc => axState c (Clauses.mem_symbols_usingSymbols hc), and_assoc]

/-- The forward image describes the states that a step leads to. -/
theorem states_forwardImage (axGlobal : axioms.NoGlobal) (runs : u.Runs) :
    (forwardImage preState axioms u).states D = image (u.StepIn axioms) (preState.states D) := by
  ext s'
  rw [Clauses.mem_states, forwardImage, forwardImageMap,
    satSkolem_quantified runs.toTransitionStyle
      (newOnly_forwardClauses runs.toTransitionStyle state axState)]
  simp only [satSkolem_forwardClauses state axState axGlobal runs.noGlobal]
  refine exists_congr fun s => ?_
  rw [Clauses.mem_states, StepIn, Step]
  tauto

end Image

end Update

namespace History

variable {D : Domain} {h : History} {ops : List Operation}

/-- What an operation does to a state: a step, or no change where the assumption holds. -/
def Operation.Rel : Operation → Structure D → Structure D → Prop
  | .forwardStep axioms u => u.StepIn axioms
  | .assume cl => fun s s' => s = s' ∧ cl.SatSkolem s

/-- Operations that symbolic execution follows exactly. -/
def Operation.Exact : Operation → Prop
  | .forwardStep axioms u => u.Runs ∧ axioms.StateOnly ∧ axioms.NoGlobal
  | .assume cl => cl.StateOnly ∧ cl.NoGlobal

theorem Operation.Exact.wellFormed {op : Operation} (exact : op.Exact) : op.WellFormed := by
  cases op with
  | forwardStep axioms u => exact ⟨exact.1.toTransitionStyle, exact.2.1⟩
  | assume cl => exact exact.1

theorem states_apply {op : Operation} (state : h.post.StateOnly) (exact : op.Exact) :
    (h.apply op).post.states D = image op.Rel (h.post.states D) := by
  cases op with
  | forwardStep axioms u => exact Update.states_forwardImage state exact.2.1 exact.2.2 exact.1
  | assume cl =>
    ext s
    rw [Clauses.mem_states, show (h.apply (.assume cl)).post = h.post.conjoin cl from rfl,
      Clauses.satSkolem_conjoin fun c _ hc => exact.2 c hc]
    constructor
    · rintro ⟨post, assumed⟩
      exact ⟨s, post, rfl, assumed⟩
    · rintro ⟨_, post, rfl, assumed⟩
      exact ⟨post, assumed⟩

/-- The post-state of a history describes exactly the states that its operations lead to
from the initial ones. -/
theorem states_run (state : h.post.StateOnly) (exact : ∀ op ∈ ops, op.Exact) (D : Domain) :
    (h.run ops).post.states D = after Operation.Rel (h.post.states D) ops := by
  induction ops using List.reverseRecOn with
  | nil => rfl
  | append_singleton ops op ih =>
    have before : ∀ o ∈ ops, o.Exact := fun o ho => exact o (List.mem_append_left _ ho)
    rw [run_append, after_snoc, ← ih before]
    exact states_apply (run_stateOnly state fun o ho => (before o ho).wellFormed)
      (exact op (List.mem_append_right _ (List.mem_singleton_self op)))

end History

end Goivy
