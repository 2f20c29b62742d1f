import Goivy.Util.InsMap
import Mathlib.Data.List.Perm.Subperm
import Mathlib.Logic.Function.Basic
import Mathlib.Logic.Relation

/-! The call-outs that the interference check of an isolate reads. -/
namespace Goivy

/-- The calls of an action between its other statements. `block` is a local, let or bind-olds action, and `choice` also an
environment action. -/
inductive CallShape where
  | atomic
  | sequence (elems : List CallShape)
  | call (callee : String)
  | ifThen (thenBody : CallShape)
  | ifElse (thenBody elseBody : CallShape)
  | choice (branches : List CallShape)
  | block (body : CallShape)
  | while (body : CallShape)

structure MixerOf where
  mixer : String
  isAfter : Bool

inductive MixinKind where
  | before
  | after
deriving DecidableEq

/-- What the call-outs depend on. -/
structure CalloutModule where
  newActions : List (String × CallShape)
  summarizedActions : List String
  mixins : List (String × List MixerOf)

/-- The four sets of an action: not head and not tail, head only, tail only, head and tail. -/
abbrev Callouts := Fin 4 → List String

/-- The map from names to call-outs. An entry that is being computed is shared with its computation. -/
abbrev CalloutTable := String → Option Callouts

/-- A call with its position. -/
structure CallSite where
  callee : String
  head : Bool
  tail : Bool

namespace CalloutTable

def empty : CalloutTable := fun _ => none

/-- `acallouts[idx][calledName] = true`. -/
def add (t : CalloutTable) (actname : String) (idx : Fin 4) (called : String) : CalloutTable :=
  Function.update t actname ((t actname).map fun co => Function.update co idx (called :: co idx))

/-- The sets of the callee go into those of the caller, each into the one with its index. -/
def merge (t : CalloutTable) (actname called : String) : CalloutTable :=
  match t called with
  | none => t
  | some calleeCO => Function.update t actname ((t actname).map fun co i => co i ++ calleeCO i)

/-- The entry has the action in the set with this index. -/
def Has (t : CalloutTable) (actname : String) (idx : Fin 4) (called : String) : Prop :=
  ∃ co, t actname = some co ∧ called ∈ co idx

end CalloutTable

namespace CalloutModule

variable (mod : CalloutModule)

/-- `HasUnsummarizedMixins`. -/
def hasUnsummarizedMixins (actname : String) (kind : MixinKind) : Bool :=
  ((mod.mixins.lookup actname).getD []).any fun mx =>
    (if mx.isAfter then kind = .after else kind = .before) && mx.mixer ∉ mod.summarizedActions

/-- The index of a call of a summarized action. -/
def calloutIndex (site : CallSite) : Fin 4 :=
  let h := site.head && !mod.hasUnsummarizedMixins site.callee .before
  let t := site.tail && !mod.hasUnsummarizedMixins site.callee .after
  if h then (if t then 3 else 1) else (if t then 2 else 0)

section Action

variable (getCallouts : String → CalloutTable → Option CalloutTable) (actname : String)

/-- The case of a call in `GetCalloutsAction`. -/
def callCase (t : CalloutTable) (site : CallSite) : Option CalloutTable :=
  if site.callee ∈ mod.summarizedActions then some (t.add actname (mod.calloutIndex site) site.callee)
  else (getCallouts site.callee t).map fun t => t.merge actname site.callee

mutual
/-- `GetCalloutsAction`. -/
def getCalloutsAction : CallShape → Bool → Bool → CalloutTable → Option CalloutTable
  | .atomic, _, _, t => some t
  | .sequence elems, head, tail, t => sequenceLoop elems head tail t
  | .call callee, head, tail, t => mod.callCase getCallouts actname t ⟨callee, head, tail⟩
  | .ifThen a, head, tail, t => getCalloutsAction a head tail t
  | .ifElse a b, head, tail, t => (getCalloutsAction a head tail t).bind (getCalloutsAction b head tail)
  | .choice branches, head, tail, t => argsLoop branches head tail t
  | .block a, head, tail, t => getCalloutsAction a head tail t
  | .while a, head, tail, t => getCalloutsAction a head tail t
/-- The first element has the position of the sequence as its head, and only the last one as its tail. -/
def sequenceLoop : List CallShape → Bool → Bool → CalloutTable → Option CalloutTable
  | [], _, _, t => some t
  | a :: rest, head, tail, t =>
    (getCalloutsAction a head (tail && rest.isEmpty) t).bind (sequenceLoop rest false tail)
def argsLoop : List CallShape → Bool → Bool → CalloutTable → Option CalloutTable
  | [], _, _, t => some t
  | a :: rest, head, tail, t => (getCalloutsAction a head tail t).bind (argsLoop rest head tail)
end

end Action

/-- `GetCallouts`, with a bound on the depth of the calls. -/
def getCallouts : Nat → String → CalloutTable → Option CalloutTable
  | 0, _, _ => none
  | depth + 1, actname, t =>
    if (t actname).isSome then some t
    else if actname ∈ mod.summarizedActions then some t
    else
      let t := Function.update t actname (some fun _ => [])
      match mod.newActions.lookup actname with
      | none => some t
      | some action => mod.getCalloutsAction (getCallouts depth) actname action true true t

/-- The call-outs of some actions, in this order. The calls are never deeper than there are actions. -/
def allCallouts (names : List String) : Option CalloutTable :=
  names.foldlM (fun t name => mod.getCallouts (mod.newActions.length + 1) name t) .empty

end CalloutModule

mutual
/-- The calls of an action in order, with their positions. -/
def CallShape.sites : CallShape → Bool → Bool → List CallSite
  | .atomic, _, _ => []
  | .sequence elems, head, tail => sitesSequence elems head tail
  | .call callee, head, tail => [⟨callee, head, tail⟩]
  | .ifThen a, head, tail => a.sites head tail
  | .ifElse a b, head, tail => a.sites head tail ++ b.sites head tail
  | .choice branches, head, tail => sitesArgs branches head tail
  | .block a, head, tail => a.sites head tail
  | .while a, head, tail => a.sites head tail
def sitesSequence : List CallShape → Bool → Bool → List CallSite
  | [], _, _ => []
  | a :: rest, head, tail => a.sites head (tail && rest.isEmpty) ++ sitesSequence rest false tail
def sitesArgs : List CallShape → Bool → Bool → List CallSite
  | [], _, _ => []
  | a :: rest, head, tail => a.sites head tail ++ sitesArgs rest head tail
end

namespace CalloutModule

variable {mod : CalloutModule}

section Action

variable (getCallouts : String → CalloutTable → Option CalloutTable) (actname : String)

mutual
/-- The recursion over an action does one step for each of its calls. -/
theorem getCalloutsAction_eq : ∀ (a : CallShape) (head tail : Bool) (t : CalloutTable),
    mod.getCalloutsAction getCallouts actname a head tail t =
      (a.sites head tail).foldlM (mod.callCase getCallouts actname) t
  | .atomic, _, _, _ => rfl
  | .sequence elems, head, tail, t => sequenceLoop_eq elems head tail t
  | .call callee, head, tail, t => by
    rw [getCalloutsAction, CallShape.sites, List.foldlM_cons]
    simp only [List.foldlM_nil, bind_pure]
  | .ifThen a, head, tail, t => getCalloutsAction_eq a head tail t
  | .ifElse a b, head, tail, t => by
    rw [getCalloutsAction, CallShape.sites, List.foldlM_append, getCalloutsAction_eq a]
    exact congrArg _ (funext fun t => getCalloutsAction_eq b head tail t)
  | .choice branches, head, tail, t => argsLoop_eq branches head tail t
  | .block a, head, tail, t => getCalloutsAction_eq a head tail t
  | .while a, head, tail, t => getCalloutsAction_eq a head tail t
theorem sequenceLoop_eq : ∀ (as : List CallShape) (head tail : Bool) (t : CalloutTable),
    mod.sequenceLoop getCallouts actname as head tail t =
      (sitesSequence as head tail).foldlM (mod.callCase getCallouts actname) t
  | [], _, _, _ => rfl
  | a :: rest, head, tail, t => by
    rw [sequenceLoop, sitesSequence, List.foldlM_append, getCalloutsAction_eq a]
    exact congrArg _ (funext fun t => sequenceLoop_eq rest false tail t)
theorem argsLoop_eq : ∀ (as : List CallShape) (head tail : Bool) (t : CalloutTable),
    mod.argsLoop getCallouts actname as head tail t =
      (sitesArgs as head tail).foldlM (mod.callCase getCallouts actname) t
  | [], _, _, _ => rfl
  | a :: rest, head, tail, t => by
    rw [argsLoop, sitesArgs, List.foldlM_append, getCalloutsAction_eq a]
    exact congrArg _ (funext fun t => argsLoop_eq rest head tail t)
end

end Action

/-- A site of the body of an action. -/
def Site (mod : CalloutModule) (actname : String) (site : CallSite) : Prop :=
  ∃ body, mod.newActions.lookup actname = some body ∧ site ∈ body.sites true true

/-- The body of an action calls an action that is not summarized. -/
def Calls (mod : CalloutModule) (actname called : String) : Prop :=
  ∃ site, mod.Site actname site ∧ site.callee = called ∧ called ∉ mod.summarizedActions

/-- The body of an action calls a summarized action, at a position with this index. -/
def CallsOut (mod : CalloutModule) (actname : String) (idx : Fin 4) (called : String) : Prop :=
  ∃ site, mod.Site actname site ∧ site.callee = called ∧ called ∈ mod.summarizedActions ∧ mod.calloutIndex site = idx

/-- Some action that is called, directly or not, calls the summarized action at a position with this index of its own
body. -/
def Reaches (mod : CalloutModule) (actname : String) (idx : Fin 4) (called : String) : Prop :=
  ∃ b, Relation.ReflTransGen mod.Calls actname b ∧ mod.CallsOut b idx called

theorem Reaches.head {a b : String} {idx : Fin 4} {s : String} (calls : mod.Calls a b) (h : mod.Reaches b idx s) :
    mod.Reaches a idx s := by
  obtain ⟨c, path, out⟩ := h
  exact ⟨c, .head calls path, out⟩

theorem reaches_cases {a : String} {idx : Fin 4} {s : String} (h : mod.Reaches a idx s) :
    mod.CallsOut a idx s ∨ ∃ b, mod.Calls a b ∧ mod.Reaches b idx s := by
  obtain ⟨c, path, out⟩ := h
  obtain rfl | ⟨b, calls, rest⟩ := Relation.ReflTransGen.cases_head path
  · exact .inl out
  · exact .inr ⟨b, calls, c, rest, out⟩

/-- No action that can come to call itself reaches a summarized action. -/
def NoRecursiveCallouts (mod : CalloutModule) : Prop :=
  ∀ a, Relation.TransGen mod.Calls a a → ∀ idx s, ¬ mod.Reaches a idx s

/-- The second table knows more. -/
structure Grows (t t' : CalloutTable) : Prop where
  entries : ∀ b, t b ≠ none → t' b ≠ none
  has : ∀ b idx s, t.Has b idx s → t'.Has b idx s

theorem Grows.refl (t : CalloutTable) : Grows t t := ⟨fun _ h => h, fun _ _ _ h => h⟩

theorem Grows.trans {t t' t'' : CalloutTable} (h : Grows t t') (h' : Grows t' t'') : Grows t t'' :=
  ⟨fun b e => h'.entries b (h.entries b e), fun b idx s e => h'.has b idx s (h.has b idx s e)⟩

/-- The entries tell the truth, and those that are not being computed are complete. -/
structure Tabled (mod : CalloutModule) (stack : List String) (t : CalloutTable) : Prop where
  sound : ∀ b idx s, t.Has b idx s → mod.Reaches b idx s
  complete : ∀ b, t b ≠ none → b ∈ stack ∨ ∀ idx s, mod.Reaches b idx s → t.Has b idx s
  started : ∀ b ∈ stack, t b ≠ none

section Update

variable {t : CalloutTable} {actname : String} {stack : List String}

theorem has_update {co : Callouts} (entry : t actname = some co) (f : Callouts → Callouts) (b : String) (idx : Fin 4)
    (s : String) : CalloutTable.Has (Function.update t actname ((t actname).map f)) b idx s ↔
      if b = actname then s ∈ f co idx else t.Has b idx s := by
  unfold CalloutTable.Has
  by_cases here : b = actname
  · subst here
    simp [entry]
  · simp [here]

theorem entries_update (f : Callouts → Callouts) (b : String) (entry : t b ≠ none) :
    Function.update t actname ((t actname).map f) b ≠ none := by
  by_cases here : b = actname
  · subst here
    simpa using entry
  · simpa [here] using entry

/-- Changing the sets of an action that is being computed, by what it reaches. -/
theorem Tabled.update (tabled : mod.Tabled stack t) (top : actname ∈ stack) {f : Callouts → Callouts}
    (more : ∀ co idx, co idx ⊆ f co idx) (sound : ∀ co idx s, t actname = some co → s ∈ f co idx → mod.Reaches actname idx s) :
    mod.Tabled stack (Function.update t actname ((t actname).map f)) ∧
      Grows t (Function.update t actname ((t actname).map f)) := by
  obtain ⟨co, entry⟩ := Option.ne_none_iff_exists'.mp (tabled.started actname top)
  have has := has_update entry f
  have grows : Grows t (Function.update t actname ((t actname).map f)) := by
    refine ⟨fun b => entries_update f b, fun b idx s old => (has b idx s).mpr ?_⟩
    split
    · rename_i here
      obtain ⟨co', entry', mem⟩ := old
      cases (here ▸ entry').symm.trans entry
      exact more _ idx mem
    · exact old
  refine ⟨⟨fun b idx s new => ?_, fun b computed => ?_, fun b hb => grows.entries b (tabled.started b hb)⟩, grows⟩
  · rw [has] at new
    split at new
    · rename_i here
      exact here ▸ sound co idx s entry new
    · exact tabled.sound b idx s new
  · by_cases here : b = actname
    · exact .inl (here ▸ top)
    · rw [Function.update_of_ne here] at computed
      exact (tabled.complete b computed).imp id fun all idx s h => grows.has b idx s (all idx s h)

end Update

/-- A search that adds an action to the table. -/
def Visited (mod : CalloutModule) (stack : List String) (t : CalloutTable) (called : String)
    (result : Option CalloutTable) : Prop :=
  ∃ t', result = some t' ∧ mod.Tabled stack t' ∧ Grows t t' ∧ (called ∉ mod.summarizedActions → t' called ≠ none)

/-- What is known of an action on the stack, from which the current one is called. -/
theorem reaches_of_stack (norec : mod.NoRecursiveCallouts) {stack : List String} {t : CalloutTable} {actname called : String}
    (tabled : mod.Tabled stack t) (callers : ∀ b ∈ stack, Relation.ReflTransGen mod.Calls b actname)
    (calls : mod.Calls actname called) (entry : t called ≠ none) :
    ∀ idx s, mod.Reaches called idx s → t.Has called idx s := by
  intro idx s reaches
  obtain onStack | all := tabled.complete called entry
  · have cycle : Relation.TransGen mod.Calls called called := .tail' (callers called onStack) calls
    exact absurd reaches (norec called cycle idx s)
  · exact all idx s reaches

/-- The loop over the calls of an action leaves all that they reach in its sets. -/
theorem foldlM_spec (norec : mod.NoRecursiveCallouts) {stack : List String} {actname : String}
    {search : String → CalloutTable → Option CalloutTable} (top : actname ∈ stack)
    (callers : ∀ b ∈ stack, Relation.ReflTransGen mod.Calls b actname) {sites : List CallSite}
    (inside : ∀ site ∈ sites, mod.Site actname site)
    (visits : ∀ called t, mod.Calls actname called → mod.Tabled stack t → mod.Visited stack t called (search called t))
    {t : CalloutTable} (tabled : mod.Tabled stack t) :
    ∃ t', sites.foldlM (mod.callCase search actname) t = some t' ∧ mod.Tabled stack t' ∧ Grows t t' ∧ ∀ site ∈ sites,
      (site.callee ∈ mod.summarizedActions → t'.Has actname (mod.calloutIndex site) site.callee) ∧
      (site.callee ∉ mod.summarizedActions → ∀ idx s, mod.Reaches site.callee idx s → t'.Has actname idx s) := by
  induction sites generalizing t with
  | nil => exact ⟨t, rfl, tabled, .refl t, by simp⟩
  | cons site sites ih =>
    rw [List.forall_mem_cons] at inside
    obtain ⟨t₁, step, tabled₁, grows₁, done⟩ : ∃ t₁, mod.callCase search actname t site = some t₁ ∧
        mod.Tabled stack t₁ ∧ Grows t t₁ ∧
        (site.callee ∈ mod.summarizedActions → t₁.Has actname (mod.calloutIndex site) site.callee) ∧
        (site.callee ∉ mod.summarizedActions → ∀ idx s, mod.Reaches site.callee idx s → t₁.Has actname idx s) := by
      unfold callCase
      by_cases summarized : site.callee ∈ mod.summarizedActions
      · have out : mod.CallsOut actname (mod.calloutIndex site) site.callee := ⟨site, inside.1, rfl, summarized, rfl⟩
        have changed := tabled.update top
          (f := fun co => Function.update co (mod.calloutIndex site) (site.callee :: co (mod.calloutIndex site)))
          (fun co idx s mem => by
            by_cases here : idx = mod.calloutIndex site
            · subst here
              simp [mem]
            · simpa [here] using mem)
          (fun co idx s entry new => by
            by_cases here : idx = mod.calloutIndex site
            · subst here
              rw [Function.update_self] at new
              rcases List.mem_cons.mp new with rfl | old
              · exact ⟨actname, .refl, out⟩
              · exact tabled.sound _ _ _ ⟨co, entry, old⟩
            · rw [Function.update_of_ne here] at new
              exact tabled.sound _ _ _ ⟨co, entry, new⟩)
        refine ⟨_, if_pos summarized, changed.1, changed.2, fun _ => ?_, fun other => absurd summarized other⟩
        obtain ⟨co, entry⟩ := Option.ne_none_iff_exists'.mp (tabled.started actname top)
        exact (has_update entry _ _ _ _).mpr (by simp)
      · have calls : mod.Calls actname site.callee := ⟨site, inside.1, rfl, summarized⟩
        obtain ⟨t', searched, tabled', grows', entry'⟩ := visits site.callee t calls tabled
        obtain ⟨calleeCO, entryC⟩ := Option.ne_none_iff_exists'.mp (entry' summarized)
        have changed := tabled'.update top (f := fun co i => co i ++ calleeCO i)
          (fun co idx => List.subset_append_left _ _) (fun co idx s entry new => by
            rcases List.mem_append.mp new with old | fromCallee
            · exact tabled'.sound _ _ _ ⟨co, entry, old⟩
            · exact (tabled'.sound _ _ _ ⟨calleeCO, entryC, fromCallee⟩).head calls)
        have merged : t'.merge actname site.callee =
            Function.update t' actname ((t' actname).map fun co i => co i ++ calleeCO i) := by
          rw [CalloutTable.merge, entryC]
        refine ⟨t'.merge actname site.callee, by rw [if_neg summarized, searched]; rfl, merged ▸ changed.1,
          merged ▸ grows'.trans changed.2, fun other => absurd other summarized, fun _ idx s reaches => ?_⟩
        obtain ⟨co, entry⟩ := Option.ne_none_iff_exists'.mp (tabled'.started actname top)
        obtain ⟨co', same, mem⟩ := reaches_of_stack norec tabled' callers calls (entry' summarized) idx s reaches
        cases entryC.symm.trans same
        rw [merged]
        exact (has_update entry _ _ _ _).mpr (by simp [mem])
    obtain ⟨t', folded, tabled', grows', all⟩ := ih inside.2 tabled₁
    refine ⟨t', ?_, tabled', grows₁.trans grows', List.forall_mem_cons.mpr ⟨⟨fun h => grows'.has _ _ _ (done.1 h), fun h idx s r =>
      grows'.has _ _ _ (done.2 h idx s r)⟩, all⟩⟩
    rw [List.foldlM_cons, step]
    exact folded

/-- The names of the actions. -/
def actionNames (mod : CalloutModule) : List String := mod.newActions.map Prod.fst

theorem mem_actionNames {a : String} {body : CallShape} (found : mod.newActions.lookup a = some body) :
    a ∈ mod.actionNames := List.mem_map.mpr ⟨(a, body), InsMap.mem_of_lookup found, rfl⟩

theorem not_reaches_of_missing {a : String} (missing : mod.newActions.lookup a = none) {idx : Fin 4} {s : String} :
    ¬ mod.Reaches a idx s := by
  have noSite : ∀ site, ¬ mod.Site a site := by
    rintro site ⟨body, found, -⟩
    rw [missing] at found
    cases found
  intro reaches
  obtain ⟨site, here, -⟩ | ⟨b, ⟨site, here, -⟩, -⟩ := reaches_cases reaches
  · exact noSite site here
  · exact noSite site here

/-- An action starts with empty sets. -/
theorem Tabled.start {stack : List String} {t : CalloutTable} {actname : String} (tabled : mod.Tabled stack t)
    (fresh : t actname = none) : mod.Tabled (actname :: stack) (Function.update t actname (some fun _ => [])) ∧
      Grows t (Function.update t actname (some fun _ => [])) := by
  have other : ∀ b, t b ≠ none → b ≠ actname := fun b computed same => computed (same ▸ fresh)
  have grows : Grows t (Function.update t actname (some fun _ => [])) := by
    refine ⟨fun b computed => ?_, fun b idx s old => ?_⟩
    · rw [Function.update_of_ne (other b computed)]
      exact computed
    · obtain ⟨co, entry, mem⟩ := old
      exact ⟨co, by rw [Function.update_of_ne (other b (by simp [entry])), entry], mem⟩
  refine ⟨⟨fun b idx s new => ?_, fun b computed => ?_, List.forall_mem_cons.mpr ⟨by simp, fun b hb => ?_⟩⟩, grows⟩
  · obtain ⟨co, entry, mem⟩ := new
    by_cases here : b = actname
    · rw [here, Function.update_self] at entry
      cases entry
      cases mem
    · rw [Function.update_of_ne here] at entry
      exact tabled.sound b idx s ⟨co, entry, mem⟩
  · by_cases here : b = actname
    · exact .inl (here ▸ List.mem_cons_self)
    · rw [Function.update_of_ne here] at computed
      exact (tabled.complete b computed).imp (List.mem_cons_of_mem _) fun all idx s h => grows.has b idx s (all idx s h)
  · exact grows.entries b (tabled.started b hb)

/-- An action is finished when its sets hold all that it reaches. -/
theorem Tabled.finish {stack : List String} {t : CalloutTable} {actname : String} (tabled : mod.Tabled (actname :: stack) t)
    (all : ∀ idx s, mod.Reaches actname idx s → t.Has actname idx s) : mod.Tabled stack t where
  sound := tabled.sound
  complete := by
    intro b computed
    obtain onStack | complete := tabled.complete b computed
    · rcases List.mem_cons.mp onStack with rfl | below
      · exact .inr all
      · exact .inl below
    · exact .inr complete
  started b hb := tabled.started b (List.mem_cons_of_mem _ hb)

theorem getCallouts_spec (norec : mod.NoRecursiveCallouts) (depth : Nat) (actname : String) (stack : List String)
    (callers : ∀ b ∈ stack, Relation.ReflTransGen mod.Calls b actname) (nodup : stack.Nodup) (inside : stack ⊆ mod.actionNames)
    (deep : mod.newActions.length < depth + stack.length) {t : CalloutTable} (tabled : mod.Tabled stack t) :
    mod.Visited stack t actname (mod.getCallouts depth actname t) := by
  induction depth generalizing actname stack t with
  | zero =>
    have le := (List.subperm_of_subset nodup inside).length_le
    rw [actionNames, List.length_map] at le
    omega
  | succ depth ih =>
    rw [getCallouts]
    by_cases computed : (t actname).isSome
    · rw [if_pos computed]
      exact ⟨t, rfl, tabled, .refl t, fun _ => Option.isSome_iff_ne_none.mp computed⟩
    rw [if_neg computed]
    by_cases summarized : actname ∈ mod.summarizedActions
    · rw [if_pos summarized]
      exact ⟨t, rfl, tabled, .refl t, fun other => absurd summarized other⟩
    rw [if_neg summarized]
    have fresh : t actname = none := by simpa using computed
    obtain ⟨started, grows⟩ := tabled.start fresh
    cases found : mod.newActions.lookup actname with
    | none =>
      exact ⟨_, rfl, started.finish fun idx s reaches => absurd reaches (not_reaches_of_missing found), grows,
        fun _ => started.started actname List.mem_cons_self⟩
    | some body =>
      have callers' : ∀ b ∈ actname :: stack, Relation.ReflTransGen mod.Calls b actname :=
        List.forall_mem_cons.mpr ⟨.refl, callers⟩
      have new : actname ∉ stack := fun onStack => tabled.started actname onStack fresh
      have sites : ∀ site ∈ body.sites true true, mod.Site actname site := fun site mem => ⟨body, found, mem⟩
      obtain ⟨t', folded, tabled', grows', all⟩ := foldlM_spec norec List.mem_cons_self callers' sites
        (fun called t calls tabled => ih called (actname :: stack) (fun b hb => (callers' b hb).tail calls)
          (List.nodup_cons.mpr ⟨new, nodup⟩) (List.cons_subset.mpr ⟨mem_actionNames found, inside⟩)
          (by rw [List.length_cons]; omega) tabled) started
      refine ⟨t', (getCalloutsAction_eq ..).trans folded, tabled'.finish fun idx s reaches => ?_, grows.trans grows',
        fun _ => tabled'.started actname List.mem_cons_self⟩
      obtain ⟨site, ⟨body', found', mem⟩, rfl, summarized, rfl⟩ | ⟨b, ⟨site, ⟨body', found', mem⟩, rfl, calls⟩, rest⟩ :=
        reaches_cases reaches
      · cases found.symm.trans found'
        exact (all site mem).1 summarized
      · cases found.symm.trans found'
        exact (all site mem).2 calls idx s rest

/-- After any sequence of searches, the sets of an action hold exactly what it reaches. -/
theorem allCallouts_spec (norec : mod.NoRecursiveCallouts) (names : List String) :
    ∃ t, mod.allCallouts names = some t ∧ ∀ a ∈ names, a ∉ mod.summarizedActions →
      ∀ idx s, t.Has a idx s ↔ mod.Reaches a idx s := by
  have run : ∀ (names : List String) (t : CalloutTable), mod.Tabled [] t → ∃ t',
      names.foldlM (fun t name => mod.getCallouts (mod.newActions.length + 1) name t) t = some t' ∧ mod.Tabled [] t' ∧
        Grows t t' ∧ ∀ a ∈ names, a ∉ mod.summarizedActions → t' a ≠ none := by
    intro names
    induction names with
    | nil => exact fun t tabled => ⟨t, rfl, tabled, .refl t, by simp⟩
    | cons name names ih =>
      intro t tabled
      obtain ⟨t₁, searched, tabled₁, grows₁, entry⟩ := getCallouts_spec norec (mod.newActions.length + 1) name []
        (by simp) .nil (List.nil_subset _) (by simp) tabled
      obtain ⟨t₂, rest, tabled₂, grows₂, entries⟩ := ih t₁ tabled₁
      refine ⟨t₂, ?_, tabled₂, grows₁.trans grows₂, List.forall_mem_cons.mpr
        ⟨fun h => grows₂.entries name (entry h), entries⟩⟩
      rw [List.foldlM_cons, searched]
      exact rest
  obtain ⟨t, computed, tabled, -, entries⟩ := run names .empty ⟨fun b idx s ⟨co, entry, _⟩ =>
    absurd entry (by simp [CalloutTable.empty]), fun b entry => absurd rfl entry, by simp⟩
  refine ⟨t, computed, fun a ha plain idx s => ⟨tabled.sound a idx s, ?_⟩⟩
  exact (tabled.complete a (entries a ha plain)).resolve_left List.not_mem_nil idx s

end CalloutModule

/-- What a control path executes: another atomic statement, or a call of a summarized action. -/
inductive PathEvent where
  | statement
  | callOut (called : String)

/-- The control paths through an action, with the calls of other actions entered and left. -/
inductive ControlPath (mod : CalloutModule) : CallShape → List PathEvent → Prop
  | atomic : ControlPath mod .atomic [.statement]
  | done : ControlPath mod (.sequence []) []
  | next {a : CallShape} {as : List CallShape} {p q : List PathEvent} : ControlPath mod a p →
      ControlPath mod (.sequence as) q → ControlPath mod (.sequence (a :: as)) (p ++ q)
  | callOut {s : String} : s ∈ mod.summarizedActions → ControlPath mod (.call s) [.callOut s]
  | call {c : String} {body : CallShape} {p : List PathEvent} : c ∉ mod.summarizedActions →
      mod.newActions.lookup c = some body → ControlPath mod body p → ControlPath mod (.call c) p
  | thenTaken {a : CallShape} {p : List PathEvent} : ControlPath mod a p → ControlPath mod (.ifThen a) p
  | thenSkipped {a : CallShape} : ControlPath mod (.ifThen a) []
  | ifTrue {a b : CallShape} {p : List PathEvent} : ControlPath mod a p → ControlPath mod (.ifElse a b) p
  | ifFalse {a b : CallShape} {p : List PathEvent} : ControlPath mod b p → ControlPath mod (.ifElse a b) p
  | branch {bs : List CallShape} {b : CallShape} {p : List PathEvent} : b ∈ bs → ControlPath mod b p →
      ControlPath mod (.choice bs) p
  | block {a : CallShape} {p : List PathEvent} : ControlPath mod a p → ControlPath mod (.block a) p
  | leave {a : CallShape} : ControlPath mod (.while a) []
  | iterate {a : CallShape} {p q : List PathEvent} : ControlPath mod a p → ControlPath mod (.while a) q →
      ControlPath mod (.while a) (p ++ q)

namespace CalloutModule

/-- Some control path through an action calls the summarized action. -/
def PathCalls (mod : CalloutModule) (actname called : String) : Prop :=
  ∃ body p, mod.newActions.lookup actname = some body ∧ ControlPath mod body p ∧ .callOut called ∈ p

/-- Some control path through an action calls the summarized action between two other atomic statements. -/
def CalledMidway (mod : CalloutModule) (actname called : String) : Prop :=
  ∃ body p q, mod.newActions.lookup actname = some body ∧ ControlPath mod body (p ++ .callOut called :: q) ∧ p ≠ [] ∧ q ≠ []

variable {mod : CalloutModule}

theorem mem_sitesArgs {bs : List CallShape} {b : CallShape} (mem : b ∈ bs) (head tail : Bool) :
    b.sites head tail ⊆ sitesArgs bs head tail := by
  induction bs with
  | nil => cases mem
  | cons c bs ih =>
    rw [sitesArgs]
    rcases List.mem_cons.mp mem with rfl | later
    · exact List.subset_append_left _ _
    · exact List.subset_append_of_subset_right _ (ih later)

/-- Every call on a control path comes from a site of the action, or is reached from one. -/
theorem exists_site {a : CallShape} {p : List PathEvent} (path : ControlPath mod a p) {s : String} (mem : .callOut s ∈ p)
    (head tail : Bool) : ∃ site ∈ a.sites head tail, site.callee = s ∧ s ∈ mod.summarizedActions ∨
      site.callee ∉ mod.summarizedActions ∧ ∃ idx, mod.Reaches site.callee idx s := by
  induction path generalizing head tail with
  | atomic => simp at mem
  | done => cases mem
  | @next a as p q _ _ ih ih' =>
    rw [CallShape.sites, sitesSequence]
    rcases List.mem_append.mp mem with first | rest
    · obtain ⟨site, here, what⟩ := ih first head (tail && as.isEmpty)
      exact ⟨site, List.mem_append_left _ here, what⟩
    · obtain ⟨site, here, what⟩ := ih' rest false tail
      exact ⟨site, List.mem_append_right _ here, what⟩
  | callOut summarized =>
    cases List.mem_singleton.mp mem
    exact ⟨_, List.mem_singleton_self _, .inl ⟨rfl, summarized⟩⟩
  | @call c body p plain found _ ih =>
    refine ⟨_, List.mem_singleton_self _, .inr ⟨plain, ?_⟩⟩
    obtain ⟨site, here, ⟨same, summarized⟩ | ⟨other, idx, reaches⟩⟩ := ih mem true true
    · exact ⟨mod.calloutIndex site, c, .refl, site, ⟨body, found, here⟩, same, summarized, rfl⟩
    · exact ⟨idx, reaches.head ⟨site, ⟨body, found, here⟩, rfl, other⟩⟩
  | thenTaken _ ih | block _ ih => exact ih mem head tail
  | thenSkipped | leave => cases mem
  | ifTrue _ ih =>
    obtain ⟨site, here, what⟩ := ih mem head tail
    exact ⟨site, List.mem_append_left _ here, what⟩
  | ifFalse _ ih =>
    obtain ⟨site, here, what⟩ := ih mem head tail
    exact ⟨site, List.mem_append_right _ here, what⟩
  | branch inside _ ih =>
    obtain ⟨site, here, what⟩ := ih mem head tail
    exact ⟨site, mem_sitesArgs inside head tail here, what⟩
  | iterate _ _ ih ih' =>
    rcases List.mem_append.mp mem with first | rest
    · exact ih first head tail
    · exact ih' rest head tail

/-- What a control path calls is reached. -/
theorem reaches_of_pathCalls {a s : String} (h : mod.PathCalls a s) : ∃ idx, mod.Reaches a idx s := by
  obtain ⟨body, p, found, path, mem⟩ := h
  obtain ⟨site, here, ⟨same, summarized⟩ | ⟨other, idx, reaches⟩⟩ := exists_site path mem true true
  · exact ⟨mod.calloutIndex site, a, .refl, site, ⟨body, found, here⟩, same, summarized, rfl⟩
  · exact ⟨idx, reaches.head ⟨site, ⟨body, found, here⟩, rfl, other⟩⟩

/-- The sets of an action hold what its control paths call, and the first one what they call midway. -/
def Conservative (mod : CalloutModule) (t : CalloutTable) (names : List String) : Prop :=
  ∀ a ∈ names, a ∉ mod.summarizedActions → ∀ s,
    (mod.CalledMidway a s → t.Has a 0 s) ∧ (mod.PathCalls a s → ∃ idx, t.Has a idx s)

/-- What a control path of an action calls midway is called at an inner position, or between mixins that are not
summarized, in the body of some action that it reaches. -/
def MidwayInBody (mod : CalloutModule) (names : List String) : Prop :=
  ∀ a ∈ names, a ∉ mod.summarizedActions → ∀ s, mod.CalledMidway a s → mod.Reaches a 0 s

/-- Where no action that reaches a summarized one is recursive, the search ends, and the sets are conservative exactly when
every call midway stands midway in the body with the call. -/
theorem allCallouts_conservative_iff (mod : CalloutModule) (norec : mod.NoRecursiveCallouts) (names : List String) :
    ∃ t, mod.allCallouts names = some t ∧ (mod.Conservative t names ↔ mod.MidwayInBody names) := by
  obtain ⟨t, computed, exact⟩ := allCallouts_spec norec names
  refine ⟨t, computed, fun h a ha plain s midway => ?_, fun h a ha plain s => ⟨fun midway => ?_, fun calls => ?_⟩⟩
  · exact (exact a ha plain 0 s).mp ((h a ha plain s).1 midway)
  · exact (exact a ha plain 0 s).mpr (h a ha plain s midway)
  · exact (reaches_of_pathCalls calls).imp fun idx reaches => (exact a ha plain idx s).mpr reaches

/-- An action that calls out between two statements. -/
def innerCallout : CalloutModule := ⟨[("a", .sequence [.atomic, .call "s", .atomic])], ["s"], []⟩

theorem site_innerCallout {a : String} {site : CallSite} (h : innerCallout.Site a site) :
    a = "a" ∧ site = ⟨"s", false, false⟩ := by
  obtain ⟨body, found, mem⟩ := h
  have entry := InsMap.mem_of_lookup found
  cases List.mem_singleton.mp entry
  exact ⟨rfl, List.mem_singleton.mp mem⟩

theorem allCallouts_conservative_iff_innerCallout :
    ∃ t, innerCallout.allCallouts ["a"] = some t ∧ innerCallout.Conservative t ["a"] := by
  have noCall : ∀ a b, ¬ innerCallout.Calls a b := by
    rintro a b ⟨site, here, rfl, plain⟩
    obtain ⟨-, rfl⟩ := site_innerCallout here
    exact plain (List.mem_singleton_self _)
  obtain ⟨t, computed, exact⟩ := allCallouts_conservative_iff innerCallout (fun a cycle => by
    obtain ⟨b, calls, -⟩ := Relation.TransGen.head'_iff.mp cycle
    exact absurd calls (noCall a b)) ["a"]
  refine ⟨t, computed, exact.mpr fun a ha plain s midway => ?_⟩
  cases List.mem_singleton.mp ha
  obtain ⟨body, p, q, found, path, -⟩ := midway
  obtain ⟨site, here, ⟨rfl, summarized⟩ | ⟨other, -⟩⟩ := exists_site (s := s) path (by simp) true true
  · obtain ⟨-, rfl⟩ := site_innerCallout ⟨body, found, here⟩
    exact ⟨"a", .refl, _, ⟨body, found, here⟩, rfl, summarized, rfl⟩
  · obtain ⟨-, rfl⟩ := site_innerCallout ⟨body, found, here⟩
    exact absurd (List.mem_singleton_self _) other

/-- An action that calls another one between two statements, and the other one calls out. -/
def nestedCallout : CalloutModule :=
  ⟨[("a", .sequence [.atomic, .call "b", .atomic]), ("b", .call "s")], ["s"], []⟩

/-- The call of s stands between the statements of a, but is not in its first set. -/
theorem nestedCallout_not_conservative :
    ¬ ∃ t, nestedCallout.allCallouts ["a", "b"] = some t ∧ nestedCallout.Conservative t ["a", "b"] := by
  rintro ⟨t, computed, conservative⟩
  have first : (nestedCallout.allCallouts ["a", "b"]).bind (fun t => (t "a").map fun co => co 0) = some [] := by decide
  have path : ControlPath nestedCallout (.sequence [.atomic, .call "b", .atomic])
      ([.statement] ++ ([.callOut "s"] ++ ([.statement] ++ []))) :=
    .next .atomic (.next (.call (by decide) rfl (.callOut (List.mem_singleton_self _))) (.next .atomic .done))
  obtain ⟨co, entry, mem⟩ := (conservative "a" (by simp) (by decide) "s").1
    ⟨_, [.statement], [.statement], rfl, path, List.cons_ne_nil _ _, List.cons_ne_nil _ _⟩
  rw [computed, Option.bind_some, entry, Option.map_some, Option.some.injEq] at first
  rw [first] at mem
  cases mem

end CalloutModule

end Goivy
