import Goivy.Temporal.Recover

/-! Temporal operators as named binders: the value is kept, and a binder belongs to one formula. -/
namespace Goivy

open TExpr

/-- The binder over the free variables of `e`: its name, its parameters and its body. -/
def binderOver (name : String) (e : TExpr) : String × List Variable × TExpr :=
  (name, e.normalizeFreeVariables.2.1, e.normalizeFreeVariables.2.2)

namespace TExpr

/-- The binder that a temporal formula receives. -/
def binderFor : TExpr → Option (String × List Variable × TExpr)
  | .globally environ a => some (binderOver (globallyName environ) a.replaceTemporals)
  | .eventually environ a => some (binderOver (globallyName environ) (cancelNot a.replaceTemporals))
  | .whenOp name a b => some (binderOver (whenName name) (.cond b.replaceTemporals a.replaceTemporals))
  | _ => none

/-- The operator that is converted for a temporal formula: `Globally` of the negation for `Eventually`, and double
negations are cancelled. -/
def operation : TExpr → TExpr
  | .eventually environ a => .globally environ (cancelNot a.core)
  | e => e.core

/-- Equal up to the names of the free variables: each formula is a renaming of the other, and the renamings are inverse. -/
def RenamingOf (a b : TExpr) : Prop := ∃ ρ ρ' : Variable → Variable, (∀ v ∈ a.scan, ρ' (ρ v) = v) ∧
  (∀ v ∈ b.scan, ρ (ρ' v) = v) ∧ a.renameBy ρ = b ∧ b.renameBy ρ' = a

/-- A well-sorted temporal formula with one sort for each name, in which no renaming to `V0`, `V1` and so on captures. -/
structure Bindable (e : TExpr) (s : FSort) : Prop where
  sort : e.OfSort s
  consistent : e.core.Consistent
  captureFree : e.core.CaptureFree

end TExpr

/-- The conversion keeps the value, and there is nothing left to normalize. -/
theorem TExpr.Bindable.converted {e : TExpr} {s : FSort} (h : e.Bindable s) :
    e.replaceTemporals.normalizeNamedBinders none = some e.replaceTemporals ∧
      ∀ {D : Domain} (M : Nat → Structure D) (W : WhenReading D) (i : Nat) (env : Env D),
        e.replaceTemporals.eval M W i env = e.eval M W i env := by
  rw [replaceTemporals_eq h.sort]
  constructor
  · have normal := normalizeNamedBinders_introduceBinders h.sort.core h.consistent []
    rwa [substituteByName_nil] at normal
  · intro D M W i env
    rw [eval_introduceBinders M W h.sort.core h.consistent h.captureFree, eval_core M W h.sort]

/-- A binder, as made from a body that can be read back to an operator. -/
structure BinderOf (nb : String × List Variable × TExpr) (operator : TExpr) (e : TExpr) : Prop where
  name : ∃ name, nb = binderOver name e ∧ ∀ σ, readBack name (e.restore σ) = operator.renameBy σ
  order : SameOrder e.occurrences operator.scan
  one : OneSort operator.scan
  restorable : Restorable e operator.scan (normalSubs (firstByName operator.scan))

theorem binds_globally {environ : Option String} {u : TExpr} (h : u.OfSort .boolean)
    (fits : (TExpr.globally environ u).Consistent) (clear : (TExpr.globally environ u).CaptureFree) :
    BinderOf (binderOver (globallyName environ) u.introduceBinders) (.globally environ u) u.introduceBinders := by
  refine ⟨⟨_, rfl, fun σ => ?_⟩, sameOrder_introduceBinders h, fits.1, restorable_introduceBinders h fits.2 clear.2 clear.1⟩
  rw [restore_introduceBinders h fits.2 clear.2, readBack_globallyName, renameBy]

theorem binds_whenOp {name : String} {u c : TExpr} {s : FSort} (h : u.OfSort s) (h' : c.OfSort .boolean)
    (fits : (TExpr.whenOp name u c).Consistent) (clear : (TExpr.whenOp name u c).CaptureFree) :
    BinderOf (binderOver (whenName name) (.cond c.introduceBinders u.introduceBinders)) (.whenOp name u c)
      (.cond c.introduceBinders u.introduceBinders) := by
  refine ⟨⟨_, rfl, fun σ => ?_⟩, (sameOrder_introduceBinders h').append (sameOrder_introduceBinders h), fits.1,
    (restorable_introduceBinders h' fits.2.2 clear.2.2 clear.1.2).cond
      (restorable_introduceBinders h fits.2.1 clear.2.1 clear.1.1)⟩
  rw [restore, restore_introduceBinders h fits.2.1 clear.2.1, restore_introduceBinders h' fits.2.2 clear.2.2,
    readBack_whenName, renameBy]

theorem TExpr.Bindable.binds {t : TExpr} {s : FSort} (h : t.Bindable s) {nb : String × List Variable × TExpr}
    (receives : t.binderFor = some nb) : ∃ e, BinderOf nb t.operation e := by
  obtain ⟨sort, fits, clear⟩ := h
  cases t with
  | globally environ a =>
    cases receives
    rw [replaceTemporals_eq sort.2]
    exact ⟨_, binds_globally sort.2.core fits clear⟩
  | eventually environ a =>
    cases receives
    rw [replaceTemporals_eq sort.2, ← introduceBinders_cancelNot]
    exact ⟨_, binds_globally sort.2.core.cancelNot fits clear⟩
  | whenOp name a b =>
    cases receives
    rw [replaceTemporals_eq sort.1, replaceTemporals_eq sort.2]
    exact ⟨_, binds_whenOp sort.1.core sort.2.core fits clear⟩
  | _ => contradiction

theorem exists_renamed_normalFrom {k : Nat} {vs : List Variable} (nodup : (vs.map Variable.name).Nodup) {w : Variable}
    (h : w ∈ numberedVariables k vs) : ∃ v ∈ vs, renamed (normalFrom k vs) v = w := by
  induction vs generalizing k with
  | nil => exact absurd h List.not_mem_nil
  | cons u vs ih =>
    rw [List.map_cons, List.nodup_cons] at nodup
    rw [numberedVariables, List.mem_cons] at h
    rcases h with rfl | h
    · exact ⟨u, List.mem_cons_self, by rw [renamed_normalFrom_cons, if_pos rfl]⟩
    · obtain ⟨v, hv, same⟩ := ih nodup.2 h
      have other : v.name ≠ u.name := fun name => nodup.1 (name ▸ List.mem_map_of_mem hv)
      exact ⟨v, List.mem_cons_of_mem _ hv, by rw [renamed_normalFrom_cons, if_neg other, same]⟩

/-- The variable whose number is this one. -/
def unnumbered (vs : List Variable) : Variable → Variable := argMap (numberedVariables 0 vs) (vs.map .var) id

theorem unnumbered_renamed {l : List Variable} (one : OneSort l) {v : Variable} (hv : v ∈ l) :
    unnumbered (firstByName l) (renamed (normalSubs (firstByName l)) v) = v := by
  obtain ⟨w, hw, name⟩ := exists_mem_firstByName v hv
  obtain rfl := one w (mem_of_mem_firstByName w hw) v hv name
  exact argMap_normal (nodup_firstByName l) 0 id id w hw

theorem renamed_unnumbered {l : List Variable} (one : OneSort l) {w : Variable} (h : w ∈ numberedVariables 0 (firstByName l)) :
    renamed (normalSubs (firstByName l)) (unnumbered (firstByName l) w) = w := by
  obtain ⟨v, hv, same⟩ := exists_renamed_normalFrom (nodup_firstByName l) h
  have back := unnumbered_renamed one (mem_of_mem_firstByName v hv)
  rw [show renamed (normalSubs (firstByName l)) v = w from same] at back
  rw [back]
  exact same

/-- One direction: the formula of the second binder is the formula of the first one, renamed. -/
theorem BinderOf.renameBy {nb : String × List Variable × TExpr} {a b e e' : TExpr} (h : BinderOf nb a e) (h' : BinderOf nb b e') :
    numberedVariables 0 (firstByName a.scan) = numberedVariables 0 (firstByName b.scan) ∧
      a.renameBy (unnumbered (firstByName b.scan) ∘ renamed (normalSubs (firstByName a.scan))) = b := by
  obtain ⟨name, rfl, read⟩ := h.name
  obtain ⟨name', same, read'⟩ := h'.name
  simp only [binderOver, normalizeFreeVariables, freeVariablesInOrder, Prod.mk.injEq,
    show firstByName e.occurrences = firstByName a.scan from h.order,
    show firstByName e'.occurrences = firstByName b.scan from h'.order] at same
  obtain ⟨rfl, params, body⟩ := same
  refine ⟨params, ?_⟩
  have body : e.substituteByName (normalSubs (firstByName a.scan)) = e'.substituteByName (normalSubs (firstByName b.scan)) := body
  have restored := h'.restorable.substitute (unnumbered (firstByName b.scan))
  rw [← body, h.restorable.substitute] at restored
  have fixed := h'.restorable.congr _ id fun v hv => unnumbered_renamed h'.one hv
  calc a.renameBy (unnumbered (firstByName b.scan) ∘ renamed (normalSubs (firstByName a.scan)))
      = readBack name (e.restore (unnumbered (firstByName b.scan) ∘ renamed (normalSubs (firstByName a.scan)))) := (read _).symm
    _ = readBack name (e'.restore id) := by rw [restored, ← fixed]; rfl
    _ = b := by rw [read', renameBy_id]

/-- Two formulas with the same binder are equal up to the names of their free variables. -/
theorem BinderOf.renamingOf {nb : String × List Variable × TExpr} {a b e e' : TExpr} (h : BinderOf nb a e) (h' : BinderOf nb b e') :
    RenamingOf a b := by
  obtain ⟨params, there⟩ := h.renameBy h'
  obtain ⟨-, back⟩ := h'.renameBy h
  have mem {l : List Variable} (one : OneSort l) {v : Variable} (hv : v ∈ l) :
      renamed (normalSubs (firstByName l)) v ∈ numberedVariables 0 (firstByName l) := by
    obtain ⟨w, hw, name⟩ := exists_mem_firstByName v hv
    obtain rfl := one w (mem_of_mem_firstByName w hw) v hv name
    exact renamed_normalFrom_mem hw
  refine ⟨_, _, fun v hv => ?_, fun v hv => ?_, there, back⟩
  · simp only [Function.comp_apply]
    rw [renamed_unnumbered h'.one (params ▸ mem h.one hv), unnumbered_renamed h.one hv]
  · simp only [Function.comp_apply]
    rw [renamed_unnumbered h.one (params ▸ mem h'.one hv), unnumbered_renamed h'.one hv]

/-- Where no renaming captures, the conversion of temporal operators and the normalization of the binders keep the value
of every formula. Two temporal formulas receive the same binder only if the operators that are converted for them are equal
up to the names of their free variables. -/
theorem replaceTemporals_spec :
    (∀ (e : TExpr) (s : FSort), e.Bindable s → ∃ e', e.replaceTemporals.normalizeNamedBinders none = some e' ∧
      ∀ {D : Domain} (M : Nat → Structure D) (W : WhenReading D) (i : Nat) (env : Env D),
        e'.eval M W i env = e.eval M W i env) ∧
    ∀ (t t' : TExpr) (s s' : FSort), t.Bindable s → t'.Bindable s' → ∀ nb, t.binderFor = some nb →
      t'.binderFor = some nb → RenamingOf t.operation t'.operation := by
  constructor
  · intro e s h
    exact ⟨_, h.converted⟩
  · intro t t' s s' h h' nb receives receives'
    obtain ⟨e, binds⟩ := h.binds receives
    obtain ⟨e', binds'⟩ := h'.binds receives'
    exact binds.renamingOf binds'

/-- `globally forall V1. r(V1, v)`, over one sort. -/
def globallyForAll (v : Variable) : TExpr :=
  .globally none (.forAll [⟨"V1", .uninterpreted "s"⟩] (.apply
    ⟨"r", .function [.uninterpreted "s", .uninterpreted "s"] .boolean⟩ [.var ⟨"V1", .uninterpreted "s"⟩, .var v]))

theorem replaceTemporals_spec_globallyForAll :
    (∃ e', (globallyForAll ⟨"X", .uninterpreted "s"⟩).replaceTemporals.normalizeNamedBinders none = some e' ∧
      ∀ {D : Domain} (M : Nat → Structure D) (W : WhenReading D) (i : Nat) (env : Env D),
        e'.eval M W i env = (globallyForAll ⟨"X", .uninterpreted "s"⟩).eval M W i env) ∧
    RenamingOf (globallyForAll ⟨"X", .uninterpreted "s"⟩).operation (globallyForAll ⟨"Y", .uninterpreted "s"⟩).operation := by
  have bindable : ∀ n, n ≠ "V1" → (globallyForAll ⟨n, .uninterpreted "s"⟩).Bindable .boolean := by
    intro n other
    refine ⟨?_, ?_, ?_⟩
    · simp [globallyForAll, OfSort, OfSortsT]
    · simp [globallyForAll, core, coreList, Consistent, ConsistentList, OneSort, scan, scanList, unboundNames, other]
    · simp [globallyForAll, core, coreList, CaptureFree, CaptureFreeList, NoCapture, NoCaptureList, scan, scanList, unboundNames,
        other, firstByName, normalSubs, numberedVariables, renamed]
      decide
  obtain ⟨value, unique⟩ := replaceTemporals_spec
  refine ⟨value _ _ (bindable "X" (by decide)), ?_⟩
  exact unique _ _ _ _ (bindable "X" (by decide)) (bindable "Y" (by decide)) _ rfl rfl

/-- `globally p` and `globally ~~p` receive the same binder. -/
theorem binderFor_cancels : ¬ ((∀ (e : TExpr) (s : FSort), e.OfSort s → e.core.Consistent →
      ∃ e', e.replaceTemporals.normalizeNamedBinders none = some e' ∧
        ∀ {D : Domain} (M : Nat → Structure D) (W : WhenReading D) (i : Nat) (env : Env D),
          e'.eval M W i env = e.eval M W i env) ∧
    ∀ (t t' : TExpr) (s s' : FSort), t.OfSort s → t.core.Consistent → t'.OfSort s' → t'.core.Consistent → ∀ nb,
      t.binderFor = some nb → t'.binderFor = some nb → RenamingOf t t') := by
  rintro ⟨-, unique⟩
  let p : TExpr := .const ⟨"p", .first .boolean⟩
  have sort : p.OfSort .boolean := rfl
  obtain ⟨ρ, -, -, -, same, -⟩ := unique (.globally none p) (.globally none (.not (.not p))) .boolean .boolean
    ⟨rfl, sort⟩ (by simp [p, core, Consistent, OneSort, scan]) ⟨rfl, rfl, rfl, sort⟩
    (by simp [p, core, cancelNot, Consistent, OneSort, scan]) _ rfl rfl
  have bodies := TExpr.globally.inj same
  exact TExpr.noConfusion bodies.2

end Goivy
