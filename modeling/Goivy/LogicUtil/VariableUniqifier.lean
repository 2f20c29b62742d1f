import Goivy.LogicUtil.AlphaEquivalence
import Goivy.Util.Renamer

/-! Alpha conversion with a new name for each variable, and the way back. -/
namespace Goivy.LogicUtil

section Definitions

structure VariableUniqifier where
  rn : UniqueRenamer
  /-- `InvMap`: the new variables with their originals. -/
  invMap : List (LogicVariable × LogicVariable)

/-- `NewVariableUniqifier`. -/
def newVariableUniqifier (used : List String) : VariableUniqifier := ⟨⟨"", used⟩, []⟩

/-- The uniqifier and the variables in scope, with their new ones. -/
structure Scope where
  vu : VariableUniqifier
  vmap : LogicVariable → Option LogicVariable

/-- `NewVariable`. -/
def newVariable (name : String) (sort : LSort) : Option LogicVariable :=
  match name.toList with
  | [] => none
  | c :: _ => if c.isUpper then some ⟨name, sort⟩ else none

/-- A new variable for `v`. Its name starts like that of `v`, so `NewVariable` has no objection. -/
def Scope.add (s : Scope) (v : LogicVariable) : LogicVariable × Scope :=
  let (name, rn) := s.vu.rn.rename v.name
  let nv : LogicVariable := ⟨name, v.sort⟩
  (nv, ⟨⟨rn, (nv, v) :: s.vu.invMap⟩, Function.update s.vmap v (some nv)⟩)

/-- New variables for those of a binder. -/
def Scope.bind : Scope → List LogicVariable → List LogicVariable × Scope
  | s, [] => ([], s)
  | s, v :: vs => let (nv, s) := s.add v; let (nvs, s) := s.bind vs; (nv :: nvs, s)

/-- The entries of the bound variables are deleted, and those that were saved are set again. -/
def Scope.leave (s old : Scope) (vs : List LogicVariable) : Scope :=
  ⟨s.vu, fun v => if v ∈ vs then old.vmap v else s.vmap v⟩

/-- `IsBinder`. -/
def Binder.isBinder : Binder → Bool
  | .rawForAll _ => false
  | _ => true

/-- `CloneBinder`. A description keeps its parts. -/
def cloneBinder (b : Binder) (parts : List Expr) (vs : List LogicVariable) (body : List Expr) : Expr :=
  if b.isDescription then .bind b vs parts else .bind b (b.variables vs) body

mutual
/-- `rec`. `BinderBody` of a description is its formula. -/
def Expr.uniquify : Expr → Scope → Expr × Scope
  | .symbol (.var v), s =>
    match s.vmap v with
    | some w => (.symbol (.var w), s)
    | none => let (nv, s) := s.add v; (.symbol (.var nv), s)
  | .symbol (.const c), s => (.symbol (.const c), s)
  | .apply f ts, s => let (us, s) := uniquifyList ts s; (.apply f us, s)
  | .node op ts, s => let (us, s) := uniquifyList ts s; (.node op us, s)
  | .bind b vs ts, old =>
    if b.isBinder then
      let (nvs, s) := old.bind vs
      let (us, s) := if b.isDescription then uniquifyFirst ts s else uniquifyList ts s
      (cloneBinder b ts nvs us, s.leave old vs)
    else
      let (us, s) := uniquifyList ts old
      (.bind b vs us, s)
def uniquifyList : List Expr → Scope → List Expr × Scope
  | [], s => ([], s)
  | t :: ts, s => let (u, s) := t.uniquify s; let (us, s) := uniquifyList ts s; (u :: us, s)
def uniquifyFirst : List Expr → Scope → List Expr × Scope
  | [], s => ([], s)
  | t :: _, s => let (u, s) := t.uniquify s; ([u], s)
end

namespace VariableUniqifier

/-- `Uniquify`. -/
def uniquify (vu : VariableUniqifier) (fmla : Expr) : Expr × VariableUniqifier :=
  let (g, s) := fmla.uniquify ⟨vu, fun _ => none⟩
  (g, s.vu)

/-- One call of `Uniquify` for each formula. -/
def uniquifyAll (vu : VariableUniqifier) (fmlas : List Expr) : VariableUniqifier :=
  fmlas.foldl (fun vu fmla => (vu.uniquify fmla).2) vu

/-- `Undo`, with `none` for the nil that is left where `Substitute` returns an error. -/
def undo (vu : VariableUniqifier) (fmla : Expr) : Option Expr :=
  fmla.substitute (vu.invMap.map fun (nv, v) => (.var nv, .symbol (.var v)))

/-- `v` is the original of `w`. -/
def Original (vu : VariableUniqifier) (v w : LogicVariable) : Prop := vu.invMap.lookup w = some v

end VariableUniqifier

end Definitions

section NewNames

theorem rename_toList (rn : UniqueRenamer) (plain : rn.namePrefix = "") {name : String} (nonempty : name ≠ "") :
    ∃ t, (rn.rename name).1.toList = name.toList ++ t := by
  rw [UniqueRenamer.rename, plain, String.empty_append]
  dsimp only
  split
  · exact ⟨[], (List.append_nil _).symm⟩
  · obtain ⟨t, shape⟩ := unusedNameFrom_shape name rn.used rn.used.length 0
    refine ⟨("_" ++ t).toList, ?_⟩
    rw [unusedNameWithBase, shape, String.append_assoc, String.toList_append]

theorem newVariable_rename (rn : UniqueRenamer) (plain : rn.namePrefix = "") {v : LogicVariable}
    (h : newVariable v.name v.sort = some v) : newVariable (rn.rename v.name).1 v.sort = some ⟨(rn.rename v.name).1, v.sort⟩ := by
  have nonempty : v.name ≠ "" := by
    intro empty
    rw [newVariable, empty] at h
    contradiction
  obtain ⟨t, shape⟩ := rename_toList rn plain nonempty
  rw [newVariable] at h ⊢
  cases letters : v.name.toList with
  | nil => exact absurd (String.toList_inj.mp letters) nonempty
  | cons c cs =>
    rw [letters] at h
    rw [shape, letters]
    dsimp only [List.cons_append] at h ⊢
    split at h
    · rename_i upper
      rw [if_pos upper]
    · contradiction

end NewNames

section Scopes

variable {s s₁ s₂ : Scope} {ctx : Context} {vs nvs : List LogicVariable}

/-- The new variables in scope are those of the enclosing binders, or stand for free ones. Their names are used. -/
structure Scope.Fits (s : Scope) (ctx : Context) : Prop where
  original : ∀ {v w}, s.vu.Original v w → w.name ∈ s.vu.rn.used
  used : ∀ {v w}, s.vmap v = some w → w.name ∈ s.vu.rn.used
  corresponds : ∀ {v w}, s.vmap v = some w → Corresponds s.vu.Original ctx v w
  bound : ∀ p ∈ ctx, ∃ w, s.vmap p.1 = some w
  taken : ∀ p ∈ ctx, p.2.name ∈ s.vu.rn.used

/-- What was in scope stays there, and what is new has a new name. -/
structure Scope.Extends (s s' : Scope) : Prop where
  used : s.vu.rn.used ⊆ s'.vu.rn.used
  original : ∀ v w, s.vu.Original v w → s'.vu.Original v w
  vmap : ∀ {v w}, s.vmap v = some w → s'.vmap v = some w
  fresh : ∀ {v w}, s'.vmap v = some w → s.vmap v = some w ∨ w.name ∉ s.vu.rn.used

theorem Scope.Extends.refl (s : Scope) : s.Extends s := ⟨List.Subset.refl _, fun _ _ h => h, fun h => h, .inl⟩

theorem Scope.Extends.trans (h : s.Extends s₁) (h' : s₁.Extends s₂) : s.Extends s₂ where
  used := List.Subset.trans h.used h'.used
  original v w old := h'.original v w (h.original v w old)
  vmap old := h'.vmap (h.vmap old)
  fresh new := (h'.fresh new).elim h.fresh fun other => .inr fun used => other (h.used used)

theorem Scope.add_fresh (s : Scope) (v : LogicVariable) : (s.add v).1.name ∉ s.vu.rn.used := s.vu.rn.rename_not_mem v.name

theorem Scope.add_vmap (s : Scope) (v u : LogicVariable) : (s.add v).2.vmap u = if u = v then some (s.add v).1 else s.vmap u :=
  Function.update_apply _ _ _ _

theorem Scope.add_original (s : Scope) (v u w : LogicVariable) :
    (s.add v).2.vu.Original u w ↔ if w = (s.add v).1 then v = u else s.vu.Original u w := by
  change (((s.add v).1, v) :: s.vu.invMap).lookup w = some u ↔ _
  rw [InsMap.lookup_cons]
  split
  · exact Option.some_inj
  · exact Iff.rfl

theorem Scope.Fits.add_mono (fits : s.Fits ctx) (v : LogicVariable) (u w : LogicVariable) (h : s.vu.Original u w) :
    (s.add v).2.vu.Original u w := by
  have other : w ≠ (s.add v).1 := by
    rintro rfl
    exact s.add_fresh v (fits.original h)
  rwa [Scope.add_original, if_neg other]

theorem Scope.Fits.add_bound (fits : s.Fits ctx) (v : LogicVariable) : (s.add v).2.Fits ((v, (s.add v).1) :: ctx) := by
  have known : ∀ {n}, n ∈ s.vu.rn.used → n ∈ (s.add v).2.vu.rn.used := List.mem_cons_of_mem _
  have new : (s.add v).1.name ∈ (s.add v).2.vu.rn.used := List.mem_cons_self
  constructor
  · intro u w h
    rw [Scope.add_original] at h
    split at h
    · rename_i same
      exact same ▸ new
    · exact known (fits.original h)
  · intro u w h
    rw [Scope.add_vmap] at h
    split at h
    · exact Option.some.inj h ▸ new
    · exact known (fits.used h)
  · intro u w h
    rw [Scope.add_vmap] at h
    split at h
    · rename_i same
      exact .inl ⟨same, (Option.some.inj h).symm⟩
    · rename_i other
      refine .inr ⟨other, ?_, (fits.corresponds h).mono (fits.add_mono v)⟩
      rintro rfl
      exact s.add_fresh v (fits.used h)
  · rw [List.forall_mem_cons]
    refine ⟨⟨_, (s.add_vmap v v).trans (if_pos rfl)⟩, fun p hp => ?_⟩
    rw [Scope.add_vmap]
    split
    · exact ⟨_, rfl⟩
    · exact fits.bound p hp
  · rw [List.forall_mem_cons]
    exact ⟨new, fun p hp => known (fits.taken p hp)⟩

theorem Scope.Fits.notMem_fst (fits : s.Fits ctx) {v : LogicVariable} (free : s.vmap v = none) : v ∉ ctx.map Prod.fst := by
  intro bound
  obtain ⟨p, hp, rfl⟩ := List.mem_map.mp bound
  obtain ⟨w, hw⟩ := fits.bound p hp
  exact Option.some_ne_none w (hw.symm.trans free)

theorem Scope.Fits.notMem_snd (fits : s.Fits ctx) (v : LogicVariable) : (s.add v).1 ∉ ctx.map Prod.snd := by
  intro taken
  obtain ⟨p, hp, same⟩ := List.mem_map.mp taken
  exact s.add_fresh v (same ▸ fits.taken p hp)

/-- A free variable corresponds to its new one. -/
theorem Scope.Fits.add_free (fits : s.Fits ctx) {v : LogicVariable} (free : s.vmap v = none) :
    (s.add v).2.Fits ctx ∧ Corresponds (s.add v).2.vu.Original ctx v (s.add v).1 := by
  have here : Corresponds (s.add v).2.vu.Original ctx v (s.add v).1 := by
    rw [corresponds_of_notMem (fits.notMem_fst free) (fits.notMem_snd v), Scope.add_original, if_pos rfl]
  have inner := fits.add_bound v
  refine ⟨⟨inner.original, inner.used, fun {u w} h => ?_, fun p hp => ?_, fun p hp => ?_⟩, here⟩
  · obtain ⟨rfl, rfl⟩ | ⟨-, -, rest⟩ := inner.corresponds h
    · exact here
    · exact rest
  · exact inner.bound p (List.mem_cons_of_mem _ hp)
  · exact inner.taken p (List.mem_cons_of_mem _ hp)

theorem Scope.Fits.add_extends (fits : s.Fits ctx) {v : LogicVariable} (free : s.vmap v = none) : s.Extends (s.add v).2 where
  used := List.subset_cons_self _ _
  original := fits.add_mono v
  vmap {u w} h := by
    rw [Scope.add_vmap, if_neg]
    · exact h
    · rintro rfl
      exact Option.some_ne_none w (h.symm.trans free)
  fresh {u w} h := by
    rw [Scope.add_vmap] at h
    split at h
    · exact .inr (Option.some.inj h ▸ s.add_fresh v)
    · exact .inl h

/-- What `bind` does to the scope. -/
structure Scope.Bound (s s₁ : Scope) (vs nvs : List LogicVariable) : Prop where
  used : s.vu.rn.used ⊆ s₁.vu.rn.used
  original : ∀ v w, s.vu.Original v w → s₁.vu.Original v w
  fresh : ∀ w ∈ nvs, w.name ∉ s.vu.rn.used ∧ w.name ∈ s₁.vu.rn.used
  sorts : nvs.map LogicVariable.sort = vs.map LogicVariable.sort
  distinct : (nvs.map LogicVariable.name).Nodup
  other : ∀ v, v ∉ vs → s₁.vmap v = s.vmap v
  bound : ∀ v ∈ vs, ∃ w ∈ nvs, s₁.vmap v = some w

theorem Scope.bind_spec (vs : List LogicVariable) (fits : s.Fits ctx) :
    (s.bind vs).2.Fits ((vs.zip (s.bind vs).1).reverse ++ ctx) ∧ s.Bound (s.bind vs).2 vs (s.bind vs).1 := by
  induction vs generalizing s ctx with
  | nil =>
    refine ⟨fits, List.Subset.refl _, fun _ _ h => h, ?_, rfl, List.nodup_nil, fun _ _ => rfl, ?_⟩
    all_goals exact fun _ h => absurd h List.not_mem_nil
  | cons v vs ih =>
    obtain ⟨inner, rest⟩ := ih (fits.add_bound v)
    have new : (s.add v).1.name ∈ (s.add v).2.vu.rn.used := List.mem_cons_self
    have known : s.vu.rn.used ⊆ (s.add v).2.vu.rn.used := List.subset_cons_self _ _
    refine ⟨?_, List.Subset.trans known rest.used, fun u w h => rest.original u w (fits.add_mono v u w h), ?_, ?_, ?_, ?_, ?_⟩
    · rw [Scope.bind, List.zip_cons_cons, List.reverse_cons, List.append_assoc]
      exact inner
    · rw [Scope.bind, List.forall_mem_cons]
      exact ⟨⟨s.add_fresh v, rest.used new⟩, fun w hw => ⟨fun old => (rest.fresh w hw).1 (known old), (rest.fresh w hw).2⟩⟩
    · exact congrArg (v.sort :: ·) rest.sorts
    · refine List.nodup_cons.mpr ⟨fun again => ?_, rest.distinct⟩
      obtain ⟨w, hw, same⟩ := List.mem_map.mp again
      exact (rest.fresh w hw).1 (same ▸ new)
    · intro u hu
      rw [List.mem_cons, not_or] at hu
      rw [Scope.bind, rest.other u hu.2, Scope.add_vmap, if_neg hu.1]
    · intro u hu
      by_cases later : u ∈ vs
      · obtain ⟨w, hw, entry⟩ := rest.bound u later
        exact ⟨w, List.mem_cons_of_mem _ hw, entry⟩
      · refine ⟨(s.add v).1, List.mem_cons_self, ?_⟩
        rw [Scope.bind, rest.other u later, Scope.add_vmap, if_pos ((List.mem_cons.mp hu).resolve_right later)]

/-- After a binder the scope is what it was before, with the free variables that were met inside. -/
theorem Scope.Fits.leave (fits : s.Fits ctx) (bound : s.Bound s₁ vs nvs) (grown : s₁.Extends s₂)
    (inner : s₂.Fits ((vs.zip nvs).reverse ++ ctx)) : (s₂.leave s vs).Fits ctx ∧ s.Extends (s₂.leave s vs) := by
  have used : s.vu.rn.used ⊆ s₂.vu.rn.used := List.Subset.trans bound.used grown.used
  have original : ∀ v w, s.vu.Original v w → s₂.vu.Original v w := fun v w h => grown.original v w (bound.original v w h)
  have entry : ∀ v, (s₂.leave s vs).vmap v = if v ∈ vs then s.vmap v else s₂.vmap v := fun _ => rfl
  refine ⟨⟨inner.original, fun {v w} h => ?_, fun {v w} h => ?_, fun p hp => ?_, fun p hp => used (fits.taken p hp)⟩,
    used, original, fun {v w} h => ?_, fun {v w} h => ?_⟩
  · rw [entry] at h
    split at h
    · exact used (fits.used h)
    · exact inner.used h
  · rw [entry] at h
    split at h
    · exact (fits.corresponds h).mono original
    · rename_i outside
      refine (inner.corresponds h).outside fun mem => ?_
      rw [List.map_reverse, List.mem_reverse] at mem
      obtain ⟨q, hq, rfl⟩ := List.mem_map.mp mem
      exact outside (List.of_mem_zip hq).1
  · rw [entry]
    split
    · exact fits.bound p hp
    · exact inner.bound p (List.mem_append_right _ hp)
  · rw [entry]
    split
    · exact h
    · rename_i outside
      exact grown.vmap ((bound.other v outside).trans h)
  · rw [entry] at h
    split at h
    · exact .inl h
    · rename_i outside
      rw [← bound.other v outside]
      exact (grown.fresh h).imp_right fun new old => new (bound.used old)

end Scopes

section Walk

variable {s s₁ s₂ : Scope} {ctx : Context} {vs nvs : List LogicVariable}

/-- What the walk over an expression does: the result is the expression up to names. -/
structure Walked (e : Expr) (s : Scope) (ctx : Context) (r : Expr × Scope) : Prop where
  fits : r.2.Fits ctx
  grown : s.Extends r.2
  alphaEq : AlphaEq r.2.vu.Original false ctx e r.1

structure WalkedList (ts : List Expr) (s : Scope) (ctx : Context) (r : List Expr × Scope) : Prop where
  fits : r.2.Fits ctx
  grown : s.Extends r.2
  alphaEq : AlphaEqList r.2.vu.Original false ctx ts r.1

theorem walkedList {ts : List Expr} (ih : ∀ t ∈ ts, ∀ {s : Scope} {ctx : Context}, s.Fits ctx → Walked t s ctx (t.uniquify s))
    (fits : s.Fits ctx) : WalkedList ts s ctx (uniquifyList ts s) := by
  induction ts generalizing s with
  | nil => exact ⟨fits, .refl s, trivial⟩
  | cons t ts tail =>
    rw [List.forall_mem_cons] at ih
    have head := ih.1 fits
    have rest := tail ih.2 head.fits
    exact ⟨rest.fits, head.grown.trans rest.grown, head.alphaEq.mono rest.grown.original, rest.alphaEq⟩

theorem uniquify_walked (e : Expr) (fits : s.Fits ctx) : Walked e s ctx (e.uniquify s) := by
  induction e generalizing s ctx with
  | symbol x =>
    cases x with
    | const c => exact ⟨fits, .refl s, rfl⟩
    | var v =>
      rw [Expr.uniquify]
      split
      · rename_i w known
        exact ⟨fits, .refl s, fits.corresponds known⟩
      · rename_i free
        obtain ⟨after, here⟩ := fits.add_free free
        exact ⟨after, fits.add_extends free, here⟩
  | apply f ts _ ih =>
    have args := walkedList (fun t ht _ _ => ih t ht) fits
    exact ⟨args.fits, args.grown, rfl, args.alphaEq⟩
  | node op ts ih =>
    have args := walkedList (fun t ht _ _ => ih t ht) fits
    exact ⟨args.fits, args.grown, rfl, args.alphaEq⟩
  | bind b vs ts ih =>
    obtain ⟨inner, bound⟩ := Scope.bind_spec vs fits
    rw [Expr.uniquify]
    dsimp only
    split_ifs with binder description
    · have first : (uniquifyFirst ts (s.bind vs).2).2.Fits ((vs.zip (s.bind vs).1).reverse ++ ctx) ∧
          (s.bind vs).2.Extends (uniquifyFirst ts (s.bind vs).2).2 := by
        cases ts with
        | nil => exact ⟨inner, .refl _⟩
        | cons t ts =>
          have body := ih t List.mem_cons_self inner
          exact ⟨body.fits, body.grown⟩
      obtain ⟨after, grown⟩ := fits.leave bound first.2 first.1
      refine ⟨after, grown, ?_⟩
      rw [cloneBinder, if_pos description]
      have other : (false || b.isScope) ≠ true := by
        cases b with
        | some _ _ => exact Bool.false_ne_true
        | _ => contradiction
      refine ⟨rfl, ?_⟩
      rw [if_neg other, if_pos description]
      exact ⟨bound.sorts, rfl⟩
    · have parts := walkedList (fun t ht _ _ => ih t ht) inner
      obtain ⟨after, grown⟩ := fits.leave bound parts.grown parts.fits
      refine ⟨after, grown, ?_⟩
      rw [cloneBinder, if_neg description]
      have scope : (false || b.isScope) = true := by
        cases b with
        | rawForAll | some => contradiction
        | _ => rfl
      refine ⟨rfl, ?_⟩
      rw [if_pos scope]
      exact ⟨(s.bind vs).1, pairs_variables bound.sorts bound.distinct.of_map, parts.alphaEq⟩
    · have parts := walkedList (fun t ht _ _ => ih t ht) fits
      refine ⟨parts.fits, parts.grown, rfl, ?_⟩
      cases b with
      | rawForAll => exact ⟨rfl, parts.alphaEq⟩
      | _ => contradiction

theorem uniquifyList_walked (ts : List Expr) (fits : s.Fits ctx) : WalkedList ts s ctx (uniquifyList ts s) :=
  walkedList (fun t _ _ _ => uniquify_walked t) fits

/-- The variables bound and those free in what a walk returns: their names are new, each binder has its own, and what stays in
scope has others. -/
structure Named (s s' : Scope) (bound free : List LogicVariable) : Prop where
  distinct : (bound.map LogicVariable.name).Nodup
  fresh : ∀ v ∈ bound, v.name ∉ s.vu.rn.used ∧ v.name ∈ s'.vu.rn.used
  apart : ∀ {v w}, s'.vmap v = some w → w.name ∉ bound.map LogicVariable.name
  free : ∀ w ∈ free, ∃ v, s'.vmap v = some w

theorem Named.nil (s : Scope) : Named s s [] [] :=
  ⟨List.nodup_nil, fun _ h => absurd h List.not_mem_nil, fun _ => List.not_mem_nil, fun _ h => absurd h List.not_mem_nil⟩

variable {bound bound' free free' : List LogicVariable}

theorem Named.append (first : Named s s₁ bound free) (second : Named s₁ s₂ bound' free') (grown : s.Extends s₁)
    (grown' : s₁.Extends s₂) : Named s s₂ (bound ++ bound') (free ++ free') := by
  constructor
  · rw [List.map_append]
    refine List.nodup_append.mpr ⟨first.distinct, second.distinct, fun n hn m hm same => ?_⟩
    obtain ⟨v, hv, rfl⟩ := List.mem_map.mp hn
    obtain ⟨w, hw, rfl⟩ := List.mem_map.mp hm
    exact (second.fresh w hw).1 (same ▸ (first.fresh v hv).2)
  · rw [List.forall_mem_append]
    refine ⟨fun v hv => ⟨(first.fresh v hv).1, grown'.used (first.fresh v hv).2⟩, fun v hv => ⟨fun old => ?_, (second.fresh v hv).2⟩⟩
    exact (second.fresh v hv).1 (grown.used old)
  · intro v w entry
    rw [List.map_append, List.mem_append, not_or]
    refine ⟨fun taken => ?_, second.apart entry⟩
    rcases grown'.fresh entry with old | new
    · exact first.apart old taken
    · obtain ⟨u, hu, same⟩ := List.mem_map.mp taken
      exact new (same ▸ (first.fresh u hu).2)
  · rw [List.forall_mem_append]
    refine ⟨fun w hw => ?_, second.free⟩
    obtain ⟨v, entry⟩ := first.free w hw
    exact ⟨v, grown'.vmap entry⟩

theorem Named.bind (binds : s.Bound s₁ vs nvs) (fits : s.Fits ctx) (grown : s₁.Extends s₂) (body : Named s₁ s₂ bound free) (b : Binder) :
    Named s (s₂.leave s vs) (b.variables nvs ++ bound) (free.filter (· ∉ b.variables nvs)) := by
  have perm : (b.variables nvs).Perm nvs := by
    cases b with
    | forAll | rawForAll | «exists» => exact deduplicateAndSort_perm binds.distinct.of_map
    | _ => exact List.Perm.refl nvs
  constructor
  · rw [List.map_append]
    refine List.nodup_append.mpr ⟨(perm.map _).nodup_iff.mpr binds.distinct, body.distinct, fun n hn m hm same => ?_⟩
    obtain ⟨v, hv, rfl⟩ := List.mem_map.mp hn
    obtain ⟨w, hw, rfl⟩ := List.mem_map.mp hm
    exact (body.fresh w hw).1 (same ▸ (binds.fresh v (perm.mem_iff.mp hv)).2)
  · rw [List.forall_mem_append]
    refine ⟨fun v hv => ?_, fun v hv => ⟨fun old => (body.fresh v hv).1 (binds.used old), (body.fresh v hv).2⟩⟩
    obtain ⟨new, used⟩ := binds.fresh v (perm.mem_iff.mp hv)
    exact ⟨new, grown.used used⟩
  · intro v w entry
    have known : s.vmap v = some w → w.name ∉ (b.variables nvs ++ bound).map LogicVariable.name := by
      intro old taken
      obtain ⟨u, hu, same⟩ := List.mem_map.mp taken
      rcases List.mem_append.mp hu with here | inside
      · exact (binds.fresh u (perm.mem_iff.mp here)).1 (same ▸ fits.used old)
      · exact (body.fresh u inside).1 (same ▸ binds.used (fits.used old))
    change (if v ∈ vs then s.vmap v else s₂.vmap v) = some w at entry
    split at entry
    · exact known entry
    · rename_i outside
      rcases grown.fresh entry with old | new
      · exact known ((binds.other v outside).symm.trans old)
      · rw [List.map_append, List.mem_append, not_or]
        refine ⟨fun taken => ?_, body.apart entry⟩
        obtain ⟨u, hu, same⟩ := List.mem_map.mp taken
        exact new (same ▸ (binds.fresh u (perm.mem_iff.mp hu)).2)
  · intro w hw
    rw [List.mem_filter, decide_eq_true_eq, perm.mem_iff] at hw
    obtain ⟨v, entry⟩ := body.free w hw.1
    refine ⟨v, ?_⟩
    change (if v ∈ vs then s.vmap v else s₂.vmap v) = some w
    rw [if_neg]
    · exact entry
    · intro mem
      obtain ⟨u, hu, here⟩ := binds.bound v mem
      obtain rfl := Option.some.inj ((grown.vmap here).symm.trans entry)
      exact hw.2 hu

theorem namedList {ts : List Expr} (ih : ∀ t ∈ ts, ∀ {s : Scope} {ctx : Context}, s.Fits ctx →
    Named s (t.uniquify s).2 (t.uniquify s).1.boundVariables (t.uniquify s).1.freeVariables) (fits : s.Fits ctx) :
    Named s (uniquifyList ts s).2 (boundVariablesList (uniquifyList ts s).1) (freeVariablesList (uniquifyList ts s).1) := by
  induction ts generalizing s with
  | nil => exact .nil s
  | cons t ts tail =>
    rw [List.forall_mem_cons] at ih
    have walked := uniquify_walked t fits
    have rest := uniquifyList_walked ts walked.fits
    exact (ih.1 fits).append (tail ih.2 walked.fits) walked.grown rest.grown

theorem uniquify_named {e : Expr} (plain : e.plain = true) (fits : s.Fits ctx) :
    Named s (e.uniquify s).2 (e.uniquify s).1.boundVariables (e.uniquify s).1.freeVariables := by
  induction e generalizing s ctx with
  | symbol x =>
    cases x with
    | const c => exact .nil s
    | var v =>
      rw [Expr.uniquify]
      split
      · rename_i w known
        exact ⟨List.nodup_nil, fun _ h => absurd h List.not_mem_nil, fun _ => List.not_mem_nil, List.forall_mem_singleton.mpr ⟨v, known⟩⟩
      · refine ⟨List.nodup_nil, fun _ h => absurd h List.not_mem_nil, fun _ => List.not_mem_nil, List.forall_mem_singleton.mpr ⟨v, ?_⟩⟩
        exact (s.add_vmap v v).trans (if_pos rfl)
  | apply f ts _ ih =>
    obtain ⟨-, args⟩ := Expr.plain_apply plain
    exact namedList (fun t ht _ _ => ih t ht (args t ht)) fits
  | node op ts ih =>
    rw [Expr.plain, plainList_iff] at plain
    exact namedList (fun t ht _ _ => ih t ht (plain t ht)) fits
  | bind b vs ts ih =>
    obtain ⟨scope, parts⟩ := Expr.plain_bind plain
    obtain ⟨inner, binds⟩ := Scope.bind_spec vs fits
    have walked := uniquifyList_walked ts inner
    have body := namedList (fun t ht _ _ => ih t ht (parts t ht)) inner
    have result := Named.bind binds fits walked.grown body b
    cases b with
    | rawForAll | some => contradiction
    | _ => exact result

end Walk

section Undo

variable {vu : VariableUniqifier} {ctx : Context} {subs newsubs : Subs} {vs ws us : List LogicVariable}

/-- A substitution of the originals for the new variables that no enclosing binder binds, none of which is captured there. -/
structure Undoes (vu : VariableUniqifier) (ctx : Context) (subs : Subs) : Prop where
  var : ∀ w, subs.lookup (.var w) = if w ∈ ctx.map Prod.snd then none else (vu.invMap.lookup w).map fun v => .symbol (.var v)
  const : ∀ c, subs.lookup (.const c) = none
  apart : ∀ p ∈ subs, ∀ v ∈ p.2.freeVariables, v ∉ ctx.map Prod.snd

theorem undoes_invMap (vu : VariableUniqifier) :
    Undoes vu [] (vu.invMap.map fun (nv, v) => (Symbol.var nv, Expr.symbol (.var v))) := by
  refine ⟨fun w => ?_, fun c => ?_, fun _ _ _ _ => List.not_mem_nil⟩
  · rw [List.map_nil, if_neg List.not_mem_nil]
    induction vu.invMap with
    | nil => rfl
    | cons p inv ih =>
      rw [List.map_cons, InsMap.lookup_cons, InsMap.lookup_cons, ih]
      by_cases here : w = p.1 <;> simp [here]
  · rw [List.lookup_eq_none_iff]
    intro p hp
    obtain ⟨q, -, rfl⟩ := List.mem_map.mp hp
    rfl

theorem Undoes.bind {b : Binder} (undoes : Undoes vu ctx subs) (inner : substituteWithoutBoundVariables ws subs = some newsubs)
    (pairs : b.Pairs vs ws us) : Undoes vu ((vs.zip us).reverse ++ ctx) newsubs := by
  obtain ⟨rfl, free⟩ := substituteWithoutBoundVariables_spec inner
  have bound : ∀ w, w ∈ ((vs.zip us).reverse ++ ctx).map Prod.snd ↔ w ∈ ws ∨ w ∈ ctx.map Prod.snd := fun w => by
    rw [snd_pairs pairs.length, List.mem_append, List.mem_reverse, pairs.mem_iff]
  refine ⟨fun w => ?_, fun c => ?_, fun p hp v hv captured => ?_⟩
  · have mem : Symbol.var w ∈ ws.map Symbol.var ↔ w ∈ ws := List.mem_map_of_injective fun v w same => Symbol.var.inj same
    rw [InsMap.lookup_filter_notMem, undoes.var w]
    simp only [mem, bound]
    by_cases here : w ∈ ws <;> simp only [here, true_or, false_or, if_true, if_false]
  · rw [InsMap.lookup_filter_notMem, undoes.const, ite_self]
  · rcases (bound v).mp captured with here | outside
    · exact free v here p hp hv
    · exact undoes.apart p (List.mem_of_mem_filter hp) v hv outside

theorem newApply_eq {f e : Expr} {ts : List Expr} (h : newApply f ts = some e) : e = .apply f ts := by
  rw [newApply] at h
  split at h
  · exact (Option.some.inj h).symm
  · contradiction

theorem newNode_eq {op : Connective} {e : Expr} {ts : List Expr} (h : newNode op ts = some e) : e = .node op ts := by
  rw [newNode] at h
  split at h
  · exact (Option.some.inj h).symm
  · contradiction

theorem newBinder_eq {b : Binder} {e : Expr} {ts : List Expr} (h : newBinder b vs ts = some e) : e = .bind b (b.variables vs) ts := by
  rw [newBinder] at h
  split at h
  · exact (Option.some.inj h).symm
  · contradiction

theorem undoneList {ts gs hs : List Expr} (ih : ∀ t ∈ ts, ∀ {g h : Expr}, AlphaEq vu.Original false ctx t g →
      g.boundVariables.Nodup → g.substituteRec subs = some h → AlphaEq Eq false ctx t h)
    (same : AlphaEqList vu.Original false ctx ts gs) (distinct : (boundVariablesList gs).Nodup)
    (made : substituteList gs subs = some hs) : AlphaEqList Eq false ctx ts hs := by
  induction ts generalizing gs hs with
  | nil =>
    match gs with
    | [] =>
      obtain rfl := Option.some.inj made
      trivial
  | cons t ts tail =>
    match gs with
    | g :: gs =>
      rw [List.forall_mem_cons] at ih
      obtain ⟨h, first, rest⟩ := Option.bind_eq_some_iff.mp made
      obtain ⟨hs, others, rfl⟩ := Option.map_eq_some_iff.mp rest
      rw [boundVariablesList] at distinct
      exact ⟨ih.1 same.1 distinct.of_append_left first, tail ih.2 same.2 distinct.of_append_right others⟩

/-- What the substitution returns is the original expression, up to the names of bound variables. -/
theorem undone {e g h : Expr} (plain : e.plain = true) (same : AlphaEq vu.Original false ctx e g) (distinct : g.boundVariables.Nodup)
    (undoes : Undoes vu ctx subs) (made : g.substituteRec subs = some h) : AlphaEq Eq false ctx e h := by
  induction e generalizing g h ctx subs with
  | symbol x =>
    cases x with
    | const c =>
      cases g with
      | symbol y =>
        cases y with
        | const d =>
          rw [Expr.substituteRec, undoes.const] at made
          obtain rfl := Option.some.inj made
          exact same
        | var w => exact same.elim
      | _ => exact same.elim
    | var v =>
      cases g with
      | symbol y =>
        cases y with
        | const d => exact same.elim
        | var w =>
          rw [Expr.substituteRec, undoes.var] at made
          split at made
          · rename_i bound
            obtain rfl := Option.some.inj made
            exact Corresponds.of_mem same bound
          · rename_i free
            have left := Corresponds.notMem_fst same free
            have original : vu.invMap.lookup w = some v := (corresponds_of_notMem left free).mp same
            rw [original] at made
            obtain rfl := Option.some.inj made
            refine (corresponds_of_notMem left ?_).mpr rfl
            have listed := InsMap.mem_of_lookup (((undoes.var w).trans (if_neg free)).trans (congrArg _ original))
            exact undoes.apart _ listed v List.mem_cons_self
      | _ => exact same.elim
  | apply f ts _ ih =>
    cases g with
    | apply g gs =>
      obtain ⟨hs, terms, new⟩ := Option.bind_eq_some_iff.mp made
      obtain rfl := newApply_eq new
      exact ⟨same.1, undoneList (fun t ht _ _ same distinct made => ih t ht ((Expr.plain_apply plain).2 t ht) same distinct undoes made)
        same.2 distinct terms⟩
    | _ => exact same.elim
  | node op ts ih =>
    cases g with
    | node op' gs =>
      have rest : (substituteList gs subs).bind (newNode op') = some h := by
        cases op' with
        | cond => contradiction
        | _ => exact made
      obtain ⟨hs, args, new⟩ := Option.bind_eq_some_iff.mp rest
      obtain rfl := newNode_eq new
      rw [Expr.plain, plainList_iff] at plain
      exact ⟨same.1, undoneList (fun t ht _ _ same distinct made => ih t ht (plain t ht) same distinct undoes made) same.2 distinct args⟩
    | _ => exact same.elim
  | bind b vs ts ih =>
    cases g with
    | bind c ws gs =>
      obtain ⟨scope, parts⟩ := Expr.plain_bind plain
      have compared : (false || b.isScope) = true := by rw [scope, Bool.or_true]
      obtain ⟨rfl, both⟩ := same
      rw [if_pos compared] at both
      obtain ⟨us, pairs, each⟩ := both
      rw [Expr.boundVariables] at distinct
      obtain ⟨newsubs, inner, rest⟩ := Option.bind_eq_some_iff.mp made
      obtain ⟨hs, body, new⟩ := Option.bind_eq_some_iff.mp rest
      obtain rfl := newBinder_eq new
      refine ⟨rfl, ?_⟩
      rw [if_pos compared]
      exact ⟨us, pairs.variables distinct.of_append_left,
        undoneList (fun t ht _ _ same distinct made => ih t ht (parts t ht) same distinct (undoes.bind inner pairs) made) each
          distinct.of_append_right body⟩
    | _ => exact same.elim

end Undo

section Uniquify

variable {s : Scope} {ctx : Context}

/-- The names of the new variables are used. -/
def VariableUniqifier.Fits (vu : VariableUniqifier) : Prop := ∀ {v w}, vu.Original v w → w.name ∈ vu.rn.used

theorem VariableUniqifier.Fits.scope {vu : VariableUniqifier} (fits : vu.Fits) : (⟨vu, fun _ => none⟩ : Scope).Fits [] :=
  ⟨fits, fun h => absurd h.symm (Option.some_ne_none _), fun h => absurd h.symm (Option.some_ne_none _),
    fun _ h => absurd h List.not_mem_nil, fun _ h => absurd h List.not_mem_nil⟩

theorem fits_new (used : List String) : (newVariableUniqifier used).Fits := fun h => absurd h.symm (Option.some_ne_none _)

/-- After any number of formulas, the names of the new variables are used, and what has an original keeps it. -/
theorem uniquifyAll_spec {vu : VariableUniqifier} (fits : vu.Fits) (fmlas : List Expr) :
    (vu.uniquifyAll fmlas).Fits ∧ ∀ v w, vu.Original v w → (vu.uniquifyAll fmlas).Original v w := by
  induction fmlas generalizing vu with
  | nil => exact ⟨fits, fun _ _ h => h⟩
  | cons f fmlas ih =>
    have step := uniquify_walked f fits.scope
    have next : (vu.uniquify f).2.Fits := step.fits.original
    obtain ⟨rest, keeps⟩ := ih next
    exact ⟨rest, fun v w h => keeps v w (step.grown.original v w h)⟩

theorem undo_alphaEq {vu : VariableUniqifier} {e g h : Expr} (plain : e.plain = true) (same : AlphaEq vu.Original false [] e g)
    (distinct : g.boundVariables.Nodup) (made : vu.undo g = some h) : AlphaEq Eq false [] e h := by
  rw [VariableUniqifier.undo, Expr.substitute] at made
  split at made
  · rename_i empty
    obtain rfl := Option.some.inj made
    have none_ : vu.invMap = [] := List.map_eq_nil_iff.mp (List.isEmpty_iff.mp empty)
    refine same.mono fun v w original => ?_
    rw [VariableUniqifier.Original, none_] at original
    contradiction
  · exact undone plain same distinct (undoes_invMap vu) made

def predicateAtX (name : String) : Expr :=
  .apply (.symbol (.const ⟨name, .function [.uninterpreted "s"] .boolean⟩)) [.symbol (.var ⟨"X", sortS⟩)]

/-- `p(X) & forall X. (p(X) & exists X. q(X))`. -/
def shadowed : Expr :=
  .node .and [predicateAtX "p", .bind .forAll [⟨"X", sortS⟩] [.node .and [predicateAtX "p", .bind .exists [⟨"X", sortS⟩] [predicateAtX "q"]]]]

/-- `X = (some X. p(X))`. -/
def described : Expr := .node .eq [.symbol (.var ⟨"X", sortS⟩), .bind (.some false false) [⟨"X", sortS⟩] [predicateAtX "p"]]

end Uniquify

end Goivy.LogicUtil
