import Goivy.LogicUtil.AlphaEquality
import Goivy.LogicUtil.Capture
import Goivy.Util.Renamer

/-! Matching of trigger patterns with expressions. -/
namespace Goivy.LogicUtil

section Equality

mutual
/-- `Equal`. -/
def Expr.equal : Expr → Expr → Bool
  | .symbol x, .symbol y => x = y
  | .apply f ts, .apply g us => f.equal g && equalList ts us
  | .node op ts, .node op' us => op = op' && equalList ts us
  | .bind b vs ts, .bind c ws us => b = c && vs = ws && equalList ts us
  | _, _ => false
def equalList : List Expr → List Expr → Bool
  | [], [] => true
  | t :: ts, u :: us => t.equal u && equalList ts us
  | _, _ => false
end

theorem equalList_iff {ts us : List Expr} (each : ∀ t ∈ ts, ∀ u, t.equal u = true ↔ t = u) : equalList ts us = true ↔ ts = us := by
  induction ts generalizing us with
  | nil => cases us <;> simp [equalList]
  | cons t ts ih =>
    rw [List.forall_mem_cons] at each
    cases us with
    | nil => simp [equalList]
    | cons u us => rw [equalList, Bool.and_eq_true, each.1, ih each.2, List.cons.injEq]

theorem Expr.equal_iff {e e' : Expr} : e.equal e' = true ↔ e = e' := by
  induction e generalizing e' with
  | symbol x => cases e' <;> simp [equal]
  | apply f ts hf ih => cases e' <;> simp [equal, hf, equalList_iff fun t ht u => ih t ht]
  | node op ts ih => cases e' <;> simp [equal, equalList_iff fun t ht u => ih t ht]
  | bind b vs ts ih => cases e' <;> simp [equal, equalList_iff fun t ht u => ih t ht, and_assoc]

instance : DecidableEq Expr := fun _ _ => decidable_of_iff _ Expr.equal_iff

end Equality

section Definitions

/-- The bindings of variables by their names. -/
abbrev Bindings := List (String × Expr)

/-- `IsQuantifier`. -/
def Binder.quantifies : Binder → Bool
  | .forAll | .exists => true
  | _ => false

/-- A binder without its labels, as the type of the node says it. -/
def Binder.kind : Binder → Binder
  | .rawForAll _ => .rawForAll false
  | .namedBinder _ _ => .namedBinder "" none
  | .some _ _ => .some false false
  | b => b

/-- `NodeArgs` of a binder. The parameters of a description are among its arguments. -/
def Binder.nodeArgs (b : Binder) (vs : List LogicVariable) (parts : List Expr) : List Expr :=
  if b.isDescription then vs.map (fun v => .symbol (.var v)) ++ parts else parts

/-- A name is bound, or its value compared. -/
def bindName (k : String) (e : Expr) (mp : Bindings) : Option Bindings :=
  match mp.lookup k with
  | some existing => if e = existing then some mp else none
  | none => some ((k, e) :: mp)

def matchVariable (v : LogicVariable) (e : Expr) (mp : Bindings) : Option Bindings := bindName v.name e mp

/-- Matches the parameters of a description, and returns the arguments that are left. -/
def matchParams : List LogicVariable → List Expr → Bindings → Option (List Expr × Bindings)
  | [], es, mp => some (es, mp)
  | v :: vs, e :: es, mp => (matchVariable v e mp).bind (matchParams vs es)
  | _ :: _, [], _ => none

mutual
/-- `PatternMatch`. What a failed match leaves in the map is never read: an equation above restores the map, and elsewhere the
whole match fails. -/
def patternMatch : Expr → Expr → Bindings → Option Bindings
  | .symbol (.var v), e, mp => matchVariable v e mp
  | .symbol (.const _), .symbol (.const _), mp => some mp
  | .apply f ts, .apply g us, mp => if f = g ∧ ts.length = us.length then patternMatchList ts us mp else none
  | .node op ts, .node op' us, mp =>
    if AlphaEquality.connectiveType op = AlphaEquality.connectiveType op' ∧ ts.length = us.length then
      match op, us with
      | .eq, [s, t] => (patternMatchList ts [s, t] mp).or (patternMatchList ts [t, s] mp)
      | _, us => patternMatchList ts us mp
    else none
  | .bind b vs ts, .bind c ws us, mp =>
    if b.quantifies = false ∧ b.kind = c.kind ∧ (b.nodeArgs vs ts).length = (c.nodeArgs ws us).length then
      (matchParams (if b.isDescription then vs else []) (c.nodeArgs ws us) mp).bind fun r => patternMatchList ts r.1 r.2
    else none
  | _, _, _ => none
def patternMatchList : List Expr → List Expr → Bindings → Option Bindings
  | [], [], mp => some mp
  | t :: ts, u :: us, mp => (patternMatch t u mp).bind (patternMatchList ts us)
  | _, _, _ => none
end

mutual
/-- The expression with terms for its free variables, outside the heads of applications. -/
def Expr.instantiate : Expr → (LogicVariable → Option Expr) → Expr
  | .symbol (.var v), τ => (τ v).getD (.symbol (.var v))
  | .symbol (.const c), _ => .symbol (.const c)
  | .apply f ts, τ => .apply f (instantiateList ts τ)
  | .node op ts, τ => .node op (instantiateList ts τ)
  | .bind b vs ts, τ => .bind b vs (instantiateList ts fun v => if v ∈ vs then none else τ v)
def instantiateList : List Expr → (LogicVariable → Option Expr) → List Expr
  | [], _ => []
  | t :: ts, τ => t.instantiate τ :: instantiateList ts τ
end

/-- The terms for the variables of each name. -/
def Bindings.value (mp : Bindings) (v : LogicVariable) : Option Expr := mp.lookup v.name

variable (swap : Bool)

mutual
/-- Equality, up to the sides of equations if they can be swapped. -/
def SwapEq : Expr → Expr → Prop
  | .symbol x, .symbol y => x = y
  | .apply f ts, .apply g us => f = g ∧ SwapEqList ts us
  | .node op ts, .node op' us => op = op' ∧ (SwapEqList ts us ∨ swap = true ∧ op = .eq ∧ SwapEqList ts us.reverse)
  | .bind b vs ts, .bind c ws us => b = c ∧ vs = ws ∧ SwapEqList ts us
  | _, _ => False
def SwapEqList : List Expr → List Expr → Prop
  | [], [] => True
  | t :: ts, u :: us => SwapEq t u ∧ SwapEqList ts us
  | _, _ => False
end

mutual
/-- The expression is the pattern with terms for its variables, up to the constants outside heads, the labels of operators and the
variables of binders, and the sides of equations if they can be swapped. -/
def Similar (σ : String → Expr) : Expr → Expr → Prop
  | .symbol (.var v), e => e = σ v.name
  | .symbol (.const _), .symbol (.const _) => True
  | .apply f ts, .apply g us => f = g ∧ SimilarList σ ts us
  | .node op ts, .node op' us => AlphaEquality.connectiveType op = AlphaEquality.connectiveType op' ∧
    (SimilarList σ ts us ∨ swap = true ∧ op = .eq ∧ SimilarList σ ts us.reverse)
  | .bind b vs ts, .bind c ws us => b.quantifies = false ∧ b.kind = c.kind ∧
    (b.isDescription = true → (vs.map fun v => σ v.name) = ws.map fun w => .symbol (.var w)) ∧ SimilarList σ ts us
  | _, _ => False
def SimilarList (σ : String → Expr) : List Expr → List Expr → Prop
  | [], [] => True
  | t :: ts, u :: us => Similar σ t u ∧ SimilarList σ ts us
  | _, _ => False
end

end Definitions

section Conditions

/-- The connectives that have a label which their type does not say. -/
def Connective.labelled : Connective → Bool
  | .globally _ | .eventually _ | .whenOperator _ => true
  | _ => false

/-- What a match does not compare. -/
inductive Mark
  | const (c : Const)
  | label (op : Connective)
  | bound (vs : List LogicVariable)

mutual
/-- The constants outside heads, the operators with a label, and the binders. -/
def Expr.marks : Expr → List Mark
  | .symbol (.var _) => []
  | .symbol (.const c) => [.const c]
  | .apply _ ts => marksList ts
  | .node op ts => if op.labelled then .label op :: marksList ts else marksList ts
  | .bind _ vs ts => .bound vs :: marksList ts
def marksList : List Expr → List Mark
  | [] => []
  | t :: ts => t.marks ++ marksList ts
end

mutual
/-- There are no quantifiers, and each description describes some variable. -/
def Expr.quantifierFree : Expr → Bool
  | .symbol _ => true
  | .apply _ ts | .node _ ts => quantifierFreeList ts
  | .bind b vs ts => !b.quantifies && (!b.isDescription || !vs.isEmpty) && quantifierFreeList ts
def quantifierFreeList : List Expr → Bool
  | [] => true
  | t :: ts => t.quantifierFree && quantifierFreeList ts
end

mutual
def Expr.binderFree : Expr → Bool
  | .symbol _ => true
  | .apply _ ts | .node _ ts => binderFreeList ts
  | .bind _ _ _ => false
def binderFreeList : List Expr → Bool
  | [] => true
  | t :: ts => t.binderFree && binderFreeList ts
end

mutual
def Expr.equalityFree : Expr → Bool
  | .symbol _ => true
  | .apply _ ts | .bind _ _ ts => equalityFreeList ts
  | .node op ts => op ≠ .eq && equalityFreeList ts
def equalityFreeList : List Expr → Bool
  | [] => true
  | t :: ts => t.equalityFree && equalityFreeList ts
end

variable {ts : List Expr}

theorem marksList_eq (ts : List Expr) : marksList ts = ts.flatMap Expr.marks := by
  induction ts with
  | nil => rfl
  | cons t ts ih => rw [marksList, ih, List.flatMap_cons]

theorem quantifierFreeList_iff : quantifierFreeList ts = true ↔ ∀ t ∈ ts, t.quantifierFree = true := by
  induction ts with
  | nil => simp [quantifierFreeList]
  | cons t ts ih => simp [quantifierFreeList, ih]

theorem binderFreeList_iff : binderFreeList ts = true ↔ ∀ t ∈ ts, t.binderFree = true := by
  induction ts with
  | nil => simp [binderFreeList]
  | cons t ts ih => simp [binderFreeList, ih]

theorem equalityFreeList_iff : equalityFreeList ts = true ↔ ∀ t ∈ ts, t.equalityFree = true := by
  induction ts with
  | nil => simp [equalityFreeList]
  | cons t ts ih => simp [equalityFreeList, ih]

theorem instantiateList_eq (ts : List Expr) (τ : LogicVariable → Option Expr) : instantiateList ts τ = ts.map fun t => t.instantiate τ := by
  induction ts with
  | nil => rfl
  | cons t ts ih => rw [instantiateList, ih, List.map_cons]

theorem swapEqList_iff {swap : Bool} {us : List Expr} : SwapEqList swap ts us ↔ List.Forall₂ (SwapEq swap) ts us := by
  induction ts generalizing us with
  | nil => cases us <;> simp [SwapEqList]
  | cons t ts ih => cases us <;> simp [SwapEqList, ih]

theorem marks_apply {f : Expr} (h : (Expr.apply f ts).marks = []) : ∀ t ∈ ts, t.marks = [] := by
  rw [Expr.marks, marksList_eq, List.flatMap_eq_nil_iff] at h
  exact h

theorem marks_node {op : Connective} (h : (Expr.node op ts).marks = []) : op.labelled = false ∧ ∀ t ∈ ts, t.marks = [] := by
  rw [Expr.marks] at h
  split at h
  · contradiction
  · rename_i plain
    rw [marksList_eq, List.flatMap_eq_nil_iff] at h
    exact ⟨Bool.eq_false_iff.mpr plain, h⟩

theorem binderFree_of_marks {e : Expr} (h : e.marks = []) : e.binderFree = true := by
  induction e with
  | symbol x => rfl
  | apply f ts _ ih =>
    rw [Expr.binderFree, binderFreeList_iff]
    exact fun t ht => ih t ht (marks_apply h t ht)
  | node op ts ih =>
    rw [Expr.binderFree, binderFreeList_iff]
    exact fun t ht => ih t ht ((marks_node h).2 t ht)
  | bind => exact absurd h (List.cons_ne_nil _ _)

theorem eq_of_connectiveType {op op' : Connective} (plain : op.labelled = false)
    (h : AlphaEquality.connectiveType op = AlphaEquality.connectiveType op') : op = op' := by
  cases op <;> cases op' <;> simp_all [AlphaEquality.connectiveType, Connective.labelled]

end Conditions

section Relation

variable {swap : Bool} {e e' : Expr}

theorem SwapEq.refl : SwapEq swap e e := by
  have list : ∀ {ts : List Expr}, (∀ t ∈ ts, SwapEq swap t t) → SwapEqList swap ts ts := fun each =>
    swapEqList_iff.mpr (List.forall₂_same.mpr each)
  induction e with
  | symbol x => exact rfl
  | apply f ts _ ih => exact ⟨rfl, list ih⟩
  | node op ts ih => exact ⟨rfl, .inl (list ih)⟩
  | bind b vs ts ih => exact ⟨rfl, rfl, list ih⟩

theorem eq_of_swapEq (h : SwapEq false e e') : e = e' := by
  have list : ∀ {ts us : List Expr}, (∀ t ∈ ts, ∀ u, SwapEq false t u → t = u) → SwapEqList false ts us → ts = us := by
    intro ts us each same
    rw [swapEqList_iff] at same
    induction same with
    | nil => rfl
    | cons head _ tail =>
      rw [List.forall_mem_cons] at each
      rw [each.1 _ head, tail each.2]
  induction e generalizing e' with
  | symbol x =>
    cases e' with
    | symbol y => exact congrArg _ h
    | _ => exact h.elim
  | apply f ts _ ih =>
    cases e' with
    | apply g us =>
      obtain ⟨rfl, args⟩ := h
      rw [list (fun t ht u => ih t ht) args]
    | _ => exact h.elim
  | node op ts ih =>
    cases e' with
    | node op' us =>
      obtain ⟨rfl, args⟩ := h
      rw [list (fun t ht u => ih t ht) (args.resolve_right fun swapped => Bool.false_ne_true swapped.1)]
    | _ => exact h.elim
  | bind b vs ts ih =>
    cases e' with
    | bind c ws us =>
      obtain ⟨rfl, rfl, parts⟩ := h
      rw [list (fun t ht u => ih t ht) parts]
    | _ => exact h.elim

end Relation

section Soundness

variable {swap : Bool} {k : String} {pat e : Expr} {mp mp' mp₁ mp₂ : Bindings} {ks ls : List String}

/-- The names `ks` are bound, where they are not bound before. -/
structure Binds (ks : List String) (mp mp' : Bindings) : Prop where
  keeps : ∀ {k e}, mp.lookup k = some e → mp'.lookup k = some e
  bound : ∀ k ∈ ks, ∃ e, mp'.lookup k = some e
  only : ∀ k ∈ mp'.map Prod.fst, k ∈ mp.map Prod.fst ∨ k ∈ ks
  nodup : (mp.map Prod.fst).Nodup → (mp'.map Prod.fst).Nodup

theorem Binds.nil (mp : Bindings) : Binds [] mp mp := ⟨fun h => h, fun _ h => absurd h List.not_mem_nil, fun _ h => .inl h, fun h => h⟩

theorem Binds.append (first : Binds ks mp mp₁) (second : Binds ls mp₁ mp₂) : Binds (ks ++ ls) mp mp₂ where
  keeps h := second.keeps (first.keeps h)
  bound := by
    rw [List.forall_mem_append]
    refine ⟨fun k hk => ?_, second.bound⟩
    obtain ⟨e, he⟩ := first.bound k hk
    exact ⟨e, second.keeps he⟩
  only k hk := by
    rcases second.only k hk with old | new
    · exact (first.only k old).imp_right (List.mem_append_left _)
    · exact .inr (List.mem_append_right _ new)
  nodup h := second.nodup (first.nodup h)

theorem bindName_spec (h : bindName k e mp = some mp') : Binds [k] mp mp' ∧ mp'.lookup k = some e := by
  rw [bindName] at h
  split at h
  · rename_i existing found
    split at h
    · rename_i same
      obtain rfl := Option.some.inj h
      subst same
      exact ⟨⟨fun h => h, List.forall_mem_singleton.mpr ⟨e, found⟩, fun _ h => .inl h, fun h => h⟩, found⟩
    · contradiction
  · rename_i absent
    obtain rfl := Option.some.inj h
    have here : ((k, e) :: mp).lookup k = some e := by rw [InsMap.lookup_cons, if_pos rfl]
    refine ⟨⟨fun {k' e'} found => ?_, List.forall_mem_singleton.mpr ⟨e, here⟩, fun k' hk => ?_, fun distinct => ?_⟩, here⟩
    · rw [InsMap.lookup_cons, if_neg]
      · exact found
      · rintro rfl
        exact Option.some_ne_none e' (found.symm.trans absent)
    · rcases List.mem_cons.mp hk with rfl | old
      · exact .inr (List.mem_singleton_self _)
      · exact .inl old
    · refine List.nodup_cons.mpr ⟨fun taken => ?_, distinct⟩
      obtain ⟨p, hp, same⟩ := List.mem_map.mp taken
      have missing := List.lookup_eq_none_iff.mp absent p hp
      rw [same] at missing
      simp at missing

theorem instantiate_congr {τ τ' : LogicVariable → Option Expr} (free : pat.binderFree = true) (same : ∀ v ∈ pat.freeVariables, τ v = τ' v) :
    pat.instantiate τ = pat.instantiate τ' := by
  induction pat with
  | symbol x =>
    cases x with
    | const c => rfl
    | var v => rw [Expr.instantiate, Expr.instantiate, same v (List.mem_singleton_self v)]
  | apply f ts _ ih | node op ts ih =>
    rw [Expr.binderFree, binderFreeList_iff] at free
    rw [Expr.freeVariables, freeVariablesList_eq] at same
    rw [Expr.instantiate, Expr.instantiate, instantiateList_eq, instantiateList_eq]
    exact congrArg _ (List.map_congr_left fun t ht => ih t ht (free t ht) fun v hv => same v (List.mem_flatMap.mpr ⟨t, ht, hv⟩))
  | bind => exact absurd free Bool.false_ne_true

/-- The terms of the map are those of an assignment. -/
def Agrees (σ : String → Expr) (mp : Bindings) : Prop := ∀ k e, mp.lookup k = some e → e = σ k

theorem agrees_nil {σ : String → Expr} : Agrees σ [] := fun _ _ h => absurd h (Option.some_ne_none _).symm

/-- The terms of the map, with a variable for the other names. -/
def Bindings.term (mp : Bindings) (k : String) : Expr := (mp.lookup k).getD (.symbol (.var ⟨k, .first .boolean⟩))

theorem Bindings.agrees_term (mp : Bindings) : Agrees mp.term mp := fun k e h => by rw [term, h, Option.getD_some]

theorem Binds.agrees {σ : String → Expr} (h : Binds ks mp mp') (agrees : Agrees σ mp') : Agrees σ mp :=
  fun k e here => agrees k e (h.keeps here)

/-- What a match says: the variables are bound, and with their terms the pattern is similar to the expression. -/
structure Matches (swap : Bool) (pat e : Expr) (mp mp' : Bindings) : Prop where
  binds : Binds (pat.freeVariables.map LogicVariable.name) mp mp'
  similar : ∀ σ, Agrees σ mp' → Similar swap σ pat e

/-- The terms of the matches are those of the map. -/
theorem Matches.value_eq (h : Matches swap pat e mp mp') (free : pat.binderFree = true) :
    pat.instantiate mp'.value = pat.instantiate fun v => some (mp'.term v.name) := by
  refine instantiate_congr free fun v hv => ?_
  obtain ⟨e, found⟩ := h.binds.bound v.name (List.mem_map_of_mem hv)
  rw [Bindings.value, Bindings.term, found, Option.getD_some]

structure MatchesList (swap : Bool) (ts us : List Expr) (mp mp' : Bindings) : Prop where
  binds : Binds ((freeVariablesList ts).map LogicVariable.name) mp mp'
  similar : ∀ σ, Agrees σ mp' → SimilarList swap σ ts us

theorem matchesList {ts us : List Expr}
    (ih : ∀ t ∈ ts, ∀ {u : Expr} {mp mp' : Bindings}, patternMatch t u mp = some mp' → Matches swap t u mp mp')
    (h : patternMatchList ts us mp = some mp') : MatchesList swap ts us mp mp' := by
  induction ts generalizing us mp with
  | nil =>
    cases us with
    | nil =>
      obtain rfl := Option.some.inj h
      exact ⟨.nil mp, fun _ _ => trivial⟩
    | cons u us => contradiction
  | cons t ts tail =>
    cases us with
    | nil => contradiction
    | cons u us =>
      rw [List.forall_mem_cons] at ih
      obtain ⟨mp₁, first, later⟩ := Option.bind_eq_some_iff.mp h
      have head := ih.1 first
      have rest := tail ih.2 later
      refine ⟨?_, fun σ agrees => ⟨head.similar σ (rest.binds.agrees agrees), rest.similar σ agrees⟩⟩
      rw [freeVariablesList, List.map_append]
      exact head.binds.append rest.binds

theorem patternMatch_sound (free : pat.binderFree = true) (sides : swap = true ∨ pat.equalityFree = true)
    (h : patternMatch pat e mp = some mp') : Matches swap pat e mp mp' := by
  induction pat generalizing e mp mp' with
  | symbol x =>
    cases x with
    | const c =>
      cases e with
      | symbol y =>
        cases y with
        | const d =>
          obtain rfl := Option.some.inj h
          exact ⟨.nil mp, fun _ _ => trivial⟩
        | var v => contradiction
      | _ => contradiction
    | var v =>
      obtain ⟨binds, found⟩ := bindName_spec h
      exact ⟨binds, fun σ agrees => agrees _ _ found⟩
  | apply f ts _ ih =>
    cases e with
    | apply g us =>
      rw [patternMatch] at h
      split at h
      · rename_i same
        rw [Expr.binderFree, binderFreeList_iff] at free
        rw [Expr.equalityFree, equalityFreeList_iff] at sides
        have terms := matchesList (fun t ht _ _ _ => ih t ht (free t ht) (sides.imp_right fun free => free t ht)) h
        exact ⟨terms.binds, fun σ agrees => ⟨same.1, terms.similar σ agrees⟩⟩
      · contradiction
    | _ => contradiction
  | node op ts ih =>
    cases e with
    | node op' us =>
      unfold patternMatch at h
      split at h
      · rename_i same
        rw [Expr.binderFree, binderFreeList_iff] at free
        rw [Expr.equalityFree, Bool.and_eq_true, equalityFreeList_iff, decide_eq_true_eq] at sides
        have each : ∀ {us : List Expr}, patternMatchList ts us mp = some mp' → MatchesList swap ts us mp mp' := fun h =>
          matchesList (fun t ht _ _ _ => ih t ht (free t ht) (sides.imp_right fun free => free.2 t ht)) h
        have one : patternMatchList ts us mp = some mp' ∨ op = .eq ∧ patternMatchList ts us.reverse mp = some mp' := by
          split at h
          · rcases Option.or_eq_some_iff.mp h with first | ⟨-, second⟩
            · exact .inl first
            · exact .inr ⟨rfl, second⟩
          · exact .inl h
        rcases one with straight | ⟨equation, swapped⟩
        · exact ⟨(each straight).binds, fun σ agrees => ⟨same.1, .inl ((each straight).similar σ agrees)⟩⟩
        · have swaps := sides.resolve_right fun free => free.1 equation
          exact ⟨(each swapped).binds, fun σ agrees => ⟨same.1, .inr ⟨swaps, equation, (each swapped).similar σ agrees⟩⟩⟩
      · contradiction
    | _ => contradiction
  | bind => exact absurd free Bool.false_ne_true

end Soundness

section Completeness

variable {σ : String → Expr} {pat e : Expr} {mp : Bindings}

theorem bindName_agrees (k : String) (agrees : Agrees σ mp) : ∃ mp', bindName k (σ k) mp = some mp' ∧ Agrees σ mp' := by
  rw [bindName]
  split
  · rename_i existing found
    rw [if_pos (agrees _ _ found).symm]
    exact ⟨mp, rfl, agrees⟩
  · refine ⟨_, rfl, fun k' e h => ?_⟩
    rw [InsMap.lookup_cons] at h
    split at h
    · rename_i here
      rw [here]
      exact (Option.some.inj h).symm
    · exact agrees k' e h

theorem similarList_length {ts us : List Expr} (h : SimilarList swap σ ts us) : ts.length = us.length := by
  induction ts generalizing us with
  | nil => cases us with
    | nil => rfl
    | cons => exact h.elim
  | cons t ts ih => cases us with
    | nil => exact h.elim
    | cons u us => rw [List.length_cons, List.length_cons, ih h.2]

theorem patternMatchList_similar {ts us : List Expr} (ih : ∀ t ∈ ts, ∀ {u : Expr} {mp : Bindings}, Similar false σ t u → Agrees σ mp →
    ∃ mp', patternMatch t u mp = some mp' ∧ Agrees σ mp') (similar : SimilarList false σ ts us) (agrees : Agrees σ mp) :
    ∃ mp', patternMatchList ts us mp = some mp' ∧ Agrees σ mp' := by
  induction ts generalizing us mp with
  | nil =>
    cases us with
    | nil => exact ⟨mp, rfl, agrees⟩
    | cons => exact similar.elim
  | cons t ts tail =>
    cases us with
    | nil => exact similar.elim
    | cons u us =>
      rw [List.forall_mem_cons] at ih
      obtain ⟨mp₁, first, agrees₁⟩ := ih.1 similar.1 agrees
      obtain ⟨mp₂, rest, agrees₂⟩ := tail ih.2 similar.2 agrees₁
      refine ⟨mp₂, ?_, agrees₂⟩
      rw [patternMatchList, first, Option.bind_some, rest]

theorem isDescription_of_kind {b c : Binder} (h : b.kind = c.kind) : b.isDescription = c.isDescription := by
  cases b <;> cases c <;> simp_all [Binder.kind, Binder.isDescription]

theorem matchParams_similar (vs : List LogicVariable) (us : List Expr) (agrees : Agrees σ mp) :
    ∃ mp', matchParams vs ((vs.map fun v => σ v.name) ++ us) mp = some (us, mp') ∧ Agrees σ mp' := by
  induction vs generalizing mp with
  | nil => exact ⟨mp, rfl, agrees⟩
  | cons v vs ih =>
    obtain ⟨mp₁, first, agrees₁⟩ := bindName_agrees v.name agrees
    obtain ⟨mp₂, rest, agrees₂⟩ := ih agrees₁
    refine ⟨mp₂, ?_, agrees₂⟩
    rw [List.map_cons, List.cons_append, matchParams, matchVariable, first, Option.bind_some, rest]

/-- A pattern matches the expressions that are similar to it. -/
theorem patternMatch_similar (similar : Similar false σ pat e) (agrees : Agrees σ mp) :
    ∃ mp', patternMatch pat e mp = some mp' ∧ Agrees σ mp' := by
  induction pat generalizing e mp with
  | symbol x =>
    cases x with
    | const c =>
      cases e with
      | symbol y =>
        cases y with
        | const d => exact ⟨mp, rfl, agrees⟩
        | var v => exact similar.elim
      | _ => exact similar.elim
    | var v =>
      obtain rfl : e = σ v.name := similar
      exact bindName_agrees v.name agrees
  | apply f ts _ ih =>
    cases e with
    | apply g us =>
      obtain ⟨mp', run, agrees'⟩ := patternMatchList_similar (fun t ht _ _ => ih t ht) similar.2 agrees
      refine ⟨mp', ?_, agrees'⟩
      rw [patternMatch, if_pos ⟨similar.1, similarList_length similar.2⟩, run]
    | _ => exact similar.elim
  | node op ts ih =>
    cases e with
    | node op' us =>
      have args := similar.2.resolve_right fun swapped => Bool.false_ne_true swapped.1
      obtain ⟨mp', run, agrees'⟩ := patternMatchList_similar (fun t ht _ _ => ih t ht) args agrees
      refine ⟨mp', ?_, agrees'⟩
      unfold patternMatch
      rw [if_pos ⟨similar.1, similarList_length args⟩]
      split
      · rw [run, Option.some_or]
      · exact run
    | _ => exact similar.elim
  | bind b vs ts ih =>
    cases e with
    | bind c ws us =>
      obtain ⟨plain, kind, params, parts⟩ := similar
      have described : c.isDescription = b.isDescription := isDescription_of_kind kind.symm
      obtain ⟨mp₁, first, agrees₁⟩ := matchParams_similar (if b.isDescription then vs else []) us agrees
      obtain ⟨mp₂, run, agrees₂⟩ := patternMatchList_similar (fun t ht _ _ => ih t ht) parts agrees₁
      have args : c.nodeArgs ws us = ((if b.isDescription then vs else []).map fun v => σ v.name) ++ us := by
        rw [Binder.nodeArgs, described]
        split
        · rename_i description
          rw [params description]
        · rfl
      have lengths : (b.nodeArgs vs ts).length = (c.nodeArgs ws us).length := by
        rw [args, Binder.nodeArgs, List.length_append, List.length_map, ← similarList_length parts]
        split <;> simp
      refine ⟨mp₂, ?_, agrees₂⟩
      rw [patternMatch, if_pos ⟨plain, kind, lengths⟩, args, first, Option.bind_some]
      exact run
    | _ => exact similar.elim

end Completeness

section Instances

variable {swap : Bool} {σ : String → Expr} {pat e : Expr} {ts us : List Expr}

theorem swapEqList_of_similar (each : ∀ t ∈ ts, ∀ u, Similar swap σ t u → SwapEq swap (t.instantiate fun v => some (σ v.name)) u)
    (similar : SimilarList swap σ ts us) : SwapEqList swap (instantiateList ts fun v => some (σ v.name)) us := by
  induction ts generalizing us with
  | nil =>
    cases us with
    | nil => trivial
    | cons => exact similar.elim
  | cons t ts ih =>
    cases us with
    | nil => exact similar.elim
    | cons u us =>
      rw [List.forall_mem_cons] at each
      exact ⟨each.1 u similar.1, ih each.2 similar.2⟩

/-- What is similar to a pattern is an instance of it, up to the sides of equations, where all is compared. -/
theorem swapEq_of_similar (unmarked : pat.marks = []) (similar : Similar swap σ pat e) :
    SwapEq swap (pat.instantiate fun v => some (σ v.name)) e := by
  induction pat generalizing e with
  | symbol x =>
    cases x with
    | const c => exact absurd unmarked (List.cons_ne_nil _ _)
    | var v =>
      obtain rfl : e = σ v.name := similar
      exact .refl
  | apply f ts _ ih =>
    cases e with
    | apply g us => exact ⟨similar.1, swapEqList_of_similar (fun t ht u => ih t ht (marks_apply unmarked t ht)) similar.2⟩
    | _ => exact similar.elim
  | node op ts ih =>
    cases e with
    | node op' us =>
      obtain ⟨plain, args⟩ := marks_node unmarked
      obtain rfl := eq_of_connectiveType plain similar.1
      have list : ∀ {us : List Expr}, SimilarList swap σ ts us → SwapEqList swap (instantiateList ts fun v => some (σ v.name)) us :=
        swapEqList_of_similar fun t ht u => ih t ht (args t ht)
      exact ⟨rfl, similar.2.imp list fun swapped => ⟨swapped.1, swapped.2.1, list swapped.2.2⟩⟩
    | _ => exact similar.elim
  | bind => exact absurd unmarked (List.cons_ne_nil _ _)

/-- Without equations, it is the instance. -/
theorem instantiate_eq_of_similar (unmarked : pat.marks = []) (similar : Similar false σ pat e) :
    (pat.instantiate fun v => some (σ v.name)) = e := eq_of_swapEq (swapEq_of_similar unmarked similar)

theorem similarList_of (each : ∀ t ∈ ts, Similar swap σ t (t.instantiate fun v => some (σ v.name))) :
    SimilarList swap σ ts (instantiateList ts fun v => some (σ v.name)) := by
  induction ts with
  | nil => trivial
  | cons t ts ih =>
    rw [List.forall_mem_cons] at each
    exact ⟨each.1, ih each.2⟩

/-- The instances of a pattern are similar to it. -/
theorem similar_instantiate (free : pat.binderFree = true) : Similar swap σ pat (pat.instantiate fun v => some (σ v.name)) := by
  induction pat with
  | symbol x =>
    cases x with
    | const c => trivial
    | var v => exact rfl
  | apply f ts _ ih =>
    rw [Expr.binderFree, binderFreeList_iff] at free
    exact ⟨rfl, similarList_of fun t ht => ih t ht (free t ht)⟩
  | node op ts ih =>
    rw [Expr.binderFree, binderFreeList_iff] at free
    exact ⟨rfl, .inl (similarList_of fun t ht => ih t ht (free t ht))⟩
  | bind => exact absurd free Bool.false_ne_true

end Instances

section Disguise

variable {swap : Bool} {w : LogicVariable} {pat : Expr} {ts : List Expr} {m : Mark}

/-- The names in what a match does not compare. -/
def Mark.names : Mark → List String
  | .const c => [c.name]
  | .label (.globally environ) | .label (.eventually environ) => environ.toList
  | .label (.whenOperator name) => [name]
  | .label _ => []
  | .bound vs => vs.map LogicVariable.name

def relabel (name : String) : Connective → Connective
  | .globally _ => .globally (some name)
  | .eventually _ => .eventually (some name)
  | .whenOperator _ => .whenOperator name
  | op => op

mutual
/-- The expression with one variable for all its variables, whose name is also that of all constants outside heads, and the label of all
operators. -/
def Expr.disguise (w : LogicVariable) : Expr → Expr
  | .symbol (.var _) => .symbol (.var w)
  | .symbol (.const c) => .symbol (.const ⟨w.name, c.sort⟩)
  | .apply f ts => .apply f (disguiseList w ts)
  | .node op ts => .node (relabel w.name op) (disguiseList w ts)
  | .bind b vs ts => .bind b (if b.isDescription then vs.map fun _ => w else [w]) (disguiseList w ts)
def disguiseList (w : LogicVariable) : List Expr → List Expr
  | [] => []
  | t :: ts => t.disguise w :: disguiseList w ts
end

theorem disguiseList_eq (ts : List Expr) : disguiseList w ts = ts.map fun t => t.disguise w := by
  induction ts with
  | nil => rfl
  | cons t ts ih => rw [disguiseList, ih, List.map_cons]

theorem similarList_disguise (each : ∀ t ∈ ts, Similar swap (fun _ => .symbol (.var w)) t (t.disguise w)) :
    SimilarList swap (fun _ => .symbol (.var w)) ts (disguiseList w ts) := by
  induction ts with
  | nil => trivial
  | cons t ts ih =>
    rw [List.forall_mem_cons] at each
    exact ⟨each.1, ih each.2⟩

/-- A pattern without quantifiers is similar to its disguises. -/
theorem similar_disguise (free : pat.quantifierFree = true) : Similar swap (fun _ => .symbol (.var w)) pat (pat.disguise w) := by
  induction pat with
  | symbol x =>
    cases x with
    | const c => trivial
    | var v => exact rfl
  | apply f ts _ ih =>
    rw [Expr.quantifierFree, quantifierFreeList_iff] at free
    exact ⟨rfl, similarList_disguise fun t ht => ih t ht (free t ht)⟩
  | node op ts ih =>
    rw [Expr.quantifierFree, quantifierFreeList_iff] at free
    have types : AlphaEquality.connectiveType op = AlphaEquality.connectiveType (relabel w.name op) := by cases op <;> rfl
    exact ⟨types, .inl (similarList_disguise fun t ht => ih t ht (free t ht))⟩
  | bind b vs ts ih =>
    rw [Expr.quantifierFree, Bool.and_eq_true, Bool.and_eq_true, quantifierFreeList_iff, Bool.not_eq_true'] at free
    refine ⟨free.1.1, rfl, fun description => ?_, similarList_disguise fun t ht => ih t ht (free.2 t ht)⟩
    rw [if_pos description, List.map_map]
    rfl

/-- The name of the variable is in all that a match with the disguise does not compare. -/
theorem mem_names_disguise (free : pat.quantifierFree = true) (h : m ∈ (pat.disguise w).marks) : w.name ∈ m.names := by
  have list : ∀ {ts : List Expr}, (∀ t ∈ ts, m ∈ (t.disguise w).marks → w.name ∈ m.names) → m ∈ marksList (disguiseList w ts) →
      w.name ∈ m.names := by
    intro ts each here
    rw [marksList_eq, disguiseList_eq, List.flatMap_map, List.mem_flatMap] at here
    obtain ⟨t, ht, inner⟩ := here
    exact each t ht inner
  induction pat with
  | symbol x =>
    cases x with
    | const c =>
      rw [List.mem_singleton.mp h]
      exact List.mem_singleton_self _
    | var v => exact absurd h List.not_mem_nil
  | apply f ts _ ih =>
    rw [Expr.quantifierFree, quantifierFreeList_iff] at free
    exact list (fun t ht => ih t ht (free t ht)) h
  | node op ts ih =>
    rw [Expr.quantifierFree, quantifierFreeList_iff] at free
    rw [Expr.disguise, Expr.marks] at h
    split at h
    · rename_i labelled
      rcases List.mem_cons.mp h with rfl | rest
      · cases op with
        | globally | eventually | whenOperator => exact List.mem_singleton_self _
        | _ => exact absurd labelled Bool.false_ne_true
      · exact list (fun t ht => ih t ht (free t ht)) rest
    · exact list (fun t ht => ih t ht (free t ht)) h
  | bind b vs ts ih =>
    rw [Expr.quantifierFree, Bool.and_eq_true, Bool.and_eq_true, quantifierFreeList_iff] at free
    obtain ⟨⟨-, described⟩, parts⟩ := free
    rw [Expr.disguise, Expr.marks] at h
    rcases List.mem_cons.mp h with rfl | rest
    · rw [Mark.names, List.mem_map]
      refine ⟨w, ?_, rfl⟩
      split
      · rename_i description
        rw [description] at described
        cases vs with
        | nil => contradiction
        | cons v vs => exact List.mem_cons_self
      · exact List.mem_singleton_self w
    · exact list (fun t ht => ih t ht (parts t ht)) rest

end Disguise

section Exactness

variable {pat : Expr} {m : Mark}

theorem mem_marks_instantiate (τ : LogicVariable → Option Expr) (h : m ∈ pat.marks) : m ∈ (pat.instantiate τ).marks := by
  have list : ∀ {ts : List Expr} (τ : LogicVariable → Option Expr), (∀ t ∈ ts, ∀ τ, m ∈ t.marks → m ∈ (t.instantiate τ).marks) →
      m ∈ marksList ts → m ∈ marksList (instantiateList ts τ) := by
    intro ts τ each here
    rw [marksList_eq, List.mem_flatMap] at here
    obtain ⟨t, ht, inner⟩ := here
    rw [marksList_eq, instantiateList_eq, List.flatMap_map, List.mem_flatMap]
    exact ⟨t, ht, each t ht τ inner⟩
  induction pat generalizing τ with
  | symbol x =>
    cases x with
    | const c => exact h
    | var v => exact absurd h List.not_mem_nil
  | apply f ts _ ih => exact list τ (fun t ht τ => ih t ht τ) h
  | node op ts ih =>
    rw [Expr.marks] at h
    rw [Expr.instantiate, Expr.marks]
    split at h
    · rename_i labelled
      rw [if_pos labelled, List.mem_cons]
      exact (List.mem_cons.mp h).imp_right (list τ fun t ht τ => ih t ht τ)
    · rename_i plain
      rw [if_neg plain]
      exact list τ (fun t ht τ => ih t ht τ) h
  | bind b vs ts ih =>
    rw [Expr.instantiate, Expr.marks, List.mem_cons]
    exact (List.mem_cons.mp h).imp_right (list _ fun t ht τ => ih t ht τ)

theorem mem_marks_of_swapEq {swap : Bool} {e e' : Expr} (same : SwapEq swap e e') (h : m ∈ e.marks) : m ∈ e'.marks := by
  have list : ∀ {ts us : List Expr}, (∀ t ∈ ts, ∀ u, SwapEq swap t u → m ∈ t.marks → m ∈ u.marks) → SwapEqList swap ts us →
      m ∈ marksList ts → m ∈ marksList us := by
    intro ts us each same
    rw [swapEqList_iff] at same
    induction same with
    | nil => exact id
    | cons head _ tail =>
      rw [List.forall_mem_cons] at each
      rw [marksList, marksList, List.mem_append, List.mem_append]
      exact Or.imp (each.1 _ head) (tail each.2)
  induction e generalizing e' with
  | symbol x =>
    cases e' with
    | symbol y =>
      obtain rfl : x = y := same
      exact h
    | _ => exact same.elim
  | apply f ts _ ih =>
    cases e' with
    | apply g us => exact list (fun t ht u => ih t ht) same.2 h
    | _ => exact same.elim
  | node op ts ih =>
    cases e' with
    | node op' us =>
      obtain ⟨rfl, args⟩ := same
      have inner : m ∈ marksList ts → m ∈ marksList us := by
        intro here
        rcases args with straight | ⟨-, -, swapped⟩
        · exact list (fun t ht u => ih t ht) straight here
        · have turned := list (fun t ht u => ih t ht) swapped here
          simpa [marksList_eq, List.mem_flatMap] using turned
      rw [Expr.marks] at h ⊢
      split at h
      · rename_i labelled
        rw [if_pos labelled, List.mem_cons]
        exact (List.mem_cons.mp h).imp_right inner
      · rename_i plain
        rw [if_neg plain]
        exact inner h
    | _ => exact same.elim
  | bind b vs ts ih =>
    cases e' with
    | bind c ws us =>
      obtain ⟨rfl, rfl, parts⟩ := same
      rw [Expr.marks, List.mem_cons] at h ⊢
      exact h.imp_right (list (fun t ht u => ih t ht) parts)
    | _ => exact same.elim

/-- The matches of a pattern without quantifiers are instances, up to the sides of equations, exactly if it has no constants outside
heads, no labels and no binders. -/
theorem patternMatch_exact (free : pat.quantifierFree = true) :
    (∀ e mp, patternMatch pat e [] = some mp → SwapEq true (pat.instantiate mp.value) e) ↔ pat.marks = [] := by
  constructor
  · intro sound
    rw [List.eq_nil_iff_forall_not_mem]
    intro m hm
    obtain ⟨i, -, new⟩ := exists_unused (suffix_injective "") (pat.marks.flatMap Mark.names)
    generalize "" ++ "_" ++ constantName i = fresh at new
    let w : LogicVariable := ⟨fresh, .first .boolean⟩
    obtain ⟨mp, run, -⟩ := patternMatch_similar (similar_disguise (w := w) free) agrees_nil
    have here := mem_marks_of_swapEq (sound _ mp run) (mem_marks_instantiate mp.value hm)
    exact new (List.mem_flatMap.mpr ⟨m, hm, mem_names_disguise free here⟩)
  · intro unmarked e mp h
    have found := patternMatch_sound (binderFree_of_marks unmarked) (.inl rfl) h
    rw [found.value_eq (binderFree_of_marks unmarked)]
    exact swapEq_of_similar unmarked (found.similar _ mp.agrees_term)

end Exactness

end Goivy.LogicUtil
