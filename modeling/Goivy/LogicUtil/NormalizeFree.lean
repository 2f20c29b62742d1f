import Goivy.LogicUtil.Renaming

/-! Normal names V0, V1, ... for the free variables. -/
namespace Goivy.LogicUtil

section Definitions

/-- `removeBoundNames`. -/
def removeBoundNames (subs : String → Option Expr) (vars : List LogicVariable) : String → Option Expr :=
  fun name => if name ∈ vars.map LogicVariable.name then none else subs name

mutual
/-- `SubstituteByName`. Functions and named binders do not hide their variables, and descriptions are not rebuilt. -/
def Expr.substituteByName : Expr → (String → Option Expr) → Expr
  | .symbol (.var v), subs => (subs v.name).getD (.symbol (.var v))
  | .symbol (.const c), _ => .symbol (.const c)
  | .apply f ts, subs => .apply f (substituteByNameList ts subs)
  | .node op ts, subs => .node op (substituteByNameList ts subs)
  | .bind b vs ts, subs => match b with
    | .forAll | .rawForAll _ | .exists => .bind b vs (substituteByNameList ts (removeBoundNames subs vs))
    | .lambda | .namedBinder _ _ => .bind b vs (substituteByNameList ts subs)
    | .some _ _ => .bind b vs ts
def substituteByNameList : List Expr → (String → Option Expr) → List Expr
  | [], _ => []
  | t :: ts, subs => t.substituteByName subs :: substituteByNameList ts subs
end

/-- A variable is noted unless its name is bound or noted. -/
def noteVariable (bound : List String) (result : List LogicVariable) (v : LogicVariable) : List LogicVariable :=
  if v.name ∈ bound ∨ v.name ∈ result.map LogicVariable.name then result else result ++ [v]

mutual
/-- `freeVariablesInOrderRec`. The parameters of a description are walked like its parts. -/
def Expr.freeVariablesInOrderRec : Expr → List LogicVariable → List String → List LogicVariable
  | .symbol (.var v), result, bound => noteVariable bound result v
  | .symbol (.const _), result, _ => result
  | .apply _ ts, result, bound | .node _ ts, result, bound => freeVariablesInOrderList ts result bound
  | .bind b vs ts, result, bound => match b with
    | .some _ _ => freeVariablesInOrderList ts (vs.foldl (noteVariable bound) result) bound
    | _ => freeVariablesInOrderList ts result (vs.map LogicVariable.name ++ bound)
def freeVariablesInOrderList : List Expr → List LogicVariable → List String → List LogicVariable
  | [], result, _ => result
  | t :: ts, result, bound => freeVariablesInOrderList ts (t.freeVariablesInOrderRec result bound) bound
end

def Expr.freeVariablesInOrder (e : Expr) : List LogicVariable := e.freeVariablesInOrderRec [] []

/-- The loop that gives each variable its new one. -/
def renamings (vs : List LogicVariable) : List (LogicVariable × LogicVariable) :=
  vs.foldl (fun pairs v => if pairs.any (fun p => p.1.name = v.name) then pairs
    else pairs ++ [(v, ⟨"V" ++ toString pairs.length, v.sort⟩)]) []

def lookupName (pairs : List (LogicVariable × LogicVariable)) (name : String) : Option LogicVariable :=
  (pairs.find? fun p => p.1.name = name).map Prod.snd

/-- The old variables, the new ones, and the renamed expression. -/
def logicUtilNormalizeFreeVariables (e : Expr) : List LogicVariable × List LogicVariable × Expr :=
  let pairs := renamings e.freeVariablesInOrder
  (pairs.map Prod.fst, pairs.map Prod.snd, e.substituteByName fun name => (lookupName pairs name).map fun v => .symbol (.var v))

mutual
/-- The occurrences of variables outside the heads of applications, with the variables bound there. -/
def Expr.occurrences : List LogicVariable → Expr → List (LogicVariable × List LogicVariable)
  | bound, .symbol (.var v) => [(v, bound)]
  | _, .symbol (.const _) => []
  | bound, .apply _ ts | bound, .node _ ts => occurrencesList bound ts
  | bound, .bind _ vs ts => occurrencesList (vs ++ bound) ts
def occurrencesList : List LogicVariable → List Expr → List (LogicVariable × List LogicVariable)
  | _, [] => []
  | bound, t :: ts => t.occurrences bound ++ occurrencesList bound ts
end

mutual
/-- The binders outside the heads of applications. -/
def Expr.binders : Expr → List (Binder × List LogicVariable)
  | .symbol _ => []
  | .apply _ ts | .node _ ts => bindersList ts
  | .bind b vs ts => (b, vs) :: bindersList ts
def bindersList : List Expr → List (Binder × List LogicVariable)
  | [] => []
  | t :: ts => t.binders ++ bindersList ts
end

/-- The binders that hide their variables from a substitution by name. -/
def Binder.isQuantifier : Binder → Bool
  | .forAll | .rawForAll _ | .exists => true
  | _ => false

/-- Names say what the variables `free` are, where `bound` are bound, and `ν` gives them names that no binder takes. -/
structure RegularAt (free : List LogicVariable) (ν : LogicVariable → LogicVariable) (bound : List LogicVariable) (e : Expr) : Prop where
  heads : ∀ v, .var v ∈ e.headSymbols → v ∈ bound
  described : ∀ p ∈ e.binders, p.1.isDescription = false
  functions : ∀ p ∈ e.binders, p.1.isQuantifier = false → ∀ w ∈ p.2, ∀ v ∈ free, v.name ≠ w.name
  scopes : ∀ p ∈ e.occurrences bound, p.1 ∈ p.2 ∨ p.1.name ∉ p.2.map LogicVariable.name
  sorts : ∀ p ∈ e.occurrences bound, p.1 ∉ p.2 → p.1 ∈ free
  capture : ∀ p ∈ e.occurrences bound, p.1 ∉ p.2 → ν p.1 ∉ p.2

/-- The new variable of a free one. -/
def Expr.newName (e : Expr) (v : LogicVariable) : LogicVariable := (lookupName (renamings e.freeVariablesInOrder) v.name).getD v

/-- No free variable is the head of an application, there are no descriptions, a function or named binder binds no name of a free
variable, a variable is bound as soon as its name is, free variables of one name are the same, and no binder above a free variable
binds its new name. -/
def Regular (e : Expr) : Prop := RegularAt e.freeVariablesInOrder e.newName [] e

/-- `e'` is `e` with its free variables renamed one to one. -/
def RenamesTo (e e' : Expr) : Prop :=
  ∃ σ : LogicVariable → LogicVariable, (∀ v, .var v ∈ e.symbols → (σ v).sort = v.sort) ∧
    (∀ v w, .var v ∈ e.symbols → .var w ∈ e.symbols → σ v = σ w → v = w) ∧ e.Avoids σ [] ∧ e' = e.renameFree σ []

end Definitions

variable {ν σ : LogicVariable → LogicVariable} {free bound : List LogicVariable} {e t : Expr} {ts : List Expr}

section Lists

theorem substituteByNameList_eq (ts : List Expr) (subs : String → Option Expr) : substituteByNameList ts subs = ts.map fun t => t.substituteByName subs := by
  induction ts with
  | nil => rfl
  | cons t ts ih => rw [substituteByNameList, ih, List.map_cons]

theorem occurrencesList_eq (bound : List LogicVariable) (ts : List Expr) : occurrencesList bound ts = ts.flatMap (Expr.occurrences bound) := by
  induction ts with
  | nil => rfl
  | cons t ts ih => rw [occurrencesList, ih, List.flatMap_cons]

theorem bindersList_eq (ts : List Expr) : bindersList ts = ts.flatMap Expr.binders := by
  induction ts with
  | nil => rfl
  | cons t ts ih => rw [bindersList, ih, List.flatMap_cons]

theorem mem_headSymbolsList {x : Symbol} : x ∈ headSymbolsList ts ↔ ∃ t ∈ ts, x ∈ t.headSymbols := by
  rw [headSymbolsList_eq, List.mem_flatMap]

theorem RegularAt.arg {f : Expr} (h : RegularAt free ν bound (.apply f ts)) (ht : t ∈ ts) : RegularAt free ν bound t := by
  have occurs : ∀ p ∈ t.occurrences bound, p ∈ (Expr.apply f ts).occurrences bound := fun p hp => by
    rw [Expr.occurrences, occurrencesList_eq]
    exact List.mem_flatMap.mpr ⟨t, ht, hp⟩
  have binds : ∀ p ∈ t.binders, p ∈ (Expr.apply f ts).binders := fun p hp => by
    rw [Expr.binders, bindersList_eq]
    exact List.mem_flatMap.mpr ⟨t, ht, hp⟩
  exact ⟨fun v hv => h.heads v (List.mem_append_right _ (mem_headSymbolsList.mpr ⟨t, ht, hv⟩)), fun p hp => h.described p (binds p hp),
    fun p hp => h.functions p (binds p hp), fun p hp => h.scopes p (occurs p hp), fun p hp => h.sorts p (occurs p hp),
    fun p hp => h.capture p (occurs p hp)⟩

theorem RegularAt.term {op : Connective} (h : RegularAt free ν bound (.node op ts)) (ht : t ∈ ts) : RegularAt free ν bound t := by
  have occurs : ∀ p ∈ t.occurrences bound, p ∈ (Expr.node op ts).occurrences bound := fun p hp => by
    rw [Expr.occurrences, occurrencesList_eq]
    exact List.mem_flatMap.mpr ⟨t, ht, hp⟩
  have binds : ∀ p ∈ t.binders, p ∈ (Expr.node op ts).binders := fun p hp => by
    rw [Expr.binders, bindersList_eq]
    exact List.mem_flatMap.mpr ⟨t, ht, hp⟩
  exact ⟨fun v hv => h.heads v (mem_headSymbolsList.mpr ⟨t, ht, hv⟩), fun p hp => h.described p (binds p hp),
    fun p hp => h.functions p (binds p hp), fun p hp => h.scopes p (occurs p hp), fun p hp => h.sorts p (occurs p hp),
    fun p hp => h.capture p (occurs p hp)⟩

theorem RegularAt.part {b : Binder} {vs : List LogicVariable} (h : RegularAt free ν bound (.bind b vs ts)) (ht : t ∈ ts) :
    RegularAt free ν (vs ++ bound) t := by
  have occurs : ∀ p ∈ t.occurrences (vs ++ bound), p ∈ (Expr.bind b vs ts).occurrences bound := fun p hp => by
    rw [Expr.occurrences, occurrencesList_eq]
    exact List.mem_flatMap.mpr ⟨t, ht, hp⟩
  have binds : ∀ p ∈ t.binders, p ∈ (Expr.bind b vs ts).binders := fun p hp => by
    rw [Expr.binders, bindersList_eq]
    exact List.mem_cons_of_mem _ (List.mem_flatMap.mpr ⟨t, ht, hp⟩)
  refine ⟨fun v hv => ?_, fun p hp => h.described p (binds p hp), fun p hp => h.functions p (binds p hp), fun p hp => h.scopes p (occurs p hp),
    fun p hp => h.sorts p (occurs p hp), fun p hp => h.capture p (occurs p hp)⟩
  by_cases here : v ∈ vs
  · exact List.mem_append_left _ here
  · refine List.mem_append_right _ (h.heads v ?_)
    rw [Expr.headSymbols, List.mem_filter, decide_eq_true_eq]
    exact ⟨mem_headSymbolsList.mpr ⟨t, ht, hv⟩, fun mem => here (by simpa using mem)⟩

end Lists

section Renaming

theorem avoids_of_closed (closed : ∀ v, .var v ∈ e.symbols → v ∈ bound) : e.Avoids ν bound := by
  induction e generalizing bound with
  | symbol x =>
    cases x with
    | const c => trivial
    | var v => exact fun free => absurd (closed v (List.mem_singleton_self _)) free
  | apply f ts hf ih =>
    exact ⟨hf fun v hv => closed v (List.mem_append_left _ hv),
      (avoidsList_iff _).mpr fun t ht => ih t ht fun v hv => closed v (List.mem_append_right _ (mem_symbolsList.mpr ⟨t, ht, hv⟩))⟩
  | node op ts ih => exact (avoidsList_iff _).mpr fun t ht => ih t ht fun v hv => closed v (mem_symbolsList.mpr ⟨t, ht, hv⟩)
  | bind b vs ts ih =>
    refine (avoidsList_iff _).mpr fun t ht => ih t ht fun v hv => ?_
    by_cases here : v ∈ vs
    · exact List.mem_append_left _ here
    · exact List.mem_append_right _ (closed v (mem_symbols_bind.mpr ⟨here, t, ht, hv⟩))

theorem RegularAt.avoids (h : RegularAt free ν bound e) : e.Avoids ν bound := by
  induction e generalizing bound with
  | symbol x =>
    cases x with
    | const c => trivial
    | var v => exact h.capture (v, bound) (List.mem_singleton_self _)
  | apply f ts hf ih =>
    exact ⟨avoids_of_closed fun v hv => h.heads v (List.mem_append_left _ hv), (avoidsList_iff _).mpr fun t ht => ih t ht (h.arg ht)⟩
  | node op ts ih => exact (avoidsList_iff _).mpr fun t ht => ih t ht (h.term ht)
  | bind b vs ts ih => exact (avoidsList_iff _).mpr fun t ht => ih t ht (h.part ht)

/-- The variables that occur free are among the free ones. -/
theorem RegularAt.mem_free (h : RegularAt free ν bound e) {v : LogicVariable} (occurs : .var v ∈ e.symbols) (hv : v ∉ bound) : v ∈ free := by
  induction e generalizing bound with
  | symbol x =>
    obtain rfl := List.mem_singleton.mp occurs
    exact h.sorts (v, bound) (List.mem_singleton_self _) hv
  | apply f ts hf ih =>
    obtain here | there := List.mem_append.mp occurs
    · exact absurd (h.heads v (List.mem_append_left _ here)) hv
    · obtain ⟨t, ht, here⟩ := mem_symbolsList.mp there
      exact ih t ht (h.arg ht) here hv
  | node op ts ih =>
    obtain ⟨t, ht, here⟩ := mem_symbolsList.mp occurs
    exact ih t ht (h.term ht) here hv
  | bind b vs ts ih =>
    obtain ⟨outside, t, ht, here⟩ := mem_symbols_bind.mp occurs
    refine ih t ht (h.part ht) here ?_
    rw [List.mem_append, not_or]
    exact ⟨outside, hv⟩

/-- Substitution by name renames the free variables, where `table` gives their new names and the names in `removed` are hidden. -/
theorem substituteByName_eq (h : RegularAt free ν bound e) {table : String → Option Expr} {removed : List String}
    (listed : ∀ v ∈ free, table v.name = some (.symbol (.var (ν v)))) (missing : ∀ name, (∀ v ∈ free, v.name ≠ name) → table name = none)
    (hidden : ∀ w ∈ bound, w.name ∈ removed ∨ ∀ v ∈ free, v.name ≠ w.name) (inner : removed ⊆ bound.map LogicVariable.name) :
    e.substituteByName (fun name => if name ∈ removed then none else table name) = e.renameFree ν bound := by
  induction e generalizing bound removed with
  | symbol x =>
    cases x with
    | const c => rfl
    | var v =>
      rw [Expr.substituteByName, Expr.renameFree]
      by_cases hv : v ∈ bound
      · have none_ : (if v.name ∈ removed then none else table v.name) = none := by
          obtain gone | other := hidden v hv
          · rw [if_pos gone]
          · rw [missing v.name other, ite_self]
        rw [none_, if_pos hv, Option.getD_none]
      · have outside := (h.scopes (v, bound) (List.mem_singleton_self _)).resolve_left hv
        rw [if_neg fun gone => outside (inner gone), listed v (h.sorts (v, bound) (List.mem_singleton_self _) hv), if_neg hv, Option.getD_some]
  | apply f ts hf ih =>
    rw [Expr.substituteByName, Expr.renameFree, substituteByNameList_eq, renameFreeList_eq,
      renameFree_of_closed fun v hv => h.heads v (List.mem_append_left _ hv)]
    exact congrArg _ (List.map_congr_left fun t ht => ih t ht (h.arg ht) hidden inner)
  | node op ts ih =>
    rw [Expr.substituteByName, Expr.renameFree, substituteByNameList_eq, renameFreeList_eq]
    exact congrArg _ (List.map_congr_left fun t ht => ih t ht (h.term ht) hidden inner)
  | bind b vs ts ih =>
    have quantifier : b.isQuantifier = true →
        (substituteByNameList ts (removeBoundNames (fun name => if name ∈ removed then none else table name) vs)) = renameFreeList ν (vs ++ bound) ts := by
      intro _
      have more : removeBoundNames (fun name => if name ∈ removed then none else table name) vs =
          fun name => if name ∈ vs.map LogicVariable.name ++ removed then none else table name := by
        funext name
        simp only [removeBoundNames, List.mem_append]
        grind
      rw [more, substituteByNameList_eq, renameFreeList_eq]
      refine List.map_congr_left fun t ht => ih t ht (h.part ht) (fun w hw => ?_) fun name hname => ?_
      · obtain hw | hw := List.mem_append.mp hw
        · exact .inl (List.mem_append_left _ (List.mem_map_of_mem hw))
        · exact (hidden w hw).imp_left (List.mem_append_right _)
      · rw [List.map_append]
        obtain hname | hname := List.mem_append.mp hname
        · exact List.mem_append_left _ hname
        · exact List.mem_append_right _ (inner hname)
    have function : b.isQuantifier = false →
        (substituteByNameList ts fun name => if name ∈ removed then none else table name) = renameFreeList ν (vs ++ bound) ts := by
      intro plain
      rw [substituteByNameList_eq, renameFreeList_eq]
      refine List.map_congr_left fun t ht => ih t ht (h.part ht) (fun w hw => ?_) fun name hname => ?_
      · obtain hw | hw := List.mem_append.mp hw
        · exact .inr fun v hv => h.functions (b, vs) List.mem_cons_self plain w hw v hv
        · exact hidden w hw
      · rw [List.map_append]
        exact List.mem_append_right _ (inner hname)
    cases b with
    | forAll | rawForAll | «exists» =>
      simp only [Expr.substituteByName, Expr.renameFree]
      rw [quantifier rfl]
    | lambda | namedBinder =>
      simp only [Expr.substituteByName, Expr.renameFree]
      rw [function rfl]
    | some => cases h.described _ List.mem_cons_self

end Renaming

section FreeVariables

variable {names : List String} {result : List LogicVariable} {v w : LogicVariable}

theorem mem_noteVariable (h : w ∈ noteVariable names result v) : w ∈ result ∨ w.name ∉ names ∧ w = v := by
  rw [noteVariable] at h
  split at h
  · exact .inl h
  · rename_i new
    obtain h | h := List.mem_append.mp h
    · exact .inl h
    · obtain rfl := List.mem_singleton.mp h
      exact .inr ⟨fun bound => new (.inl bound), rfl⟩

theorem nodup_noteVariable (nodup : (result.map LogicVariable.name).Nodup) : ((noteVariable names result v).map LogicVariable.name).Nodup := by
  rw [noteVariable]
  split
  · exact nodup
  · rename_i new
    rw [List.map_append]
    refine List.nodup_append.mpr ⟨nodup, List.nodup_singleton _, fun n hn m hm same => new (.inr ?_)⟩
    obtain rfl := List.mem_singleton.mp hm
    exact same ▸ hn

theorem freeVariablesInOrderList_induct {P : List LogicVariable → Prop} (start : P result)
    (step : ∀ t ∈ ts, ∀ result, P result → P (t.freeVariablesInOrderRec result names)) : P (freeVariablesInOrderList ts result names) := by
  induction ts generalizing result with
  | nil => exact start
  | cons t ts ih =>
    rw [List.forall_mem_cons] at step
    exact ih (step.1 result start) step.2

theorem nodup_freeVariablesInOrderRec (nodup : (result.map LogicVariable.name).Nodup) :
    ((e.freeVariablesInOrderRec result names).map LogicVariable.name).Nodup := by
  induction e generalizing result names with
  | symbol x =>
    cases x with
    | const c => exact nodup
    | var v => exact nodup_noteVariable nodup
  | apply f ts hf ih => exact freeVariablesInOrderList_induct (P := fun r => (r.map LogicVariable.name).Nodup) nodup fun t ht r => ih t ht
  | node op ts ih => exact freeVariablesInOrderList_induct (P := fun r => (r.map LogicVariable.name).Nodup) nodup fun t ht r => ih t ht
  | bind b vs ts ih =>
    cases b with
    | some =>
      refine freeVariablesInOrderList_induct (P := fun r => (r.map LogicVariable.name).Nodup) ?_ fun t ht r => ih t ht
      clear ih
      induction vs generalizing result with
      | nil => exact nodup
      | cons v vs tail => exact tail (nodup_noteVariable nodup)
    | _ => exact freeVariablesInOrderList_induct (P := fun r => (r.map LogicVariable.name).Nodup) nodup fun t ht r => ih t ht

theorem nodup_freeVariablesInOrder (e : Expr) : (e.freeVariablesInOrder.map LogicVariable.name).Nodup :=
  nodup_freeVariablesInOrderRec List.nodup_nil

/-- What is noted occurs free. -/
theorem mem_freeVariablesInOrderRec (described : ∀ p ∈ e.binders, p.1.isDescription = false)
    (h : w ∈ e.freeVariablesInOrderRec result names) : w ∈ result ∨ w.name ∉ names ∧ .var w ∈ e.symbols := by
  induction e generalizing result names with
  | symbol x =>
    cases x with
    | const c => exact .inl h
    | var v => exact (mem_noteVariable h).imp_right fun ⟨free, same⟩ => ⟨free, List.mem_singleton.mpr (congrArg _ same)⟩
  | apply f ts hf ih =>
    have list : w ∈ freeVariablesInOrderList ts result names → w ∈ result ∨ w.name ∉ names ∧ .var w ∈ (Expr.apply f ts).symbols := by
      refine freeVariablesInOrderList_induct (P := fun r => w ∈ r → w ∈ result ∨ w.name ∉ names ∧ .var w ∈ (Expr.apply f ts).symbols) .inl
        fun t ht r before here => ?_
      obtain old | ⟨free, occurs⟩ := ih t ht (fun p hp => described p (by
        rw [Expr.binders, bindersList_eq]
        exact List.mem_flatMap.mpr ⟨t, ht, hp⟩)) here
      · exact before old
      · exact .inr ⟨free, List.mem_append_right _ (mem_symbolsList.mpr ⟨t, ht, occurs⟩)⟩
    exact list h
  | node op ts ih =>
    have list : w ∈ freeVariablesInOrderList ts result names → w ∈ result ∨ w.name ∉ names ∧ .var w ∈ (Expr.node op ts).symbols := by
      refine freeVariablesInOrderList_induct (P := fun r => w ∈ r → w ∈ result ∨ w.name ∉ names ∧ .var w ∈ (Expr.node op ts).symbols) .inl
        fun t ht r before here => ?_
      obtain old | ⟨free, occurs⟩ := ih t ht (fun p hp => described p (by
        rw [Expr.binders, bindersList_eq]
        exact List.mem_flatMap.mpr ⟨t, ht, hp⟩)) here
      · exact before old
      · exact .inr ⟨free, mem_symbolsList.mpr ⟨t, ht, occurs⟩⟩
    exact list h
  | bind b vs ts ih =>
    have list : w ∈ freeVariablesInOrderList ts result (vs.map LogicVariable.name ++ names) →
        w ∈ result ∨ w.name ∉ names ∧ .var w ∈ (Expr.bind b vs ts).symbols := by
      refine freeVariablesInOrderList_induct (P := fun r => w ∈ r → w ∈ result ∨ w.name ∉ names ∧ .var w ∈ (Expr.bind b vs ts).symbols) .inl
        fun t ht r before here => ?_
      obtain old | ⟨free, occurs⟩ := ih t ht (fun p hp => described p (by
        rw [Expr.binders, bindersList_eq]
        exact List.mem_cons_of_mem _ (List.mem_flatMap.mpr ⟨t, ht, hp⟩))) here
      · exact before old
      · rw [List.mem_append, not_or] at free
        exact .inr ⟨free.2, mem_symbols_bind.mpr ⟨fun mem => free.1 (List.mem_map_of_mem mem), t, ht, occurs⟩⟩
    cases b with
    | some => cases described _ List.mem_cons_self
    | _ => exact list h

theorem Regular.mem_iff (h : Regular e) : v ∈ e.freeVariablesInOrder ↔ .var v ∈ e.symbols := by
  constructor
  · intro mem
    obtain none_ | ⟨-, occurs⟩ := mem_freeVariablesInOrderRec h.described mem
    · cases none_
    · exact occurs
  · exact fun occurs => h.mem_free occurs List.not_mem_nil

/-- Of the free variables of a name there is one. -/
theorem eq_of_name {e : Expr} (hv : v ∈ e.freeVariablesInOrder) (hw : w ∈ e.freeVariablesInOrder) (same : v.name = w.name) : v = w :=
  List.inj_on_of_nodup_map (nodup_freeVariablesInOrder e) hv hw same

theorem noteVariable_map (inside : v ∈ free) (sub : result ⊆ free) (injective : ∀ v ∈ free, ∀ w ∈ free, v.name = w.name ↔ (σ v).name = (σ w).name)
    (hv : v.name ∉ names) (hw : (σ v).name ∉ names) : noteVariable names (result.map σ) (σ v) = (noteVariable names result v).map σ := by
  have known : (σ v).name ∈ (result.map σ).map LogicVariable.name ↔ v.name ∈ result.map LogicVariable.name := by
    rw [List.map_map]
    simp only [List.mem_map, Function.comp]
    exact exists_congr fun w => and_congr_right fun mem => (injective w (sub mem) v inside).symm
  simp only [noteVariable, hv, hw, known, false_or]
  split
  · rfl
  · rw [List.map_append]
    rfl

theorem freeVariablesInOrderList_map (sub : result ⊆ free)
    (each : ∀ t ∈ ts, ∀ result, result ⊆ free → (t.renameFree σ bound).freeVariablesInOrderRec (result.map σ) names =
      (t.freeVariablesInOrderRec result names).map σ ∧ t.freeVariablesInOrderRec result names ⊆ free) :
    freeVariablesInOrderList (renameFreeList σ bound ts) (result.map σ) names = (freeVariablesInOrderList ts result names).map σ ∧
      freeVariablesInOrderList ts result names ⊆ free := by
  induction ts generalizing result with
  | nil => exact ⟨rfl, sub⟩
  | cons t ts ih =>
    rw [List.forall_mem_cons] at each
    obtain ⟨here, sub'⟩ := each.1 result sub
    rw [renameFreeList, freeVariablesInOrderList, here]
    exact ih sub' each.2

/-- A renaming keeps the order in which the free variables are noted. -/
theorem freeVariablesInOrderRec_map {ν' : LogicVariable → LogicVariable} {free' : List LogicVariable} (h : RegularAt free ν bound e)
    (h' : RegularAt free' ν' bound (e.renameFree σ bound)) (avoids : e.Avoids σ bound)
    (injective : ∀ v ∈ free, ∀ w ∈ free, v.name = w.name ↔ (σ v).name = (σ w).name) (sub : result ⊆ free) :
    (e.renameFree σ bound).freeVariablesInOrderRec (result.map σ) (bound.map LogicVariable.name) =
        (e.freeVariablesInOrderRec result (bound.map LogicVariable.name)).map σ ∧
      e.freeVariablesInOrderRec result (bound.map LogicVariable.name) ⊆ free := by
  induction e generalizing bound result with
  | symbol x =>
    cases x with
    | const c => exact ⟨rfl, sub⟩
    | var v =>
      rw [Expr.renameFree] at h' ⊢
      by_cases hv : v ∈ bound
      · have known : v.name ∈ bound.map LogicVariable.name := List.mem_map_of_mem hv
        rw [if_pos hv, Expr.freeVariablesInOrderRec, Expr.freeVariablesInOrderRec, noteVariable, noteVariable, if_pos (.inl known), if_pos (.inl known)]
        exact ⟨rfl, sub⟩
      · rw [if_neg hv] at h' ⊢
        have inside := h.sorts (v, bound) (List.mem_singleton_self _) hv
        have name := (h.scopes (v, bound) (List.mem_singleton_self _)).resolve_left hv
        have name' := (h'.scopes (σ v, bound) (List.mem_singleton_self _)).resolve_left (avoids hv)
        refine ⟨noteVariable_map inside sub injective name name', fun w hw => ?_⟩
        obtain old | ⟨-, rfl⟩ := mem_noteVariable hw
        · exact sub old
        · exact inside
  | apply f ts hf ih =>
    have args := (avoidsList_iff _).mp avoids.2
    refine freeVariablesInOrderList_map sub fun t ht r hr => ih t ht (h.arg ht) ?_ (args t ht) hr
    rw [Expr.renameFree, renameFreeList_eq] at h'
    exact h'.arg (List.mem_map_of_mem ht)
  | node op ts ih =>
    have args := (avoidsList_iff _).mp avoids
    refine freeVariablesInOrderList_map sub fun t ht r hr => ih t ht (h.term ht) ?_ (args t ht) hr
    rw [Expr.renameFree, renameFreeList_eq] at h'
    exact h'.term (List.mem_map_of_mem ht)
  | bind b vs ts ih =>
    have args := (avoidsList_iff _).mp avoids
    have list : freeVariablesInOrderList (renameFreeList σ (vs ++ bound) ts) (result.map σ) (vs.map LogicVariable.name ++ bound.map LogicVariable.name) =
          (freeVariablesInOrderList ts result (vs.map LogicVariable.name ++ bound.map LogicVariable.name)).map σ ∧
        freeVariablesInOrderList ts result (vs.map LogicVariable.name ++ bound.map LogicVariable.name) ⊆ free :=
      freeVariablesInOrderList_map sub fun t ht r hr => by
        have part : RegularAt free' ν' (vs ++ bound) (t.renameFree σ (vs ++ bound)) := by
          rw [Expr.renameFree, renameFreeList_eq] at h'
          exact h'.part (List.mem_map_of_mem ht)
        have := ih t ht (h.part ht) part (args t ht) hr
        rwa [List.map_append] at this
    cases b with
    | some => cases h.described _ List.mem_cons_self
    | _ => exact list

end FreeVariables

section Normalization

variable {v w : LogicVariable} {vs : List LogicVariable} {n : Nat}

/-- The variables with their new ones, numbered from `n` on. -/
def numbered : Nat → List LogicVariable → List (LogicVariable × LogicVariable)
  | _, [] => []
  | n, v :: vs => (v, ⟨"V" ++ toString n, v.sort⟩) :: numbered (n + 1) vs

theorem numbered_fst (n : Nat) (vs : List LogicVariable) : (numbered n vs).map Prod.fst = vs := by
  induction vs generalizing n with
  | nil => rfl
  | cons v vs ih => rw [numbered, List.map_cons, ih]

theorem numbered_map (n : Nat) (sorts : ∀ v ∈ vs, (σ v).sort = v.sort) :
    numbered n (vs.map σ) = (numbered n vs).map fun p => (σ p.1, p.2) := by
  induction vs generalizing n with
  | nil => rfl
  | cons v vs ih =>
    rw [List.forall_mem_cons] at sorts
    rw [List.map_cons, numbered, numbered, List.map_cons, ih _ sorts.2, sorts.1]

theorem renamings_eq (nodup : (vs.map LogicVariable.name).Nodup) : renamings vs = numbered 0 vs := by
  have fold : ∀ pairs : List (LogicVariable × LogicVariable), (∀ p ∈ pairs, ∀ v ∈ vs, p.1.name ≠ v.name) →
      vs.foldl (fun pairs v => if pairs.any (fun p => p.1.name = v.name) then pairs
        else pairs ++ [(v, ⟨"V" ++ toString pairs.length, v.sort⟩)]) pairs = pairs ++ numbered pairs.length vs := by
    induction vs with
    | nil => exact fun pairs _ => (List.append_nil _).symm
    | cons v vs ih =>
      intro pairs apart
      rw [List.map_cons, List.nodup_cons] at nodup
      have new : pairs.any (fun p => p.1.name = v.name) = false := by
        rw [List.any_eq_false]
        exact fun p hp same => apart p hp v List.mem_cons_self (of_decide_eq_true same)
      rw [List.foldl_cons, new, if_neg Bool.false_ne_true, ih nodup.2, List.length_append, numbered, List.append_assoc]
      · rfl
      · intro p hp w hw
        obtain hp | hp := List.mem_append.mp hp
        · exact apart p hp w (List.mem_cons_of_mem _ hw)
        · obtain rfl := List.mem_singleton.mp hp
          exact fun same => nodup.1 (same ▸ List.mem_map_of_mem hw)
  exact (fold [] fun p hp => absurd hp List.not_mem_nil).trans (List.nil_append _)

theorem lookupName_of_mem {pairs : List (LogicVariable × LogicVariable)} (nodup : (pairs.map fun p => p.1.name).Nodup) (mem : (v, w) ∈ pairs) :
    lookupName pairs v.name = some w := by
  induction pairs with
  | nil => cases mem
  | cons p pairs ih =>
    rw [List.map_cons, List.nodup_cons] at nodup
    rw [lookupName, List.find?_cons]
    obtain rfl | mem := List.mem_cons.mp mem
    · simp
    · have other : decide (p.1.name = v.name) = false := decide_eq_false fun same =>
        nodup.1 (same ▸ List.mem_map_of_mem (f := fun p : LogicVariable × LogicVariable => p.1.name) mem)
      rw [other]
      exact ih nodup.2 mem

theorem lookupName_eq_none {pairs : List (LogicVariable × LogicVariable)} {name : String} (missing : ∀ p ∈ pairs, p.1.name ≠ name) :
    lookupName pairs name = none := by
  rw [lookupName, Option.map_eq_none_iff, List.find?_eq_none]
  exact fun p hp same => missing p hp (of_decide_eq_true same)

theorem renamings_fst (e : Expr) : (renamings e.freeVariablesInOrder).map Prod.fst = e.freeVariablesInOrder := by
  rw [renamings_eq (nodup_freeVariablesInOrder e), numbered_fst]

theorem nodup_renamings (e : Expr) : ((renamings e.freeVariablesInOrder).map fun p => p.1.name).Nodup := by
  have := nodup_freeVariablesInOrder e
  rwa [← renamings_fst e, List.map_map] at this

theorem exists_renaming (hv : v ∈ e.freeVariablesInOrder) : ∃ w, (v, w) ∈ renamings e.freeVariablesInOrder := by
  rw [← renamings_fst e] at hv
  obtain ⟨⟨v, w⟩, mem, rfl⟩ := List.mem_map.mp hv
  exact ⟨w, mem⟩

theorem newName_of_mem (mem : (v, w) ∈ renamings e.freeVariablesInOrder) : e.newName v = w := by
  rw [Expr.newName, lookupName_of_mem (nodup_renamings e) mem, Option.getD_some]

/-- Of a regular expression the normal form is the one with its free variables renamed. -/
theorem normalized_eq (h : Regular e) : (logicUtilNormalizeFreeVariables e).2.2 = e.renameFree e.newName [] := by
  let table : String → Option Expr := fun name => (lookupName (renamings e.freeVariablesInOrder) name).map fun v => .symbol (.var v)
  have renamed : e.substituteByName (fun name => if name ∈ [] then none else table name) = e.renameFree e.newName [] := by
    refine substituteByName_eq h (fun v hv => ?_) (fun name other => ?_) (fun w hw => absurd hw List.not_mem_nil) (List.nil_subset _)
    · obtain ⟨w, mem⟩ := exists_renaming hv
      simp only [table, lookupName_of_mem (nodup_renamings e) mem, newName_of_mem mem, Option.map_some]
    · simp only [table, lookupName_eq_none fun p hp => other p.1 (by rw [← renamings_fst e]; exact List.mem_map_of_mem hp), Option.map_none]
  exact renamed

theorem renamings_renameFree {e' : Expr} (h : Regular e) (h' : Regular e') (sorts : ∀ v, .var v ∈ e.symbols → (σ v).sort = v.sort)
    (injective : ∀ v w, .var v ∈ e.symbols → .var w ∈ e.symbols → σ v = σ w → v = w) (avoids : e.Avoids σ []) (eq : e' = e.renameFree σ []) :
    renamings e'.freeVariablesInOrder = (renamings e.freeVariablesInOrder).map fun p => (σ p.1, p.2) := by
  subst eq
  have renamed : ∀ v ∈ e.freeVariablesInOrder, σ v ∈ (e.renameFree σ []).freeVariablesInOrder := fun v hv => by
    rw [h'.mem_iff, mem_symbols_renameFree avoids]
    exact .inr ⟨v, List.not_mem_nil, h.mem_iff.mp hv, rfl⟩
  have order : (e.renameFree σ []).freeVariablesInOrder = e.freeVariablesInOrder.map σ := by
    refine (freeVariablesInOrderRec_map h h' avoids (fun v hv w hw => ⟨fun same => ?_, fun same => ?_⟩) (List.nil_subset _)).1
    · rw [eq_of_name hv hw same]
    · exact congrArg _ (injective v w (h.mem_iff.mp hv) (h.mem_iff.mp hw) (eq_of_name (renamed v hv) (renamed w hw) same))
  rw [renamings_eq (nodup_freeVariablesInOrder _), renamings_eq (nodup_freeVariablesInOrder _), order]
  exact numbered_map 0 fun v hv => sorts v (h.mem_iff.mp hv)

/-- On regular expressions the normalization is a faithful renaming. -/
theorem normalizeFreeVariables_spec (e : Expr) (h : Regular e) :
    (∀ old new normal, logicUtilNormalizeFreeVariables e = (old, new, normal) →
      (∀ (V : Type) (W : Reading V) (ρ ρ' : Assignment V), (∀ c j, ρ' j (.const c) = ρ j (.const c)) →
        (∀ p ∈ old.zip new, ∀ j, ρ' j (.var p.2) = ρ j (.var p.1)) → normal.eval W ρ' = e.eval W ρ) ∧
      ∀ w, .var w ∈ normal.symbols ↔ w ∈ new) ∧
    ∀ e', Regular e' → RenamesTo e e' → (logicUtilNormalizeFreeVariables e).2.2 = (logicUtilNormalizeFreeVariables e').2.2 := by
  refine ⟨fun old new normal run => ?_, fun e' h' ⟨σ, sorts, injective, avoids, eq⟩ => ?_⟩
  · have normalForm := normalized_eq h
    obtain ⟨rfl, rest⟩ := Prod.mk.inj run
    obtain ⟨rfl, rfl⟩ := Prod.mk.inj rest
    rw [show e.substituteByName _ = e.renameFree e.newName [] from normalForm]
    refine ⟨fun V W ρ ρ' constants values => ?_, fun w => ?_⟩
    · refine eval_renameFree h.avoids (fun c _ => constants c) (fun v hv => absurd hv List.not_mem_nil) fun v _ occurs j => ?_
      obtain ⟨w, mem⟩ := exists_renaming (h.mem_iff.mpr occurs)
      rw [newName_of_mem mem]
      refine values (v, w) ?_ j
      rw [← List.unzip_fst, ← List.unzip_snd, List.zip_unzip]
      exact mem
    · rw [mem_symbols_renameFree h.avoids]
      constructor
      · rintro (⟨none_, -⟩ | ⟨v, -, occurs, rfl⟩)
        · cases none_
        · obtain ⟨w, mem⟩ := exists_renaming (h.mem_iff.mpr occurs)
          rw [newName_of_mem mem]
          exact List.mem_map_of_mem mem
      · intro new
        obtain ⟨⟨v, w⟩, mem, rfl⟩ := List.mem_map.mp new
        refine .inr ⟨v, List.not_mem_nil, h.mem_iff.mp ?_, newName_of_mem mem⟩
        rw [← renamings_fst e]
        exact List.mem_map_of_mem mem
  · rw [normalized_eq h, normalized_eq h', eq, renameFree_renameFree avoids, ← eq]
    refine renameFree_congr fun v occurs _ => ?_
    obtain ⟨w, mem⟩ := exists_renaming (h.mem_iff.mpr occurs)
    have mem' : (σ v, w) ∈ renamings e'.freeVariablesInOrder := by
      rw [renamings_renameFree h h' sorts injective avoids eq]
      exact List.mem_map_of_mem (f := fun p : LogicVariable × LogicVariable => (σ p.1, p.2)) mem
    rw [newName_of_mem mem, Function.comp, newName_of_mem mem']

def argSort : LSort := .first (.uninterpreted "s")
def relation (x y : String) : Expr :=
  .apply (.symbol (.const ⟨"p", .function [.uninterpreted "s", .uninterpreted "s"] .boolean⟩)) [.symbol (.var ⟨x, argSort⟩), .symbol (.var ⟨y, argSort⟩)]

/-- The quantifier binds a name that is also free. -/
def rebinding (x y : String) : Expr := .node .and [relation x y, .bind .forAll [⟨"X", argSort⟩] [relation "X" "X"]]

theorem regular_rebinding {x y : String} (other : x ≠ y) : Regular (rebinding x y) where
  heads := by simp [rebinding, relation, Expr.headSymbols, headSymbolsList, Expr.symbols]
  described := by simp [rebinding, relation, Expr.binders, bindersList, Binder.isDescription]
  functions := by simp [rebinding, relation, Expr.binders, bindersList, Binder.isQuantifier]
  scopes := by simp [rebinding, relation, Expr.occurrences, occurrencesList]
  sorts := by
    simp [rebinding, relation, Expr.occurrences, occurrencesList, Expr.freeVariablesInOrder, Expr.freeVariablesInOrderRec, freeVariablesInOrderList,
      noteVariable, other.symm]
  capture := by simp [rebinding, relation, Expr.occurrences, occurrencesList]

/-- The names of the free variables do not matter. -/
theorem normalizeFreeVariables_spec_rebinding : (logicUtilNormalizeFreeVariables (rebinding "X" "Y")).2.2 =
    (logicUtilNormalizeFreeVariables (rebinding "A" "B")).2.2 := by
  refine (normalizeFreeVariables_spec _ (regular_rebinding (by decide))).2 _ (regular_rebinding (by decide))
    ⟨fun v => if v.name = "X" then ⟨"A", v.sort⟩ else ⟨"B", v.sort⟩, fun v _ => by simp only; split <;> rfl, fun v w hv hw same => ?_, ?_, ?_⟩
  · simp only [rebinding, relation, Expr.symbols, symbolsList] at hv hw
    revert same
    grind
  · simp [rebinding, relation, Expr.Avoids, AvoidsList]
  · simp [rebinding, relation, Expr.renameFree, renameFreeList]

/-- Below a quantifier of the new name the free variable is captured. -/
theorem normalizeFreeVariables_spec_fails :
    ¬ ((∀ e old new normal, logicUtilNormalizeFreeVariables e = (old, new, normal) →
        (∀ (V : Type) (W : Reading V) (ρ ρ' : Assignment V), (∀ c j, ρ' j (.const c) = ρ j (.const c)) →
          (∀ p ∈ old.zip new, ∀ j, ρ' j (.var p.2) = ρ j (.var p.1)) → normal.eval W ρ' = e.eval W ρ) ∧
        ∀ w, .var w ∈ normal.symbols ↔ w ∈ new) ∧
      ∀ e e', RenamesTo e e' → (logicUtilNormalizeFreeVariables e).2.2 = (logicUtilNormalizeFreeVariables e').2.2) := by
  intro faithful
  have exact_ := ((faithful.1 (.bind .forAll [⟨"V0", argSort⟩] [relation "X" "V0"]) _ _ _ rfl).2 ⟨"V0", argSort⟩).mpr (by decide)
  revert exact_
  decide

end Normalization

end Goivy.LogicUtil
