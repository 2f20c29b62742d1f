import Goivy.Logic.Replace
import Goivy.Logic.Vocabulary
import Goivy.Module.Clauses
import Goivy.TransRel.AtomicActions

/-! The negation of clauses: variables become constants, and the closed conjunction is negated. -/
namespace Goivy

namespace Expr

/-- Only the first variable of a name is kept. -/
def noteName (result : List Variable) (v : Variable) : List Variable :=
  if result.any (·.name = v.name) then result else result ++ [v]

mutual
/-- `collectVarsOrdered`. It meets a bound variable where it occurs in the body. -/
@[grind =] def collectVarsOrdered : Expr → List Variable → List Variable
  | .var v, result => noteName result v
  | .const _, result => result
  | .apply _ ts, result | .and ts, result | .or ts, result => collectVarsOrderedList ts result
  | .not a, result | .forAll _ a, result | .exists _ a, result => a.collectVarsOrdered result
  | .eq a b, result | .implies a b, result | .iff a b, result => b.collectVarsOrdered (a.collectVarsOrdered result)
  | .ite a b c, result => c.collectVarsOrdered (b.collectVarsOrdered (a.collectVarsOrdered result))
  | .some vs a, result => a.collectVarsOrdered (vs.foldl noteName result)
  | .someElse vs a b c, result =>
    c.collectVarsOrdered (b.collectVarsOrdered (a.collectVarsOrdered (vs.foldl noteName result)))
@[grind =] def collectVarsOrderedList : List Expr → List Variable → List Variable
  | [], result => result
  | t :: ts, result => collectVarsOrderedList ts (t.collectVarsOrdered result)
end

/-- `substituteNodesRec`, for variables, in formulas without descriptions. Their parameters would be replaced as well. -/
def substituteNodes (e : Expr) (subs : List (Variable × Expr)) : Expr := e.replace subs

/-- `CloseFormula`. -/
def closeFormula (e : Expr) : Expr :=
  if e.freeVariables.isEmpty then e else .forAll (deduplicateAndSortVars e.freeVariables) e

mutual
/-- `CloseEPR`. -/
@[grind =] def closeEPR : Expr → Expr
  | .and ts => .and (closeEPRList ts)
  | e => e.closeFormula
@[grind =] def closeEPRList : List Expr → List Expr
  | [] => []
  | t :: ts => t.closeEPR :: closeEPRList ts
end

end Expr

/-- `var_to_skolem`. -/
def varToSkolem (v : Variable) : Const := ⟨"__" ++ v.name, .first v.sort⟩

/-- The Skolem substitution of `dualClauses`. -/
def skolemSubs (vs : List Variable) : List (Variable × Expr) := vs.map fun v => (v, .const (varToSkolem v))

namespace Clauses

/-- `IsUniversalFirstOrder`. -/
def isUniversalFirstOrder (cl : Clauses) : Bool :=
  cl.defs.isEmpty && cl.fmlas.all fun f => f.symbols.all fun c => !(['_', '_'].isPrefixOf c.name.toList)

/-- `UsedVariablesOrdered`. -/
def usedVariablesOrdered (cl : Clauses) : List Variable :=
  cl.defs.foldl (fun result d => d.rhs.collectVarsOrdered (d.lhs.collectVarsOrdered result)) (Expr.collectVarsOrderedList cl.fmlas [])

/-- `SubstituteNodesClauses`. -/
def substituteNodesClauses (cl : Clauses) (subs : List (Variable × Expr)) : Clauses :=
  if subs.isEmpty then cl
  else new (cl.fmlas.map (Expr.substituteNodes · subs)) (cl.defs.map fun d => ⟨d.lhs.substituteNodes subs, d.rhs.substituteNodes subs⟩)

/-- `ToOpenFormula`. -/
def toOpenFormula (cl : Clauses) : Expr := .and (cl.defs.map Definition.toConstraint ++ cl.fmlas)

/-- `clausesToFormula`. -/
def clausesToFormula (cl : Clauses) : Expr := cl.toOpenFormula.closeEPR.dropUniversals

/-- `dualClauses` without an instantiator. -/
def dualClauses (cl : Clauses) : Clauses :=
  ofFormula (cl.substituteNodesClauses (skolemSubs cl.usedVariablesOrdered)).clausesToFormula.negate

/-- `NegateClauses`; nothing where it panics. -/
def negateClauses (cl : Clauses) : Option Clauses := if cl.isUniversalFirstOrder then some cl.dualClauses else none

end Clauses

namespace Expr

variable {D : Domain} {M : Structure D} {e : Expr} {ts : List Expr} {subs : List (Variable × Expr)}

theorem valid_negate : e.negate.Valid M ↔ ∀ env, ¬ e.Holds M env := by
  unfold negate
  split
  · simp [Valid]
  · simp [Valid]

section Closing

theorem closeEPRList_eq_map (ts : List Expr) : closeEPRList ts = ts.map closeEPR := by
  induction ts with
  | nil => rfl
  | cons t ts ih => rw [closeEPRList, ih, List.map_cons]

theorem closeEPR_eq (open_ : ∀ ts, e ≠ .and ts) : e.closeEPR = e.closeFormula := by
  cases e with
  | and ts => exact absurd rfl (open_ ts)
  | _ => rfl

theorem closeFormula_spec (e : Expr) : e.closeFormula.freeVariables = [] ∧ (e.closeFormula.Valid M ↔ e.Valid M) := by
  unfold closeFormula
  split
  · rename_i closed
    exact ⟨List.isEmpty_iff.mp closed, Iff.rfl⟩
  · refine ⟨?_, Valid.forAll⟩
    rw [freeVariables, List.filter_eq_nil_iff]
    intro v hv
    simpa [deduplicateAndSortVars] using hv

/-- The result of `CloseEPR` is closed, and true when all instances of the formula are. -/
theorem closeEPR_spec (e : Expr) : e.closeEPR.freeVariables = [] ∧ (e.closeEPR.Valid M ↔ e.Valid M) := by
  induction e with
  | and ts ih =>
    rw [closeEPR, closeEPRList_eq_map]
    refine ⟨?_, ?_⟩
    · rw [freeVariables, freeVariablesList_eq_flatMap, List.flatMap_map, List.flatMap_eq_nil_iff]
      exact fun t ht => (ih t ht).1
    · rw [valid_and, valid_and, List.forall_mem_map]
      exact forall₂_congr fun t ht => (ih t ht).2
  | _ => exact closeFormula_spec _

theorem dropUniversals_closeFormula (e : Expr) : e.closeFormula.dropUniversals = e.dropUniversals := by
  unfold closeFormula
  split <;> rfl

theorem dropUniversals_and (many : ts.length ≠ 1) : (Expr.and ts).dropUniversals = .and ts := by
  rw [dropUniversals]
  cases ts with
  | nil => rfl
  | cons t ts =>
    cases ts with
    | nil => exact absurd rfl many
    | cons u us => rfl

end Closing

section Conjuncts

theorem conjuncts_eq (atom : ∀ ts, e ≠ .and ts) : e.conjuncts = [e] := by
  cases e with
  | and ts => exact absurd rfl (atom ts)
  | _ => rfl

theorem not_and_of_mem_conjuncts {t : Expr} (h : t ∈ e.conjuncts) (us : List Expr) : t ≠ .and us := by
  induction e with
  | and ts ih =>
    rw [conjuncts, collectAndList_eq_flatMap, List.mem_flatMap] at h
    obtain ⟨u, hu, ht⟩ := h
    exact ih u hu ht
  | _ =>
    rw [conjuncts_eq fun _ => Expr.noConfusion, List.mem_singleton] at h
    rw [h]
    exact Expr.noConfusion

theorem conjuncts_freeVariables (e : Expr) : e.conjuncts.flatMap freeVariables = e.freeVariables := by
  induction e with
  | and ts ih =>
    simp only [conjuncts, collectAndList_eq_flatMap, freeVariables, freeVariablesList_eq_flatMap, List.flatMap_assoc]
    exact List.flatMap_congr ih
  | _ => rw [conjuncts_eq fun _ => Expr.noConfusion, List.flatMap_singleton]

/-- Constants for variables add no conjunctions. -/
theorem conjuncts_replace (constants : ∀ p ∈ subs, ∃ c, p.2 = .const c) (e : Expr) :
    (e.replace subs).conjuncts = e.conjuncts.map (replace · subs) := by
  induction e with
  | and ts ih =>
    simp only [replace, replaceList_eq_map, conjuncts, collectAndList_eq_flatMap, List.flatMap_map, List.map_flatMap]
    exact List.flatMap_congr ih
  | var v =>
    have atom : ∀ ts, (Expr.var v).replace subs ≠ .and ts := by
      intro ts
      rw [replace]
      cases found : subs.lookup v with
      | none => exact Expr.noConfusion
      | some t =>
        obtain ⟨c, rfl⟩ := constants _ (InsMap.mem_of_lookup found)
        exact Expr.noConfusion
    rw [conjuncts_eq atom]
    rfl
  | _ =>
    rw [conjuncts_eq fun _ => Expr.noConfusion]
    rfl

end Conjuncts

section Dropping

/-- What a replacement in a formula does to the variables that are free in its core. -/
structure Narrows (subs subs' : List (Variable × Expr)) (e core : Expr) : Prop where
  subset : ∀ p ∈ subs', p ∈ subs
  lookup : ∀ v ∈ core.freeVariables, subs'.lookup v = if v ∈ e.freeVariables then subs.lookup v else none

theorem Narrows.refl (subs : List (Variable × Expr)) (e : Expr) : Narrows subs subs e e :=
  ⟨fun _ hp => hp, fun _ hv => (if_pos hv).symm⟩

theorem Narrows.binder {subs' : List (Variable × Expr)} {vs : List Variable} {a core b : Expr}
    (h : Narrows (subs.filter (·.1 ∉ vs)) subs' a core) (free : b.freeVariables = a.freeVariables.filter (· ∉ vs)) :
    Narrows subs subs' b core where
  subset p hp := (List.mem_filter.mp (h.subset p hp)).1
  lookup v hv := by
    rw [h.lookup v hv, InsMap.lookup_filter_notMem, free]
    simp only [List.mem_filter, decide_eq_true_eq]
    grind

theorem subset_drop (e : Expr) : e.freeVariables ⊆ e.dropUniversals.freeVariables ∧ e.freeVariables ⊆ e.dropExistentials.freeVariables := by
  induction e with
  | forAll vs a ih => exact ⟨fun v hv => ih.1 (List.mem_filter.mp hv).1, fun _ hv => hv⟩
  | «exists» vs a ih => exact ⟨fun _ hv => hv, fun v hv => ih.2 (List.mem_filter.mp hv).1⟩
  | not a ih => exact ⟨ih.2, ih.1⟩
  | and ts ih =>
    refine ⟨?_, fun _ hv => hv⟩
    cases ts with
    | nil => exact fun _ hv => hv
    | cons t ts =>
      cases ts with
      | nil => simpa [dropUniversals, dropSingleton, freeVariables, freeVariablesList] using (ih t (by simp)).1
      | cons u us => exact fun _ hv => hv
  | _ => exact ⟨fun _ hv => hv, fun _ hv => hv⟩

/-- Dropping quantifiers and replacing variables by constants commute, but the variables of the dropped quantifiers stay. -/
theorem drop_replace (constants : ∀ p ∈ subs, ∃ c, p.2 = .const c) (e : Expr) :
    (∃ subs', (e.replace subs).dropUniversals = e.dropUniversals.replace subs' ∧ Narrows subs subs' e e.dropUniversals) ∧
      ∃ subs', (e.replace subs).dropExistentials = e.dropExistentials.replace subs' ∧ Narrows subs subs' e e.dropExistentials := by
  induction e generalizing subs with
  | var v =>
    have same : (replace (.var v) subs).dropUniversals = replace (.var v) subs ∧ (replace (.var v) subs).dropExistentials = replace (.var v) subs := by
      rw [replace]
      cases found : subs.lookup v with
      | none => exact ⟨rfl, rfl⟩
      | some t =>
        obtain ⟨c, rfl⟩ := constants _ (InsMap.mem_of_lookup found)
        exact ⟨rfl, rfl⟩
    exact ⟨⟨subs, same.1, .refl _ _⟩, subs, same.2, .refl _ _⟩
  | forAll vs a ih =>
    obtain ⟨subs', eq, narrows⟩ := (ih fun p hp => constants p (List.mem_filter.mp hp).1).1
    exact ⟨⟨subs', eq, narrows.binder rfl⟩, subs, rfl, .refl _ _⟩
  | «exists» vs a ih =>
    obtain ⟨subs', eq, narrows⟩ := (ih fun p hp => constants p (List.mem_filter.mp hp).1).2
    exact ⟨⟨subs, rfl, .refl _ _⟩, subs', eq, narrows.binder rfl⟩
  | not a ih =>
    obtain ⟨⟨subs₁, eq₁, narrows₁⟩, subs₂, eq₂, narrows₂⟩ := ih constants
    exact ⟨⟨subs₂, congrArg Expr.not eq₂, narrows₂.subset, narrows₂.lookup⟩, subs₁, congrArg Expr.not eq₁, narrows₁.subset, narrows₁.lookup⟩
  | and ts ih =>
    refine ⟨?_, subs, rfl, .refl _ _⟩
    cases ts with
    | nil => exact ⟨subs, rfl, .refl _ _⟩
    | cons t ts =>
      cases ts with
      | nil =>
        obtain ⟨subs', eq, narrows⟩ := (ih t (by simp) constants).1
        refine ⟨subs', eq, narrows.subset, fun v hv => ?_⟩
        have free : (Expr.and [t]).freeVariables = t.freeVariables := List.append_nil _
        rw [free]
        exact narrows.lookup v hv
      | cons u us => exact ⟨subs, rfl, .refl _ _⟩
  | _ => exact ⟨⟨subs, rfl, .refl _ _⟩, subs, rfl, .refl _ _⟩

end Dropping

/-- Constants are captured by no quantifier. -/
theorem eval_replace (plain : e.descriptionFree = true) (constants : ∀ p ∈ subs, ∃ c, p.2 = .const c)
    {env env' : Env D} (inst : Env.Instance M subs env env') : (e.replace subs).eval M env = e.eval M env' := by
  have inner {subs : List (Variable × Expr)} (constants : ∀ p ∈ subs, ∃ c, p.2 = .const c) (vs : List Variable) :
      substituteWithoutBoundVariables vs subs = Option.some (subs.filter (·.1 ∉ vs)) := by
    refine substituteWithoutBoundVariables_eq fun p hp _ x hx => ?_
    obtain ⟨c, eq⟩ := constants p hp
    rw [eq] at hx
    exact absurd hx List.not_mem_nil
  induction e generalizing subs env env' with
  | var v => exact (inst v).symm
  | const c => rfl
  | apply f ts ih | and ts ih | or ts ih =>
    rw [descriptionFree, descriptionFreeList_iff] at plain
    have terms : (replaceList ts subs).map (fun t => t.eval M env) = ts.map fun t => t.eval M env' := by
      rw [replaceList_eq_map, List.map_map]
      exact List.map_congr_left fun t ht => ih t ht (plain t ht) constants inst
    simp only [replace, eval, evalList_eq_map, terms]
  | not a ha => simp only [replace, eval, ha plain constants inst]
  | eq a b ha hb | implies a b ha hb | iff a b ha hb =>
    simp only [descriptionFree, Bool.and_eq_true] at plain
    simp only [replace, eval, ha plain.1 constants inst, hb plain.2 constants inst]
  | ite a b c ha hb hc =>
    simp only [descriptionFree, Bool.and_eq_true] at plain
    simp only [replace, eval, ha plain.1.1 constants inst, hb plain.1.2 constants inst, hc plain.2 constants inst]
  | forAll vs a ha =>
    simp only [replace, eval]
    exact congrArg Val.ofProp (propext (inst.forall_off_iff (inner constants vs) fun envA envB hi => by
      rw [ha plain (fun p hp => constants p (List.mem_filter.mp hp).1) hi]))
  | «exists» vs a ha =>
    simp only [replace, eval]
    exact congrArg Val.ofProp (propext (inst.exists_off_iff (inner constants vs) fun envA envB hi => by
      rw [ha plain (fun p hp => constants p (List.mem_filter.mp hp).1) hi]))
  | some | someElse => simp [descriptionFree] at plain

section Parts

theorem descriptionFree_drop (e : Expr) :
    e.dropUniversals.descriptionFree = e.descriptionFree ∧ e.dropExistentials.descriptionFree = e.descriptionFree := by
  induction e with
  | forAll vs a ih => exact ⟨ih.1, rfl⟩
  | «exists» vs a ih => exact ⟨rfl, ih.2⟩
  | not a ih => exact ⟨ih.2, ih.1⟩
  | and ts ih =>
    refine ⟨?_, rfl⟩
    cases ts with
    | nil => rfl
    | cons t ts =>
      cases ts with
      | nil => simpa [dropUniversals, dropSingleton, descriptionFree, descriptionFreeList] using (ih t (by simp)).1
      | cons u us => rfl
  | _ => exact ⟨rfl, rfl⟩

theorem descriptionFree_of_mem_conjuncts {t : Expr} (plain : e.descriptionFree = true) (h : t ∈ e.conjuncts) :
    t.descriptionFree = true := by
  induction e with
  | and ts ih =>
    rw [conjuncts, collectAndList_eq_flatMap, List.mem_flatMap] at h
    obtain ⟨u, hu, ht⟩ := h
    rw [descriptionFree, descriptionFreeList_iff] at plain
    exact ih u hu (plain u hu) ht
  | _ =>
    rw [conjuncts_eq fun _ => Expr.noConfusion, List.mem_singleton] at h
    rwa [h]

mutual
/-- The variables that `collectVarsOrdered` meets. -/
@[grind =] def variablesMet : Expr → List Variable
  | .var v => [v]
  | .const _ => []
  | .apply _ ts | .and ts | .or ts => variablesMetList ts
  | .not a | .forAll _ a | .exists _ a => a.variablesMet
  | .eq a b | .implies a b | .iff a b => a.variablesMet ++ b.variablesMet
  | .ite a b c => a.variablesMet ++ b.variablesMet ++ c.variablesMet
  | .some vs a => vs ++ a.variablesMet
  | .someElse vs a b c => vs ++ a.variablesMet ++ b.variablesMet ++ c.variablesMet
@[grind =] def variablesMetList : List Expr → List Variable
  | [] => []
  | t :: ts => t.variablesMet ++ variablesMetList ts
end

theorem variablesMetList_eq_flatMap (ts : List Expr) : variablesMetList ts = ts.flatMap variablesMet := by
  induction ts with
  | nil => rfl
  | cons t ts ih => rw [variablesMetList, ih, List.flatMap_cons]

theorem collectVarsOrderedList_eq (ih : ∀ t ∈ ts, ∀ result, t.collectVarsOrdered result = t.variablesMet.foldl noteName result)
    (result : List Variable) : collectVarsOrderedList ts result = (variablesMetList ts).foldl noteName result := by
  induction ts generalizing result with
  | nil => rfl
  | cons t ts tail =>
    rw [collectVarsOrderedList, ih t List.mem_cons_self, tail fun u hu => ih u (List.mem_cons_of_mem _ hu), variablesMetList, List.foldl_append]

theorem collectVarsOrdered_eq (e : Expr) (result : List Variable) :
    e.collectVarsOrdered result = e.variablesMet.foldl noteName result := by
  induction e generalizing result with
  | var | const => rfl
  | apply f ts ih | and ts ih | or ts ih =>
    rw [collectVarsOrdered, variablesMet]
    exact collectVarsOrderedList_eq ih result
  | not a ha | forAll vs a ha | «exists» vs a ha =>
    rw [collectVarsOrdered, variablesMet]
    exact ha result
  | eq a b ha hb | implies a b ha hb | iff a b ha hb | some vs a ha =>
    first
      | rw [collectVarsOrdered, variablesMet, List.foldl_append, ← ha, ← hb]
      | rw [collectVarsOrdered, variablesMet, List.foldl_append, ← ha]
  | ite a b c ha hb hc | someElse vs a b c ha hb hc =>
    rw [collectVarsOrdered, variablesMet]
    simp only [List.foldl_append, ha, hb, hc]

theorem freeVariables_subset (e : Expr) : e.freeVariables ⊆ e.variablesMet := by
  induction e with
  | apply f ts ih | and ts ih | or ts ih =>
    simp only [freeVariables, freeVariablesList_eq_flatMap, variablesMet, variablesMetList_eq_flatMap]
    intro v hv
    obtain ⟨t, ht, hv⟩ := List.mem_flatMap.mp hv
    exact List.mem_flatMap.mpr ⟨t, ht, ih t ht hv⟩
  | forAll vs a ih | «exists» vs a ih => exact fun v hv => ih (List.mem_filter.mp hv).1
  | _ => grind [freeVariables, variablesMet]

theorem variablesMet_drop (e : Expr) :
    e.dropUniversals.variablesMet = e.variablesMet ∧ e.dropExistentials.variablesMet = e.variablesMet := by
  induction e with
  | forAll vs a ih => exact ⟨ih.1, rfl⟩
  | «exists» vs a ih => exact ⟨rfl, ih.2⟩
  | not a ih => exact ⟨ih.2, ih.1⟩
  | and ts ih =>
    refine ⟨?_, rfl⟩
    cases ts with
    | nil => rfl
    | cons t ts =>
      cases ts with
      | nil => simpa [dropUniversals, dropSingleton, variablesMet, variablesMetList] using (ih t (by simp)).1
      | cons u us => rfl
  | _ => exact ⟨rfl, rfl⟩

theorem conjuncts_variablesMet (e : Expr) : e.conjuncts.flatMap variablesMet = e.variablesMet := by
  induction e with
  | and ts ih =>
    simp only [conjuncts, collectAndList_eq_flatMap, variablesMet, variablesMetList_eq_flatMap, List.flatMap_assoc]
    exact List.flatMap_congr ih
  | _ => rw [conjuncts_eq fun _ => Expr.noConfusion, List.flatMap_singleton]

theorem variablesMet_closeEPR (e : Expr) : e.closeEPR.variablesMet = e.variablesMet := by
  have atom (e : Expr) : e.closeFormula.variablesMet = e.variablesMet := by
    unfold closeFormula
    split <;> rfl
  induction e with
  | and ts ih =>
    simp only [closeEPR, closeEPRList_eq_map, variablesMet, variablesMetList_eq_flatMap, List.flatMap_map]
    exact List.flatMap_congr ih
  | _ => exact atom _

end Parts

end Expr

section Names

variable {vs result : List Variable}

theorem nodup_noteName (distinct : (result.map Variable.name).Nodup) :
    ((vs.foldl Expr.noteName result).map Variable.name).Nodup := by
  induction vs generalizing result with
  | nil => exact distinct
  | cons v vs ih =>
    refine ih ?_
    rw [Expr.noteName]
    split
    · exact distinct
    · rename_i new
      rw [List.map_append, List.nodup_append]
      refine ⟨distinct, List.nodup_singleton _, ?_⟩
      intro name old other same eq
      obtain ⟨w, hw, rfl⟩ := List.mem_map.mp old
      rw [List.map_singleton, List.mem_singleton] at same
      exact new (List.any_eq_true.mpr ⟨w, hw, decide_eq_true (eq.trans same)⟩)

theorem noteName_eq_nil (h : vs.foldl Expr.noteName result = []) : vs = [] ∧ result = [] := by
  induction vs generalizing result with
  | nil => exact ⟨rfl, h⟩
  | cons v vs ih =>
    have noted := (ih h).2
    rw [Expr.noteName] at noted
    split at noted
    · rename_i old
      rw [noted] at old
      exact absurd old (by simp)
    · exact absurd noted (by simp)

end Names

namespace Clauses

variable {D : Domain} {M N : Structure D} {cl : Clauses}

/-- The formula that is negated, before its variables are replaced. -/
def negated (cl : Clauses) : Expr := (new cl.fmlas []).clausesToFormula

/-- The variables of the negated formula that are not replaced: they are not the first ones of their names, or a quantifier around them is dropped. -/
def escaping (cl : Clauses) : List Variable :=
  cl.negated.freeVariables.filter fun v => v ∉ cl.usedVariablesOrdered ∨ ∀ f ∈ cl.fmlas, v ∉ f.freeVariables

theorem valid_clausesToFormula : cl.clausesToFormula.Valid M ↔ cl.Sat M := by
  rw [clausesToFormula, (Expr.drop_spec M _).1, (Expr.closeEPR_spec _).2, toOpenFormula, Expr.valid_and, Sat]
  simp only [List.mem_append, List.mem_map]
  grind

theorem sat_dualClauses : cl.dualClauses.Sat M ↔
    ∀ env, ¬ (cl.substituteNodesClauses (skolemSubs cl.usedVariablesOrdered)).clausesToFormula.Holds M env := by
  rw [dualClauses, sat_ofFormula, Expr.valid_negate]

theorem closed_clausesToFormula (many : cl.fmlas.length ≠ 1) (none_ : cl.defs = []) : cl.clausesToFormula.freeVariables = [] := by
  rw [clausesToFormula, toOpenFormula, none_, List.map_nil, List.nil_append, Expr.closeEPR, Expr.closeEPRList_eq_map,
    Expr.dropUniversals_and (by simpa using many), Expr.freeVariables, Expr.freeVariablesList_eq_flatMap, List.flatMap_map, List.flatMap_eq_nil_iff]
  exact fun t _ => (Expr.closeEPR_spec (M := Structure.ofNames []) t).1

theorem clausesToFormula_singleton {g : Expr} (atom : ∀ ts, g ≠ .and ts) :
    (Clauses.mk [g] []).clausesToFormula = g.dropUniversals := by
  rw [clausesToFormula, toOpenFormula, List.map_nil, List.nil_append, Expr.closeEPR, Expr.closeEPRList, Expr.closeEPRList,
    Expr.dropUniversals, Expr.dropSingleton, List.isEmpty_nil, if_pos rfl, Option.getD_some, Expr.closeEPR_eq atom, Expr.dropUniversals_closeFormula]

end Clauses

section Skolems

variable {D : Domain} {M N : Structure D} {vs : List Variable}

theorem lookup_skolemSubs (vs : List Variable) (v : Variable) :
    (skolemSubs vs).lookup v = if v ∈ vs then some (.const (varToSkolem v)) else none := by
  induction vs with
  | nil => rfl
  | cons w vs ih =>
    rw [skolemSubs, List.map_cons, InsMap.lookup_cons, ← skolemSubs, ih]
    simp only [List.mem_cons]
    grind

theorem mem_skolemSubs {p : Variable × Expr} (h : p ∈ skolemSubs vs) : p.1 ∈ vs ∧ p.2 = .const (varToSkolem p.1) := by
  obtain ⟨v, hv, rfl⟩ := List.mem_map.mp h
  exact ⟨hv, rfl⟩

theorem skolemSubs_constants {p : Variable × Expr} (h : p ∈ skolemSubs vs) : ∃ c, p.2 = .const c := ⟨_, (mem_skolemSubs h).2⟩

/-- The Skolem constants can be given the values of the variables. -/
theorem exists_skolemValues (M : Structure D) (distinct : (vs.map Variable.name).Nodup) (env : Env D) :
    ∃ N : Structure D, AgreeOff (· ∈ vs.map varToSkolem) M N ∧ ∀ v ∈ vs, N.value (varToSkolem v) [] = ⟨v.sort, env v⟩ := by
  have names : ((vs.map fun v => (varToSkolem v, (⟨v.sort, env v⟩ : Val D))).map fun p => p.1.name).Nodup := by
    have injective : Function.Injective ("__" ++ ·) := fun _ _ h => (String.append_right_inj "__").mp h
    simpa [Function.comp_def, varToSkolem] using distinct.map injective
  obtain ⟨N, agree, values⟩ := exists_values M _ names (List.forall_mem_map.mpr fun v _ => rfl)
  rw [List.forall_mem_map] at values
  refine ⟨N, ?_, values⟩
  simpa [Function.comp_def] using agree

/-- The variables can be given the values of the Skolem constants. -/
theorem exists_assignment (N : Structure D) : ∃ env : Env D, ∀ v, N.value (varToSkolem v) [] = ⟨v.sort, env v⟩ :=
  ⟨fun v => (N.value (varToSkolem v) []).2, fun _ => rfl⟩

/-- An assignment for a formula with some of its variables replaced. -/
theorem instance_skolemSubs {subs : List (Variable × Expr)} (subset : ∀ p ∈ subs, p ∈ skolemSubs vs) {env₀ : Env D}
    (values : ∀ v ∈ vs, N.value (varToSkolem v) [] = ⟨v.sort, env₀ v⟩) (env : Env D) :
    Env.Instance N subs env fun v => if (subs.lookup v).isSome then env₀ v else env v := by
  intro v
  cases found : subs.lookup v with
  | none => simp [found, Expr.eval]
  | some t =>
    obtain ⟨hv, eq⟩ := mem_skolemSubs (subset _ (InsMap.mem_of_lookup found))
    simpa [found, Option.getD_some, show t = _ from eq, Expr.eval] using (values v hv).symm

end Skolems

/-- Only one element has anything in a list of one. -/
theorem flatMap_eq_singleton {α β : Type} {xs : List α} {f : α → List β} {b : β} (h : xs.flatMap f = [b]) :
    ∃ x ∈ xs, f x = [b] ∧ ∀ y ∈ xs, f y ≠ [] → y = x := by
  induction xs with
  | nil => exact absurd h (by simp)
  | cons x xs ih =>
    rw [List.flatMap_cons, List.append_eq_singleton_iff] at h
    obtain ⟨none_, rest⟩ | ⟨one, none_⟩ := h
    · obtain ⟨y, hy, one, only⟩ := ih rest
      refine ⟨y, List.mem_cons_of_mem _ hy, one, List.forall_mem_cons.mpr ⟨fun some_ => absurd none_ some_, only⟩⟩
    · refine ⟨x, List.mem_cons_self, one, List.forall_mem_cons.mpr ⟨fun _ => rfl, fun y hy some_ => ?_⟩⟩
      exact absurd (List.flatMap_eq_nil_iff.mp none_ y hy) some_

namespace Clauses

variable {D : Domain} {M N : Structure D} {cl : Clauses} {subs : List (Variable × Expr)}

theorem new_fmlas (fmlas : List Expr) (defs : List Definition) :
    (new fmlas defs).fmlas = fmlas.flatMap fun f => f.dropUniversals.conjuncts := by
  rw [new, Expr.collectAndList_eq_flatMap, List.flatMap_map]

/-- The conjuncts after the replacement are those before it, with some variables replaced. -/
theorem new_replace (constants : ∀ p ∈ subs, ∃ c, p.2 = .const c) (fmlas : List Expr) :
    List.Forall₂ (fun g₀ g => ∃ f ∈ fmlas, g₀ ∈ f.dropUniversals.conjuncts ∧
        ∃ subs', g = g₀.replace subs' ∧ Expr.Narrows subs subs' f f.dropUniversals)
      (new fmlas []).fmlas (new (fmlas.map (Expr.substituteNodes · subs)) []).fmlas := by
  rw [new_fmlas, new_fmlas, List.flatMap_map]
  induction fmlas with
  | nil => exact .nil
  | cons f fmlas ih =>
    rw [List.flatMap_cons, List.flatMap_cons]
    refine List.rel_append ?_ (ih.imp fun _ _ ⟨f', hf', rest⟩ => ⟨f', List.mem_cons_of_mem _ hf', rest⟩)
    obtain ⟨subs', eq, narrows⟩ := (Expr.drop_replace constants f).1
    have constants' : ∀ p ∈ subs', ∃ c, p.2 = .const c := fun p hp => constants p (narrows.subset p hp)
    rw [Expr.substituteNodes, eq, Expr.conjuncts_replace constants', List.forall₂_map_right_iff, List.forall₂_same]
    exact fun g hg => ⟨f, List.mem_cons_self, hg, subs', rfl, narrows⟩

/-- One conjunct is the core of one formula, and the free variables of all formulas are free in it. -/
theorem lone_conjunct {g : Expr} {fmlas : List Expr} (h : (new fmlas []).fmlas = [g]) :
    ∃ f ∈ fmlas, f.dropUniversals.conjuncts = [g] ∧ (∀ f' ∈ fmlas, f'.dropUniversals.conjuncts ≠ [] → f' = f) ∧
      ∀ v, (∃ f' ∈ fmlas, v ∈ f'.freeVariables) → v ∈ f.freeVariables ∧ v ∈ g.freeVariables := by
  rw [new_fmlas] at h
  obtain ⟨f, hf, one, only⟩ := flatMap_eq_singleton h
  refine ⟨f, hf, one, only, ?_⟩
  rintro v ⟨f', hf', hv⟩
  have core := (Expr.subset_drop f').1 hv
  rw [← Expr.conjuncts_freeVariables] at core
  obtain ⟨t, ht, hvt⟩ := List.mem_flatMap.mp core
  obtain rfl := only f' hf' (List.ne_nil_of_mem ht)
  rw [one, List.mem_singleton] at ht
  exact ⟨hv, ht ▸ hvt⟩

section Universal

variable (universal : cl.isUniversalFirstOrder = true)
include universal

theorem defs_of_universal : cl.defs = [] := by
  simp only [isUniversalFirstOrder, Bool.and_eq_true, List.isEmpty_iff] at universal
  exact universal.1

theorem not_skolem {f : Expr} (hf : f ∈ cl.fmlas) {c : Const} (hc : c ∈ f.symbols) (vs : List Variable) : c ∉ vs.map varToSkolem := by
  simp only [isUniversalFirstOrder, Bool.and_eq_true, List.all_eq_true] at universal
  have plain := universal.2 f hf c hc
  intro mem
  obtain ⟨v, -, rfl⟩ := List.mem_map.mp mem
  simp [varToSkolem, String.toList_append] at plain

/-- The Skolem constants do not occur. -/
theorem eval_skolem {vs : List Variable} (agree : AgreeOff (· ∈ vs.map varToSkolem) M N) {f e : Expr} (hf : f ∈ cl.fmlas)
    (symbols : e.symbols ⊆ f.symbols) : e.eval M = e.eval N :=
  Expr.eval_congr fun c hc => agree c (not_skolem universal hf (symbols hc) vs)

theorem nodup_usedVariables : (cl.usedVariablesOrdered.map Variable.name).Nodup := by
  rw [usedVariablesOrdered, defs_of_universal universal, List.foldl_nil, Expr.collectVarsOrderedList_eq fun t _ => t.collectVarsOrdered_eq]
  exact nodup_noteName List.nodup_nil

theorem sat_universal : cl.Sat M ↔ ∀ f ∈ cl.fmlas, f.Valid M := by
  rw [Sat, defs_of_universal universal]
  simp

/-- Without free variables the formula before the replacement is the conjunction of all formulas. -/
theorem closed_of_noVariables (none_ : cl.usedVariablesOrdered = []) : cl.clausesToFormula.freeVariables = [] ∧ cl.negated.freeVariables = [] := by
  rw [usedVariablesOrdered, defs_of_universal universal, List.foldl_nil, Expr.collectVarsOrderedList_eq fun t _ => t.collectVarsOrdered_eq] at none_
  have met := (noteName_eq_nil none_).1
  have closed {e : Expr} (h : e.variablesMet = []) : e.freeVariables = [] := List.subset_nil.mp (h ▸ e.freeVariables_subset)
  constructor
  · refine closed ?_
    rw [clausesToFormula, (Expr.variablesMet_drop _).1, Expr.variablesMet_closeEPR, toOpenFormula, defs_of_universal universal]
    exact met
  · refine closed ?_
    rw [negated, clausesToFormula, (Expr.variablesMet_drop _).1, Expr.variablesMet_closeEPR, toOpenFormula, new_fmlas]
    simp only [new, List.map_nil, List.nil_append, Expr.variablesMet, Expr.variablesMetList_eq_flatMap, List.flatMap_assoc,
      Expr.conjuncts_variablesMet, (Expr.variablesMet_drop _).1]
    rw [← Expr.variablesMetList_eq_flatMap, met]

variable (plain : ∀ f ∈ cl.fmlas, f.descriptionFree = true)
include plain

theorem sat_substituteNodesClauses : (cl.substituteNodesClauses (skolemSubs cl.usedVariablesOrdered)).Sat N ↔
    ∀ f ∈ cl.fmlas, (f.substituteNodes (skolemSubs cl.usedVariablesOrdered)).Valid N := by
  rw [substituteNodesClauses]
  split
  · rename_i noSubs
    rw [List.isEmpty_iff.mp noSubs, sat_universal universal]
    refine forall₂_congr fun f hf => forall_congr' fun env => Expr.holds_congr _ _ ?_
    exact (Expr.eval_replace (plain f hf) (fun _ hp => absurd hp List.not_mem_nil) fun v => by simp [Expr.eval]).symm
  · rw [sat_new, defs_of_universal universal, List.forall_mem_map]
    simp

/-- A closed formula is negated as it should be. -/
theorem exact_of_closed (closed : (cl.substituteNodesClauses (skolemSubs cl.usedVariablesOrdered)).clausesToFormula.freeVariables = []) :
    (∃ N, AgreeOff (· ∈ cl.usedVariablesOrdered.map varToSkolem) M N ∧ cl.dualClauses.Sat N) ↔ ¬ cl.Sat M := by
  have value (N : Structure D) : cl.dualClauses.Sat N ↔ ¬ ∀ f ∈ cl.fmlas, (f.substituteNodes (skolemSubs cl.usedVariablesOrdered)).Valid N := by
    rw [sat_dualClauses, ← sat_substituteNodesClauses universal plain, ← valid_clausesToFormula]
    constructor
    · exact fun never valid => never (Classical.arbitrary _) (valid _)
    · exact fun some_ env holds => some_ (Expr.valid_of_holds closed holds)
  have instances {N : Structure D} (env₀ env : Env D) (values : ∀ v ∈ cl.usedVariablesOrdered, N.value (varToSkolem v) [] = ⟨v.sort, env₀ v⟩)
      {f : Expr} (hf : f ∈ cl.fmlas) : (f.substituteNodes (skolemSubs cl.usedVariablesOrdered)).eval N env =
        f.eval N fun v => if ((skolemSubs cl.usedVariablesOrdered).lookup v).isSome then env₀ v else env v :=
    Expr.eval_replace (plain f hf) (fun p hp => skolemSubs_constants hp) (instance_skolemSubs (fun _ hp => hp) values env)
  simp only [value]
  constructor
  · rintro ⟨N, agree, false_⟩ sat
    rw [sat_universal universal] at sat
    obtain ⟨env₀, values⟩ := exists_assignment N
    refine false_ fun f hf env => ?_
    rw [Expr.Holds, instances env₀ env (fun v _ => values v) hf, ← eval_skolem universal agree hf (List.Subset.refl _)]
    exact sat f hf _
  · intro false_
    rw [sat_universal universal] at false_
    simp only [Expr.Valid, not_forall] at false_
    obtain ⟨f, hf, env₀, fails⟩ := false_
    obtain ⟨N, agree, values⟩ := exists_skolemValues M (nodup_usedVariables universal) env₀
    refine ⟨N, agree, fun valid => fails ?_⟩
    have holds := valid f hf env₀
    rw [Expr.Holds, instances env₀ env₀ values hf, ← eval_skolem universal agree hf (List.Subset.refl _)] at holds
    simp only [ite_self] at holds
    exact holds

omit plain in
/-- What is left of the only conjunct: the variables that do not escape are replaced. -/
theorem lone_core {g : Expr} (lone : (new cl.fmlas []).fmlas = [g]) (vars : cl.usedVariablesOrdered ≠ []) :
    ∃ f ∈ cl.fmlas, g ∈ f.dropUniversals.conjuncts ∧ cl.negated = g.dropUniversals ∧ ∃ subs,
      (cl.substituteNodesClauses (skolemSubs cl.usedVariablesOrdered)).clausesToFormula = cl.negated.replace subs ∧
        (∀ p ∈ subs, p ∈ skolemSubs cl.usedVariablesOrdered) ∧
          ∀ v ∈ cl.negated.freeVariables, (subs.lookup v).isSome ↔ v ∉ cl.escaping := by
  obtain ⟨f, hf, one, only, free⟩ := lone_conjunct lone
  have conjunct := new_replace (fun p (hp : p ∈ skolemSubs cl.usedVariablesOrdered) => skolemSubs_constants hp) cl.fmlas
  rw [lone] at conjunct
  generalize replaced : (new (cl.fmlas.map (Expr.substituteNodes · (skolemSubs cl.usedVariablesOrdered))) []).fmlas = gs at conjunct
  cases conjunct with
  | cons head tail =>
  rename_i g' gs
  cases tail
  obtain ⟨f', hf', mem, subs₁, rfl, narrows₁⟩ := head
  obtain rfl := only f' hf' (List.ne_nil_of_mem mem)
  have core : cl.negated = g.dropUniversals := by
    rw [negated, show new cl.fmlas [] = ⟨[g], []⟩ from congrArg (Clauses.mk · []) lone]
    exact clausesToFormula_singleton (Expr.not_and_of_mem_conjuncts mem)
  obtain ⟨subs₂, eq, narrows₂⟩ := (Expr.drop_replace (fun p hp => skolemSubs_constants (narrows₁.subset p hp)) g).1
  refine ⟨f', hf, mem, core, subs₂, ?_, fun p hp => narrows₁.subset p (narrows₂.subset p hp), fun v hv => ?_⟩
  · have some_ : (skolemSubs cl.usedVariablesOrdered).isEmpty = false := by simpa [skolemSubs] using vars
    rw [substituteNodesClauses, some_, if_neg Bool.false_ne_true, defs_of_universal universal, List.map_nil,
      show new (cl.fmlas.map (Expr.substituteNodes · (skolemSubs cl.usedVariablesOrdered))) [] = ⟨[g.replace subs₁], []⟩ from
        congrArg (Clauses.mk · []) replaced, core, ← eq]
    refine clausesToFormula_singleton fun ts => ?_
    have kept : g.replace subs₁ ∈ (new (cl.fmlas.map (Expr.substituteNodes · (skolemSubs cl.usedVariablesOrdered))) []).fmlas := by
      rw [replaced]
      exact List.mem_cons_self
    rw [new_fmlas, List.mem_flatMap] at kept
    obtain ⟨_, -, kept⟩ := kept
    exact Expr.not_and_of_mem_conjuncts kept ts
  · have inner : v ∈ g.freeVariables → v ∈ f'.dropUniversals.freeVariables := fun hvg => by
      rw [← Expr.conjuncts_freeVariables]
      exact List.mem_flatMap.mpr ⟨g, mem, hvg⟩
    have occurs : v ∈ f'.freeVariables ↔ ∃ f ∈ cl.fmlas, v ∈ f.freeVariables := ⟨fun h => ⟨f', hf, h⟩, fun h => (free v h).1⟩
    have outer : v ∈ f'.freeVariables → v ∈ g.freeVariables := fun h => (free v ⟨f', hf, h⟩).2
    have escapes : v ∈ cl.escaping ↔ v ∉ cl.usedVariablesOrdered ∨ v ∉ f'.freeVariables := by
      rw [escaping, List.mem_filter, decide_eq_true_eq, occurs]
      simp [hv]
    rw [core] at hv
    rw [narrows₂.lookup v hv, escapes]
    by_cases hvg : v ∈ g.freeVariables
    · rw [if_pos hvg, narrows₁.lookup v (inner hvg), lookup_skolemSubs]
      by_cases used : v ∈ cl.usedVariablesOrdered <;> by_cases free : v ∈ f'.freeVariables <;> simp [used, free]
    · rw [if_neg hvg]
      simp [mt outer hvg]

/-- One formula with escaping variables has to be false for all their values. -/
theorem dualClauses_lone {g : Expr} (lone : (new cl.fmlas []).fmlas = [g]) (vars : cl.usedVariablesOrdered ≠ []) :
    (∃ N, AgreeOff (· ∈ cl.usedVariablesOrdered.map varToSkolem) M N ∧ cl.dualClauses.Sat N) ↔
      ∃ env₀, ∀ env, Env.Off cl.escaping env₀ env → ¬ cl.negated.Holds M env := by
  classical
  obtain ⟨f, hf, mem, core, subs, eq, subset, replaced⟩ := lone_core universal lone vars
  have symbols : cl.negated.symbols ⊆ f.symbols := by
    rw [core, (Expr.drop_symbols g).1, ← (Expr.drop_symbols f).1, ← Expr.conjuncts_symbols f.dropUniversals]
    exact fun c hc => List.mem_flatMap.mpr ⟨g, mem, hc⟩
  have descriptionFree : cl.negated.descriptionFree = true := by
    rw [core, (Expr.descriptionFree_drop g).1]
    exact Expr.descriptionFree_of_mem_conjuncts (((Expr.descriptionFree_drop f).1).trans (plain f hf)) mem
  have value {N : Structure D} (agree : AgreeOff (· ∈ cl.usedVariablesOrdered.map varToSkolem) M N) {env₀ : Env D}
      (values : ∀ v ∈ cl.usedVariablesOrdered, N.value (varToSkolem v) [] = ⟨v.sort, env₀ v⟩) (env : Env D) :
      (cl.negated.replace subs).Holds N env ↔ cl.negated.Holds M fun v => if v ∈ cl.escaping then env v else env₀ v := by
    rw [Expr.Holds, Expr.eval_replace descriptionFree (fun p hp => skolemSubs_constants (subset p hp)) (instance_skolemSubs subset values env),
      ← eval_skolem universal agree hf symbols, Expr.Holds]
    refine iff_of_eq (congrArg Val.Holds (Expr.eval_freeVariables M fun v hv => ?_))
    have escapes := replaced v hv
    by_cases out : v ∈ cl.escaping
    · simp [out, escapes]
    · simp [out, escapes]
  simp only [sat_dualClauses, eq]
  constructor
  · rintro ⟨N, agree, never⟩
    obtain ⟨env₀, values⟩ := exists_assignment N
    refine ⟨env₀, fun env off holds => never env ((value agree (fun v _ => values v) env).mpr ?_)⟩
    have same : (fun v => if v ∈ cl.escaping then env v else env₀ v) = env := by
      funext v
      by_cases out : v ∈ cl.escaping
      · exact if_pos out
      · rw [if_neg out, off v out]
    rw [same]
    exact holds
  · rintro ⟨env₀, never⟩
    obtain ⟨N, agree, values⟩ := exists_skolemValues M (nodup_usedVariables universal) env₀
    refine ⟨N, agree, fun env holds => never _ ?_ ((value agree values env).mp holds)⟩
    exact fun v out => if_neg out

end Universal

theorem escaping_of_closed (closed : cl.negated.freeVariables = []) : cl.escaping = [] := by
  rw [escaping, closed, List.filter_nil]

/-- The negation is exact when the negated formula, where it can be false, can be false for all values of its escaping variables. -/
theorem negateClauses_spec (universal : cl.isUniversalFirstOrder = true) (plain : ∀ f ∈ cl.fmlas, f.descriptionFree = true) :
    ∃ negation, negateClauses cl = some negation ∧ ∀ (D : Domain) (M : Structure D),
      ((∃ N, AgreeOff (· ∈ cl.usedVariablesOrdered.map varToSkolem) M N ∧ negation.Sat N) ↔ ¬ cl.Sat M) ↔
        ∀ env, ¬ cl.negated.Holds M env → ∃ env₀, ∀ env', Env.Off cl.escaping env₀ env' → ¬ cl.negated.Holds M env' := by
  refine ⟨cl.dualClauses, if_pos universal, fun D M => ?_⟩
  have refuted : ¬ cl.Sat M ↔ ∃ env, ¬ cl.negated.Holds M env := by
    rw [← not_forall, ← Expr.Valid, negated, valid_clausesToFormula, sat_new, sat_universal universal]
    simp
  have closed (replaced : (cl.substituteNodesClauses (skolemSubs cl.usedVariablesOrdered)).clausesToFormula.freeVariables = [])
      (core : cl.negated.freeVariables = []) := iff_of_true (exact_of_closed universal plain replaced (M := M)) fun env fails =>
    (⟨env, fun env' off => by rwa [funext fun v => off v (by simp [escaping_of_closed core])]⟩ :
      ∃ env₀, ∀ env', Env.Off cl.escaping env₀ env' → ¬ cl.negated.Holds M env')
  by_cases vars : cl.usedVariablesOrdered = []
  · obtain ⟨whole, core⟩ := closed_of_noVariables universal vars
    refine closed ?_ core
    rwa [vars, substituteNodesClauses, skolemSubs, List.map_nil, List.isEmpty_nil, if_pos rfl]
  · by_cases lone : (new cl.fmlas []).fmlas.length = 1
    · obtain ⟨g, lone⟩ := List.length_eq_one_iff.mp lone
      rw [dualClauses_lone universal plain lone vars, refuted]
      constructor
      · exact fun exact_ env fails => exact_.mpr ⟨env, fails⟩
      · intro exact_
        constructor
        · rintro ⟨env₀, never⟩
          exact ⟨env₀, never env₀ fun _ _ => rfl⟩
        · rintro ⟨env, fails⟩
          exact exact_ env fails
    · have many := (new_replace (fun p (hp : p ∈ skolemSubs cl.usedVariablesOrdered) => skolemSubs_constants hp) cl.fmlas).length_eq
      refine closed ?_ (closed_clausesToFormula lone rfl)
      refine closed_clausesToFormula ?_ ?_
      · rw [substituteNodesClauses]
        split
        · rename_i none_
          exact absurd (by simpa [skolemSubs] using none_) vars
        · rw [defs_of_universal universal, List.map_nil, ← many]
          exact lone
      · rw [substituteNodesClauses]
        split
        · exact defs_of_universal universal
        · rw [defs_of_universal universal]
          rfl

section Examples

def relationOf (name sort : String) : Expr := .apply ⟨name, .function [.uninterpreted sort] .boolean⟩ [.var ⟨"X", .uninterpreted sort⟩]

/-- Each conjunct is closed by itself. -/
theorem negateClauses_spec_conjuncts : ∃ negation, negateClauses ⟨[relationOf "p" "s", relationOf "q" "t"], []⟩ = some negation ∧
    ∀ (D : Domain) (M : Structure D), (∃ N, AgreeOff (· ∈ [varToSkolem ⟨"X", .uninterpreted "s"⟩]) M N ∧ negation.Sat N) ↔
      ¬ Sat M ⟨[relationOf "p" "s", relationOf "q" "t"], []⟩ := by
  obtain ⟨negation, eq, exact_⟩ := @negateClauses_spec ⟨[relationOf "p" "s", relationOf "q" "t"], []⟩ (by decide) (by decide)
  have closed : escaping ⟨[relationOf "p" "s", relationOf "q" "t"], []⟩ = [] := by decide
  refine ⟨negation, eq, fun D M => (exact_ D M).mpr fun env fails => ⟨env, fun env' off => ?_⟩⟩
  rwa [funext fun v => off v (by simp [closed])]

/-- Within one conjunct the second variable of a name escapes, and is not closed under the negation. -/
theorem negateClauses_spec_fails : ¬ ∀ cl : Clauses, cl.isUniversalFirstOrder = true → (∀ f ∈ cl.fmlas, f.descriptionFree = true) →
    ∃ negation, negateClauses cl = some negation ∧ ∀ (D : Domain) (M : Structure D),
      (∃ N, AgreeOff (· ∈ cl.usedVariablesOrdered.map varToSkolem) M N ∧ negation.Sat N) ↔ ¬ cl.Sat M := by
  intro exact_
  let s : Expr := .var ⟨"X", .uninterpreted "s"⟩
  let t : Expr := .var ⟨"X", .uninterpreted "t"⟩
  let c : Expr := .const ⟨"c", .first (.uninterpreted "t")⟩
  obtain ⟨negation, eq, same⟩ := exact_ ⟨[.or [.not (.eq s s), .eq t c]], []⟩ (by decide) (by decide)
  obtain rfl := Option.some.inj eq
  have refuted : ¬ Sat (Structure.empty : Structure Domain.two) ⟨[.or [.not (.eq s s), .eq t c]], []⟩ := by
    intro sat
    have holds := sat.1 _ List.mem_cons_self fun v => .two true v.sort
    simp only [Expr.holds_or, List.mem_cons, List.not_mem_nil, or_false, exists_eq_or_imp, exists_eq_left, Expr.holds_not, Expr.holds_eq,
      not_true_eq_false, false_or] at holds
    rw [Expr.eval, Expr.eval, Structure.value_eq _ (by rfl)] at holds
    exact Bool.noConfusion (eq_of_heq (Sigma.mk.inj holds).2)
  obtain ⟨N, -, sat⟩ := (same _ _).mpr refuted
  rw [sat_dualClauses] at sat
  let sk : Expr := .const ⟨"__X", .first (.uninterpreted "s")⟩
  have core : (substituteNodesClauses ⟨[.or [.not (.eq s s), .eq t c]], []⟩ (skolemSubs [⟨"X", .uninterpreted "s"⟩])).clausesToFormula =
    .or [.not (.eq sk sk), .eq t c] := by decide
  -- The variable that escapes takes the value of the constant.
  let b : Bool := (N.value ⟨"c", .first (.uninterpreted "t")⟩ []).2
  refine sat (fun v => .two b v.sort) ?_
  rw [show usedVariablesOrdered ⟨[.or [.not (.eq s s), .eq t c]], []⟩ = [⟨"X", .uninterpreted "s"⟩] by decide, core]
  exact (Expr.holds_or _ _ _).mpr ⟨_, List.mem_cons_of_mem _ List.mem_cons_self, (Expr.holds_eq _ _ _ _).mpr rfl⟩

end Examples

end Clauses

end Goivy
