import Goivy.Proof.PatternMatch

/-! Instantiation of axioms by their triggers. -/
namespace Goivy.LogicUtil

section Definitions

/-- A formula with its label. -/
structure LabeledFormula where
  label : String
  formula : Expr

structure TriggerAxiom where
  triggers : List Expr
  labeled : LabeledFormula

structure InstResult where
  labeled : LabeledFormula
  formula : Expr

mutual
/-- The matches of a trigger with an expression and its arguments. -/
def triggerMatchRec (trig : Expr) : Expr → List Bindings
  | .symbol x => (patternMatch trig (.symbol x) []).toList
  | .apply f ts => triggerMatchRecs trig ts ++ (patternMatch trig (.apply f ts) []).toList
  | .node op ts => triggerMatchRecs trig ts ++ (patternMatch trig (.node op ts) []).toList
  | .bind b vs ts =>
    (if b.isDescription then vs.flatMap fun v => (patternMatch trig (.symbol (.var v)) []).toList else []) ++
      triggerMatchRecs trig ts ++ (patternMatch trig (.bind b vs ts) []).toList
def triggerMatchRecs (trig : Expr) : List Expr → List Bindings
  | [] => []
  | t :: ts => triggerMatchRec trig t ++ triggerMatchRecs trig ts
end

def triggerMatches (fmlas : List Expr) (trig : Expr) : List Bindings := fmlas.flatMap (triggerMatchRec trig)

/-- The bindings of both maps, if they agree. -/
def mergeMatch : Bindings → Bindings → Option Bindings
  | [], merged => some merged
  | (k, e) :: mp, merged => (bindName k e merged).bind (mergeMatch mp)

def mergeMatchListsRec : List (List Bindings) → Bindings → List Bindings
  | [], current => [current]
  | l :: ls, current => l.flatMap fun mp => ((mergeMatch mp current).map (mergeMatchListsRec ls)).getD []

def mergeMatchLists (ls : List (List Bindings)) : List Bindings := mergeMatchListsRec ls []

/-- The substitution for a match: a variable has the sort of its term. -/
def Bindings.subs (mp : Bindings) : Subs := mp.map fun p => (.var ⟨p.1, p.2.nodeSort⟩, p.2)

/-- The matches of all triggers of an axiom together. -/
def TriggerAxiom.merged (a : TriggerAxiom) (fmlas : List Expr) : List Bindings :=
  mergeMatchLists (a.triggers.map (triggerMatches fmlas))

/-- A formula is added, unless one with its text is there. -/
def addInstance (text : Expr → String) (acc : List String × List InstResult) (r : InstResult) : List String × List InstResult :=
  if text r.formula ∈ acc.1 then acc else (text r.formula :: acc.1, acc.2 ++ [r])

/-- The instance of an axiom for a match is added, if the substitution succeeds. -/
def TriggerAxiom.addMatch (a : TriggerAxiom) (text : Expr → String) (acc : List String × List InstResult) (mp : Bindings) :
    List String × List InstResult :=
  match a.labeled.formula.substitute mp.subs with
  | some inst => addInstance text acc ⟨a.labeled, inst⟩
  | none => acc

/-- `InstantiateAxiomsFromTriggers`, for any printing of formulas. -/
def instantiateAxiomsFromTriggers (text : Expr → String) (fmlas : List Expr) (triggers : List TriggerAxiom) : List InstResult :=
  (triggers.foldl (fun acc a => (a.merged fmlas).foldl (a.addMatch text) acc) ([], [])).2

mutual
/-- The expression and its arguments, and theirs. -/
def Expr.subterms : Expr → List Expr
  | .symbol x => [.symbol x]
  | .apply f ts => subtermsList ts ++ [.apply f ts]
  | .node op ts => subtermsList ts ++ [.node op ts]
  | .bind b vs ts => (if b.isDescription then vs.map fun v => .symbol (.var v) else []) ++ subtermsList ts ++ [.bind b vs ts]
def subtermsList : List Expr → List Expr
  | [] => []
  | t :: ts => t.subterms ++ subtermsList ts
end

/-- The variables of the triggers. -/
def TriggerAxiom.variables (a : TriggerAxiom) : List LogicVariable := a.triggers.flatMap Expr.freeVariables

/-- The formula is the axiom with terms for the variables of the triggers, of their sorts, with which every trigger is a subterm of the
formulas. -/
def TriggerAxiom.Instance (a : TriggerAxiom) (fmlas : List Expr) (f : Expr) : Prop :=
  ∃ σ : LogicVariable → Expr, (∀ v ∈ a.variables, (σ v).nodeSort = v.sort) ∧
    (∀ t ∈ a.triggers, t.instantiate (fun v => some (σ v)) ∈ fmlas.flatMap Expr.subterms) ∧
    a.labeled.formula.substitute (a.variables.dedup.map fun v => (.var v, σ v)) = some f

end Definitions

section Results

variable {text : Expr → String} {acc : List String × List InstResult} {rs : List InstResult} {r : InstResult}

/-- The formulas of all matches. -/
def allInstances (fmlas : List Expr) (triggers : List TriggerAxiom) : List InstResult :=
  triggers.flatMap fun a => (a.merged fmlas).filterMap fun mp => (a.labeled.formula.substitute mp.subs).map (⟨a.labeled, ·⟩)

theorem foldl_addMatch (a : TriggerAxiom) (mps : List Bindings) : mps.foldl (a.addMatch text) acc =
    (mps.filterMap fun mp => (a.labeled.formula.substitute mp.subs).map (⟨a.labeled, ·⟩)).foldl (addInstance text) acc := by
  induction mps generalizing acc with
  | nil => rfl
  | cons mp mps ih =>
    rw [List.foldl_cons, List.filterMap_cons, TriggerAxiom.addMatch]
    cases a.labeled.formula.substitute mp.subs with
    | none => exact ih
    | some inst => exact ih

theorem instantiateAxiomsFromTriggers_eq (fmlas : List Expr) (triggers : List TriggerAxiom) :
    instantiateAxiomsFromTriggers text fmlas triggers = ((allInstances fmlas triggers).foldl (addInstance text) ([], [])).2 := by
  rw [instantiateAxiomsFromTriggers, allInstances, List.foldl_flatMap]
  simp only [foldl_addMatch]

/-- The texts of the results are noted. -/
def Noted (text : Expr → String) (acc : List String × List InstResult) : Prop :=
  ∀ s, s ∈ acc.1 ↔ ∃ r ∈ acc.2, text r.formula = s

theorem noted_addInstance (noted : Noted text acc) : Noted text (addInstance text acc r) := by
  intro s
  rw [addInstance]
  split
  · exact noted s
  · simp only [List.mem_cons, noted s, List.mem_append, List.not_mem_nil, or_false, or_and_right, exists_or, exists_eq_left]
    rw [or_comm, eq_comm]

theorem mem_addInstance (h : r ∈ acc.2) (r' : InstResult) : r ∈ (addInstance text acc r').2 := by
  rw [addInstance]
  split
  · exact h
  · exact List.mem_append_left _ h

theorem mem_foldl_addInstance (h : r ∈ (rs.foldl (addInstance text) acc).2) : r ∈ acc.2 ∨ r ∈ rs := by
  induction rs generalizing acc with
  | nil => exact .inl h
  | cons r' rs ih =>
    rcases ih h with old | new
    · rw [addInstance] at old
      split at old
      · exact .inl old
      · rcases List.mem_append.mp old with before | here
        · exact .inl before
        · rw [List.mem_singleton.mp here]
          exact .inr List.mem_cons_self
    · exact .inr (List.mem_cons_of_mem _ new)

theorem exists_foldl_addInstance (noted : Noted text acc) (h : r ∈ acc.2 ∨ r ∈ rs) :
    ∃ r' ∈ (rs.foldl (addInstance text) acc).2, text r'.formula = text r.formula := by
  induction rs generalizing acc r with
  | nil => exact ⟨r, h.resolve_right List.not_mem_nil, rfl⟩
  | cons r' rs ih =>
    rw [List.foldl_cons]
    rw [List.mem_cons] at h
    rcases h with old | rfl | later
    · exact ih (noted_addInstance noted) (.inl (mem_addInstance old r'))
    · have added : ∃ r' ∈ (addInstance text acc r).2, text r'.formula = text r.formula := by
        rw [addInstance]
        split
        · rename_i known
          exact (noted _).mp known
        · exact ⟨r, List.mem_append_right _ (List.mem_singleton_self r), rfl⟩
      obtain ⟨r₁, here, same⟩ := added
      obtain ⟨r₂, result, same'⟩ := ih (noted_addInstance noted) (.inl here)
      exact ⟨r₂, result, same'.trans same⟩
    · exact ih (noted_addInstance noted) (.inr later)

variable {fmlas : List Expr} {triggers : List TriggerAxiom}

theorem mem_allInstances_of_mem (h : r ∈ instantiateAxiomsFromTriggers text fmlas triggers) : r ∈ allInstances fmlas triggers := by
  rw [instantiateAxiomsFromTriggers_eq] at h
  exact (mem_foldl_addInstance h).resolve_left List.not_mem_nil

theorem exists_mem_of_mem_allInstances (text : Expr → String) (h : r ∈ allInstances fmlas triggers) :
    ∃ r' ∈ instantiateAxiomsFromTriggers text fmlas triggers, text r'.formula = text r.formula := by
  rw [instantiateAxiomsFromTriggers_eq]
  refine exists_foldl_addInstance (fun s => ?_) (.inr h)
  simp

theorem mem_allInstances : r ∈ allInstances fmlas triggers ↔ ∃ a ∈ triggers, r.labeled = a.labeled ∧
    ∃ mp ∈ a.merged fmlas, a.labeled.formula.substitute mp.subs = some r.formula := by
  rw [allInstances, List.mem_flatMap]
  refine exists_congr fun a => and_congr_right fun _ => ?_
  rw [List.mem_filterMap]
  constructor
  · rintro ⟨mp, merged, made⟩
    obtain ⟨f, run, rfl⟩ := Option.map_eq_some_iff.mp made
    exact ⟨rfl, mp, merged, run⟩
  · rintro ⟨same, mp, merged, run⟩
    refine ⟨mp, merged, ?_⟩
    rw [run, Option.map_some, ← same]

end Results

section Merging

variable {σ : String → Expr} {mp current merged : Bindings} {ls : List (List Bindings)}

theorem mergeMatch_spec (h : mergeMatch mp current = some merged) :
    Binds (mp.map Prod.fst) current merged ∧ ∀ p ∈ mp, merged.lookup p.1 = some p.2 := by
  induction mp generalizing current with
  | nil =>
    obtain rfl := Option.some.inj h
    exact ⟨.nil current, fun _ h => absurd h List.not_mem_nil⟩
  | cons p mp ih =>
    obtain ⟨next, first, rest⟩ := Option.bind_eq_some_iff.mp h
    obtain ⟨binds, found⟩ := bindName_spec first
    obtain ⟨later, each⟩ := ih rest
    exact ⟨binds.append later, List.forall_mem_cons.mpr ⟨later.keeps found, each⟩⟩

theorem mergeMatch_agrees (agrees : Agrees σ current) (each : ∀ p ∈ mp, p.2 = σ p.1) :
    ∃ merged, mergeMatch mp current = some merged ∧ Agrees σ merged := by
  induction mp generalizing current with
  | nil => exact ⟨current, rfl, agrees⟩
  | cons p mp ih =>
    obtain ⟨k, e⟩ := p
    rw [List.forall_mem_cons] at each
    obtain ⟨same, each⟩ := each
    obtain rfl : e = σ k := same
    obtain ⟨next, first, agrees₁⟩ := bindName_agrees k agrees
    obtain ⟨merged, rest, agrees₂⟩ := ih agrees₁ each
    refine ⟨merged, ?_, agrees₂⟩
    rw [mergeMatch, first, Option.bind_some, rest]

/-- What the merged map of matches, one of each list, is. -/
structure Merged (ls : List (List Bindings)) (current merged : Bindings) : Prop where
  keeps : ∀ {k e}, current.lookup k = some e → merged.lookup k = some e
  chosen : ∀ l ∈ ls, ∃ mp ∈ l, ∀ p ∈ mp, merged.lookup p.1 = some p.2
  only : ∀ k ∈ merged.map Prod.fst, k ∈ current.map Prod.fst ∨ ∃ l ∈ ls, ∃ mp ∈ l, k ∈ mp.map Prod.fst
  nodup : (current.map Prod.fst).Nodup → (merged.map Prod.fst).Nodup

theorem mergeMatchListsRec_spec (h : merged ∈ mergeMatchListsRec ls current) : Merged ls current merged := by
  induction ls generalizing current with
  | nil =>
    rw [List.mem_singleton.mp h]
    exact ⟨fun h => h, fun _ h => absurd h List.not_mem_nil, fun _ h => .inl h, fun h => h⟩
  | cons l ls ih =>
    obtain ⟨mp, hmp, inner⟩ := List.mem_flatMap.mp h
    cases first : mergeMatch mp current with
    | none =>
      rw [first] at inner
      exact absurd inner List.not_mem_nil
    | some next =>
      rw [first] at inner
      obtain ⟨binds, each⟩ := mergeMatch_spec first
      have later := ih inner
      have chosen := List.forall_mem_cons.mpr ⟨⟨mp, hmp, fun p hp => later.keeps (each p hp)⟩, later.chosen⟩
      refine ⟨fun h => later.keeps (binds.keeps h), chosen, fun k hk => ?_, fun h => later.nodup (binds.nodup h)⟩
      rcases later.only k hk with here | ⟨l', hl', mp', hmp', there⟩
      · exact (binds.only k here).imp_right fun new => ⟨l, List.mem_cons_self, mp, hmp, new⟩
      · exact .inr ⟨l', List.mem_cons_of_mem _ hl', mp', hmp', there⟩

theorem exists_merged (agrees : Agrees σ current) (each : ∀ l ∈ ls, ∃ mp ∈ l, ∀ p ∈ mp, p.2 = σ p.1) :
    ∃ merged ∈ mergeMatchListsRec ls current, Agrees σ merged := by
  induction ls generalizing current with
  | nil => exact ⟨current, List.mem_singleton_self _, agrees⟩
  | cons l ls ih =>
    rw [List.forall_mem_cons] at each
    obtain ⟨⟨mp, hmp, same⟩, each⟩ := each
    obtain ⟨next, first, agrees₁⟩ := mergeMatch_agrees agrees same
    obtain ⟨merged, here, agrees₂⟩ := ih agrees₁ each
    refine ⟨merged, List.mem_flatMap.mpr ⟨mp, hmp, ?_⟩, agrees₂⟩
    rw [first]
    exact here

end Merging

section Matching

variable {fmlas : List Expr} {trig : Expr} {mp : Bindings} {a : TriggerAxiom} {σ : String → Expr}

theorem triggerMatchRec_eq (e : Expr) : triggerMatchRec trig e = e.subterms.flatMap fun e => (patternMatch trig e []).toList := by
  have list : ∀ {ts : List Expr}, (∀ t ∈ ts, triggerMatchRec trig t = t.subterms.flatMap fun e => (patternMatch trig e []).toList) →
      triggerMatchRecs trig ts = (subtermsList ts).flatMap fun e => (patternMatch trig e []).toList := by
    intro ts each
    induction ts with
    | nil => rfl
    | cons t ts ih =>
      rw [List.forall_mem_cons] at each
      rw [triggerMatchRecs, subtermsList, List.flatMap_append, each.1, ih each.2]
  induction e with
  | symbol x => rw [triggerMatchRec, Expr.subterms, List.flatMap_singleton]
  | apply f ts _ ih | node op ts ih =>
    rw [triggerMatchRec, Expr.subterms, List.flatMap_append, List.flatMap_singleton, list ih]
  | bind b vs ts ih =>
    rw [triggerMatchRec, Expr.subterms, List.flatMap_append, List.flatMap_append, List.flatMap_singleton, list ih]
    split
    · rw [List.flatMap_map]
    · rfl

theorem mem_triggerMatches :
    mp ∈ triggerMatches fmlas trig ↔ ∃ e ∈ fmlas.flatMap Expr.subterms, patternMatch trig e [] = some mp := by
  have visits : triggerMatches fmlas trig = (fmlas.flatMap Expr.subterms).flatMap fun e => (patternMatch trig e []).toList := by
    rw [triggerMatches, List.flatMap_assoc, funext triggerMatchRec_eq]
  rw [visits, List.mem_flatMap]
  simp only [Option.mem_toList]

/-- There are no binders and no equations in the triggers. -/
def TriggerAxiom.Plain (a : TriggerAxiom) : Prop := ∀ t ∈ a.triggers, t.binderFree = true ∧ t.equalityFree = true

/-- What a merged match of the triggers is. -/
structure Joined (a : TriggerAxiom) (fmlas : List Expr) (mp : Bindings) : Prop where
  nodup : (mp.map Prod.fst).Nodup
  bound : ∀ v ∈ a.variables, ∃ e, mp.lookup v.name = some e
  only : ∀ k ∈ mp.map Prod.fst, ∃ v ∈ a.variables, v.name = k
  similar : ∀ t ∈ a.triggers, ∃ e ∈ fmlas.flatMap Expr.subterms, Similar false mp.term t e

theorem joined_of_merged (plain : a.Plain) (h : mp ∈ a.merged fmlas) : Joined a fmlas mp := by
  have joined := mergeMatchListsRec_spec h
  have each : ∀ t ∈ a.triggers, ∃ e ∈ fmlas.flatMap Expr.subterms,
      ∃ m, patternMatch t e [] = some m ∧ ∀ p ∈ m, mp.lookup p.1 = some p.2 := by
    intro t ht
    obtain ⟨m, hm, inside⟩ := joined.chosen _ (List.mem_map_of_mem ht)
    obtain ⟨e, he, run⟩ := mem_triggerMatches.mp hm
    exact ⟨e, he, m, run, inside⟩
  have found : ∀ t ∈ a.triggers, ∀ {e m}, patternMatch t e [] = some m → Matches false t e [] m := fun t ht =>
    patternMatch_sound (plain t ht).1 (.inr (plain t ht).2)
  refine ⟨joined.nodup List.nodup_nil, fun v hv => ?_, fun k hk => ?_, fun t ht => ?_⟩
  · obtain ⟨t, ht, free⟩ := List.mem_flatMap.mp hv
    obtain ⟨e, -, m, run, inside⟩ := each t ht
    obtain ⟨r, here⟩ := (found t ht run).binds.bound v.name (List.mem_map_of_mem free)
    exact ⟨r, inside _ (InsMap.mem_of_lookup here)⟩
  · obtain ⟨l, hl, m, hm, here⟩ := (joined.only k hk).resolve_left List.not_mem_nil
    obtain ⟨t, ht, rfl⟩ := List.mem_map.mp hl
    obtain ⟨e, -, run⟩ := mem_triggerMatches.mp hm
    obtain ⟨v, free, name⟩ := List.mem_map.mp (((found t ht run).binds.only k here).resolve_left List.not_mem_nil)
    exact ⟨v, List.mem_flatMap.mpr ⟨t, ht, free⟩, name⟩
  · obtain ⟨e, he, m, run, inside⟩ := each t ht
    refine ⟨e, he, (found t ht run).similar _ fun k r here => ?_⟩
    exact mp.agrees_term k r (inside _ (InsMap.mem_of_lookup here))

theorem exists_merged_of_similar (plain : a.Plain)
    (each : ∀ t ∈ a.triggers, ∃ e ∈ fmlas.flatMap Expr.subterms, Similar false σ t e) :
    ∃ mp ∈ a.merged fmlas, Agrees σ mp := by
  refine exists_merged agrees_nil fun l hl => ?_
  obtain ⟨t, ht, rfl⟩ := List.mem_map.mp hl
  obtain ⟨e, he, similar⟩ := each t ht
  obtain ⟨m, run, agrees⟩ := patternMatch_similar similar agrees_nil
  have found : Matches false t e [] m := patternMatch_sound (plain t ht).1 (.inr (plain t ht).2) run
  refine ⟨m, mem_triggerMatches.mpr ⟨e, he, run⟩, fun p hp => agrees p.1 p.2 ?_⟩
  exact (InsMap.mem_iff_lookup (found.binds.nodup List.nodup_nil)).mp hp

end Matching

section Substitutions

variable {subs subs' : Subs} {vs : List LogicVariable} {mp : Bindings}

theorem substituteWithoutBoundVariables_congr (vs : List LogicVariable) (mem : ∀ p, p ∈ subs ↔ p ∈ subs')
    (look : ∀ x, subs.lookup x = subs'.lookup x) :
    substituteWithoutBoundVariables vs subs = none ∧ substituteWithoutBoundVariables vs subs' = none ∨
      ∃ newsubs newsubs', substituteWithoutBoundVariables vs subs = some newsubs ∧
        substituteWithoutBoundVariables vs subs' = some newsubs' ∧ (∀ p, p ∈ newsubs ↔ p ∈ newsubs') ∧
        ∀ x, newsubs.lookup x = newsubs'.lookup x := by
  have forbidden : ∀ v, v ∈ (subs.filter fun p => p.1 ∉ vs.map Symbol.var).flatMap (fun p => p.2.freeVariables) ↔
      v ∈ (subs'.filter fun p => p.1 ∉ vs.map Symbol.var).flatMap fun p => p.2.freeVariables := fun v => by
    simp only [List.mem_flatMap, List.mem_filter, mem]
  rw [substituteWithoutBoundVariables, substituteWithoutBoundVariables]
  simp only [forbidden]
  split
  · exact .inl ⟨rfl, rfl⟩
  · refine .inr ⟨_, _, rfl, rfl, fun p => ?_, fun x => ?_⟩
    · rw [List.mem_filter, List.mem_filter, mem]
    · rw [InsMap.lookup_filter_notMem, InsMap.lookup_filter_notMem, look]

theorem substituteRec_congr {e : Expr} (mem : ∀ p, p ∈ subs ↔ p ∈ subs') (look : ∀ x, subs.lookup x = subs'.lookup x) :
    e.substituteRec subs = e.substituteRec subs' := by
  induction e generalizing subs subs' with
  | symbol x => rw [Expr.substituteRec, Expr.substituteRec, look]
  | apply f ts _ ih =>
    rw [Expr.substituteRec, Expr.substituteRec, substituteList_eq, substituteList_eq, mapM_congr_some fun t ht => ih t ht mem look]
  | node op ts ih =>
    have args : substituteList ts subs = substituteList ts subs' := by
      rw [substituteList_eq, substituteList_eq, mapM_congr_some fun t ht => ih t ht mem look]
    cases op with
    | cond => rfl
    | _ => exact congrArg (Option.bind · (newNode _)) args
  | bind b vs ts ih =>
    rw [Expr.substituteRec, Expr.substituteRec]
    rcases substituteWithoutBoundVariables_congr vs mem look with ⟨first, second⟩ | ⟨ns, ns', first, second, mem', look'⟩
    · rw [first, second]
    · rw [first, second, Option.bind_some, Option.bind_some, substituteList_eq, substituteList_eq,
        mapM_congr_some fun t ht => ih t ht mem' look']

/-- The order of a substitution does not matter. -/
theorem substitute_congr {e : Expr} (mem : ∀ p, p ∈ subs ↔ p ∈ subs') (nodup : (subs.map Prod.fst).Nodup)
    (nodup' : (subs'.map Prod.fst).Nodup) : e.substitute subs = e.substitute subs' := by
  have look : ∀ x, subs.lookup x = subs'.lookup x := fun x => by
    refine Option.ext fun r => ?_
    rw [← InsMap.mem_iff_lookup nodup, mem, InsMap.mem_iff_lookup nodup']
  have empty : subs.isEmpty = subs'.isEmpty := by
    rw [Bool.eq_iff_iff, List.isEmpty_iff, List.isEmpty_iff, List.eq_nil_iff_forall_not_mem, List.eq_nil_iff_forall_not_mem]
    simp only [mem]
  rw [Expr.substitute, Expr.substitute, empty, substituteRec_congr mem look]

/-- A match whose terms have the sorts of the variables is a substitution for the variables. -/
theorem substitute_subs {e : Expr} (distinct : vs.Nodup) (nodup : (mp.map Prod.fst).Nodup)
    (bound : ∀ v ∈ vs, ∃ e, mp.lookup v.name = some e) (only : ∀ k ∈ mp.map Prod.fst, ∃ v ∈ vs, v.name = k)
    (sorts : ∀ v ∈ vs, (mp.term v.name).nodeSort = v.sort) :
    e.substitute mp.subs = e.substitute (vs.map fun v => (.var v, mp.term v.name)) := by
  have inside : ∀ v ∈ vs, (v.name, mp.term v.name) ∈ mp := fun v hv => by
    obtain ⟨r, found⟩ := bound v hv
    rw [← mp.agrees_term _ _ found]
    exact InsMap.mem_of_lookup found
  have keyed : ∀ v ∈ vs, (⟨v.name, (mp.term v.name).nodeSort⟩ : LogicVariable) = v := fun v hv => by rw [sorts v hv]
  refine substitute_congr (fun p => ?_) ?_ ?_
  · rw [Bindings.subs, List.mem_map, List.mem_map]
    constructor
    · rintro ⟨⟨k, r⟩, hp, rfl⟩
      obtain ⟨v, hv, rfl⟩ := only k (List.mem_map_of_mem hp)
      obtain rfl : r = mp.term v.name := mp.agrees_term _ _ ((InsMap.mem_iff_lookup nodup).mp hp)
      exact ⟨v, hv, by rw [keyed v hv]⟩
    · rintro ⟨v, hv, rfl⟩
      exact ⟨_, inside v hv, by rw [keyed v hv]⟩
  · rw [Bindings.subs, List.map_map]
    rw [List.Nodup, List.pairwise_map] at nodup ⊢
    exact nodup.imp fun different same => different (congrArg LogicVariable.name (Symbol.var.inj same))
  · rw [List.map_map]
    exact distinct.map fun v w same => Symbol.var.inj same

end Substitutions

section Instances

variable {text : Expr → String} {fmlas : List Expr} {triggers : List TriggerAxiom} {a : TriggerAxiom} {f : Expr}

/-- The variables of the triggers have different names, and the subterms that are similar to a trigger are instances of it, with terms
of the sorts of the variables. -/
structure TriggerAxiom.Compared (a : TriggerAxiom) (fmlas : List Expr) : Prop where
  plain : a.Plain
  names : ∀ v ∈ a.variables, ∀ w ∈ a.variables, v.name = w.name → v = w
  instances : ∀ t ∈ a.triggers, ∀ e ∈ fmlas.flatMap Expr.subterms, ∀ σ, Similar false σ t e →
    t.instantiate (fun v => some (σ v.name)) = e ∧ ∀ v ∈ t.freeVariables, (σ v.name).nodeSort = v.sort

/-- Triggers without constants outside heads and labels are compared, if the terms for the variables have their sorts. -/
theorem TriggerAxiom.compared_of_marks (plain : a.Plain) (names : ∀ v ∈ a.variables, ∀ w ∈ a.variables, v.name = w.name → v = w)
    (unmarked : ∀ t ∈ a.triggers, t.marks = []) (sorts : ∀ t ∈ a.triggers, ∀ e ∈ fmlas.flatMap Expr.subterms, ∀ σ, Similar false σ t e →
      ∀ v ∈ t.freeVariables, (σ v.name).nodeSort = v.sort) : a.Compared fmlas :=
  ⟨plain, names, fun t ht e he σ similar => ⟨instantiate_eq_of_similar (unmarked t ht) similar, sorts t ht e he σ similar⟩⟩

/-- Where the triggers are compared, the matches give the instances. -/
theorem instance_iff_merged (compared : a.Compared fmlas) :
    a.Instance fmlas f ↔ ∃ mp ∈ a.merged fmlas, a.labeled.formula.substitute mp.subs = some f := by
  have subs : ∀ {mp}, Joined a fmlas mp → (∀ v ∈ a.variables, (mp.term v.name).nodeSort = v.sort) → a.labeled.formula.substitute mp.subs =
      a.labeled.formula.substitute (a.variables.dedup.map fun v => (.var v, mp.term v.name)) := by
    intro mp joined sorts
    refine substitute_subs (List.nodup_dedup _) joined.nodup ?_ ?_ ?_
    · simpa only [List.mem_dedup] using joined.bound
    · simpa only [List.mem_dedup] using joined.only
    · simpa only [List.mem_dedup] using sorts
  constructor
  · rintro ⟨σ, sorts, each, made⟩
    let τ : String → Expr := fun k => ((a.variables.find? fun v => v.name = k).map σ).getD (.symbol (.var ⟨k, .first .boolean⟩))
    have value : ∀ v ∈ a.variables, τ v.name = σ v := by
      intro v hv
      have known : (a.variables.find? fun w => w.name = v.name).isSome = true := List.find?_isSome.mpr ⟨v, hv, by simp⟩
      obtain ⟨w, found⟩ := Option.isSome_iff_exists.mp known
      have same : w = v := compared.names w (List.mem_of_find?_eq_some found) v hv (by simpa using List.find?_some found)
      rw [same] at found
      simp only [τ, found, Option.map_some, Option.getD_some]
    have similar : ∀ t ∈ a.triggers, ∃ e ∈ fmlas.flatMap Expr.subterms, Similar false τ t e := by
      intro t ht
      refine ⟨_, each t ht, ?_⟩
      have same : t.instantiate (fun v => some (σ v)) = t.instantiate fun v => some (τ v.name) :=
        instantiate_congr (compared.plain t ht).1 fun v hv => by rw [value v (List.mem_flatMap.mpr ⟨t, ht, hv⟩)]
      rw [same]
      exact similar_instantiate (compared.plain t ht).1
    obtain ⟨mp, merged, agrees⟩ := exists_merged_of_similar compared.plain similar
    have joined := joined_of_merged compared.plain merged
    have terms : ∀ v ∈ a.variables, mp.term v.name = σ v := by
      intro v hv
      obtain ⟨r, found⟩ := joined.bound v hv
      rw [← mp.agrees_term _ _ found, agrees _ _ found, value v hv]
    refine ⟨mp, merged, ?_⟩
    rw [subs joined fun v hv => by rw [terms v hv, sorts v hv], ← made]
    exact congrArg _ (List.map_congr_left fun v hv => by rw [terms v (List.mem_dedup.mp hv)])
  · rintro ⟨mp, merged, made⟩
    have joined := joined_of_merged compared.plain merged
    have sorts : ∀ v ∈ a.variables, (mp.term v.name).nodeSort = v.sort := by
      intro v hv
      obtain ⟨t, ht, free⟩ := List.mem_flatMap.mp hv
      obtain ⟨e, he, similar⟩ := joined.similar t ht
      exact (compared.instances t ht e he _ similar).2 v free
    refine ⟨fun v => mp.term v.name, sorts, fun t ht => ?_, (subs joined sorts).symm.trans made⟩
    obtain ⟨e, he, similar⟩ := joined.similar t ht
    rw [(compared.instances t ht e he _ similar).1]
    exact he

theorem subtermsList_eq (ts : List Expr) : subtermsList ts = ts.flatMap Expr.subterms := by
  induction ts with
  | nil => rfl
  | cons t ts ih => rw [subtermsList, ih, List.flatMap_cons]

theorem Expr.mem_subterms_self (e : Expr) : e ∈ e.subterms := by
  cases e with
  | symbol x => exact List.mem_singleton_self _
  | _ => exact List.mem_append_right _ (List.mem_singleton_self _)

theorem mem_marks_of_subterm {e t : Expr} {m : Mark} (h : e ∈ t.subterms) (hm : m ∈ e.marks) : m ∈ t.marks := by
  have list : ∀ {ts : List Expr}, (∀ t ∈ ts, e ∈ t.subterms → m ∈ t.marks) → e ∈ subtermsList ts → m ∈ marksList ts := by
    intro ts each here
    rw [subtermsList_eq, List.mem_flatMap] at here
    obtain ⟨t, ht, inner⟩ := here
    rw [marksList_eq, List.mem_flatMap]
    exact ⟨t, ht, each t ht inner⟩
  induction t with
  | symbol x => rwa [← List.mem_singleton.mp h]
  | apply f ts _ ih =>
    rw [Expr.subterms, List.mem_append, List.mem_singleton] at h
    rcases h with inner | rfl
    · exact list ih inner
    · exact hm
  | node op ts ih =>
    rw [Expr.subterms, List.mem_append, List.mem_singleton] at h
    rcases h with inner | rfl
    · rw [Expr.marks]
      split
      · exact List.mem_cons_of_mem _ (list ih inner)
      · exact list ih inner
    · exact hm
  | bind b vs ts ih =>
    rw [Expr.subterms, List.mem_append, List.mem_append, List.mem_singleton] at h
    rcases h with (param | inner) | rfl
    · have named : ∃ v, e = .symbol (.var v) := by
        split at param
        · obtain ⟨v, -, rfl⟩ := List.mem_map.mp param
          exact ⟨v, rfl⟩
        · exact absurd param List.not_mem_nil
      obtain ⟨v, rfl⟩ := named
      exact absurd hm List.not_mem_nil
    · exact List.mem_cons_of_mem _ (list ih inner)
    · exact hm

theorem quantifierFree_of_binderFree {e : Expr} (h : e.binderFree = true) : e.quantifierFree = true := by
  induction e with
  | symbol x => rfl
  | apply f ts _ ih | node op ts ih =>
    rw [Expr.binderFree, binderFreeList_iff] at h
    rw [Expr.quantifierFree, quantifierFreeList_iff]
    exact fun t ht => ih t ht (h t ht)
  | bind => exact absurd h Bool.false_ne_true

/-- Triggers with constants outside heads or labels match formulas of which they have no instance. -/
theorem marks_eq_nil_of_sound (plain : a.Plain) (sound : ∀ fmlas labeled,
    ∀ r ∈ instantiateAxiomsFromTriggers text fmlas [⟨a.triggers, labeled⟩], TriggerAxiom.Instance ⟨a.triggers, labeled⟩ fmlas r.formula) :
    ∀ t ∈ a.triggers, t.marks = [] := by
  intro t ht
  rw [List.eq_nil_iff_forall_not_mem]
  intro m hm
  obtain ⟨i, -, new⟩ := exists_unused (suffix_injective "") (t.marks.flatMap Mark.names)
  generalize "" ++ "_" ++ constantName i = fresh at new
  let w : LogicVariable := ⟨fresh, .first .boolean⟩
  let truth : LabeledFormula := ⟨"", .node .and []⟩
  have free : ∀ t ∈ a.triggers, t.quantifierFree = true := fun t ht => quantifierFree_of_binderFree (plain t ht).1
  have matched : ∃ mp ∈ TriggerAxiom.merged ⟨a.triggers, truth⟩ (a.triggers.map (Expr.disguise w)), Agrees (fun _ => .symbol (.var w)) mp :=
    exists_merged_of_similar plain fun t ht =>
      ⟨t.disguise w, List.mem_flatMap.mpr ⟨_, List.mem_map_of_mem ht, Expr.mem_subterms_self _⟩, similar_disguise (free t ht)⟩
  obtain ⟨mp, merged, -⟩ := matched
  have made : truth.formula.substitute mp.subs = some truth.formula := by
    rw [Expr.substitute]
    split <;> rfl
  have listed : ⟨truth, truth.formula⟩ ∈ allInstances (a.triggers.map (Expr.disguise w)) [⟨a.triggers, truth⟩] :=
    mem_allInstances.mpr ⟨⟨a.triggers, truth⟩, List.mem_singleton_self _, rfl, mp, merged, made⟩
  obtain ⟨r, hr, -⟩ := exists_mem_of_mem_allInstances text listed
  obtain ⟨σ, -, each, -⟩ := sound _ truth r hr
  obtain ⟨e, he, inner⟩ := List.mem_flatMap.mp (each t ht)
  obtain ⟨t', ht', rfl⟩ := List.mem_map.mp he
  have here := mem_marks_of_subterm inner (mem_marks_instantiate _ hm)
  exact new (List.mem_flatMap.mpr ⟨m, hm, mem_names_disguise (free t' ht') here⟩)

/-- The results are instances of axioms. A pattern without quantifiers is instantiated by its matches exactly if it has no constants
outside heads, no labels and no binders. Where the triggers are compared, and the texts of instances differ, the results are the
instances. Triggers that give only instances, from all formulas, have no constants outside heads and no labels. -/
theorem instantiateAxiomsFromTriggers_spec (text : Expr → String) (fmlas : List Expr) (triggers : List TriggerAxiom) :
    (∀ r ∈ instantiateAxiomsFromTriggers text fmlas triggers, ∃ a ∈ triggers, r.labeled = a.labeled ∧
      ∃ subs, a.labeled.formula.substitute subs = some r.formula) ∧
    (∀ pat : Expr, pat.quantifierFree = true →
      ((∀ e mp, patternMatch pat e [] = some mp → SwapEq true (pat.instantiate mp.value) e) ↔ pat.marks = [])) ∧
    ((∀ a ∈ triggers, a.Compared fmlas) →
      (∀ f g, (∃ a ∈ triggers, a.Instance fmlas f) → (∃ a ∈ triggers, a.Instance fmlas g) → text f = text g → f = g) →
      ∀ f, f ∈ (instantiateAxiomsFromTriggers text fmlas triggers).map InstResult.formula ↔ ∃ a ∈ triggers, a.Instance fmlas f) ∧
    ∀ a : TriggerAxiom, a.Plain → (∀ fmlas labeled, ∀ r ∈ instantiateAxiomsFromTriggers text fmlas [⟨a.triggers, labeled⟩],
      TriggerAxiom.Instance ⟨a.triggers, labeled⟩ fmlas r.formula) → ∀ t ∈ a.triggers, t.marks = [] := by
  refine ⟨fun r hr => ?_, fun pat free => patternMatch_exact free, fun compared texts f => ?_, fun a plain => marks_eq_nil_of_sound plain⟩
  · obtain ⟨a, ha, same, mp, -, made⟩ := mem_allInstances.mp (mem_allInstances_of_mem hr)
    exact ⟨a, ha, same, mp.subs, made⟩
  · have sound : ∀ r ∈ instantiateAxiomsFromTriggers text fmlas triggers, ∃ a ∈ triggers, a.Instance fmlas r.formula := by
      intro r hr
      obtain ⟨a, ha, -, made⟩ := mem_allInstances.mp (mem_allInstances_of_mem hr)
      exact ⟨a, ha, (instance_iff_merged (compared a ha)).mpr made⟩
    rw [List.mem_map]
    constructor
    · rintro ⟨r, hr, rfl⟩
      exact sound r hr
    · rintro ⟨a, ha, inst⟩
      have listed : ⟨a.labeled, f⟩ ∈ allInstances fmlas triggers :=
        mem_allInstances.mpr ⟨a, ha, rfl, (instance_iff_merged (compared a ha)).mp inst⟩
      obtain ⟨r, hr, same⟩ := exists_mem_of_mem_allInstances text listed
      exact ⟨r, hr, texts _ _ (sound r hr) ⟨a, ha, inst⟩ same⟩

/-- The sort `t` of the terms below. -/
def sortT : LSort := .first (.uninterpreted "t")

/-- An application of a predicate to a term of the sort `t`. -/
def holdsOf (p : String) (t : Symbol) : Expr := .apply (.symbol (.const ⟨p, .function [.uninterpreted "t"] .boolean⟩)) [.symbol t]

/-- The axiom `q(X)` with the trigger `p(X)`. -/
def axiomOnVariable : TriggerAxiom := ⟨[holdsOf "p" (.var ⟨"X", sortT⟩)], ⟨"ax", holdsOf "q" (.var ⟨"X", sortT⟩)⟩⟩

/-- The formula `p(c)` has the instance `q(c)` of `q(X)`, and no other. -/
theorem instantiateAxiomsFromTriggers_spec_one : ∀ f,
    f ∈ (instantiateAxiomsFromTriggers (fun _ => "q(c)") [holdsOf "p" (.const ⟨"c", sortT⟩)] [axiomOnVariable]).map InstResult.formula ↔
      ∃ a ∈ [axiomOnVariable], a.Instance [holdsOf "p" (.const ⟨"c", sortT⟩)] f := by
  have subterms : ∀ e ∈ [holdsOf "p" (.const ⟨"c", sortT⟩)].flatMap Expr.subterms,
      e = .symbol (.const ⟨"c", sortT⟩) ∨ e = holdsOf "p" (.const ⟨"c", sortT⟩) := by
    intro e he
    exact (List.mem_cons.mp he).imp_right List.mem_singleton.mp
  have only : ∀ f, (∃ a ∈ [axiomOnVariable], a.Instance [holdsOf "p" (.const ⟨"c", sortT⟩)] f) → f = holdsOf "q" (.const ⟨"c", sortT⟩) := by
    rintro f ⟨a, ha, σ, -, each, made⟩
    obtain rfl := List.mem_singleton.mp ha
    have value : σ ⟨"X", sortT⟩ = .symbol (.const ⟨"c", sortT⟩) := by
      rcases subterms _ (each _ (List.mem_singleton_self _)) with same | same
      · exact absurd same (by simp [holdsOf, Expr.instantiate])
      · simpa [holdsOf, Expr.instantiate, instantiateList] using same
    have result : axiomOnVariable.labeled.formula.substitute [(.var ⟨"X", sortT⟩, σ ⟨"X", sortT⟩)] = some f := made
    rw [value] at result
    exact (Option.some.inj result).symm
  have compared : axiomOnVariable.Compared [holdsOf "p" (.const ⟨"c", sortT⟩)] := by
    refine TriggerAxiom.compared_of_marks ?_ ?_ (List.forall_mem_singleton.mpr rfl) ?_
    · exact List.forall_mem_singleton.mpr ⟨rfl, rfl⟩
    · intro v hv w hw _
      rw [List.mem_singleton.mp hv, List.mem_singleton.mp hw]
    · intro t ht e he σ similar
      obtain rfl := List.mem_singleton.mp ht
      rcases subterms e he with rfl | rfl
      · exact similar.elim
      · have value : .symbol (.const ⟨"c", sortT⟩) = σ "X" := similar.2.1
        refine List.forall_mem_singleton.mpr ?_
        rw [← value]
        rfl
  refine (instantiateAxiomsFromTriggers_spec (fun _ => "q(c)") _ _).2.2.1 (List.forall_mem_singleton.mpr compared) ?_
  · intro f g hf hg _
    rw [only f hf, only g hg]

/-- The axiom `q(c)` with the trigger `p(c)`. -/
def axiomOnConstant : TriggerAxiom := ⟨[holdsOf "p" (.const ⟨"c", sortT⟩)], ⟨"ax", holdsOf "q" (.const ⟨"c", sortT⟩)⟩⟩

/-- The trigger `p(c)` matches `p(d)`, of which it has no instance. -/
theorem instantiateAxiomsFromTriggers_spec_fails :
    (¬ ∀ (pat e : Expr) (mp : Bindings), pat.quantifierFree = true → patternMatch pat e [] = some mp →
      SwapEq true (pat.instantiate mp.value) e) ∧
    ¬ ∀ (text : Expr → String) (fmlas : List Expr) (triggers : List TriggerAxiom),
      (∀ a ∈ triggers, a.triggers ≠ [] ∧ ∀ t ∈ a.triggers, t.quantifierFree = true ∧ t.equalityFree = true) →
      ∀ f ∈ (instantiateAxiomsFromTriggers text fmlas triggers).map InstResult.formula, ∃ a ∈ triggers, a.Instance fmlas f := by
  constructor
  · intro h
    have same := h (holdsOf "p" (.const ⟨"c", sortT⟩)) (holdsOf "p" (.const ⟨"d", sortT⟩)) [] rfl (by decide)
    have names : (Symbol.const ⟨"c", sortT⟩) = .const ⟨"d", sortT⟩ := same.2.1
    exact absurd names (by decide)
  · intro h
    obtain ⟨a, ha, σ, -, each, -⟩ := h (fun _ => "q(c)") [holdsOf "p" (.const ⟨"d", sortT⟩)] [axiomOnConstant]
      (List.forall_mem_singleton.mpr ⟨List.cons_ne_nil _ _, List.forall_mem_singleton.mpr ⟨rfl, rfl⟩⟩)
      (holdsOf "q" (.const ⟨"c", sortT⟩)) (by decide)
    obtain rfl := List.mem_singleton.mp ha
    have absent : holdsOf "p" (.const ⟨"c", sortT⟩) ∉ [holdsOf "p" (.const ⟨"d", sortT⟩)].flatMap Expr.subterms := by decide
    exact absent (each _ (List.mem_singleton_self _))

end Instances

end Goivy.LogicUtil
