import Goivy.Solver.Check

/-! What the facts of a model say of a structure. -/
namespace Goivy.Solver

variable {D D' : Domain} {voc : Vocabulary} {quote : String → String} {M : Structure D} {N : Structure D'} {h : HerbrandModel D}
  {lit : LogicLiteral} {c : Const}

/-- All sorts of a symbol are in the vocabulary, and a function has arguments. -/
structure Vocabulary.Has (voc : Vocabulary) (c : Const) : Prop where
  domain : ∀ s ∈ c.sort.domain, voc.Sorts s
  range : voc.Sorts c.sort.range
  args : ∀ range, c.sort ≠ .function [] range

/-- What the name of a value means in a structure. -/
noncomputable def HerbrandModel.denote (h : HerbrandModel D) (N : Structure D') (val : Val D) : Val D' := N.value (h.constantFromZ3 val.1 val) []

/-- What the facts say of a value in the model and the value for it in a structure. -/
def HerbrandModel.Renders (h : HerbrandModel D) (M : Structure D) (N : Structure D') (val : Val D) (val' : Val D') : Prop :=
  match val.1, h.useZ3Enums with
  | .enumerated n ext, false => ∀ e ∈ ext, M.value (enumConst n ext e) [] = val → val' = N.value (enumConst n ext e) []
  | _, _ => val' = h.denote N val

theorem renders_enumerated {val : Val D} {val' : Val D'} {n : String} {ext : List String} (sort : val.1 = .enumerated n ext)
    (encoded : h.useZ3Enums = false) : h.Renders M N val val' ↔
      ∀ e ∈ ext, M.value (enumConst n ext e) [] = val → val' = N.value (enumConst n ext e) [] := by
  simp only [HerbrandModel.Renders, sort, encoded]

theorem renders_other {val : Val D} {val' : Val D'} (other : ∀ n ext, val.1 = .enumerated n ext → h.useZ3Enums = true) :
    h.Renders M N val val' ↔ val' = h.denote N val := by
  unfold HerbrandModel.Renders
  split
  · rename_i n ext sort encoded
    rw [other n ext sort] at encoded
    contradiction
  · rfl

/-- The facts about symbols, as properties of a structure. -/
structure HerbrandModel.Describes (h : HerbrandModel D) (voc : Vocabulary) (M : Structure D) (cs : List Const) (N : Structure D') : Prop where
  onto : ∀ n ∈ voc.uninterpreted, ∀ y : El D' (.uninterpreted n), ∃ x : El D (.uninterpreted n), h.denote N ⟨_, x⟩ = ⟨_, y⟩
  inj : ∀ n ∈ voc.uninterpreted, ∀ x y : El D (.uninterpreted n), h.denote N ⟨_, x⟩ = h.denote N ⟨_, y⟩ → x = y
  constants : ∀ c ∈ cs, ∀ s, c.sort = .first s → c.name ∉ h.sig.constructors → h.Renders M N (M.value c []) (N.value c [])
  relations : ∀ c ∈ cs, ∀ dom, c.sort = .function dom .boolean → ∀ xs : List (Val D), xs.map Sigma.fst = dom →
    ((N.value c (xs.map (h.denote N))).Holds ↔ (M.value c xs).Holds)
  functions : ∀ c ∈ cs, ∀ dom range, c.sort = .function dom range → range ≠ .boolean → ∀ xs : List (Val D), xs.map Sigma.fst = dom →
    h.Renders M N (M.value c xs) (N.value c (xs.map (h.denote N)))

namespace HerbrandModel.Of

variable (of : h.Of voc quote M)

include of

theorem constantFromZ3_sort (val : Val D) : (h.constantFromZ3 val.1 val).sort = .first val.1 := by
  rw [constantFromZ3]
  split
  · rename_i truth
    rw [(of.true_iff val).mp truth]
  · split
    · rename_i falsity
      rw [(of.false_iff val).mp falsity]
    · rfl

theorem sort_denote (val : Val D) : (h.denote N val).1 = val.1 := by
  rw [denote]
  exact congrArg LSort.range (of.constantFromZ3_sort val)

theorem denote_model {val : Val D} (sort : voc.Sorts val.1) : h.denote M val = val := of.named val.1 sort val.2

end HerbrandModel.Of

section Instances

variable {α : Type}

/-- Whether `NewApply` accepts terms depends on their sorts. -/
theorem newApply_of_sorts {ts us : List Expr} (same : ts.map Expr.nodeSort = us.map Expr.nodeSort)
    (accepts : Expr.newApply c us = some (.apply c us)) : Expr.newApply c ts = some (.apply c ts) := by
  have length : ts.length = us.length := by simpa using congrArg List.length same
  have all : ∀ dom : List FSort, ∀ ts : List Expr, (dom.zip ts).all (fun p => argumentFits p.1 p.2) =
      (dom.zip (ts.map Expr.nodeSort)).all fun p => p.2 = .first p.1 || p.2.isTop || (LSort.first p.1).isTop := by
    intro dom ts
    rw [List.zip_map_right, List.all_map]
    rfl
  unfold Expr.newApply at accepts ⊢
  simp only [all, same, length] at accepts ⊢
  grind

/-- The ground instance of a symbol's application, by constants of the right sorts. -/
theorem substitute_apply {name : Variable → Const} {vs : List Variable} (sorts : ∀ v, (name v).sort = .first v.sort)
    (args : symPlaceholders c ≠ []) (within : ∀ v ∈ symPlaceholders c, v ∈ vs) :
    (Expr.apply c ((symPlaceholders c).map .var)).substitute (vs.map fun v => (v, .const (name v))) =
      some (.apply c ((symPlaceholders c).map fun v => .const (name v))) := by
  have terms : ∀ phs : List Variable, (∀ v ∈ phs, v ∈ vs) →
      Expr.substituteList (phs.map .var) (vs.map fun v => (v, .const (name v))) = some (phs.map fun v => .const (name v)) := by
    intro phs sub
    induction phs with
    | nil => rfl
    | cons v phs ih =>
      rw [List.forall_mem_cons] at sub
      rw [List.map_cons, Expr.substituteList, Expr.substitute, InsMap.lookup_graph (fun v => Expr.const (name v)), if_pos sub.1, ih sub.2]
      rfl
  rw [Expr.substitute, terms _ within, Option.bind_some]
  refine newApply_of_sorts ?_ (newApply_symPlaceholders args)
  rw [List.map_map, List.map_map]
  exact List.map_congr_left fun v _ => sorts v

theorem freeVariablesList_vars (vs : List Variable) : Expr.freeVariablesList (vs.map .var) = vs := by
  induction vs with
  | nil => rfl
  | cons v vs ih => rw [List.map_cons, Expr.freeVariablesList, ih, Expr.freeVariables, List.singleton_append]

theorem freeVariables_application (c : Const) : (Expr.apply c ((symPlaceholders c).map .var)).freeVariables = symPlaceholders c :=
  freeVariablesList_vars _

end Instances

section Literals

namespace HerbrandModel.Of

variable (of : h.Of voc quote M)

include of

theorem nameAt_sort (env : Env D) (v : Variable) : (h.nameAt env v).sort = .first v.sort := of.constantFromZ3_sort ⟨v.sort, env v⟩

/-- The facts of a literal are its instances at the assignments that satisfy it. -/
theorem litFacts_valid (lit : LogicLiteral) (covered : ∀ v ∈ lit.vars, voc.Sorts v.sort) {inst : Env D → Expr}
    (closes : ∀ env, lit.atom.substitute (lit.vars.map fun v => (v, .const (h.nameAt env v))) = some (inst env)) :
    (∀ f ∈ h.getLitFacts lit, f.Valid N) ↔
      ∀ env, lit.Holds M env → (if lit.polarity then inst env else .not (inst env)).Valid N := by
  have row : ∀ env, lit.atom.substitute (lit.vars.zip ((lit.vars.map (h.nameAt env)).map .const)) = some (inst env) := by
    intro env
    rw [List.map_map, zip_graph]
    exact closes env
  simp only [getLitFacts, List.mem_filterMap, check_vars]
  constructor
  · intro all env sat
    exact all _ ⟨_, ((of.check_rows covered).2 _).mpr ⟨env, sat, rfl⟩, by rw [row, Option.map_some]⟩
  · rintro all f ⟨_, hrow, made⟩
    obtain ⟨env, sat, rfl⟩ := ((of.check_rows covered).2 _).mp hrow
    rw [row, Option.map_some] at made
    exact Option.some.inj made ▸ all env sat

theorem substitute_instance {vs : List Variable} (args : symPlaceholders c ≠ []) (within : ∀ v ∈ symPlaceholders c, v ∈ vs)
    (env : Env D) : (Expr.apply c ((symPlaceholders c).map .var)).substitute (vs.map fun v => (v, .const (h.nameAt env v))) =
      some (.apply c ((symPlaceholders c).map fun v => .const (h.nameAt env v))) :=
  substitute_apply (of.nameAt_sort env) args within

omit of in
theorem covered_placeholders (has : voc.Has c) : ∀ v ∈ symPlaceholders c, voc.Sorts v.sort := by
  intro v hv
  refine has.domain _ ?_
  rw [← symPlaceholders_sorts c]
  exact List.mem_map_of_mem hv

end HerbrandModel.Of

/-- An instance names the values of the arguments. -/
theorem eval_instance (c : Const) (env : Env D) (env' : Env D') :
    (Expr.apply c ((symPlaceholders c).map fun v => .const (h.nameAt env v))).eval N env' =
      N.value c ((env.values (symPlaceholders c)).map (h.denote N)) := by
  rw [Expr.eval, evalList_eq_map, List.map_map, Env.values, List.map_map]
  rfl

theorem eval_const (M : Structure D) (c : Const) (env : Env D) : (Expr.const c).eval M env = M.value c [] := by
  rw [Expr.eval]

theorem eval_application (c : Const) (env : Env D) :
    (Expr.apply c ((symPlaceholders c).map .var)).eval M env = M.value c (env.values (symPlaceholders c)) := by
  rw [Expr.eval, evalList_eq_map, List.map_map]
  rfl

theorem vars_application (c : Const) (polarity : Bool) (v : Variable) :
    v ∈ (⟨polarity, .apply c ((symPlaceholders c).map .var)⟩ : LogicLiteral).vars ↔ v ∈ symPlaceholders c := by
  rw [LogicLiteral.mem_vars, freeVariables_application]

namespace HerbrandModel.Of

variable (of : h.Of voc quote M)

include of

/-- The facts about a relation say where it holds. -/
theorem relation_iff (has : voc.Has c) (args : symPlaceholders c ≠ []) :
    (∀ f ∈ h.relationModelToClauses c, f.Valid N) ↔ ∀ env : Env D,
      ((N.value c ((env.values (symPlaceholders c)).map (h.denote N))).Holds ↔ (M.value c (env.values (symPlaceholders c))).Holds) := by
  have facts := fun polarity => of.litFacts_valid (N := N) ⟨polarity, .apply c ((symPlaceholders c).map .var)⟩
    (fun v hv => covered_placeholders has v ((vars_application c polarity v).mp hv))
    fun env => of.substitute_instance args (fun v hv => (vars_application c polarity v).mpr hv) env
  have inst : ∀ (env : Env D) (env' : Env D'), (Expr.apply c ((symPlaceholders c).map fun v => .const (h.nameAt env v))).Holds N env' ↔
      (N.value c ((env.values (symPlaceholders c)).map (h.denote N))).Holds := fun env env' => by
    rw [Expr.Holds, eval_instance]
  have atom : ∀ env : Env D, (Expr.apply c ((symPlaceholders c).map .var)).Holds M env ↔
      (M.value c (env.values (symPlaceholders c))).Holds := fun env => by rw [Expr.Holds, eval_application]
  rw [relationModelToClauses, List.forall_mem_append, facts, facts]
  simp only [LogicLiteral.Holds, if_true, Bool.false_eq_true, if_false, Expr.Valid, Expr.holds_not, inst, atom, forall_const]
  grind

theorem enumerated_iff (has : voc.Has c) (args : symPlaceholders c ≠ []) {n : String} {ext : List String}
    (range : c.sort.range = .enumerated n ext) (e : String) :
    (∀ f ∈ h.getLitFacts ⟨true, .eq (.apply c ((symPlaceholders c).map .var)) (.const (enumConst n ext e))⟩, f.Valid N) ↔
      ∀ env : Env D, M.value (enumConst n ext e) [] = M.value c (env.values (symPlaceholders c)) →
        N.value c ((env.values (symPlaceholders c)).map (h.denote N)) = N.value (enumConst n ext e) [] := by
  have vars : ∀ v, v ∈ (⟨true, .eq (.apply c ((symPlaceholders c).map .var)) (.const (enumConst n ext e))⟩ : LogicLiteral).vars ↔
      v ∈ symPlaceholders c := by
    intro v
    rw [LogicLiteral.mem_vars, Expr.freeVariables, freeVariables_application, Expr.freeVariables, List.append_nil]
  have closes : ∀ env : Env D, (Expr.eq (.apply c ((symPlaceholders c).map .var)) (.const (enumConst n ext e))).substitute
      (LogicLiteral.vars ⟨true, .eq (.apply c ((symPlaceholders c).map .var)) (.const (enumConst n ext e))⟩ |>.map fun v =>
        (v, .const (h.nameAt env v))) =
      some (.eq (.apply c ((symPlaceholders c).map fun v => .const (h.nameAt env v))) (.const (enumConst n ext e))) := by
    intro env
    rw [Expr.substitute, of.substitute_instance args (fun v hv => (vars v).mpr hv) env]
    simp [Expr.substitute, Expr.newEq, Expr.nodeSort, range, enumConst]
  rw [of.litFacts_valid _ (fun v hv => covered_placeholders has v ((vars v).mp hv)) closes]
  simp only [LogicLiteral.Holds, if_true, Expr.Valid, Expr.holds_eq, eval_instance, eval_application, eval_const, forall_const]
  exact forall_congr' fun env => by rw [eq_comm]

/-- The facts about a function say what its values are. -/
theorem function_iff (has : voc.Has c) (args : symPlaceholders c ≠ []) :
    (∀ f ∈ h.functionModelToClauses c, f.Valid N) ↔ ∀ env : Env D,
      h.Renders M N (M.value c (env.values (symPlaceholders c))) (N.value c ((env.values (symPlaceholders c)).map (h.denote N))) := by
  rw [functionModelToClauses]
  split
  · rename_i n ext range encoded
    rw [List.forall_mem_flatMap]
    constructor
    · intro all env
      refine (renders_enumerated range encoded).mpr fun e he => (of.enumerated_iff has args range e).mp (all e he) env
    · intro all e he
      refine (of.enumerated_iff has args range e).mpr fun env => (renders_enumerated range encoded).mp (all env) e he
  · rename_i other
    have renders : ∀ (vals : List (Val D)) (val' : Val D'), h.Renders M N (M.value c vals) val' ↔ val' = h.denote N (M.value c vals) :=
      fun vals val' => renders_other fun n ext range => Bool.of_not_eq_false fun encoded => other n ext range encoded
    have fresh : (⟨"Y", c.sort.range⟩ : Variable) ∉ symPlaceholders c := by
      intro mem
      obtain ⟨i, hi, same⟩ := List.mem_iff_getElem.mp mem
      have names := congrArg (fun v : Variable => v.name.toList.head?) same
      simp [symPlaceholders, String.toList_append] at names
    have vars : ∀ v, v ∈ (⟨true, .eq (.var ⟨"Y", c.sort.range⟩) (.apply c ((symPlaceholders c).map .var))⟩ : LogicLiteral).vars ↔
        v = ⟨"Y", c.sort.range⟩ ∨ v ∈ symPlaceholders c := by
      intro v
      rw [LogicLiteral.mem_vars, Expr.freeVariables, freeVariables_application, Expr.freeVariables, List.mem_append, List.mem_singleton]
    have closes : ∀ env : Env D, (Expr.eq (.var ⟨"Y", c.sort.range⟩) (.apply c ((symPlaceholders c).map .var))).substitute
        (LogicLiteral.vars ⟨true, .eq (.var ⟨"Y", c.sort.range⟩) (.apply c ((symPlaceholders c).map .var))⟩ |>.map fun v =>
          (v, .const (h.nameAt env v))) =
        some (.eq (.const (h.nameAt env ⟨"Y", c.sort.range⟩)) (.apply c ((symPlaceholders c).map fun v => .const (h.nameAt env v)))) := by
      intro env
      rw [Expr.substitute, of.substitute_instance args (fun v hv => (vars v).mpr (.inr hv)) env, Expr.substitute,
        InsMap.lookup_graph (fun v => Expr.const (h.nameAt env v)), if_pos ((vars _).mpr (.inl rfl))]
      have sort := of.nameAt_sort env ⟨"Y", c.sort.range⟩
      simp [Expr.newEq, Expr.nodeSort, sort]
    have covered : ∀ v, v = ⟨"Y", c.sort.range⟩ ∨ v ∈ symPlaceholders c → voc.Sorts v.sort := by
      rintro v (rfl | hv)
      · exact has.range
      · exact covered_placeholders has v hv
    rw [of.litFacts_valid _ (fun v hv => covered v ((vars v).mp hv)) closes]
    simp only [LogicLiteral.Holds, if_true, Expr.Valid, Expr.holds_eq, eval_instance, eval_application, eval_const, forall_const, renders]
    constructor
    · intro all env
      -- the variable `Y` takes the value of the application
      have fits : (M.value c (env.values (symPlaceholders c)) :: env.values (symPlaceholders c)).map Sigma.fst =
          (⟨"Y", c.sort.range⟩ :: symPlaceholders c).map Variable.sort := by
        rw [List.map_cons, List.map_cons, Env.values, List.map_map]
        rfl
      obtain ⟨env', values⟩ := exists_env (List.nodup_cons.mpr ⟨fresh, symPlaceholders_nodup c⟩) fits
      rw [Env.values, List.map_cons, List.cons.injEq] at values
      obtain ⟨result, keeps⟩ := values
      have keeps : env'.values (symPlaceholders c) = env.values (symPlaceholders c) := keeps
      have fact := all env' (by rw [keeps, Expr.eval, result])
      rw [keeps] at fact
      rw [← fact, ← result]
      rfl
    · intro all env same
      rw [all env, ← same, Expr.eval]
      rfl

end HerbrandModel.Of

end Literals

section Facts

theorem valid_eq_const {c d : Const} : (Expr.eq (.const c) (.const d)).Valid N ↔ N.value c [] = N.value d [] := by
  simp only [Expr.Valid, Expr.holds_eq, eval_const, forall_const]

theorem distinctness_valid {cs : List Const} :
    (∀ f ∈ HerbrandModel.distinctness cs, f.Valid N) ↔ (cs.map fun c => N.value c []).Nodup := by
  induction cs with
  | nil => simp [HerbrandModel.distinctness]
  | cons c cs ih =>
    rw [HerbrandModel.distinctness, List.forall_mem_append, ih, List.map_cons, List.nodup_cons, List.forall_mem_map, List.mem_map]
    simp only [Expr.Valid, Expr.holds_not, Expr.holds_eq, eval_const, forall_const, not_exists, not_and, eq_comm]

namespace HerbrandModel.Of

variable (of : h.Of voc quote M)

include of

/-- The facts about a universe say that its values are all elements, each once. -/
theorem universe_iff {n : String} (listed : n ∈ voc.uninterpreted) :
    (∀ f ∈ h.modelUniverseFacts (.uninterpreted n) false, f.Valid N) ↔
      (∀ y : El D' (.uninterpreted n), ∃ x : El D (.uninterpreted n), h.denote N ⟨_, x⟩ = ⟨_, y⟩) ∧
        ∀ x y : El D (.uninterpreted n), h.denote N ⟨_, x⟩ = h.denote N ⟨_, y⟩ → x = y := by
  obtain ⟨elems, found, nodup, mem⟩ := of.universes n listed
  have all : h.sortUniverse (.uninterpreted n) = elems.map (h.constantFromZ3 (.uninterpreted n)) := by
    rw [sortUniverse, FSort.name, found, Option.getD_some]
  have some : (elems.map (h.constantFromZ3 (.uninterpreted n))).isEmpty = false := by
    obtain ⟨x⟩ : Nonempty (El D (.uninterpreted n)) := inferInstance
    have here : (⟨_, x⟩ : Val D) ∈ elems := (mem _).mpr rfl
    cases elems with
    | nil => contradiction
    | cons => rfl
  have denotes : ∀ x ∈ elems, N.value (h.constantFromZ3 (.uninterpreted n) x) [] = h.denote N x := by
    intro x hx
    rw [denote, (mem x).mp hx]
  simp only [modelUniverseFacts, all, some, of.uninterpreted (.uninterpreted n) listed, Bool.or_self, Bool.false_eq_true, if_false,
    List.singleton_append, List.forall_mem_cons, distinctness_valid]
  refine and_congr ?_ ?_
  · have holds : ∀ env : Env D', (Expr.or ((elems.map (h.constantFromZ3 (.uninterpreted n))).map fun c =>
        .eq (.var ⟨"X", .uninterpreted n⟩) (.const c))).Holds N env ↔
        ∃ x ∈ elems, h.denote N x = ⟨_, env ⟨"X", .uninterpreted n⟩⟩ := by
      intro env
      rw [Expr.holds_or]
      constructor
      · rintro ⟨_, ht, sat⟩
        obtain ⟨_, hc, rfl⟩ := List.mem_map.mp ht
        obtain ⟨x, hx, rfl⟩ := List.mem_map.mp hc
        rw [Expr.holds_eq, eval_const, denotes x hx, Expr.eval] at sat
        exact ⟨x, hx, sat.symm⟩
      · rintro ⟨x, hx, same⟩
        refine ⟨_, List.mem_map_of_mem (List.mem_map_of_mem hx), ?_⟩
        rw [Expr.holds_eq, eval_const, denotes x hx, same, Expr.eval]
    simp only [Expr.Valid, holds]
    constructor
    · intro all y
      obtain ⟨⟨s, x⟩, hx, same⟩ := all (Function.update (Classical.arbitrary _) ⟨"X", .uninterpreted n⟩ y)
      obtain rfl : s = .uninterpreted n := (mem _).mp hx
      rw [Function.update_self] at same
      exact ⟨x, same⟩
    · intro all env
      obtain ⟨x, same⟩ := all (env ⟨"X", .uninterpreted n⟩)
      exact ⟨_, (mem ⟨_, x⟩).mpr rfl, same⟩
  · rw [List.map_map, List.nodup_map_iff_inj_on nodup]
    constructor
    · intro inj x y same
      have eq := inj _ ((mem ⟨_, x⟩).mpr rfl) _ ((mem ⟨_, y⟩).mpr rfl) same
      exact eq_of_heq (Sigma.mk.inj eq).2
    · intro inj a ha b hb same
      have same : h.denote N a = h.denote N b := (denotes a ha).symm.trans (same.trans (denotes b hb))
      obtain ⟨s, x⟩ := a
      obtain ⟨s', y⟩ := b
      obtain rfl : s = .uninterpreted n := (mem _).mp ha
      obtain rfl : s' = .uninterpreted n := (mem _).mp hb
      rw [inj x y same]

/-- The fact about a constant says what its value is. -/
theorem constant_iff (has : voc.Has c) {s : FSort} (sort : c.sort = .first s) :
    (Expr.eq (.const c) (.const (h.getModelConstant c))).Valid N ↔ h.Renders M N (M.value c []) (N.value c []) := by
  have range : (M.value c []).1 = s := by
    show c.sort.range = s
    rw [sort, LSort.range]
  have value : h.eval (.const c) [] = M.value c [] :=
    (of.eval _ [] (Classical.arbitrary _) (by simp) (by simp [Expr.freeVariables])).trans (eval_const M c _)
  rw [valid_eq_const, getModelConstant]
  split
  · rename_i n first ext enum encoded
    have listed : (n, first :: ext) ∈ voc.enumerated := by
      have := has.range
      rwa [enum] at this
    have equal : ∀ e, h.isTrue (.eq (.const c) (.const ⟨e, .first (.enumerated n (first :: ext))⟩)) [] = true ↔
        M.value c [] = M.value (enumConst n (first :: ext) e) [] := by
      intro e
      rw [of.isTrue_iff (Classical.arbitrary _) (by simp) (by simp [Expr.freeVariables]), Expr.holds_eq, eval_const, eval_const]
      rfl
    have enum' : (M.value c []).1 = .enumerated n (first :: ext) := enum
    rw [renders_enumerated enum' encoded]
    have exists_equal : ∃ e ∈ first :: ext, M.value (enumConst n (first :: ext) e) [] = M.value c [] := by
      have onto := of.standard.onto n _ listed
      generalize M.value c [] = val at enum' ⊢
      obtain ⟨s, y⟩ := val
      obtain rfl : s = .enumerated n (first :: ext) := enum'
      exact onto y
    obtain ⟨e, found, he, eq⟩ : ∃ e, (first :: ext).find? (fun name =>
        h.isTrue (.eq (.const c) (.const ⟨name, .first (.enumerated n (first :: ext))⟩)) []) = some e ∧ e ∈ first :: ext ∧
        M.value (enumConst n (first :: ext) e) [] = M.value c [] := by
      obtain ⟨e, he, eq⟩ := exists_equal
      cases found : (first :: ext).find? fun name =>
          h.isTrue (.eq (.const c) (.const ⟨name, .first (.enumerated n (first :: ext))⟩)) [] with
      | none => exact absurd ((equal e).mpr eq.symm) (List.find?_eq_none.mp found e he)
      | some e =>
        have here := List.find?_some found
        exact ⟨e, rfl, List.mem_of_find?_eq_some found, ((equal e).mp here).symm⟩
    simp only [found, Option.getD_some]
    constructor
    · intro same e' he' eq'
      rw [same, of.standard.inj n _ listed e' he' e he (eq'.trans eq.symm)]
      rfl
    · exact fun all => all e he eq
  · rename_i other
    rw [renders_other fun n ext enum => ?_, value]
    · rw [denote]
      rfl
    · refine Bool.of_not_eq_false fun encoded => ?_
      cases ext with
      | nil =>
        have listed := has.range
        rw [show c.sort.range = .enumerated n [] from enum] at listed
        exact voc.nonempty _ listed rfl
      | cons first ext => exact other n first ext enum encoded

omit of in
theorem placeholders_ne_nil {s : FSort} {dom : List FSort} {range : FSort} (sort : c.sort = .function (s :: dom) range) :
    symPlaceholders c ≠ [] := by
  intro none
  have sorts := symPlaceholders_sorts c
  rw [none, sort] at sorts
  contradiction

omit of in
/-- The arguments of a symbol are the values of its placeholders. -/
theorem forall_values {P : List (Val D) → Prop} {dom : List FSort} {range : FSort} (sort : c.sort = .function dom range) :
    (∀ env : Env D, P (env.values (symPlaceholders c))) ↔ ∀ xs : List (Val D), xs.map Sigma.fst = dom → P xs := by
  have sorts := symPlaceholders_sorts c
  rw [sort] at sorts
  constructor
  · intro all xs fits
    obtain ⟨env, rfl⟩ := exists_env (symPlaceholders_nodup c) (fits.trans sorts.symm)
    exact all env
  · intro all env
    refine all _ ?_
    rw [← show _ = dom from sorts, Env.values, List.map_map]
    rfl

/-- What the facts say of a structure. -/
theorem sat_modelFacts {cl : Clauses} (has : ∀ c ∈ cl.symbols, voc.Has c) :
    (h.modelFacts (fun _ => false) cl false).Sat N ↔ h.Describes voc M cl.symbols N := by
  have universes : (∀ s ∈ h.sorts, ∀ f ∈ h.modelUniverseFacts s false, f.Valid N) ↔ ∀ n ∈ voc.uninterpreted,
      (∀ y : El D' (.uninterpreted n), ∃ x : El D (.uninterpreted n), h.denote N ⟨_, x⟩ = ⟨_, y⟩) ∧
        ∀ x y : El D (.uninterpreted n), h.denote N ⟨_, x⟩ = h.denote N ⟨_, y⟩ → x = y := by
    constructor
    · exact fun all n hn => (of.universe_iff hn).mp (all _ ((of.sorts _).mpr ⟨n, hn, rfl⟩))
    · intro all s hs
      obtain ⟨n, hn, rfl⟩ := (of.sorts s).mp hs
      exact (of.universe_iff hn).mpr (all n hn)
  have constants : (∀ c ∈ cl.symbols, ∀ f ∈ h.constantFacts c, f.Valid N) ↔ ∀ c ∈ cl.symbols, ∀ s, c.sort = .first s →
      c.name ∉ h.sig.constructors → h.Renders M N (M.value c []) (N.value c []) := by
    refine forall₂_congr fun c hc => ?_
    rw [constantFacts]
    split
    · rename_i s sort
      split
      · rename_i constructor
        exact iff_of_true (by simp) fun _ _ other => absurd constructor other
      · rename_i other
        rw [List.forall_mem_singleton, of.constant_iff (has c hc) sort]
        exact ⟨fun renders _ _ _ => renders, fun all => all s sort other⟩
    · rename_i dom range sort
      refine iff_of_true (by simp) fun s first => ?_
      rw [sort] at first
      contradiction
  have relations : (∀ c ∈ cl.symbols, ∀ f ∈ h.relationFacts c, f.Valid N) ↔ ∀ c ∈ cl.symbols, ∀ dom, c.sort = .function dom .boolean →
      ∀ xs : List (Val D), xs.map Sigma.fst = dom → ((N.value c (xs.map (h.denote N))).Holds ↔ (M.value c xs).Holds) := by
    refine forall₂_congr fun c hc => ?_
    rw [relationFacts]
    split
    · rename_i s dom sort
      rw [of.relation_iff (has c hc) (placeholders_ne_nil sort),
        forall_values (P := fun xs => ((N.value c (xs.map (h.denote N))).Holds ↔ (M.value c xs).Holds)) sort]
      constructor
      · intro all dom' sort'
        obtain ⟨rfl, -⟩ := LSort.function.inj (sort.symm.trans sort')
        exact all
      · exact fun all => all _ sort
    · rename_i other
      refine iff_of_true (by simp) fun dom sort => ?_
      cases dom with
      | nil => exact absurd sort ((has c hc).args _)
      | cons s dom => exact absurd sort (other s dom)
  have functions : (∀ c ∈ cl.symbols, ∀ f ∈ h.functionFacts c, f.Valid N) ↔ ∀ c ∈ cl.symbols, ∀ dom range, c.sort = .function dom range →
      range ≠ .boolean → ∀ xs : List (Val D), xs.map Sigma.fst = dom → h.Renders M N (M.value c xs) (N.value c (xs.map (h.denote N))) := by
    refine forall₂_congr fun c hc => ?_
    rw [functionFacts]
    split
    · rename_i s dom sort
      refine iff_of_true (by simp) fun dom' range sort' other => ?_
      exact absurd (LSort.function.inj (sort.symm.trans sort')).2.symm other
    · rename_i s dom range other sort
      rw [of.function_iff (has c hc) (placeholders_ne_nil sort),
        forall_values (P := fun xs => h.Renders M N (M.value c xs) (N.value c (xs.map (h.denote N)))) sort]
      constructor
      · intro all dom' range' sort' _
        obtain ⟨rfl, -⟩ := LSort.function.inj (sort.symm.trans sort')
        exact all
      · exact fun all => all _ _ sort other
    · rename_i other
      refine iff_of_true (by simp) fun dom range sort => ?_
      cases dom with
      | nil => exact absurd sort ((has c hc).args _)
      | cons s dom => exact absurd sort (other s dom range)
  have facts : (h.modelFacts (fun _ => false) cl false).Sat N ↔ (∀ s ∈ h.sorts, ∀ f ∈ h.modelUniverseFacts s false, f.Valid N) ∧
      (∀ c ∈ cl.symbols, ∀ f ∈ h.constantFacts c, f.Valid N) ∧ (∀ c ∈ cl.symbols, ∀ f ∈ h.relationFacts c, f.Valid N) ∧
      ∀ c ∈ cl.symbols, ∀ f ∈ h.functionFacts c, f.Valid N := by
    rw [modelFacts, Clauses.sat_new]
    simp only [List.forall_mem_append, List.forall_mem_flatMap, List.mem_filter, Bool.not_false, and_true, List.mem_eraseDups, and_assoc,
      List.not_mem_nil, false_implies, implies_true]
  rw [facts, universes, constants, relations, functions]
  constructor
  · rintro ⟨univ, cons, rels, funs⟩
    exact ⟨fun n hn => (univ n hn).1, fun n hn => (univ n hn).2, cons, rels, funs⟩
  · rintro ⟨onto, inj, cons, rels, funs⟩
    exact ⟨fun n hn => ⟨onto n hn, inj n hn⟩, cons, rels, funs⟩

end HerbrandModel.Of

end Facts

end Goivy.Solver
