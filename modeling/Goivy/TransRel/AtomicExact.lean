import Goivy.TransRel.Matching
import Goivy.Module.Conditional

/-! Atomic updates change exactly the locations that they address. -/
namespace Goivy

variable {D : Domain}

/-- `M` with a meaning for the `new_` symbol of `c`. -/
def Structure.setNew (M : Structure D) (c : Const) (g : Args D c.sort.domain → El D c.sort.range) :
    Structure D :=
  Function.update M (actionNewName c.name) (Function.update (M (actionNewName c.name)) c.sort g)

theorem newActionConst_ne (c : Const) : c ≠ newActionConst c := by
  intro same
  have length := congrArg (fun c => c.name.length) same
  simp [newActionConst, actionNewName, String.length_append] at length

namespace Structure

variable {M : Structure D} {c d : Const} {g : Args D c.sort.domain → El D c.sort.range}

theorem setNew_other (h : d ≠ newActionConst c) : SameAt (M.setNew c g) M d := by
  rw [SameAt, setNew]
  by_cases name : d.name = actionNewName c.name
  · have sort : d.sort ≠ c.sort := fun sort => h (by cases d; cases c; simp_all [newActionConst])
    rw [name, Function.update_self, Function.update_of_ne sort]
  · rw [Function.update_of_ne name]

theorem value_new (vals : Args D c.sort.domain) :
    (M.setNew c g).value (newActionConst c) vals.1 = ⟨c.sort.range, g vals⟩ := by
  have fits : vals.1.map Sigma.fst = (newActionConst c).sort.domain := vals.2
  have there : M.setNew c g (newActionConst c).name (newActionConst c).sort = g := by
    show M.setNew c g (actionNewName c.name) c.sort = g
    rw [setNew, Function.update_self, Function.update_self]
  rw [value_eq _ fits, there]
  rfl

theorem value_old (vals : Args D c.sort.domain) :
    (M.setNew c g).value c vals.1 = ⟨c.sort.range, M c.name c.sort vals⟩ := by
  rw [(setNew_other (newActionConst_ne c)).value]
  exact value_eq M vals.2

theorem eval_setNew {e : Expr} (fresh : newActionConst c ∉ e.symbols) :
    e.eval (M.setNew c g) = e.eval M := by
  refine Expr.eval_congr fun d mem => setNew_other ?_
  rintro rfl
  exact fresh mem

end Structure

namespace Expr

theorem applyToNodes_spec {c : Const} {ts : List Expr} {e : Expr} (h : applyToNodes c ts = .some e)
    (M : Structure D) (env : Env D) : e.eval M env = M.value c (evalList M ts env) ∧
      e.symbols = c :: ts.flatMap symbols ∧ (e.isIndividual = false → c.sort.range = .boolean) := by
  unfold applyToNodes at h
  split at h
  · rename_i none
    cases h
    rw [List.isEmpty_iff.mp none]
    refine ⟨rfl, rfl, fun boolean => ?_⟩
    have sort : c.sort = .first .boolean := not_not.mp (of_decide_eq_false boolean)
    rw [sort]
    rfl
  · cases newApply_eq h
    refine ⟨rfl, by simp [symbols, symbolsList_eq_flatMap], fun boolean => ?_⟩
    simpa [isIndividual, nodeSort] using boolean

theorem evalList_placeholders (M : Structure D) (phs : List Variable) (env : Env D) :
    evalList M (phs.map .var) env = env.values phs := by
  rw [evalList_eq_map, List.map_map]
  rfl

theorem substituteAstByName_eq (e : Expr) (subs : List (String × Variable)) :
    e.substituteAstByName subs = e.substituteAst subs := by
  unfold substituteAstByName
  split
  · rename_i none
    rw [List.isEmpty_iff.mp none, substituteAst_nil]
  · rfl

theorem isDescription_substituteAst (e : Expr) (subs : List (String × Variable)) :
    (e.substituteAst subs).isDescription = e.isDescription := by
  cases e <;> simp only [substituteAst] <;> (try split) <;> rfl

theorem isDescription_of_hasSort {e : Expr} {ctx : List Variable} {s : FSort} (h : e.HasSort ctx s) :
    e.isDescription = false := by
  cases e <;> first | rfl | exact h.elim

end Expr

/-- A definition says that both sides have the same value. -/
theorem valid_definition {lhs rhs : Expr} {N : Structure D} {s : FSort}
    (plain : rhs.isDescription = false) (boolean : lhs.isIndividual = false → s = .boolean)
    (left : ∀ env, (lhs.eval N env).1 = s) (right : ∀ env, (rhs.eval N env).1 = s) :
    (⟨lhs, rhs⟩ : Definition).toConstraint.Valid N ↔ ∀ env, lhs.eval N env = rhs.eval N env := by
  rw [Clauses.toConstraint_of_not_description plain, constraintOf]
  refine forall_congr' fun env => ?_
  split
  · rw [Expr.holds_eq]
  · rename_i individual
    have sort := boolean (by simpa using individual)
    rw [Expr.holds_iff]
    exact ⟨Val.eq_of_holds_iff ((left env).trans sort) ((right env).trans sort), fun h => by
      rw [Expr.Holds, Expr.Holds, h]⟩

theorem applyToNodes_symPlaceholders (c : Const) :
    Expr.applyToNodes c ((symPlaceholders c).map .var) = some (symInst c) := by
  unfold Expr.applyToNodes symInst
  by_cases none : symPlaceholders c = []
  · simp [none]
  · simpa [none] using newApply_symPlaceholders none

theorem isIndividual_symInst {c : Const} (h : (symInst c).isIndividual = false) :
    c.sort.range = .boolean :=
  (Expr.applyToNodes_spec (applyToNodes_symPlaceholders c) (D := .unit) (fun _ s _ => .ofBool true s.range)
    fun v => .ofBool true v.sort).2.2 h

section Assign

variable {lhs rhs : Expr} {sym : Const} {u : Update} {ctx : List Variable}

/-- `mkAssignClauses` of arguments that are well-sorted and plain, and a well-sorted value
over their variables. -/
structure Assignable (ctx : List Variable) (sym : Const) (args : List Expr) (rhs : Expr) : Prop where
  plain : PlainArgs args
  argSorts : HasSorts ctx args sym.sort.domain
  rhsSort : rhs.HasSort ctx sym.sort.range
  used : ∀ v ∈ rhs.usedVariables, v ∈ argVariables args
  clear : rhs.CaptureFree (matchRenaming (symPlaceholders sym) args)

theorem HasSorts.length {ts : List Expr} {ss : List FSort} (h : HasSorts ctx ts ss) : ts.length = ss.length :=
  (hasSorts_iff.mp h).length_eq

theorem length_symPlaceholders (c : Const) : (symPlaceholders c).length = c.sort.domain.length := by
  simp [symPlaceholders]

namespace Assignable

variable {args : List Expr} (h : Assignable ctx sym args rhs) {N : Structure D} {w env : Env D}

include h

theorem fits : args.length ≤ (symPlaceholders sym).length :=
  (h.argSorts.length.trans (length_symPlaceholders sym).symm).le

theorem exists_bound (w : Env D) : ∃ env, Bound (symPlaceholders sym) args w env := by
  refine Goivy.exists_bound h.plain.distinct (show HasSorts ctx args _ from ?_) w
  rw [symPlaceholders_sorts, h.argSorts.length, List.take_length]
  exact h.argSorts

theorem eval_rhs (bound : Bound (symPlaceholders sym) args w env) :
    (rhs.substituteAst (matchRenaming (symPlaceholders sym) args)).eval N w = rhs.eval N env :=
  Expr.eval_substituteAst h.rhsSort h.clear (bound.stands h.plain.distinct h.fits h.used)

end Assignable

/-- The relation of an assignment: the value at the matched argument lists, and the old
function at the others. -/
theorem mkAssignClauses_spec (head : lhs.constSym = some sym) (made : mkAssignClauses lhs rhs = some u)
    (h : Assignable ctx sym lhs.nodeArgs rhs) (N : Structure D) :
    u.modified = [sym] ∧ u.modifiedAll = false ∧ u.pre = .fls ∧
    (u.tr.Sat N ↔ ∀ vals : List (Val D), vals.map Sigma.fst = sym.sort.domain →
      (∀ env, MatchedBy N lhs.nodeArgs env vals → N.value (newActionConst sym) vals = rhs.eval N env) ∧
        (¬ Matched N lhs.nodeArgs vals → N.value (newActionConst sym) vals = N.value sym vals)) := by
  have newInst : Expr.applyToNodes (newActionConst sym) ((symPlaceholders sym).map .var) =
      some (symInst (newActionConst sym)) := applyToNodes_symPlaceholders (newActionConst sym)
  obtain ⟨drhs, value, plain, rfl⟩ : ∃ drhs : Expr, (∀ w env : Env D,
      Bound (symPlaceholders sym) lhs.nodeArgs w env →
        ((∀ c ∈ matchConditions (symPlaceholders sym) lhs.nodeArgs, c.Holds N w) →
          drhs.eval N w = rhs.eval N env) ∧
        ((¬ ∀ c ∈ matchConditions (symPlaceholders sym) lhs.nodeArgs, c.Holds N w) →
          drhs.eval N w = N.value sym (w.values (symPlaceholders sym)))) ∧
      drhs.isDescription = false ∧
      u = ⟨[sym], false, .new [] [⟨symInst (newActionConst sym), drhs⟩], .fls⟩ := by
    simp only [mkAssignClauses, head, newInst, applyToNodes_symPlaceholders,
      Expr.substituteAstByName_eq, Option.bind_eq_bind, Option.bind_some] at made
    split at made
    · rename_i none
      cases made
      refine ⟨_, fun w env bound => ⟨fun _ => h.eval_rhs bound, fun fails => ?_⟩, ?_, rfl⟩
      · exact absurd (by simp [List.isEmpty_iff.mp none]) fails
      · rw [Expr.isDescription_substituteAst, Expr.isDescription_of_hasSort h.rhsSort]
    · cases made
      refine ⟨_, fun w env bound => ⟨fun conds => ?_, fun fails => ?_⟩, rfl, rfl⟩
      · rw [Expr.eval_ite_pos _ _ _ _ ((Expr.holds_and _ _ _).mpr conds), h.eval_rhs bound]
      · rw [Expr.eval_ite_neg _ _ _ _ fun conds => fails ((Expr.holds_and _ _ _).mp conds), eval_symInst]
  have sorts : ∀ w : Env D, (drhs.eval N w).1 = sym.sort.range := by
    intro w
    obtain ⟨env, bound⟩ := h.exists_bound w
    by_cases conds : ∀ c ∈ matchConditions (symPlaceholders sym) lhs.nodeArgs, c.Holds N w
    · rw [(value w env bound).1 conds, Expr.sort_eval_of_hasSort N h.rhsSort]
    · rw [(value w env bound).2 conds]
      rfl
  have left : ∀ w : Env D, (symInst (newActionConst sym)).eval N w =
      N.value (newActionConst sym) (w.values (symPlaceholders sym)) := fun w => eval_symInst N _ w
  refine ⟨rfl, rfl, rfl, ?_⟩
  rw [Clauses.sat_new]
  simp only [List.not_mem_nil, false_imp_iff, implies_true, true_and, List.forall_mem_singleton]
  have boolean : (symInst (newActionConst sym)).isIndividual = false → sym.sort.range = .boolean :=
    isIndividual_symInst
  rw [valid_definition plain boolean (fun w => by rw [left]; rfl) sorts]
  simp only [left]
  constructor
  · intro defined vals fits
    obtain ⟨w, rfl⟩ := exists_env (symPlaceholders_nodup sym) (fits.trans (symPlaceholders_sorts sym).symm)
    rw [defined w]
    refine ⟨fun env matched => ?_, fun unmatched => ?_⟩
    · obtain ⟨conds, bound⟩ := (matchedBy_iff h.plain.closed h.fits).mp matched
      exact (value w env bound).1 conds
    · obtain ⟨env, bound⟩ := h.exists_bound w
      refine (value w env bound).2 fun conds => unmatched ⟨env, ?_⟩
      exact (matchedBy_iff h.plain.closed h.fits).mpr ⟨conds, bound⟩
  · intro spec w
    obtain ⟨env, bound⟩ := h.exists_bound w
    have fits : (w.values (symPlaceholders sym)).map Sigma.fst = sym.sort.domain := by
      rw [← symPlaceholders_sorts sym, Env.values, List.map_map]
      rfl
    by_cases conds : ∀ c ∈ matchConditions (symPlaceholders sym) lhs.nodeArgs, c.Holds N w
    · rw [(value w env bound).1 conds]
      exact (spec _ fits).1 env ((matchedBy_iff h.plain.closed h.fits).mpr ⟨conds, bound⟩)
    · rw [(value w env bound).2 conds]
      refine (spec _ fits).2 ?_
      rintro ⟨other, matched⟩
      exact conds ((matchedBy_iff h.plain.closed h.fits).mp matched).1

end Assign

/-- The meanings of the modified symbol that the transition relation allows after `s`. -/
def Update.Allows (u : Update) (c : Const) (s : Structure D) (g : Args D c.sort.domain → El D c.sort.range) :
    Prop :=
  u.tr.Sat (s.setNew c g)

/-- `c` is changed to the value of `rhs` at the matched argument lists, and nowhere else. -/
def AssignsExactly (s : Structure D) (c : Const) (args : List Expr) (rhs : Expr)
    (g : Args D c.sort.domain → El D c.sort.range) : Prop :=
  ∀ vals : Args D c.sort.domain,
    (∀ env, MatchedBy s args env vals.1 → (⟨c.sort.range, g vals⟩ : Val D) = rhs.eval s env) ∧
      (¬ Matched s args vals.1 → g vals = s c.name c.sort vals)

section Exact

variable {s : Structure D} {c : Const} {args : List Expr} {g : Args D c.sort.domain → El D c.sort.range}

theorem matches_setNew (fresh : ∀ t ∈ args, newActionConst c ∉ t.symbols) (env : Env D)
    (vals : List (Val D)) : MatchedBy (s.setNew c g) args env vals ↔ MatchedBy s args env vals := by
  have same : args.map (fun t => t.eval (s.setNew c g) env) = args.map (fun t => t.eval s env) :=
    List.map_congr_left fun t mem => by rw [Structure.eval_setNew (fresh t mem)]
  rw [MatchedBy, MatchedBy, evalList_eq_map, evalList_eq_map, same]

theorem matched_setNew (fresh : ∀ t ∈ args, newActionConst c ∉ t.symbols) (vals : List (Val D)) :
    Matched (s.setNew c g) args vals ↔ Matched s args vals :=
  exists_congr fun env => matches_setNew fresh env vals

theorem Val.eq_of_sigma {t : FSort} {x y : El D t} (h : (⟨t, x⟩ : Val D) = ⟨t, y⟩) : x = y :=
  eq_of_heq (Sigma.mk.inj h).2

/-- An assignment allows exactly the meaning that changes the matched argument lists. -/
theorem mkAssignClauses_exact {lhs rhs : Expr} {u : Update} {ctx : List Variable}
    (head : lhs.constSym = some c) (made : mkAssignClauses lhs rhs = some u)
    (h : Assignable ctx c lhs.nodeArgs rhs)
    (freshArgs : ∀ t ∈ lhs.nodeArgs, newActionConst c ∉ t.symbols) (freshRhs : newActionConst c ∉ rhs.symbols) :
    u.Allows c s g ↔ AssignsExactly s c lhs.nodeArgs rhs g := by
  rw [Update.Allows, (mkAssignClauses_spec head made h _).2.2.2, Structure.eval_setNew freshRhs]
  constructor
  · intro spec vals
    obtain ⟨here, elsewhere⟩ := spec vals.1 vals.2
    rw [Structure.value_new] at here elsewhere
    refine ⟨fun env matched => ?_, fun unmatched => ?_⟩
    · exact here env ((matches_setNew freshArgs env _).mpr matched)
    · rw [Structure.value_old] at elsewhere
      exact Val.eq_of_sigma (elsewhere fun matched => unmatched ((matched_setNew freshArgs _).mp matched))
  · intro exact vals fits
    obtain ⟨here, elsewhere⟩ := exact ⟨vals, fits⟩
    rw [Structure.value_new ⟨vals, fits⟩]
    refine ⟨fun env matched => ?_, fun unmatched => ?_⟩
    · exact here env ((matches_setNew freshArgs env _).mp matched)
    · rw [Structure.value_old ⟨vals, fits⟩,
        elsewhere fun matched => unmatched ((matched_setNew freshArgs _).mpr matched)]

/-- There is one such meaning. -/
theorem Assignable.existsUnique {rhs : Expr} {ctx : List Variable} (h : Assignable ctx c args rhs) :
    ∃! g, AssignsExactly s c args rhs g := by
  have location : ∀ vals : Args D c.sort.domain, ∃ x : El D c.sort.range,
      (∀ env, MatchedBy s args env vals.1 → (⟨c.sort.range, x⟩ : Val D) = rhs.eval s env) ∧
        (¬ Matched s args vals.1 → x = s c.name c.sort vals) := by
    rintro ⟨vals, fits⟩
    obtain ⟨w, rfl⟩ := exists_env (symPlaceholders_nodup c) (fits.trans (symPlaceholders_sorts c).symm)
    by_cases matched : Matched s args (w.values (symPlaceholders c))
    · obtain ⟨env, this⟩ := matched
      obtain ⟨x, value⟩ : ∃ x : El D c.sort.range, (⟨c.sort.range, x⟩ : Val D) = rhs.eval s env :=
        ⟨cast (congrArg (El D) (Expr.sort_eval_of_hasSort s h.rhsSort env)) (rhs.eval s env).2,
          Sigma.ext (Expr.sort_eval_of_hasSort s h.rhsSort env).symm (cast_heq _ _)⟩
      refine ⟨x, fun other that => value.trans ?_, fun unmatched => absurd ⟨env, this⟩ unmatched⟩
      have bound := ((matchedBy_iff h.plain.closed h.fits).mp this).2
      have bound' := ((matchedBy_iff h.plain.closed h.fits).mp that).2
      exact (h.eval_rhs bound).symm.trans (h.eval_rhs bound')
    · exact ⟨_, fun env this => absurd ⟨env, this⟩ matched, fun _ => rfl⟩
  choose g exact using location
  refine ⟨g, exact, fun g' exact' => funext fun vals => ?_⟩
  by_cases matched : Matched s args vals.1
  · obtain ⟨env, this⟩ := matched
    exact Val.eq_of_sigma (((exact' vals).1 env this).trans ((exact vals).1 env this).symm)
  · exact ((exact' vals).2 matched).trans ((exact vals).2 matched).symm

end Exact

end Goivy
