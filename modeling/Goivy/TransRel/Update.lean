import Goivy.Module.Disjunction

/-! Updates: the symbols an action modifies, its transition relation over the
unprimed and the `new_` symbols, and the condition under which it fails. -/
namespace Goivy

namespace Clauses

/-- The skolems that `RenameDistinctClauses` renames. Global skolems are constants
over time, so they keep their names. -/
def localSkolems (cl : Clauses) : List Const :=
  cl.symbols.eraseDups.filter (fun c => isSkolem c.name && !isGlobalSkolem c.name)

def distinctRenaming (c₁ c₂ : Clauses) : Renaming :=
  ((⟨"", c₂.usedSymbolNames⟩ : UniqueRenamer).renameSymbols c₁.localSkolems).1

/-- `RenameDistinctClauses`. -/
def renameDistinct (c₁ c₂ : Clauses) : Clauses :=
  if c₁.localSkolems.isEmpty then c₁ else c₁.rename (distinctRenaming c₁ c₂)

/-- `ConjoinClauses`. -/
def conjoin (c₁ c₂ : Clauses) : Clauses := and [c₁, c₂.renameDistinct c₁]

/-- `ExistQuantClauses`. -/
def existQuant (syms : List Const) (cl : Clauses) : Renaming × Clauses :=
  if syms.isEmpty then ([], cl)
  else
    let ρ := ((⟨"__", cl.usedSymbolNames⟩ : UniqueRenamer).renameSymbols syms).1
    (ρ, cl.rename ρ)

end Clauses

structure Update where
  modified : List Const
  modifiedAll : Bool
  tr : Clauses
  pre : Clauses

/-- `SymPlaceholders`. -/
def symPlaceholders (c : Const) : List Variable :=
  c.sort.domain.mapIdx (fun i s => ⟨"V" ++ toString i, s⟩)

/-- `SymInst`. -/
def symInst (c : Const) : Expr :=
  if (symPlaceholders c).isEmpty then .const c
  else .apply c ((symPlaceholders c).map .var)

/-- `FrameDefConst`. -/
def frameDef (op : Const → Const) (c : Const) : Definition := ⟨symInst (op c), symInst c⟩

/-- `DiffFrameConst`: frame definitions for the symbols of the second list, unless
the first one or a definition among the axioms has them. -/
def diffFrameConst (updated₁ updated₂ : List Const) (op : Const → Const) (axioms : Clauses) :
    Clauses :=
  .new [] ((updated₂.filter (fun c => c ∉ updated₁ ∧
    .const c ∉ axioms.defs.map Definition.defines)).map (frameDef op))

/-- `DiffFrameConstUpdate`. -/
def diffFrame (u₁ u₂ : Update) (op : Const → Const) (axioms : Clauses) : Clauses :=
  if u₁.modifiedAll || u₂.modifiedAll then .tru
  else diffFrameConst u₁.modified u₂.modified op axioms

/-- `UpdatedJoinConst`. -/
def updatedJoin (u₁ u₂ : List Const) : List Const := (u₁ ++ u₂).eraseDups

theorem mem_updatedJoin {u₁ u₂ : List Const} {c : Const} :
    c ∈ updatedJoin u₁ u₂ ↔ c ∈ u₁ ∨ c ∈ u₂ := by
  simp [updatedJoin, List.mem_eraseDups]

/-- `NewApply` accepts the placeholders. -/
theorem newApply_symPlaceholders {c : Const} (h : symPlaceholders c ≠ []) :
    Expr.newApply c ((symPlaceholders c).map .var) =
      some (.apply c ((symPlaceholders c).map .var)) := by
  obtain ⟨n, s⟩ := c
  cases s with
  | first s => simp [symPlaceholders, LSort.domain] at h
  | function dom r =>
    have fits : ∀ p ∈ dom.zip ((symPlaceholders ⟨n, .function dom r⟩).map Expr.var),
        argumentFits p.1 p.2 = true := by
      intro p hp
      obtain ⟨i, hi, rfl⟩ := List.mem_iff_getElem.mp hp
      simp [symPlaceholders, LSort.domain, argumentFits, Expr.nodeSort]
    have len : dom.length = (symPlaceholders ⟨n, .function dom r⟩).length := by
      simp [symPlaceholders, LSort.domain]
    simp only [Expr.newApply, List.length_map, ← len, true_and]
    rw [if_pos (List.all_eq_true.mpr fits)]

variable {D : Domain}

/-- The value of each variable of a list. -/
def Env.values (env : Env D) (vs : List Variable) : List (Val D) :=
  vs.map (fun v => ⟨v.sort, env v⟩)

/-- Distinct variables can have any values of their sorts. -/
theorem exists_env {vs : List Variable} (distinct : vs.Nodup) {vals : List (Val D)}
    (fits : vals.map Sigma.fst = vs.map Variable.sort) : ∃ env : Env D, env.values vs = vals := by
  induction vs generalizing vals with
  | nil =>
    obtain rfl : vals = [] := List.map_eq_nil_iff.mp fits
    exact ⟨Classical.arbitrary _, rfl⟩
  | cons v vs ih =>
    cases vals with
    | nil => simp at fits
    | cons val vals =>
      obtain ⟨s, x⟩ := val
      rw [List.map_cons, List.map_cons, List.cons.injEq] at fits
      obtain ⟨rfl, fits⟩ := fits
      rw [List.nodup_cons] at distinct
      obtain ⟨env, henv⟩ := ih distinct.2 fits
      refine ⟨Function.update env v x, ?_⟩
      have rest : Env.values (Function.update env v x) vs = env.values vs :=
        List.map_congr_left fun w hw => by
          rw [Function.update_of_ne (by rintro rfl; exact distinct.1 hw)]
      rw [Env.values, List.map_cons, Function.update_self]
      exact congrArg _ (rest.trans henv)

theorem symPlaceholders_nodup (c : Const) : (symPlaceholders c).Nodup := by
  refine List.pairwise_iff_getElem.mpr fun i j hi hj lt same => ?_
  simp only [symPlaceholders, List.getElem_mapIdx, Variable.mk.injEq] at same
  exact lt.ne (Nat.repr_injective ((String.append_right_inj _).mp same.1))

theorem symPlaceholders_sorts (c : Const) :
    (symPlaceholders c).map Variable.sort = c.sort.domain :=
  List.ext_getElem (by simp [symPlaceholders]) (by simp [symPlaceholders])

theorem eval_symInst (M : Structure D) (c : Const) (env : Env D) :
    (symInst c).eval M env = M.value c (env.values (symPlaceholders c)) := by
  unfold symInst
  split
  · rename_i h
    rw [List.isEmpty_iff] at h
    rw [Expr.eval, h]
    rfl
  · rw [Expr.eval, evalList_eq_map, List.map_map]
    rfl

/-- Boolean values with the same truth are equal. -/
theorem Val.eq_of_holds_iff {v w : Val D} (hv : v.1 = .boolean) (hw : w.1 = .boolean)
    (h : v.Holds ↔ w.Holds) : v = w := by
  obtain ⟨s, b⟩ := v
  obtain ⟨t, c⟩ := w
  obtain rfl : s = .boolean := hv
  obtain rfl : t = .boolean := hw
  change Bool at b c
  have holds : ∀ b : Bool, Val.Holds (⟨.boolean, b⟩ : Val D) ↔ b = true := fun b =>
    ⟨fun h => eq_of_heq (Sigma.mk.inj h).2, fun h => congrArg (Sigma.mk FSort.boolean) h⟩
  have : b = true ↔ c = true := (holds b).symm.trans (h.trans (holds c))
  rw [Bool.eq_iff_iff.mpr this]

/-- A definition of one symbol by another of its sort says that they are the same. -/
theorem valid_symInst_eq {M : Structure D} {n m : String} {s : LSort} :
    (⟨symInst ⟨n, s⟩, symInst ⟨m, s⟩⟩ : Definition).toConstraint.Valid M ↔ M n s = M m s := by
  have constraint : (⟨symInst ⟨n, s⟩, symInst ⟨m, s⟩⟩ : Definition).toConstraint =
      constraintOf (symInst ⟨n, s⟩) (symInst ⟨m, s⟩) := by
    obtain h | ⟨ts, h⟩ : symInst ⟨m, s⟩ = .const ⟨m, s⟩ ∨ ∃ ts, symInst ⟨m, s⟩ = .apply ⟨m, s⟩ ts := by
      unfold symInst
      split <;> simp
    · rw [h]
      rfl
    · rw [h]
      rfl
  have same : symPlaceholders ⟨m, s⟩ = symPlaceholders ⟨n, s⟩ := rfl
  have values : (⟨symInst ⟨n, s⟩, symInst ⟨m, s⟩⟩ : Definition).toConstraint.Valid M ↔
      ∀ env : Env D, M.value ⟨n, s⟩ (env.values (symPlaceholders ⟨n, s⟩)) =
        M.value ⟨m, s⟩ (env.values (symPlaceholders ⟨n, s⟩)) := by
    rw [constraint, constraintOf]
    refine forall_congr' fun env => ?_
    split
    · rw [Expr.holds_eq, eval_symInst, eval_symInst, same]
    · rename_i boolean
      have range : s.range = .boolean := by
        simp only [Expr.isIndividual, decide_eq_true_eq, not_not, ne_eq] at boolean
        unfold symInst at boolean
        split at boolean
        · simp only [Expr.nodeSort] at boolean
          rw [boolean]
          rfl
        · simpa [Expr.nodeSort] using boolean
      rw [Expr.holds_iff, Expr.Holds, Expr.Holds, eval_symInst, eval_symInst, same]
      exact ⟨Val.eq_of_holds_iff range range, fun h => by rw [h]⟩
  rw [values]
  constructor
  · intro h
    funext args
    obtain ⟨vals, fits⟩ := args
    obtain ⟨env, rfl⟩ := exists_env (symPlaceholders_nodup ⟨n, s⟩)
      (fits.trans (symPlaceholders_sorts ⟨n, s⟩).symm)
    have := h env
    rw [Structure.value_eq M fits, Structure.value_eq M fits] at this
    exact eq_of_heq (Sigma.mk.inj this).2
  · intro h env
    simp only [Structure.value, h]

/-- The frame says that `op` of a symbol is the symbol, for the symbols it is about. -/
theorem sat_diffFrame {M : Structure D} {u₁ u₂ : Update} {axioms : Clauses}
    (notAll₁ : u₁.modifiedAll = false) (notAll₂ : u₂.modifiedAll = false) :
    (diffFrame u₁ u₂ newActionConst axioms).Sat M ↔ ∀ c ∈ u₂.modified, c ∉ u₁.modified →
      .const c ∉ axioms.defs.map Definition.defines →
        M (actionNewName c.name) c.sort = M c.name c.sort := by
  have valid : ∀ c : Const, (frameDef newActionConst c).toConstraint.Valid M ↔
      M (actionNewName c.name) c.sort = M c.name c.sort := fun c => valid_symInst_eq
  simp only [diffFrame, notAll₁, notAll₂, Bool.or_self, Bool.false_eq_true, if_false,
    diffFrameConst, Clauses.sat_new, List.forall_mem_map, List.mem_filter, decide_eq_true_eq, valid]
  simp only [List.not_mem_nil, false_imp_iff, implies_true, true_and, and_imp]

end Goivy
