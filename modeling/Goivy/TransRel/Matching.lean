import Goivy.TransRel.Placeholder

/-! Argument lists that the arguments of an action match. -/
namespace Goivy

variable {D : Domain} {M : Structure D}

/-- The arguments give the first components of an argument list. -/
def MatchedBy (M : Structure D) (args : List Expr) (env : Env D) (vals : List (Val D)) : Prop :=
  evalList M args env <+: vals

def Matched (M : Structure D) (args : List Expr) (vals : List (Val D)) : Prop :=
  ∃ env, MatchedBy M args env vals

/-- The arguments that are variables. -/
def argVariables (args : List Expr) : List Variable :=
  args.filterMap fun t => match t with
    | .var v => some v
    | _ => none

/-- No variable occurs twice, and none in an argument that is no variable. -/
structure PlainArgs (args : List Expr) : Prop where
  distinct : ((argVariables args).map Variable.name).Nodup
  closed : ∀ t ∈ args, (∃ v, t = .var v) ∨ t.freeVariables = []

/-- `env` gives the argument variables the values of their placeholders under `phEnv`. -/
def Bound (phs : List Variable) (args : List Expr) (phEnv env : Env D) : Prop :=
  ∀ p ∈ phs.zip args, ∀ v, p.2 = .var v → (⟨v.sort, env v⟩ : Val D) = ⟨p.1.sort, phEnv p.1⟩

variable {phs : List Variable} {args : List Expr} {phEnv env : Env D} {ctx : List Variable}

theorem var_or_other (t : Expr) : (∃ v, t = .var v) ∨ ∀ v, t ≠ .var v := by
  cases t <;> simp

theorem matchConditions_other {t : Expr} (other : ∀ v, t ≠ .var v) (ph : Variable) :
    matchConditions (ph :: phs) (t :: args) = .eq (.var ph) t :: matchConditions phs args := by
  cases t <;> first | rfl | exact absurd rfl (other _)

theorem argVariables_other {t : Expr} (other : ∀ v, t ≠ .var v) :
    argVariables (t :: args) = argVariables args := by
  cases t <;> first | rfl | exact absurd rfl (other _)

theorem bound_cons {ph : Variable} {t : Expr} : Bound (ph :: phs) (t :: args) phEnv env ↔
    (∀ v, t = .var v → (⟨v.sort, env v⟩ : Val D) = ⟨ph.sort, phEnv ph⟩) ∧ Bound phs args phEnv env := by
  simp [Bound, List.zip_cons_cons]

/-- An argument list is matched where the conditions on the placeholders hold, by the values
of the placeholders. -/
theorem matchedBy_iff (closed : ∀ t ∈ args, (∃ v, t = .var v) ∨ t.freeVariables = [])
    (fits : args.length ≤ phs.length) : MatchedBy M args env (phEnv.values phs) ↔
      (∀ c ∈ matchConditions phs args, c.Holds M phEnv) ∧ Bound phs args phEnv env := by
  induction args generalizing phs with
  | nil => simp [MatchedBy, evalList, matchConditions, Bound]
  | cons t ts ih =>
    cases phs with
    | nil => simp at fits
    | cons ph phs =>
      rw [List.forall_mem_cons] at closed
      have rest := ih closed.2 (by simpa using fits)
      have head : MatchedBy M (t :: ts) env (phEnv.values (ph :: phs)) ↔
          t.eval M env = ⟨ph.sort, phEnv ph⟩ ∧ MatchedBy M ts env (phEnv.values phs) := by
        simp [MatchedBy, evalList, Env.values, List.cons_prefix_cons]
      rw [head, bound_cons, rest]
      rcases var_or_other t with ⟨v, rfl⟩ | other
      · have skipped : matchConditions (ph :: phs) (.var v :: ts) = matchConditions phs ts := rfl
        simp [skipped, Expr.eval, and_left_comm]
      · have none : t.freeVariables = [] := closed.1.resolve_left (not_exists.mpr other)
        have same : t.eval M env = t.eval M phEnv := Expr.eval_freeVariables M (by simp [none])
        rw [matchConditions_other other, List.forall_mem_cons, Expr.holds_eq, same, Expr.eval]
        have noVar : ∀ v, t = .var v → (⟨v.sort, env v⟩ : Val D) = ⟨ph.sort, phEnv ph⟩ :=
          fun v same => absurd same (other v)
        constructor
        · rintro ⟨h, conds, bound⟩
          exact ⟨⟨h.symm, conds⟩, noVar, bound⟩
        · rintro ⟨⟨h, conds⟩, _, bound⟩
          exact ⟨h.symm, conds, bound⟩

/-- Distinct variables can be bound to their placeholders. -/
theorem exists_bound (distinct : ((argVariables args).map Variable.name).Nodup)
    (sorts : HasSorts ctx args ((phs.map Variable.sort).take args.length)) (phEnv : Env D) :
    ∃ env, Bound phs args phEnv env := by
  induction args generalizing phs with
  | nil => exact ⟨phEnv, by simp [Bound]⟩
  | cons t ts ih =>
    cases phs with
    | nil => exact ⟨phEnv, by simp [Bound]⟩
    | cons ph phs =>
      simp only [List.map_cons, List.length_cons, List.take_succ_cons] at sorts
      rcases var_or_other t with ⟨v, rfl⟩ | other
      · have here : argVariables (.var v :: ts) = v :: argVariables ts := rfl
        rw [here, List.map_cons, List.nodup_cons] at distinct
        obtain ⟨env, bound⟩ := ih distinct.2 sorts.2
        obtain ⟨x, value⟩ : ∃ x : El D v.sort, (⟨v.sort, x⟩ : Val D) = ⟨ph.sort, phEnv ph⟩ := by
          rw [show v.sort = ph.sort from sorts.1.2]
          exact ⟨phEnv ph, rfl⟩
        refine ⟨Function.update env v x, bound_cons.mpr ⟨?_, ?_⟩⟩
        · rintro w same
          cases same
          rw [Function.update_self, value]
        · intro p mem w same
          have other : w ≠ v := by
            rintro rfl
            refine distinct.1 (List.mem_map_of_mem (List.mem_filterMap.mpr ⟨p.2, ?_, by rw [same]⟩))
            exact (List.of_mem_zip mem).2
          rw [Function.update_of_ne other]
          exact bound p mem w same
      · rw [argVariables_other other] at distinct
        obtain ⟨env, bound⟩ := ih distinct sorts.2
        exact ⟨env, bound_cons.mpr ⟨fun v same => absurd same (other v), bound⟩⟩

/-- A placeholder is found under the name of its variable. -/
theorem lookup_matchRenaming (distinct : ((argVariables args).map Variable.name).Nodup)
    (fits : args.length ≤ phs.length) {v : Variable} (mem : v ∈ argVariables args) :
    ∃ ph, (ph, Expr.var v) ∈ phs.zip args ∧ (matchRenaming phs args).lookup v.name = some ph := by
  have keys : (matchRenaming phs args).map Prod.fst = ((argVariables args).map Variable.name).reverse := by
    rw [matchRenaming, List.map_reverse]
    congr 1
    clear distinct mem
    induction args generalizing phs with
    | nil => simp [argVariables]
    | cons t ts ih =>
      cases phs with
      | nil => simp at fits
      | cons ph phs =>
        have rest := ih (by simpa using fits)
        cases t <;> simpa [argVariables] using rest
  obtain ⟨t, there, isVar⟩ := List.mem_filterMap.mp mem
  obtain rfl : t = .var v := by
    cases t <;> simp_all
  obtain ⟨i, bound, same⟩ := List.mem_iff_getElem.mp there
  have zipped : (phs.get ⟨i, by omega⟩, Expr.var v) ∈ phs.zip args := by
    refine List.mem_iff_getElem.mpr ⟨i, by simp; omega, ?_⟩
    rw [List.getElem_zip, same, List.get_eq_getElem]
  refine ⟨_, zipped, (InsMap.mem_iff_lookup ?_).mp ?_⟩
  · rw [keys]
    exact List.nodup_reverse.mpr distinct
  · rw [matchRenaming, List.mem_reverse]
    exact List.mem_filterMap.mpr ⟨_, zipped, rfl⟩

/-- The right-hand side over the placeholders has the value it has under the binding. -/
theorem Bound.stands (distinct : ((argVariables args).map Variable.name).Nodup)
    (fits : args.length ≤ phs.length) (bound : Bound phs args phEnv env) {e : Expr}
    (used : ∀ v ∈ e.usedVariables, v ∈ argVariables args) :
    Env.Stands M (matchRenaming phs args) e phEnv env := by
  intro v mem
  obtain ⟨ph, zipped, found⟩ := lookup_matchRenaming distinct fits (used v mem)
  rw [found, Option.getD_some, Expr.eval]
  exact bound _ zipped v rfl

end Goivy
