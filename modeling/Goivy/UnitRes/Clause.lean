import Goivy.UnitRes.Literal

/-! What canonical names, subsumption and simplification do to the meaning of literals
and clauses. -/
namespace Goivy

variable {D : Domain} {M : Structure D}

/-- Canonical variables for the variables of the first positions, each with the number
of a position. -/
structure CanonicalNames (base : String) (i : Nat) (σ : ResolutionEnv) : Prop where
  entries : ∀ x t, (x, t) ∈ σ →
    ∃ v : Variable, ∃ j, x = .var v ∧ t = .var ⟨base ++ toString j, v.sort⟩ ∧ j < i
  distinct : ∀ x y t, (x, t) ∈ σ → (y, t) ∈ σ → x = y

theorem CanonicalNames.later {base : String} {i j : Nat} {σ : ResolutionEnv}
    (names : CanonicalNames base i σ) (le : i ≤ j) : CanonicalNames base j σ where
  entries x t h := by
    obtain ⟨v, k, hx, ht, hk⟩ := names.entries x t h
    exact ⟨v, k, hx, ht, hk.trans_le le⟩
  distinct := names.distinct

theorem CanonicalNames.cons {base : String} {i : Nat} {σ : ResolutionEnv}
    (names : CanonicalNames base i σ) (v : Variable) :
    CanonicalNames base (i + 1) ((.var v, .var ⟨base ++ toString i, v.sort⟩) :: σ) := by
  have unused : ∀ x, (x, Expr.var ⟨base ++ toString i, v.sort⟩) ∉ σ := by
    intro x h
    obtain ⟨w, j, -, eq, lt⟩ := names.entries x _ h
    have same : toString i = toString j :=
      (String.append_right_inj _).mp (congrArg Variable.name (Expr.var.inj eq))
    have := Nat.repr_injective same
    omega
  constructor
  · intro x t h
    obtain h | h := List.mem_cons.mp h
    · cases h
      exact ⟨v, i, rfl, rfl, Nat.lt_succ_self i⟩
    · exact (names.later (Nat.le_succ i)).entries x t h
  · intro x y t hx hy
    obtain hx | hx := List.mem_cons.mp hx
    · cases hx
      obtain hy | hy := List.mem_cons.mp hy
      · cases hy
        rfl
      · exact absurd hy (unused y)
    · obtain hy | hy := List.mem_cons.mp hy
      · cases hy
        exact absurd hx (unused x)
      · exact names.distinct x y t hx hy

theorem CanonicalNames.sortPreserving {base : String} {i : Nat} {σ : ResolutionEnv}
    (names : CanonicalNames base i σ) : SortPreserving σ := by
  intro v t h
  obtain ⟨w, j, hv, rfl, -⟩ := names.entries _ _ (lookup_env_mem h)
  cases hv
  exact ⟨.var _, rfl⟩

/-- The map back from the canonical variables. -/
def canonicalInverse (σ : ResolutionEnv) : ResolutionEnv := σ.map (fun p => (p.2, p.1))

theorem CanonicalNames.lookup_inverse {base : String} {i : Nat} {σ : ResolutionEnv}
    (names : CanonicalNames base i σ) {x t : Expr} (h : (x, t) ∈ σ) :
    (canonicalInverse σ).lookup t = some x := by
  cases found : (canonicalInverse σ).lookup t with
  | none =>
    have : (t, x) ∈ canonicalInverse σ := List.mem_map.mpr ⟨(x, t), h, rfl⟩
    rw [List.lookup_eq_none_iff] at found
    exact absurd (found _ this) (by simp)
  | some y =>
    obtain ⟨p, hp, eq⟩ := List.mem_map.mp (lookup_env_mem found)
    cases eq
    exact congrArg some (names.distinct _ _ _ hp h)

theorem CanonicalNames.inverse_sortPreserving {base : String} {i : Nat} {σ : ResolutionEnv}
    (names : CanonicalNames base i σ) : SortPreserving (canonicalInverse σ) := by
  intro w x h
  obtain ⟨p, hp, eq⟩ := List.mem_map.mp (lookup_env_mem h)
  obtain ⟨v, j, hx, ht, -⟩ := names.entries p.1 p.2 hp
  obtain ⟨hw, rfl⟩ := Prod.mk.inj eq
  obtain rfl := Expr.var.inj (hw.symm.trans ht)
  rw [hx]
  exact ⟨.var v, rfl⟩

/-- The loop renames all arguments by one map, from the old variables to canonical ones. -/
theorem canonizeTerms_spec (base : String) (i : Nat) (subs : ResolutionEnv) (ts : List Expr)
    (names : CanonicalNames base i subs) : ∃ σ, CanonicalNames base (i + ts.length) σ ∧
      (∀ x t, subs.lookup x = some t → σ.lookup x = some t) ∧
      (∀ v, Expr.var v ∈ ts → ∃ t, σ.lookup (.var v) = some t) ∧
      canonizeTerms base i subs ts = ts.map (substTerm σ) := by
  induction ts generalizing i subs with
  | nil => exact ⟨subs, names, fun _ _ h => h, by simp, rfl⟩
  | cons t ts ih =>
    have length : i + (t :: ts).length = i + 1 + ts.length := by
      simp only [List.length_cons]; omega
    rw [length]
    cases t with
    | var v =>
      cases found : subs.lookup (.var v) with
      | some w =>
        obtain ⟨σ, namesσ, extends_, bound, result⟩ := ih (i + 1) subs (names.later (Nat.le_succ i))
        have here := extends_ _ _ found
        refine ⟨σ, namesσ, extends_, fun x hx => ?_, ?_⟩
        · obtain hx | hx := List.mem_cons.mp hx
          · cases hx
            exact ⟨w, here⟩
          · exact bound x hx
        · simp only [canonizeTerms, found, result, List.map_cons, substTerm, isVar_var, if_true, here,
            Option.getD_some]
      | none =>
        obtain ⟨σ, namesσ, extends_, bound, result⟩ := ih (i + 1) _ (names.cons v)
        have here : σ.lookup (.var v) = some (.var ⟨base ++ toString i, v.sort⟩) :=
          extends_ _ _ (by rw [InsMap.lookup_cons, if_pos rfl])
        refine ⟨σ, namesσ, fun x t h => extends_ x t ?_, fun x hx => ?_, ?_⟩
        · rw [InsMap.lookup_cons, if_neg, h]
          intro same
          rw [same, found] at h
          cases h
        · obtain hx | hx := List.mem_cons.mp hx
          · cases hx
            exact ⟨_, here⟩
          · exact bound x hx
        · simp only [canonizeTerms, found, result, List.map_cons, substTerm, isVar_var, if_true, here,
            Option.getD_some]
    | _ =>
      obtain ⟨σ, namesσ, extends_, bound, result⟩ := ih (i + 1) subs (names.later (Nat.le_succ i))
      refine ⟨σ, namesσ, extends_, fun x hx => bound x (by simpa using hx), ?_⟩
      simp only [canonizeTerms, result, List.map_cons, substTerm, isVar, Bool.false_eq_true, if_false]

theorem UnitResClause.valid_unit {l : UnitResLiteral} :
    UnitResClause.Valid M [l] ↔ ∀ env : Env D, l.Holds M env := by
  simp [UnitResClause.Valid]

/-- Instances of a valid unit clause are valid. -/
theorem valid_substitute {l : UnitResLiteral} (sorted : l.Sorted) {σ : ResolutionEnv}
    (preserving : SortPreserving σ) (valid : UnitResClause.Valid M [l]) :
    UnitResClause.Valid M [l.substitute σ] := by
  rw [UnitResClause.valid_unit] at valid ⊢
  exact fun env => (UnitResLiteral.holds_substitute sorted preserving).mpr (valid _)

theorem canonizeLiteral_spec (base : String) {l : UnitResLiteral} (sorted : l.Sorted) :
    (canonizeLiteral base l).Sorted ∧
      (UnitResClause.Valid M [canonizeLiteral base l] ↔ UnitResClause.Valid M [l]) := by
  obtain ⟨σ, names, -, bound, result⟩ := canonizeTerms_spec base 0 [] l.atom.args
    ⟨fun _ _ h => absurd h List.not_mem_nil, fun _ _ _ h => absurd h List.not_mem_nil⟩
  have renamed : canonizeLiteral base l = l.substitute σ := by
    rw [canonizeLiteral, result]
    rfl
  have sorted' : (l.substitute σ).Sorted := sorted.substitute names.sortPreserving
  rw [renamed]
  refine ⟨sorted', fun valid => ?_, valid_substitute sorted names.sortPreserving⟩
  have back : (l.substitute σ).substitute (canonicalInverse σ) = l := by
    have args : (l.atom.args.map (substTerm σ)).map (substTerm (canonicalInverse σ)) =
        l.atom.args := by
      rw [List.map_map]
      refine (List.map_congr_left fun t ht => ?_).trans (List.map_id _)
      cases sorted.terms t ht with
      | var v =>
        obtain ⟨w, hw⟩ := bound v ht
        have inverse := names.lookup_inverse (lookup_env_mem hw)
        obtain ⟨_, j, _, rfl, _⟩ := names.entries _ _ (lookup_env_mem hw)
        simp only [Function.comp, substTerm, isVar_var, if_true, hw, Option.getD_some, inverse, id]
      | const n s => rfl
    exact congrArg (l.withArgs) args
  have := valid_substitute sorted' names.inverse_sortPreserving valid
  rwa [back] at this

/-- Matching of terms of the same sorts is substitution. -/
theorem termsSubsume_spec {ts us : List Expr} {env σ : ResolutionEnv} (preserving : SortPreserving env)
    (terms1 : ∀ t ∈ ts, t.IsTerm) (terms2 : ∀ u ∈ us, u.IsTerm)
    (sorts : ts.map Expr.nodeSort = us.map Expr.nodeSort)
    (h : termsSubsume ts us env = some σ) :
    SortPreserving σ ∧ (∀ x t, env.lookup x = some t → σ.lookup x = some t) ∧
      us = ts.map (substTerm σ) := by
  induction ts generalizing us env with
  | nil =>
    cases us with
    | nil =>
      cases h
      exact ⟨preserving, fun _ _ h => h, rfl⟩
    | cons u us => cases h
  | cons t ts ih =>
    cases us with
    | nil => cases h
    | cons u us =>
      rw [List.forall_mem_cons] at terms1 terms2
      rw [List.map_cons, List.map_cons, List.cons.injEq] at sorts
      rw [termsSubsume, Option.bind_eq_some_iff] at h
      obtain ⟨env', first, rest⟩ := h
      -- the map after the first position, which sends its term to the other one
      have head : SortPreserving env' ∧ (∀ x t, env.lookup x = some t → env'.lookup x = some t) ∧
          (isVar t = true → env'.lookup t = some u) ∧ (isVar t = false → u = t) := by
        cases terms1.1 with
        | var v =>
          simp only [termSubsume, isConst_var, Bool.false_eq_true, if_false] at first
          cases found : env.lookup (.var v) with
          | some prev =>
            simp only [found] at first
            split at first
            · rename_i same
              cases first
              exact ⟨preserving, fun _ _ h => h, fun _ => same ▸ found, fun h => absurd h (by simp)⟩
            · cases first
          | none =>
            simp only [found] at first
            cases first
            refine ⟨fun w x hx => ?_, fun x y hx => ?_, fun _ => ?_, fun h => absurd h (by simp)⟩
            · rw [InsMap.lookup_cons] at hx
              split at hx
              · rename_i same
                cases same
                cases hx
                exact ⟨terms2.1, sorts.1.symm⟩
              · exact preserving w x hx
            · rw [InsMap.lookup_cons, if_neg, hx]
              intro same
              rw [same, found] at hx
              cases hx
            · rw [InsMap.lookup_cons, if_pos rfl]
        | const n s =>
          simp only [termSubsume, isConst_const, if_true] at first
          split at first
          · rename_i same
            cases first
            exact ⟨preserving, fun _ _ h => h, fun h => absurd h (by simp), fun _ => same.2.symm⟩
          · cases first
      obtain ⟨preserving', extends_, atVar, atConst⟩ := head
      obtain ⟨preservingσ, extends', result⟩ := ih preserving' terms1.2 terms2.2 sorts.2 rest
      refine ⟨preservingσ, fun x y hx => extends' _ _ (extends_ _ _ hx), ?_⟩
      rw [List.map_cons, ← result]
      cases var : isVar t with
      | true => rw [substTerm, if_pos var, extends' _ _ (atVar var)]; rfl
      | false => rw [substTerm, if_neg (by simp [var]), atConst var]

/-- A literal subsumes the literals of its argument sorts that are its instances. -/
theorem valid_of_litSubsume {l l' : UnitResLiteral} (sorted : l.Sorted) (sorted' : l'.Sorted)
    (sorts : l.atom.args.map Expr.nodeSort = l'.atom.args.map Expr.nodeSort)
    (subsumes : litSubsume l l' = true) (valid : UnitResClause.Valid M [l]) :
    UnitResClause.Valid M [l'] := by
  simp only [litSubsume, atomSubsume, Bool.and_eq_true, decide_eq_true_eq] at subsumes
  obtain ⟨polarity, relName, some⟩ := subsumes
  obtain ⟨σ, hσ⟩ := Option.isSome_iff_exists.mp some
  obtain ⟨preserving, -, args⟩ := termsSubsume_spec (fun _ _ h => by cases h) sorted.terms
    sorted'.terms sorts hσ
  have instance_ : l' = l.substitute σ := by
    obtain ⟨p, r, as⟩ := l
    obtain ⟨p', r', bs⟩ := l'
    cases polarity
    cases relName
    exact congrArg (fun as => (⟨p, r, as⟩ : UnitResLiteral)) args
  rw [instance_]
  exact valid_substitute sorted preserving valid

theorem mem_removeDuplicatesAndVac {cl : UnitResClause} {l : UnitResLiteral} :
    l ∈ removeDuplicatesAndVac cl ↔ l ∈ cl ∧ l.isVacLit = false := by
  have fold : ∀ result : UnitResClause, l ∈ cl.foldl
      (fun result l => if l.isVacLit ∨ l ∈ result then result else result ++ [l]) result ↔
        l ∈ result ∨ (l ∈ cl ∧ l.isVacLit = false) := by
    induction cl with
    | nil => simp
    | cons k cl ih =>
      intro result
      rw [List.foldl_cons, ih]
      by_cases skip : k.isVacLit = true ∨ k ∈ result
      · rw [if_pos skip]
        grind
      · rw [if_neg skip]
        grind
  simpa [removeDuplicatesAndVac] using fold []

/-- A rewriting of a clause is an instance of it. -/
theorem valid_rewriteClause {cl : UnitResClause} (sorted : ∀ l ∈ cl, l.Sorted) {v : Variable}
    {t : Expr} (term : t.IsTerm) (sort : t.nodeSort = .first v.sort) :
    (∀ l ∈ rewriteClause cl (.var v) t, l.Sorted) ∧
      (UnitResClause.Valid M cl → UnitResClause.Valid M (rewriteClause cl (.var v) t)) := by
  have preserving : SortPreserving [(Expr.var v, t)] := by
    intro w u h
    rw [InsMap.lookup_cons] at h
    split at h
    · rename_i same
      cases same
      cases h
      exact ⟨term, sort⟩
    · cases h
  constructor
  · intro l hl
    obtain ⟨k, hk, rfl⟩ := List.mem_map.mp hl
    exact (sorted k hk).substitute preserving
  · intro valid env
    obtain ⟨l, hl, holds⟩ := valid (env.bind M [(Expr.var v, t)])
    exact ⟨_, List.mem_map_of_mem hl,
      (UnitResLiteral.holds_substitute (sorted l hl) preserving).mpr holds⟩

theorem rewriteOf_spec {l : UnitResLiteral} (sorted : l.Sorted) {x t : Expr}
    (h : rewriteOf l = some (x, t)) :
    ∃ v : Variable, x = .var v ∧ t.IsTerm ∧ t.nodeSort = .first v.sort := by
  have isVar_eq : ∀ e : Expr, isVar e = true → ∃ v, e = .var v := by
    intro e he
    cases e with
    | var v => exact ⟨v, rfl⟩
    | _ => cases he
  unfold rewriteOf at h
  split at h
  · rename_i a b diseq args
    have term : ∀ e ∈ [a, b], e.IsTerm := fun e he => sorted.terms e (args ▸ he)
    have sort : a.nodeSort = b.nodeSort := by
      simp only [UnitResLiteral.isDisequalityLit, Bool.and_eq_true, decide_eq_true_eq] at diseq
      obtain ⟨a', b', args', sort⟩ := sorted.equality diseq.2
      rw [args] at args'
      cases args'
      exact sort
    split at h
    · rename_i var
      cases h
      obtain ⟨v, rfl⟩ := isVar_eq _ var
      exact ⟨v, rfl, term _ (by simp), sort.symm⟩
    · split at h
      · rename_i var
        cases h
        obtain ⟨v, rfl⟩ := isVar_eq _ var
        exact ⟨v, rfl, term _ (by simp), sort⟩
      · cases h
  · cases h

/-- What the given clause has and each rewriting by one of its disequalities keeps, the clause that the loop makes has. -/
theorem simplifyClause_cases {P : UnitResClause → Prop} {cl : UnitResClause} (start : P cl)
    (step : ∀ l ∈ cl, ∀ v t, rewriteOf l = some (v, t) → ∀ cl', P cl' → P (rewriteClause cl' v t)) :
    ∃ rewritten, P rewritten ∧ simplifyClause cl =
      if rewritten.any UnitResLiteral.isTautLit then [tautLit] else removeDuplicatesAndVac rewritten := by
  refine ⟨_, List.foldlRecOn cl _ start fun cl' kept l hl => ?_, rfl⟩
  split
  · rename_i v t found
    exact step l hl v t found cl' kept
  · exact kept

theorem simplifyClause_spec {cl : UnitResClause} (sorted : ∀ l ∈ cl, l.Sorted) :
    (∀ l ∈ simplifyClause cl, l.Sorted) ∧
      (UnitResClause.Valid M cl → UnitResClause.Valid M (simplifyClause cl)) := by
  obtain ⟨rewritten, ⟨sorted', valid'⟩, eq⟩ := simplifyClause_cases
    (P := fun cl' => (∀ l ∈ cl', l.Sorted) ∧ (UnitResClause.Valid M cl → UnitResClause.Valid M cl')) ⟨sorted, id⟩ (by
      intro l hl x t found cl' kept
      obtain ⟨v, rfl, term, sort⟩ := rewriteOf_spec (sorted l hl) found
      have step := valid_rewriteClause (M := M) kept.1 term sort
      exact ⟨step.1, fun h => step.2 (kept.2 h)⟩)
  rw [eq]
  split
  · refine ⟨fun l hl => ?_, fun _ env => ⟨tautLit, List.mem_singleton_self _, ?_⟩⟩
    · rw [List.mem_singleton.mp hl]
      exact UnitResLiteral.tautLit_sorted
    · exact UnitResLiteral.holds_of_isTautLit UnitResLiteral.tautLit_sorted (by decide)
  · refine ⟨fun l hl => sorted' l (mem_removeDuplicatesAndVac.mp hl).1, fun valid env => ?_⟩
    obtain ⟨l, hl, holds⟩ := valid' valid env
    refine ⟨l, mem_removeDuplicatesAndVac.mpr ⟨hl, ?_⟩, holds⟩
    by_contra vac
    exact UnitResLiteral.not_holds_of_isVacLit (by simpa using vac) holds

end Goivy
