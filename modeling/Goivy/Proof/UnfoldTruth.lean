import Goivy.Proof.Unfold
import Goivy.TransRel.AtomicExact

/-! Unfolding keeps the truth of a goal in the structures in which the definitions are true. -/
namespace Goivy

variable {D : Domain} {M : Structure D}

/-- Terms of the right sorts have an instance. -/
theorem Env.Instance.exists_of_sorts {subs : List (Variable × Expr)}
    (sorts : ∀ v t, subs.lookup v = some t → t.OfSort v.sort) (env : Env D) : ∃ env', Env.Instance M subs env env' := by
  have point : ∀ v : Variable, ∃ x : El D v.sort, (⟨v.sort, x⟩ : Val D) = ((subs.lookup v).getD (.var v)).eval M env := by
    intro v
    cases ht : subs.lookup v with
    | none => exact ⟨env v, rfl⟩
    | some t =>
      have sort := (sorts v t ht).sort_eval M env
      rw [Option.getD_some, ← sort]
      exact ⟨_, rfl⟩
  choose env' same using point
  exact ⟨env', same⟩

namespace Expr

theorem toVars_length (ts : List Expr) : (toVars ts).length ≤ ts.length := List.length_filterMap_le _ _

/-- Where no argument is lost, all are variables. -/
theorem map_var_toVars {ts : List Expr} (h : (toVars ts).length = ts.length) : (toVars ts).map .var = ts := by
  induction ts with
  | nil => rfl
  | cons t ts ih =>
    cases t with
    | var v => exact congrArg (Expr.var v :: ·) (ih (Nat.succ.inj h))
    | _ =>
      have short := toVars_length ts
      rw [toVars, List.filterMap_cons_none rfl, List.length_cons] at h
      rw [toVars] at short
      omega

theorem ofSort_of_zip {vs : List Variable} {ts : List Expr} {dom : List FSort} (params : OfSorts (vs.map .var) dom)
    (args : OfSorts ts dom) : ∀ p ∈ vs.zip ts, p.2.OfSort p.1.sort := by
  induction vs generalizing ts dom with
  | nil => simp
  | cons v vs ih =>
    cases ts with
    | nil => simp
    | cons t ts =>
      cases dom with
      | nil => exact args.elim
      | cons s dom =>
        rw [List.zip_cons_cons, List.forall_mem_cons]
        have sort : v.sort = s := params.1
        exact ⟨sort ▸ args.1, ih params.2 args.2⟩

theorem evalList_instance {vs : List Variable} {ts : List Expr} {subs : List (Variable × Expr)} {env env' : Env D}
    (inst : Env.Instance M subs env env') (length : ts.length = vs.length)
    (entry : ∀ p ∈ vs.zip ts, subs.lookup p.1 = Option.some p.2) :
    evalList M (vs.map .var) env' = evalList M ts env := by
  induction vs generalizing ts with
  | nil =>
    rw [List.length_eq_zero_iff.mp length]
    rfl
  | cons v vs ih =>
    cases ts with
    | nil => contradiction
    | cons t ts =>
      rw [List.zip_cons_cons, List.forall_mem_cons] at entry
      have head := inst v
      rw [entry.1, Option.getD_some] at head
      rw [List.map_cons, evalList, evalList, ih (Nat.succ.inj length) entry.2, eval, head]

theorem valid_dropForAlls {e : Expr} (h : e.Valid M) : e.dropForAlls.Valid M := by
  induction e with
  | forAll vs a ih => exact ih fun env => (holds_forAll M env vs a).mp (h env) env fun _ _ => rfl
  | _ => exact h

theorem OfSort.dropForAlls {e : Expr} (h : e.OfSort .boolean) : e.dropForAlls.OfSort .boolean := by
  induction e with
  | forAll vs a ih => exact ih h.2
  | _ => exact h

end Expr

/-- An application of the lambda has the value of the application of the symbol. -/
def Lambda.Unfolds (M : Structure D) (key : Const) (lam : Lambda) : Prop :=
  ∀ args r s, (Expr.apply key args).OfSort s → lam.apply args = some r →
    r.OfSort s ∧ ∀ env, r.eval M env = (Expr.apply key args).eval M env

/-- A lambda whose body has the value of the symbol at its parameters. -/
theorem Lambda.unfolds_of_body {key : Const} {lam : Lambda} (nodup : lam.vars.Nodup) {dom : List FSort} {s : FSort}
    (sort : key.sort = .function dom s) (params : lam.vars.length = dom.length → OfSorts (lam.vars.map .var) dom)
    (body : lam.body.OfSort s) (value : lam.vars.length = dom.length →
      ∀ env, lam.body.eval M env = (Expr.apply key (lam.vars.map .var)).eval M env) : lam.Unfolds M key := by
  intro args r s' apply result
  obtain ⟨dom', sort', args'⟩ := apply
  obtain ⟨rfl, rfl⟩ : dom = dom' ∧ s = s' := by
    have same := sort.symm.trans sort'
    injection same with domains ranges
    exact ⟨domains, ranges⟩
  simp only [Lambda.apply] at result
  split at result
  · contradiction
  rename_i length
  have length : args.length = lam.vars.length := not_not.mp length
  have full := length.symm.trans (OfSorts.length_eq args')
  have keys : ((lam.vars.zip args).reverse.map Prod.fst).Nodup := by
    rw [List.map_reverse, List.nodup_reverse, List.map_fst_zip (le_of_eq length.symm)]
    exact nodup
  have sorts : ∀ v t, (lam.vars.zip args).reverse.lookup v = some t → t.OfSort v.sort := fun v t ht =>
    Expr.ofSort_of_zip (params full) args' (v, t) (List.mem_reverse.mp (InsMap.mem_of_lookup ht))
  have values : ∀ {env env' : Env D}, Env.Instance M (lam.vars.zip args).reverse env env' →
      lam.body.eval M env' = (Expr.apply key args).eval M env := by
    intro env env' inst
    rw [value full, Expr.eval, Expr.eval, Expr.evalList_instance inst length]
    exact fun p hp => (InsMap.mem_iff_lookup keys).mp (List.mem_reverse.mpr hp)
  split at result
  · -- no parameters, and nothing is substituted
    rename_i none
    cases result
    refine ⟨body, fun env => values ?_⟩
    intro v
    rw [none, List.zip_nil_left]
    rfl
  · refine ⟨body.substitute sorts result, fun env => ?_⟩
    obtain ⟨env', inst⟩ := Env.Instance.exists_of_sorts (M := M) sorts env
    exact (Expr.eval_substitute body.descriptionFree inst result).trans (values inst)

/-- The two sides of a definition have one sort, and no description occurs. A schema is not looked at. -/
def Conclusion.WellSorted : Conclusion → Prop
  | .formula e => e.OfSort .boolean
  | .definition d => (Expr.eq d.lhs d.rhs).OfSort .boolean
  | .definitionSchema _ => True

/-- What `MatchFromDefn` accepts. -/
theorem matchFromDefn_eq {d : LabeledFormula} {key : Const} {lam : Lambda} (h : matchFromDefn d = some (key, lam)) :
    ∃ e ts, d.conc = .formula e ∧ (e.dropForAlls = .eq (.apply key ts) lam.body ∨
      e.dropForAlls = .iff (.apply key ts) lam.body) ∧ lam.vars = Expr.toVars ts ∧ lam.vars.Nodup := by
  simp only [matchFromDefn] at h
  split at h
  · rename_i e conc
    split at h
    · rename_i f ts rhs body
      split at h
      · rename_i nodup
        cases h
        exact ⟨e, ts, conc, .inl body, rfl, nodup⟩
      · contradiction
    · rename_i f ts rhs body
      split at h
      · rename_i nodup
        cases h
        exact ⟨e, ts, conc, .inr body, rfl, nodup⟩
      · contradiction
    · contradiction
  · contradiction

theorem unfolds_of_matchFromDefn {d : LabeledFormula} {key : Const} {lam : Lambda}
    (h : matchFromDefn d = some (key, lam)) (sorted : d.conc.WellSorted) (holds : d.conc.Holds M) :
    lam.Unfolds M key := by
  obtain ⟨e, ts, conc, sides, vars, nodup⟩ := matchFromDefn_eq h
  rw [conc] at sorted holds
  have sort := Expr.OfSort.dropForAlls sorted
  have valid := Expr.valid_dropForAlls holds
  obtain ⟨dom, s, fsort, args, body, value⟩ : ∃ dom s, key.sort = .function dom s ∧ OfSorts ts dom ∧
      lam.body.OfSort s ∧ ∀ env, (Expr.apply key ts).eval M env = lam.body.eval M env := by
    rcases sides with same | same
    · rw [same] at sort valid
      obtain ⟨-, s, ⟨dom, fsort, args⟩, body⟩ := sort
      exact ⟨dom, s, fsort, args, body, fun env => (Expr.holds_eq M env _ _).mp (valid env)⟩
    · rw [same] at sort valid
      obtain ⟨-, left, body⟩ := sort
      obtain ⟨dom, fsort, args⟩ := left
      have left : (Expr.apply key ts).OfSort .boolean := ⟨dom, fsort, args⟩
      exact ⟨dom, .boolean, fsort, args, body, fun env =>
        Val.eq_of_holds_iff (left.sort_eval M env) (body.sort_eval M env) ((Expr.holds_iff M env _ _).mp (valid env))⟩
  have full : lam.vars.length = dom.length → lam.vars.map .var = ts := by
    rw [vars, ← OfSorts.length_eq args]
    exact Expr.map_var_toVars
  exact Lambda.unfolds_of_body nodup fsort (fun length => full length ▸ args) body fun length env => by
    rw [full length, value env]

/-- Unfolding keeps the sort and the value, and the lambdas that are left are some of those there were. -/
structure Unfolded (M : Structure D) (s : FSort) (e : Expr) (lams : List Lambda) (r : Expr × List Lambda) : Prop where
  ofSort : r.1.OfSort s
  eval : ∀ env, r.1.eval M env = e.eval M env
  rest : r.2 ⊆ lams

structure UnfoldedList (M : Structure D) (ss : List FSort) (ts : List Expr) (lams : List Lambda)
    (r : List Expr × List Lambda) : Prop where
  ofSorts : OfSorts r.1 ss
  evalList : ∀ env, evalList M r.1 env = evalList M ts env
  rest : r.2 ⊆ lams

theorem popLambda_spec (lams : List Lambda) : (∀ lam, (popLambda lams).1 = some lam → lam ∈ lams) ∧
    (popLambda lams).2 ⊆ lams := by
  unfold popLambda
  split
  · simp
  · simp
  · exact ⟨fun lam h => Option.some.inj h ▸ List.mem_cons_self, List.subset_cons_self _ _⟩

/-- The symbols after unfolding are the old ones, and those of the lambdas where the unfolded symbol occurs. -/
structure UnfoldedSymbols (key : Const) (cs : List Const) (lams : List Lambda) (cs' : List Const)
    (lams' : List Lambda) : Prop where
  symbols : ∀ c ∈ cs', c ∈ cs ∨ key ∈ cs ∧ ∃ lam ∈ lams, c ∈ lam.body.symbols
  rest : lams' ⊆ lams

theorem UnfoldedSymbols.append {key : Const} {lams : List Lambda} {cs₁ cs₂ cs₁' cs₂' : List Const} {lams' lams'' : List Lambda}
    (h : UnfoldedSymbols key cs₁ lams cs₁' lams') (h' : UnfoldedSymbols key cs₂ lams' cs₂' lams'') :
    UnfoldedSymbols key (cs₁ ++ cs₂) lams (cs₁' ++ cs₂') lams'' := by
  refine ⟨fun c hc => ?_, List.Subset.trans h'.rest h.rest⟩
  rcases List.mem_append.mp hc with left | right
  · exact (h.symbols c left).imp (List.mem_append_left _) (And.imp_left (List.mem_append_left _))
  · rcases h'.symbols c right with old | ⟨mem, lam, hl, hc⟩
    · exact .inl (List.mem_append_right _ old)
    · exact .inr ⟨List.mem_append_right _ mem, lam, h.rest hl, hc⟩

theorem Lambda.symbols_apply {lam : Lambda} {args : List Expr} {r : Expr} (h : lam.apply args = some r) :
    ∀ c ∈ r.symbols, c ∈ lam.body.symbols ∨ c ∈ symbolsList args := by
  simp only [Lambda.apply] at h
  split at h
  · contradiction
  · split at h
    · cases h
      exact fun c hc => .inl hc
    · intro c hc
      rcases Expr.substitute_symbols h c hc with old | ⟨p, hp, hc⟩
      · exact .inl old
      · refine .inr (symbolsList_eq_flatMap args ▸ List.mem_flatMap.mpr ⟨p.2, ?_, hc⟩)
        exact (List.of_mem_zip (List.mem_reverse.mp hp)).2

namespace Expr

variable {key : Const} {lams : List Lambda}

theorem applyUnfoldList_symbols (ts : List Expr) (lams : List Lambda) (ih : ∀ t ∈ ts, ∀ lams : List Lambda,
    UnfoldedSymbols key t.symbols lams (t.applyUnfold key lams).1.symbols (t.applyUnfold key lams).2) :
    UnfoldedSymbols key (symbolsList ts) lams (symbolsList (applyUnfoldList key ts lams).1)
      (applyUnfoldList key ts lams).2 := by
  induction ts generalizing lams with
  | nil => exact ⟨fun _ => .inl, List.Subset.refl _⟩
  | cons t ts tail =>
    exact (ih t List.mem_cons_self lams).append (tail _ fun u hu => ih u (List.mem_cons_of_mem _ hu))

theorem applyUnfold_symbols (key : Const) (e : Expr) (lams : List Lambda) :
    UnfoldedSymbols key e.symbols lams (e.applyUnfold key lams).1.symbols (e.applyUnfold key lams).2 := by
  induction e generalizing lams with
  | var v | const c => exact ⟨fun _ => .inl, List.Subset.refl _⟩
  | apply f ts ih =>
    have terms := applyUnfoldList_symbols ts lams ih
    have applied : ∀ c ∈ symbolsList (applyUnfoldList key ts lams).1, c ∈ f :: symbolsList ts ∨
        key ∈ f :: symbolsList ts ∧ ∃ lam ∈ lams, c ∈ lam.body.symbols := fun c hc =>
      (terms.symbols c hc).imp (List.mem_cons_of_mem _) (And.imp_left (List.mem_cons_of_mem _))
    simp only [applyUnfold]
    split
    · rename_i same
      obtain ⟨mem, rest⟩ := popLambda_spec (applyUnfoldList key ts lams).2
      refine ⟨fun c hc => ?_, List.Subset.trans rest terms.rest⟩
      cases hr : (popLambda (applyUnfoldList key ts lams).2).1.bind fun lam =>
          lam.apply (applyUnfoldList key ts lams).1 with
      | none =>
        rw [hr] at hc
        exact .inl hc
      | some r =>
        rw [hr] at hc
        obtain ⟨lam, pop, result⟩ := Option.bind_eq_some_iff.mp hr
        rcases Lambda.symbols_apply result c hc with body | arg
        · exact .inr ⟨same ▸ List.mem_cons_self, lam, terms.rest (mem lam pop), body⟩
        · exact applied c arg
    · refine ⟨fun c hc => ?_, terms.rest⟩
      rcases List.mem_cons.mp hc with rfl | hc
      · exact .inl List.mem_cons_self
      · exact applied c hc
  | and ts ih | or ts ih => exact applyUnfoldList_symbols ts lams ih
  | not a ha | forAll vs a ha | «exists» vs a ha | some vs a ha => exact ha lams
  | eq a b ha hb | implies a b ha hb | iff a b ha hb => exact (ha lams).append (hb _)
  | ite c a b hc ha hb | someElse vs c a b hc ha hb => exact ((hc lams).append (ha _)).append (hb _)

theorem applyUnfoldList_spec {ts : List Expr} (ih : ∀ t ∈ ts, ∀ s lams, t.OfSort s →
    (key ∈ t.symbols → ∀ lam ∈ lams, lam.Unfolds M key) → Unfolded M s t lams (t.applyUnfold key lams)) {ss : List FSort}
    (h : OfSorts ts ss) (all : key ∈ symbolsList ts → ∀ lam ∈ lams, lam.Unfolds M key) :
    UnfoldedList M ss ts lams (applyUnfoldList key ts lams) := by
  induction ts generalizing ss lams with
  | nil => exact ⟨h, fun _ => rfl, List.Subset.refl _⟩
  | cons t ts tail =>
    cases ss with
    | nil => exact h.elim
    | cons s ss =>
      have head := ih t List.mem_cons_self s lams h.1 fun mem => all (List.mem_append_left _ mem)
      have rest := tail (fun u hu => ih u (List.mem_cons_of_mem _ hu)) h.2 fun mem lam hl =>
        all (List.mem_append_right _ mem) lam (head.rest hl)
      refine ⟨⟨head.ofSort, rest.ofSorts⟩, fun env => ?_, List.Subset.trans rest.rest head.rest⟩
      simp only [applyUnfoldList, Goivy.evalList, head.eval env, rest.evalList env]

theorem applyUnfold_spec {e : Expr} {s : FSort} (h : e.OfSort s)
    (all : key ∈ e.symbols → ∀ lam ∈ lams, lam.Unfolds M key) : Unfolded M s e lams (e.applyUnfold key lams) := by
  induction e generalizing s lams with
  | var v | const c => exact ⟨h, fun _ => rfl, List.Subset.refl _⟩
  | apply f ts ih =>
    obtain ⟨dom, sort, args⟩ := h
    have terms := applyUnfoldList_spec (fun t ht s lams => ih t ht) args fun mem => all (List.mem_cons_of_mem _ mem)
    have value : ∀ env, (Expr.apply f (applyUnfoldList key ts lams).1).eval M env = (Expr.apply f ts).eval M env :=
      fun env => by rw [Expr.eval, Expr.eval, terms.evalList env]
    have applied : (Expr.apply f (applyUnfoldList key ts lams).1).OfSort s := ⟨dom, sort, terms.ofSorts⟩
    simp only [applyUnfold]
    split
    · rename_i same
      obtain ⟨mem, rest⟩ := popLambda_spec (applyUnfoldList key ts lams).2
      have rest := List.Subset.trans rest terms.rest
      cases hr : (popLambda (applyUnfoldList key ts lams).2).1.bind fun lam =>
          lam.apply (applyUnfoldList key ts lams).1 with
      | none => exact ⟨⟨dom, sort, args⟩, fun _ => rfl, rest⟩
      | some r =>
        obtain ⟨lam, pop, result⟩ := Option.bind_eq_some_iff.mp hr
        subst same
        obtain ⟨ofSort, same⟩ := all List.mem_cons_self lam (terms.rest (mem lam pop)) _ r s applied result
        exact ⟨ofSort, fun env => (same env).trans (value env), rest⟩
    · exact ⟨applied, value, terms.rest⟩
  | and ts ih | or ts ih =>
    have terms := applyUnfoldList_spec (fun t ht s lams => ih t ht) h.2 all
    refine ⟨⟨h.1, OfSorts.replicate terms.ofSorts ?_⟩, fun env => ?_, terms.rest⟩
    · exact terms.ofSorts.length_eq.trans (List.length_map ..)
    · simp only [applyUnfold, eval, terms.evalList env]
  | not a ha =>
    have body := ha h.2 all
    exact ⟨⟨h.1, body.ofSort⟩, fun env => by simp only [applyUnfold, eval, body.eval env], body.rest⟩
  | eq a b ha hb =>
    obtain ⟨bool, t, sortA, sortB⟩ := h
    have left := ha sortA fun mem => all (List.mem_append_left _ mem)
    have right := hb sortB fun mem lam hl => all (List.mem_append_right _ mem) lam (left.rest hl)
    refine ⟨⟨bool, t, left.ofSort, right.ofSort⟩, fun env => ?_, List.Subset.trans right.rest left.rest⟩
    simp only [applyUnfold, eval, left.eval env, right.eval env]
  | implies a b ha hb | iff a b ha hb =>
    have left := ha h.2.1 fun mem => all (List.mem_append_left _ mem)
    have right := hb h.2.2 fun mem lam hl => all (List.mem_append_right _ mem) lam (left.rest hl)
    refine ⟨⟨h.1, left.ofSort, right.ofSort⟩, fun env => ?_, List.Subset.trans right.rest left.rest⟩
    simp only [applyUnfold, eval, left.eval env, right.eval env]
  | ite c a b hc ha hb =>
    have cond := hc h.1 fun mem => all (List.mem_append_left _ (List.mem_append_left _ mem))
    have left := ha h.2.1 fun mem lam hl =>
      all (List.mem_append_left _ (List.mem_append_right _ mem)) lam (cond.rest hl)
    have rest := List.Subset.trans left.rest cond.rest
    have right := hb h.2.2 fun mem lam hl => all (List.mem_append_right _ mem) lam (rest hl)
    refine ⟨⟨cond.ofSort, left.ofSort, right.ofSort⟩, fun env => ?_, List.Subset.trans right.rest rest⟩
    simp only [applyUnfold, eval, cond.eval env, left.eval env, right.eval env]
  | forAll vs a ha | «exists» vs a ha =>
    have body := ha h.2 all
    refine ⟨⟨h.1, body.ofSort⟩, fun env => ?_, body.rest⟩
    simp only [applyUnfold, eval, Env.off_deduplicateAndSortVars, body.eval]
  | some | someElse => exact h.elim

end Expr

namespace Unfolding

variable (u : Unfolding) {lams : List Lambda}

theorem formula_spec {e : Expr} {s : FSort} (h : e.OfSort s)
    (all : u.key ∈ e.symbols → ∀ lam ∈ lams, lam.Unfolds M u.key) : Unfolded M s e lams (u.formula e lams) := by
  obtain ⟨sort, value⟩ := Expr.alphaAvoidMap_spec h (u.names e)
  have same := Expr.alphaAvoidMap_symbols e (u.names e)
  have result := Expr.applyUnfold_spec sort fun mem => all (same ▸ mem)
  exact ⟨result.ofSort, fun env => (result.eval env).trans (value M env), result.rest⟩

theorem formula_symbols (e : Expr) (lams : List Lambda) :
    UnfoldedSymbols u.key e.symbols lams (u.formula e lams).1.symbols (u.formula e lams).2 := by
  have result := Expr.applyUnfold_symbols u.key (e.alphaAvoidMap (u.names e)) lams
  rw [Expr.alphaAvoidMap_symbols] at result
  exact result

theorem formula_eq (a b : Expr) (lams : List Lambda) : ∃ a' b' lams', u.formula (.eq a b) lams = (.eq a' b', lams') :=
  ⟨_, _, _, rfl⟩

theorem conclusion_symbols (conc : Conclusion) (lams : List Lambda) :
    UnfoldedSymbols u.key conc.symbols lams (u.conclusion conc lams).1.symbols (u.conclusion conc lams).2 := by
  cases conc with
  | formula e => exact u.formula_symbols e lams
  | definition d =>
    have result := u.formula_symbols (.eq d.lhs d.rhs) lams
    obtain ⟨a, b, lams', same⟩ := u.formula_eq d.lhs d.rhs lams
    rw [same] at result
    simp only [conclusion, same]
    exact result
  | definitionSchema d =>
    exact ⟨fun _ => .inl, (Expr.applyUnfold_symbols u.key (.eq d.lhs d.rhs) lams).rest⟩

end Unfolding

/-- A definition with two sides of one sort is true when they are equal. -/
theorem Conclusion.holds_definition {d : Definition} (sorted : (Expr.eq d.lhs d.rhs).OfSort .boolean) :
    (Conclusion.definition d).Holds M ↔ (Expr.eq d.lhs d.rhs).Valid M := by
  obtain ⟨-, s, left, right⟩ := sorted
  have plain : d.rhs.isDescription = false := by
    cases h : d.rhs with
    | some | someElse =>
      rw [h] at right
      exact right.elim
    | _ => rfl
  have boolean : d.lhs.isIndividual = false → s = .boolean := by
    intro individual
    rw [Expr.isIndividual, left.nodeSort] at individual
    simpa using individual
  rw [Conclusion.Holds, valid_definition plain boolean (fun env => left.sort_eval M env) fun env => right.sort_eval M env]
  exact forall_congr' fun env => (Expr.holds_eq M env _ _).symm

theorem Unfolding.conclusion_spec (u : Unfolding) {conc : Conclusion} {lams : List Lambda} (sorted : conc.WellSorted)
    (all : u.key ∈ conc.symbols → ∀ lam ∈ lams, lam.Unfolds M u.key) :
    (u.conclusion conc lams).1.WellSorted ∧ ((u.conclusion conc lams).1.Holds M ↔ conc.Holds M) := by
  have valid {e : Expr} {s : FSort} {r : Expr × List Lambda} (h : Unfolded M s e lams r) : r.1.Valid M ↔ e.Valid M :=
    forall_congr' fun env => Expr.holds_congr M env (h.eval env)
  cases conc with
  | formula e =>
    have result := u.formula_spec sorted all
    exact ⟨result.ofSort, valid result⟩
  | definition d =>
    have result := u.formula_spec sorted all
    obtain ⟨a, b, lams', same⟩ := u.formula_eq d.lhs d.rhs lams
    rw [same] at result
    simp only [conclusion, same]
    refine ⟨result.ofSort, ?_⟩
    rw [Conclusion.holds_definition (d := ⟨a, b⟩) result.ofSort, Conclusion.holds_definition sorted]
    exact valid result
  | definitionSchema d => exact ⟨trivial, .rfl⟩

end Goivy
