import Goivy.Logic.Vocabulary
import Goivy.Proof.SkolemClash

/-! The two loops of `SkolemizeFmla` over the variables of a quantifier. -/
namespace Goivy

variable {D : Domain}

open Expr

theorem nodup_of_deduplicateAndSortVars {vs : List Variable} (h : deduplicateAndSortVars vs = vs) : vs.Nodup := by
  rw [← h, deduplicateAndSortVars, (List.perm_insertionSort _ _).nodup_iff]
  exact List.nodup_dedup _

/-- A formula after some of the substitutions, by terms over the names in `used` and the symbols in `syms`. -/
inductive Replaced (used : List String) (syms : List Const) : Expr → Expr → Prop
  | refl (e : Expr) : Replaced used syms e e
  | head {e e' : Expr} {v : Variable} {t : Expr} : t.Flat → t.OfSort v.sort → CapturesNothing [(v, t)] e →
      (∀ x ∈ t.freeVariables, x.name ∈ used) → (∀ c ∈ t.symbols, c ∈ syms) →
      Replaced used syms (e.replace [(v, t)]) e' → Replaced used syms e e'

namespace Replaced

variable {used : List String} {syms : List Const} {e e' : Expr}

theorem mono {syms' : List Const} (h : Replaced used syms e e') (sub : syms ⊆ syms') : Replaced used syms' e e' := by
  induction h with
  | refl e => exact .refl e
  | head flat sorted clear old known _ ih => exact .head flat sorted clear old (fun c hc => sub (known c hc)) ih

theorem ofSort (h : Replaced used syms e e') {s : FSort} (sort : e.OfSort s) (formed : e.Formed) :
    e'.OfSort s ∧ e'.Formed := by
  induction h with
  | refl => exact ⟨sort, formed⟩
  | head flat sorted clear _ _ _ ih =>
    refine ih (substitute_eq_replace sort formed (List.forall_mem_singleton.mpr sorted) clear).2 ?_
    exact formed_replace (List.forall_mem_singleton.mpr flat) formed

theorem skolemDepth (h : Replaced used syms e e') : e'.skolemDepth = e.skolemDepth := by
  induction h with
  | refl => rfl
  | head flat _ _ _ _ _ ih => rw [ih, skolemDepth_replace (List.forall_mem_singleton.mpr flat)]

theorem namesAfter (h : Replaced used syms e e') (pos : Bool) (rn : UniqueRenamer) :
    e'.namesAfter pos rn = e.namesAfter pos rn := by
  induction h with
  | refl => rfl
  | head flat _ _ _ _ _ ih => rw [ih, namesAfter_replace (List.forall_mem_singleton.mpr flat)]

theorem plainLeaves (h : Replaced used syms e e') (plain : e.PlainLeaves) : e'.PlainLeaves := by
  induction h with
  | refl => exact plain
  | head flat _ _ _ _ _ ih => exact ih (plainLeaves_replace (List.forall_mem_singleton.mpr flat) plain)

theorem clashFree (h : Replaced used syms e e') {s : FSort} (sort : e.OfSort s) (formed : e.Formed) {prenex pos : Bool}
    {free outer : List Variable} {rn : UniqueRenamer} (older : used ⊆ rn.used)
    (clash : e.ClashFree prenex free pos rn outer) : e'.ClashFree prenex free pos rn outer := by
  induction h with
  | refl => exact clash
  | head flat sorted clear old _ _ ih =>
    refine ih (substitute_eq_replace sort formed (List.forall_mem_singleton.mpr sorted) clear).2
      (formed_replace (List.forall_mem_singleton.mpr flat) formed) ?_
    exact clashFree_replace (List.forall_mem_singleton.mpr flat) sort.descriptionFree clear
      (List.forall_mem_singleton.mpr fun x hx => older (old x hx)) clash

theorem symbols (h : Replaced used syms e e') {s : FSort} (sort : e.OfSort s) (formed : e.Formed) :
    ∀ c ∈ e'.symbols, c ∈ e.symbols ∨ c ∈ syms := by
  induction h with
  | refl => exact fun c hc => .inl hc
  | @head e _ v t flat sorted clear _ syms _ ih =>
    obtain ⟨sub, sort'⟩ := substitute_eq_replace sort formed (List.forall_mem_singleton.mpr sorted) clear
    intro c hc
    rcases ih sort' (formed_replace (List.forall_mem_singleton.mpr flat) formed) c hc with mem | mem
    · rcases substitute_symbols sub c mem with old | ⟨p, hp, new⟩
      · exact .inl old
      · cases List.mem_singleton.mp hp
        exact .inr (syms c new)
    · exact .inr mem

end Replaced

section

variable {e t : Expr} {v : Variable} {s : FSort}

/-- The body after a substitution, or the same body where it is refused. -/
theorem getD_substitute (sort : e.OfSort s) (formed : e.Formed) (sorted : t.OfSort v.sort) :
    CapturesNothing [(v, t)] e ∧ (e.substitute [(v, t)]).getD e = e.replace [(v, t)] ∨
      ¬ CapturesNothing [(v, t)] e ∧ (e.substitute [(v, t)]).getD e = e := by
  by_cases clear : CapturesNothing [(v, t)] e
  · have sub := (substitute_eq_replace sort formed (List.forall_mem_singleton.mpr sorted) clear).1
    exact .inl ⟨clear, by rw [sub, Option.getD_some]⟩
  · refine .inr ⟨clear, ?_⟩
    cases sub : e.substitute [(v, t)] with
    | none => rfl
    | some e' => exact absurd (clear_of_substitute sort.descriptionFree sub) clear

theorem mem_freeVariables_replace_single (sort : e.OfSort s) {x : Variable}
    (hx : x ∈ (e.replace [(v, t)]).freeVariables) : x ∈ e.freeVariables ∧ x ≠ v ∨ x ∈ t.freeVariables := by
  rcases freeVariables_replace sort.descriptionFree x hx with ⟨old, none⟩ | ⟨p, hp, -, new⟩
  · rw [InsMap.lookup_cons] at none
    exact .inl ⟨old, fun same => by simp [same] at none⟩
  · cases List.mem_singleton.mp hp
    exact .inr new

/-- A replacement of one variable, by a term with the value `x`. -/
theorem eval_replace_single (sort : e.OfSort s) (formed : e.Formed) (sorted : t.OfSort v.sort)
    (clear : CapturesNothing [(v, t)] e) (M : Structure D) (env : Env D) {x : El D v.sort}
    (value : t.eval M env = ⟨v.sort, x⟩) : (e.replace [(v, t)]).eval M env = e.eval M (Function.update env v x) := by
  have sub := (substitute_eq_replace sort formed (List.forall_mem_singleton.mpr sorted) clear).1
  refine eval_substitute sort.descriptionFree (fun w => ?_) sub
  rw [InsMap.lookup_cons]
  split
  · rename_i same
    subst same
    rw [Function.update_self, Option.getD_some, value]
  · rename_i other
    rw [Function.update_of_ne other]
    rfl

theorem Expr.OfSort.exists_value (sort : t.OfSort s) (M : Structure D) (env : Env D) :
    ∃ x, t.eval M env = ⟨s, x⟩ := by
  obtain rfl := sort.sort_eval M env
  exact ⟨_, rfl⟩

end

theorem Env.Off.update {vs : List Variable} {env env' : Env D} (off : env.Off vs env') (v : Variable) (x : El D v.sort) :
    env.Off (v :: vs) (Function.update env' v x) := by
  intro w hw
  rw [List.mem_cons, not_or] at hw
  rw [Function.update_of_ne hw.1, off w hw.2]

theorem Env.Off.mono {vs ws : List Variable} {env env' : Env D} (off : env.Off vs env') (sub : vs ⊆ ws) : env.Off ws env' :=
  fun v hv => off v fun mem => hv (sub mem)

/-- The loop keeps the body up to the names of the variables. A variable that is free in the whole body `a` is replaced. -/
theorem universalizeVars_spec (prenex : Bool) (vs : List Variable) {a b : Expr} {s : FSort} {st : SkolemState}
    {done us₀ : List Variable} (sort : b.OfSort s) (formed : b.Formed)
    (clear : ∀ p ∈ vs.zip (newVariables st.vu vs).1, p.1 ∈ a.freeVariables → p.2 ∉ b.bindersAround p.1)
    (vars : ∀ x ∈ b.freeVariables, x ∈ a.freeVariables ∧ x ∉ done ∨ x ∈ us₀) :
    ∃ body, universalizeVars prenex vs b st = ((newVariables st.vu vs).1, body,
        { st with vu := (newVariables st.vu vs).2
                  univs := st.univs ++ if prenex then (newVariables st.vu vs).1 else [] }) ∧
      Replaced (newVariables st.vu vs).2.used [] b body ∧
      (∀ x ∈ body.freeVariables, x ∈ a.freeVariables ∧ x ∉ done ++ vs ∨ x ∈ us₀ ++ (newVariables st.vu vs).1) ∧
      ∀ {D : Domain} (M : Structure D) (env : Env D), ∃ env', env.Off vs env' ∧ body.eval M env = b.eval M env' := by
  induction vs generalizing b st done us₀ with
  | nil =>
    refine ⟨b, ?_, .refl b, by simpa [newVariables] using vars, fun M env => ⟨env, fun _ _ => rfl, rfl⟩⟩
    simp [universalizeVars, newVariables]
  | cons v vs ih =>
    obtain ⟨u, rn, head⟩ : ∃ u rn, uniquifyVar st.vu v = (u, rn) := ⟨_, _, rfl⟩
    have unew : u.sort = v.sort ∧ u.name ∈ rn.used := by
      rw [uniquifyVar_eq] at head
      cases head
      exact ⟨rfl, List.mem_cons_self⟩
    have sorted : (Expr.var u).OfSort v.sort := unew.1
    simp only [newVariables, head, List.zip_cons_cons, List.forall_mem_cons] at clear ⊢
    obtain ⟨b', hb'⟩ : ∃ b', (b.substitute [(v, .var u)]).getD b = b' := ⟨_, rfl⟩
    simp only [universalizeVars, head, hb']
    -- the body of the next round
    have next : b'.OfSort s ∧ b'.Formed ∧ (∀ y, b'.bindersAround y = b.bindersAround y) ∧
        (∀ x ∈ b'.freeVariables, x ∈ a.freeVariables ∧ x ∉ done ++ [v] ∨ x ∈ us₀ ++ [u]) ∧
        (∀ {used : List String} {body : Expr}, u.name ∈ used → Replaced used [] b' body → Replaced used [] b body) ∧
        ∀ {D : Domain} (M : Structure D) (env : Env D), ∃ env', env.Off [v] env' ∧ b'.eval M env = b.eval M env' := by
      rcases getD_substitute sort formed sorted with ⟨captures, eq⟩ | ⟨captures, eq⟩
      · rw [eq] at hb'
        subst hb'
        have flat : ∀ p ∈ [(v, Expr.var u)], p.2.Flat := List.forall_mem_singleton.mpr trivial
        refine ⟨(substitute_eq_replace sort formed (List.forall_mem_singleton.mpr sorted) captures).2,
          formed_replace flat formed, fun y => bindersAround_replace flat y b, ?_, ?_, ?_⟩
        · intro x hx
          rcases mem_freeVariables_replace_single sort hx with ⟨old, other⟩ | new
          · rcases vars x old with ⟨here, new⟩ | earlier
            · exact .inl ⟨here, by simp [new, other]⟩
            · exact .inr (List.mem_append_left _ earlier)
          · exact .inr (List.mem_append_right _ new)
        · intro used body mem rest
          exact .head (v := v) (t := .var u) trivial sorted captures (fun x hx => by cases List.mem_singleton.mp hx; exact mem) (by simp [symbols]) rest
        · intro D M env
          obtain ⟨x, value⟩ := sorted.exists_value M env
          exact ⟨_, Env.Off.update (fun _ _ => rfl) v x, eval_replace_single sort formed sorted captures M env value⟩
      · rw [eq] at hb'
        subst hb'
        have bound : v ∉ a.freeVariables := fun mem => captures fun p hp x hx => by
          cases List.mem_singleton.mp hp
          cases List.mem_singleton.mp hx
          exact clear.1 mem
        refine ⟨sort, formed, fun _ => rfl, fun x hx => ?_, fun _ rest => rest, fun M env => ⟨env, fun _ _ => rfl, rfl⟩⟩
        rcases vars x hx with ⟨here, new⟩ | earlier
        · have other : x ≠ v := fun same => bound (same ▸ here)
          exact .inl ⟨here, by simp [new, other]⟩
        · exact .inr (List.mem_append_left _ earlier)
    obtain ⟨sort', formed', around, vars', replaced, value⟩ := next
    obtain ⟨body, eq, rest, vars'', value'⟩ := @ih b' { st with vu := rn, univs := if prenex then st.univs ++ [u] else st.univs }
      _ _ sort' formed' (fun p hp mem => around p.1 ▸ clear.2 p hp mem) vars'
    refine ⟨body, ?_, replaced (newVariables_used rn vs unew.2) rest, ?_, ?_⟩
    · rw [eq]
      cases prenex <;> simp
    · intro x hx
      rcases vars'' x hx with ⟨here, new⟩ | mem
      · exact .inl ⟨here, by simpa using new⟩
      · exact .inr (by simpa using mem)
    · intro D M env
      obtain ⟨env₁, off₁, eq₁⟩ := value' M env
      obtain ⟨env₂, off₂, eq₂⟩ := value M env₁
      refine ⟨env₂, fun w hw => ?_, eq₁.trans eq₂⟩
      rw [List.mem_cons, not_or] at hw
      rw [off₂ w (by simpa using hw.1), off₁ w hw.2]

/-- A Skolem symbol of the right sort, applied to the outer variables. -/
structure IsSkolemTerm (sym : Const) (fvs : List Variable) (v : Variable) (t : Expr) : Prop where
  flat : t.Flat
  sort : t.OfSort v.sort
  vars : ∀ x ∈ t.freeVariables, x ∈ fvs
  symbols : ∀ c ∈ t.symbols, c = sym
  value : ∀ {D : Domain} (M : Structure D) (env : Env D), t.eval M env = M.value sym (fvs.map fun x => ⟨x.sort, env x⟩)

theorem skolemTerm_spec {sym : Const} {fvs : List Variable} {v : Variable} (h : sym.sort = skolemSort fvs v) :
    IsSkolemTerm sym fvs v (skolemTerm sym fvs) := by
  rw [skolemSort] at h
  rw [skolemTerm]
  split at h
  · rename_i none
    subst none
    exact ⟨trivial, h, by simp [freeVariables], by simp [Expr.symbols], fun M env => rfl⟩
  · rename_i some
    have args : OfSorts (fvs.map .var) (fvs.map Variable.sort) := by
      rw [ofSorts_iff, List.forall₂_map_left_iff, List.forall₂_map_right_iff, List.forall₂_same]
      exact fun _ _ => rfl
    rw [if_neg some, newApply_of_ofSorts h args, Option.getD_some]
    refine ⟨fun t ht => ?_, ⟨_, h, args⟩, fun x hx => ?_, fun c hc => ?_, fun M env => ?_⟩
    · obtain ⟨x, -, rfl⟩ := List.mem_map.mp ht
      exact ⟨x, rfl⟩
    · simpa [freeVariables, freeVariablesList_eq_flatMap] using hx
    · simpa [Expr.symbols, symbolsList_eq_flatMap] using hc
    · rw [eval, evalList_eq_map, List.map_map]
      rfl

/-- The loop replaces each variable that is free in the whole body, one of `free`, by a new function of the outer
variables. -/
theorem skolemizeVars_spec (fvs vs free : List Variable) {b : Expr} {s : FSort} {st : SkolemState} (sort : b.OfSort s)
    (formed : b.Formed) (clear : ∀ v ∈ vs, v ∈ free → ∀ x ∈ fvs, x ∉ b.bindersAround v) :
    ∃ syms body rn, skolemizeVars fvs vs b st = (body, { st with renamer := rn, skfuns := st.skfuns ++ syms }) ∧
      st.renamer.used ⊆ rn.used ∧ (∀ c ∈ syms, c.name ∉ st.renamer.used ∧ c.name ∈ rn.used) ∧
      (syms.map Const.name).Nodup ∧ syms.map Const.sort = vs.map (skolemSort fvs) ∧
      Replaced (fvs.map Variable.name) syms b body ∧
      (∀ x ∈ body.freeVariables, x ∈ b.freeVariables ∧ (x ∈ vs → x ∉ free) ∨ x ∈ fvs) ∧
      ∀ {D : Domain} (M : Structure D) (w : Env D → Env D), vs.Nodup →
        (∀ env env', env.Off vs env' → w env' = w env) →
        (∀ p ∈ vs.zip syms, ∀ env : Env D, (skolemTerm p.2 fvs).eval M env = ⟨p.1.sort, w env p.1⟩) →
        ∀ env, ∃ env', env.Off vs env' ∧ (∀ v ∈ vs, v ∈ free → env' v = w env v) ∧ body.eval M env = b.eval M env' := by
  induction vs generalizing b st with
  | nil =>
    refine ⟨[], b, st.renamer, ?_, List.Subset.refl _, by simp, by simp, rfl, .refl b, fun x hx => .inl ⟨hx, by simp⟩, ?_⟩
    · simp [skolemizeVars]
    · exact fun M w _ _ _ env => ⟨env, fun _ _ => rfl, by simp, rfl⟩
  | cons v vs ih =>
    obtain ⟨name, rn, head⟩ : ∃ name rn, st.renamer.rename ("_" ++ v.name) = (name, rn) := ⟨_, _, rfl⟩
    have new : name ∉ st.renamer.used ∧ rn.used = name :: st.renamer.used := by
      have := st.renamer.rename_not_mem ("_" ++ v.name)
      have used := st.renamer.rename_used ("_" ++ v.name)
      rw [head] at this used
      exact ⟨this, used⟩
    obtain ⟨b', hb'⟩ : ∃ b', (b.substitute [(v, skolemTerm ⟨name, skolemSort fvs v⟩ fvs)]).getD b = b' := ⟨_, rfl⟩
    have term := @skolemTerm_spec ⟨name, skolemSort fvs v⟩ fvs v rfl
    rw [List.forall_mem_cons] at clear
    -- the body of the next round
    have next : b'.OfSort s ∧ b'.Formed ∧ (∀ y, b'.bindersAround y = b.bindersAround y) ∧
        (∀ x ∈ b'.freeVariables, x ∈ b.freeVariables ∧ (x = v → x ∉ free) ∨ x ∈ fvs) ∧
        (∀ {syms : List Const} {body : Expr}, (⟨name, skolemSort fvs v⟩ : Const) ∈ syms →
          Replaced (fvs.map Variable.name) syms b' body → Replaced (fvs.map Variable.name) syms b body) ∧
        ∀ {D : Domain} (M : Structure D) (env : Env D) (x : El D v.sort),
          (skolemTerm ⟨name, skolemSort fvs v⟩ fvs).eval M env = ⟨v.sort, x⟩ →
          ∃ env', env.Off [v] env' ∧ (v ∈ free → env' v = x) ∧ b'.eval M env = b.eval M env' := by
      rcases getD_substitute sort formed term.sort with ⟨captures, eq⟩ | ⟨captures, eq⟩
      · rw [eq] at hb'
        subst hb'
        have flat : ∀ p ∈ [(v, skolemTerm ⟨name, skolemSort fvs v⟩ fvs)], p.2.Flat := List.forall_mem_singleton.mpr term.flat
        refine ⟨(substitute_eq_replace sort formed (List.forall_mem_singleton.mpr term.sort) captures).2,
          formed_replace flat formed, fun y => bindersAround_replace flat y b, fun x hx => ?_, fun mem rest => ?_, ?_⟩
        · rcases mem_freeVariables_replace_single sort hx with ⟨old, other⟩ | new
          · exact .inl ⟨old, fun same => absurd same other⟩
          · exact .inr (term.vars x new)
        · exact .head term.flat term.sort captures (fun x hx => List.mem_map_of_mem (term.vars x hx))
            (fun c hc => term.symbols c hc ▸ mem) rest
        · intro D M env x value
          exact ⟨_, Env.Off.update (fun _ _ => rfl) v x, fun _ => Function.update_self _ _ _,
            eval_replace_single sort formed term.sort captures M env value⟩
      · rw [eq] at hb'
        subst hb'
        have bound : v ∉ free := fun mem => captures fun p hp x hx => by
          cases List.mem_singleton.mp hp
          exact clear.1 mem x (term.vars x hx)
        exact ⟨sort, formed, fun _ => rfl, fun x hx => .inl ⟨hx, fun same => same ▸ bound⟩, fun _ rest => rest,
          fun M env x _ => ⟨env, fun _ _ => rfl, fun mem => absurd mem bound, rfl⟩⟩
    obtain ⟨sort', formed', around, vars, replaced, value⟩ := next
    obtain ⟨syms, body, rn', eq, sub, fresh, distinct, sorts, rest, vars', value'⟩ :=
      @ih b' { st with renamer := rn, skfuns := st.skfuns ++ [⟨name, skolemSort fvs v⟩] } sort' formed'
        fun w hw mem => around w ▸ clear.2 w hw mem
    have used : st.renamer.used ⊆ rn.used := new.2 ▸ List.subset_cons_self _ _
    refine ⟨⟨name, skolemSort fvs v⟩ :: syms, body, rn', ?_, List.Subset.trans used sub, ?_, ?_, ?_, ?_, ?_, ?_⟩
    · simp only [skolemizeVars, head, hb', eq, List.append_assoc, List.singleton_append]
    · rw [List.forall_mem_cons]
      exact ⟨⟨new.1, sub (new.2 ▸ List.mem_cons_self)⟩, fun c hc => ⟨fun mem => (fresh c hc).1 (used mem), (fresh c hc).2⟩⟩
    · rw [List.map_cons, List.nodup_cons]
      refine ⟨fun mem => ?_, distinct⟩
      obtain ⟨c, hc, same⟩ := List.mem_map.mp mem
      exact (fresh c hc).1 (same ▸ new.2 ▸ List.mem_cons_self)
    · rw [List.map_cons, List.map_cons, sorts]
    · refine replaced List.mem_cons_self (rest.mono fun c hc => List.mem_cons_of_mem _ hc)
    · intro x hx
      rcases vars' x hx with ⟨mem, other⟩ | mem
      · rcases vars x mem with ⟨here, notV⟩ | mem
        · exact .inl ⟨here, fun hv => (List.mem_cons.mp hv).elim notV other⟩
        · exact .inr mem
      · exact .inr mem
    · intro D M w nodup keeps terms env
      rw [List.nodup_cons] at nodup
      rw [List.zip_cons_cons, List.forall_mem_cons] at terms
      obtain ⟨env₁, off₁, vals₁, eq₁⟩ := value' M w nodup.2
        (fun env env' off => keeps env env' (off.mono (List.subset_cons_self _ _))) terms.2 env
      have same : w env₁ = w env := keeps env env₁ (off₁.mono (List.subset_cons_self _ _))
      obtain ⟨env₂, off₂, val₂, eq₂⟩ := value M env₁ _ (terms.1 env₁)
      refine ⟨env₂, fun x hx => ?_, fun x hx mem => ?_, eq₁.trans eq₂⟩
      · rw [List.mem_cons, not_or] at hx
        rw [off₂ x (by simpa using hx.1), off₁ x hx.2]
      · rcases List.mem_cons.mp hx with rfl | hx
        · rw [val₂ mem, same]
        · have other : x ≠ v := fun same => nodup.1 (same ▸ hx)
          rw [off₂ x (by simpa using other), vals₁ x hx mem]

end Goivy
