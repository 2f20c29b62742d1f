import Goivy.Proof.Reinterpretation
import Goivy.Proof.SkolemLoops

/-! `SkolemizeFmla` is sound where no substitution would capture a variable. -/
namespace Goivy

open Expr

/-- The output `q` says at least as much as the input `p` in a positive position, and follows from it in a negative one. -/
def Improves (pos : Bool) (p q : Prop) : Prop := if pos then q → p else p → q

theorem Improves.refl (pos : Bool) (p : Prop) : Improves pos p p := by
  cases pos <;> exact id

theorem Improves.trans {pos : Bool} {p q r : Prop} (h : Improves pos p q) (h' : Improves pos q r) : Improves pos p r := by
  cases pos with
  | true => exact fun hr => h (h' hr)
  | false => exact fun hp => h' (h hp)

section

variable {D : Domain}

theorem holds_ivyExists (M : Structure D) (env : Env D) (vs : List Variable) (e : Expr) :
    (ivyExists vs e).Holds M env ↔ ∃ env', env.Off vs env' ∧ e.Holds M env' := by
  rw [ivyExists]
  split
  · rename_i none
    subst none
    refine ⟨fun h => ⟨env, fun _ _ => rfl, h⟩, fun ⟨env', off, h⟩ => ?_⟩
    obtain rfl : env' = env := funext fun v => off v List.not_mem_nil
    exact h
  · simp only [holds_exists, Env.off_deduplicateAndSortVars]

theorem holds_ivyForAll (M : Structure D) (env : Env D) (vs : List Variable) (e : Expr) :
    (ivyForAll vs e).Holds M env ↔ ∀ env', env.Off vs env' → e.Holds M env' := by
  rw [ivyForAll]
  split
  · rename_i none
    subst none
    refine ⟨fun h env' off => ?_, fun h => h env fun _ _ => rfl⟩
    obtain rfl : env' = env := funext fun v => off v List.not_mem_nil
    exact h
  · simp only [holds_forAll, Env.off_deduplicateAndSortVars]

theorem mem_deduplicateAndSortVars {v : Variable} {vs : List Variable} : v ∈ deduplicateAndSortVars vs ↔ v ∈ vs := by
  simp [deduplicateAndSortVars]

theorem freeVariables_ivyExists {vs : List Variable} {e : Expr} {x : Variable} :
    x ∈ (ivyExists vs e).freeVariables ↔ x ∈ e.freeVariables ∧ x ∉ vs := by
  rw [ivyExists]
  split
  · rename_i none
    simp [none]
  · simp [freeVariables, mem_deduplicateAndSortVars]

theorem freeVariables_ivyForAll {vs : List Variable} {e : Expr} {x : Variable} :
    x ∈ (ivyForAll vs e).freeVariables ↔ x ∈ e.freeVariables ∧ x ∉ vs := by
  rw [ivyForAll]
  split
  · rename_i none
    simp [none]
  · simp [freeVariables, mem_deduplicateAndSortVars]

theorem symbols_ivyExists (vs : List Variable) (e : Expr) : (ivyExists vs e).symbols = e.symbols := by
  rw [ivyExists]
  split <;> rfl

theorem symbols_ivyForAll (vs : List Variable) (e : Expr) : (ivyForAll vs e).symbols = e.symbols := by
  rw [ivyForAll]
  split <;> rfl

open Classical in
/-- The assignment `env`, as far as a Skolem symbol for `vs` over `fvs` can see it. -/
noncomputable def Env.seen (env₀ : Env D) (fvs vs : List Variable) (env : Env D) : Env D :=
  fun x => if x ∈ fvs ∧ x ∉ vs then env x else env₀ x

theorem Env.seen_congr {env₀ env env' : Env D} {fvs vs : List Variable} (agree : ∀ x ∈ fvs, x ∉ vs → env' x = env x) :
    Env.seen env₀ fvs vs env' = Env.seen env₀ fvs vs env := by
  funext x
  simp only [Env.seen]
  split
  · rename_i mem
    exact agree x mem.1 mem.2
  · rfl

/-- Skolem symbols can be given meanings such that their terms are a good choice for `vs` wherever there is one. -/
theorem exists_skolem (M : Structure D) (env₀ : Env D) {vs fvs : List Variable} {syms : List Const}
    (distinct : (syms.map Const.name).Nodup) (sorts : syms.map Const.sort = vs.map (skolemSort fvs))
    (good : Env D → Prop) : ∃ (M' : Structure D) (w : Env D → Env D), AgreeOff (· ∈ syms) M M' ∧
      (∀ env env', env.Off vs env' → w env' = w env) ∧
      (∀ p ∈ vs.zip syms, ∀ env : Env D, (skolemTerm p.2 fvs).eval M' env = ⟨p.1.sort, w env p.1⟩) ∧
      ∀ env, (∃ env', (Env.seen env₀ fvs vs env).Off vs env' ∧ good env') →
        (Env.seen env₀ fvs vs env).Off vs (w env) ∧ good (w env) := by
  classical
  obtain ⟨w, hw⟩ : ∃ w : Env D → Env D, ∀ env, (∃ env', env.Off vs env' ∧ good env') → env.Off vs (w env) ∧ good (w env) := by
    refine ⟨fun env => if h : ∃ env', env.Off vs env' ∧ good env' then h.choose else env, fun env h => ?_⟩
    simp only [dif_pos h]
    exact h.choose_spec
  have length : vs.length = syms.length := by
    have := congrArg List.length sorts
    rw [List.length_map, List.length_map] at this
    exact this.symm
  have sort : ∀ p ∈ vs.zip syms, p.2.sort = skolemSort fvs p.1 := by
    have pairs : List.Forall₂ (fun s t => s = t) (vs.map (skolemSort fvs)) (syms.map Const.sort) := by
      rw [sorts, List.forall₂_same]
      exact fun _ _ => rfl
    rw [List.forall₂_map_left_iff, List.forall₂_map_right_iff] at pairs
    exact fun p hp => (List.forall₂_zip pairs hp).symm
  -- a Skolem symbol looks up an assignment that gives the outer variables the values of its arguments
  let meaning (v : Variable) (vals : List (Val D)) : Val D :=
    ⟨v.sort, if h : ∃ env : Env D, vals = fvs.map fun x => ⟨x.sort, env x⟩ then w (Env.seen env₀ fvs vs h.choose) v
      else Classical.arbitrary _⟩
  obtain ⟨M', agree, values⟩ := exists_meanings M ((vs.zip syms).map fun p => (p.2, meaning p.1))
    (by
      have names : ((vs.zip syms).map fun p => p.2.name) = syms.map Const.name := by
        rw [← List.map_snd_zip length.ge, List.map_map, List.map_snd_zip length.ge]
        rfl
      simpa [Function.comp_def, names] using distinct)
    (List.forall_mem_map.mpr fun p hp vals => by
      show p.1.sort = p.2.sort.range
      rw [sort p hp, skolemSort]
      split <;> rfl)
  rw [List.forall_mem_map] at values
  refine ⟨M', fun env => w (Env.seen env₀ fvs vs env), ?_, ?_, ?_, fun env h => hw _ h⟩
  · have all : ((vs.zip syms).map fun p => (p.2, meaning p.1)).map Prod.fst = syms := by
      rw [List.map_map]
      exact List.map_snd_zip length.ge
    rwa [all] at agree
  · exact fun env env' off => congrArg w (Env.seen_congr fun x _ other => off x other)
  · intro p hp env
    rw [(skolemTerm_spec (sort p hp)).value]
    have fits : (fvs.map fun x => (⟨x.sort, env x⟩ : Val D)).map Sigma.fst = p.2.sort.domain := by
      rw [sort p hp, skolemSort, List.map_map]
      split
      · rename_i none
        rw [none]
        rfl
      · rfl
    rw [values p hp _ fits]
    have h : ∃ env' : Env D, (fvs.map fun x => (⟨x.sort, env x⟩ : Val D)) = fvs.map fun x => ⟨x.sort, env' x⟩ := ⟨env, rfl⟩
    have agree : ∀ x ∈ fvs, h.choose x = env x := fun x hx =>
      eq_of_heq (Sigma.mk.inj (List.map_inj_left.mp h.choose_spec x hx)).2.symm
    simp only [meaning, dif_pos h]
    rw [Env.seen_congr fun x hx _ => agree x hx]

end

/-- A subformula that `SkolemizeFmla` comes to, with the free variables `whole` of the whole formula. The variables
`free` are fixed, those of `outer` are under a quantifier that stays. -/
structure Skolemizable (prenex : Bool) (whole free outer : List Variable) (st : SkolemState) (pos : Bool) (e : Expr) :
    Prop where
  sort : e.OfSort .boolean
  formed : e.Formed
  known : ∀ c ∈ e.symbols, c.name ∈ st.renamer.used
  scope : ∀ x ∈ e.freeVariables, x ∈ outer ∨ x ∈ free
  clash : e.ClashFree prenex whole pos st.vu outer

/-- What `SkolemizeFmla` has made of some formulas, each in its position, between two states: `syms` are the new symbols. -/
structure Skolemized (prenex : Bool) (whole free outer : List Variable) (st : SkolemState)
    (items : List (Bool × Expr × Expr)) (syms : List Const) (st' : SkolemState) : Prop where
  used : st.renamer.used ⊆ st'.renamer.used
  skfuns : st'.skfuns = st.skfuns ++ syms
  fresh : ∀ c ∈ syms, c.name ∉ st.renamer.used ∧ c.name ∈ st'.renamer.used
  pulled : st.univs ⊆ st'.univs
  univs : ∀ u ∈ st'.univs, u ∈ st.univs ∨ prenex = true ∧ u ∉ whole
  symbols : ∀ i ∈ items, ∀ c ∈ i.2.2.symbols, c ∈ i.2.1.symbols ∨ c ∈ syms
  vars : ∀ i ∈ items, ∀ x ∈ i.2.2.freeVariables, x ∈ i.2.1.freeVariables ∨ x ∈ outer ∨ x ∈ st'.univs
  plain : prenex = true → ∀ i ∈ items, i.2.1.PlainLeaves → i.2.2.isQuantifierFree = true
  sound : ∀ {D : Domain} (M : Structure D) (env₀ : Env D), ∃ M', AgreeOff (· ∈ syms) M M' ∧
    ∀ env, (∀ x ∈ free, env x = env₀ x) → ∀ i ∈ items, Improves i.1 (i.2.1.Holds M env) (i.2.2.Holds M' env)

namespace Skolemized

variable {prenex : Bool} {whole free outer : List Variable} {st st' st'' : SkolemState}
  {items items' : List (Bool × Expr × Expr)} {syms syms' : List Const}

theorem nil (prenex : Bool) (whole free outer : List Variable) (st : SkolemState) :
    Skolemized prenex whole free outer st [] [] st :=
  ⟨List.Subset.refl _, (List.append_nil _).symm, by simp, List.Subset.refl _, fun _ => .inl, by simp, by simp, by simp,
    fun M _ => ⟨M, .refl _ M, by simp⟩⟩

/-- A formula that is left as it is. -/
theorem leaf (prenex : Bool) (whole free outer : List Variable) (st : SkolemState) (pos : Bool) {e : Expr}
    (plain : e.PlainLeaves → e.isQuantifierFree = true) :
    Skolemized prenex whole free outer st [(pos, e, e)] [] st := by
  refine ⟨List.Subset.refl _, (List.append_nil _).symm, by simp, List.Subset.refl _, fun _ => .inl, ?_, ?_, ?_, ?_⟩
  · exact List.forall_mem_singleton.mpr fun c hc => .inl hc
  · exact List.forall_mem_singleton.mpr fun x hx => .inl hx
  · exact fun _ => List.forall_mem_singleton.mpr plain
  · exact fun M _ => ⟨M, .refl _ M, fun env _ => List.forall_mem_singleton.mpr (Improves.refl pos _)⟩

/-- The formulas one after the other: later symbols are unknown to earlier formulas, and earlier symbols to later ones. -/
theorem append (h : Skolemized prenex whole free outer st items syms st')
    (h' : Skolemized prenex whole free outer st' items' syms' st'')
    (known : ∀ i ∈ items ++ items', ∀ c ∈ i.2.1.symbols, c.name ∈ st.renamer.used) :
    Skolemized prenex whole free outer st (items ++ items') (syms ++ syms') st'' := by
  rw [List.forall_mem_append] at known
  refine ⟨List.Subset.trans h.used h'.used, by rw [h'.skfuns, h.skfuns, List.append_assoc], ?_,
    List.Subset.trans h.pulled h'.pulled, ?_, ?_, ?_, ?_, ?_⟩
  · refine List.forall_mem_append.mpr ⟨fun c hc => ⟨(h.fresh c hc).1, h'.used (h.fresh c hc).2⟩, fun c hc => ?_⟩
    exact ⟨fun mem => (h'.fresh c hc).1 (h.used mem), (h'.fresh c hc).2⟩
  · intro u hu
    rcases h'.univs u hu with mem | new
    · exact h.univs u mem
    · exact .inr new
  · refine List.forall_mem_append.mpr ⟨fun i hi c hc => ?_, fun i hi c hc => ?_⟩
    · exact (h.symbols i hi c hc).imp id (List.mem_append_left _)
    · exact (h'.symbols i hi c hc).imp id (List.mem_append_right _)
  · refine List.forall_mem_append.mpr ⟨fun i hi x hx => ?_, fun i hi x hx => h'.vars i hi x hx⟩
    exact (h.vars i hi x hx).imp id (Or.imp id (h'.pulled ·))
  · exact fun p => List.forall_mem_append.mpr ⟨h.plain p, h'.plain p⟩
  · intro D M env₀
    obtain ⟨M₁, agree₁, sound₁⟩ := h.sound M env₀
    obtain ⟨M₂, agree₂, sound₂⟩ := h'.sound M₁ env₀
    have old {c : Const} (hc : c.name ∈ st'.renamer.used) : SameAt M₁ M₂ c :=
      agree₂ c fun mem => (h'.fresh c mem).1 hc
    have older {c : Const} (hc : c.name ∈ st.renamer.used) : SameAt M M₁ c :=
      agree₁ c fun mem => (h.fresh c mem).1 hc
    refine ⟨M₂, fun c hc => ?_, fun env fixed => List.forall_mem_append.mpr ⟨fun i hi => ?_, fun i hi => ?_⟩⟩
    · exact (agree₁ c fun mem => hc (List.mem_append_left _ mem)).trans
        (agree₂ c fun mem => hc (List.mem_append_right _ mem))
    · have same : i.2.2.eval M₁ = i.2.2.eval M₂ := eval_congr fun c hc => old <|
        (h.symbols i hi c hc).elim (fun mem => h.used (known.1 i hi c mem)) fun mem => (h.fresh c mem).2
      rw [Expr.Holds, Expr.Holds, ← same]
      exact sound₁ env fixed i hi
    · have same : i.2.1.eval M = i.2.1.eval M₁ := eval_congr fun c hc => older (known.2 i hi c hc)
      rw [Expr.Holds, same]
      exact sound₂ env fixed i hi

/-- A connective over the formulas. -/
theorem wrap (h : Skolemized prenex whole free outer st items syms st') {pos : Bool} {e e' : Expr}
    (symbols : ∀ c ∈ e'.symbols, ∃ i ∈ items, c ∈ i.2.2.symbols) (symbols' : ∀ i ∈ items, i.2.1.symbols ⊆ e.symbols)
    (vars : ∀ x ∈ e'.freeVariables, ∃ i ∈ items, x ∈ i.2.2.freeVariables)
    (vars' : ∀ i ∈ items, i.2.1.freeVariables ⊆ e.freeVariables)
    (plain : e.PlainLeaves → ∀ i ∈ items, i.2.1.PlainLeaves)
    (plain' : (∀ i ∈ items, i.2.2.isQuantifierFree = true) → e'.isQuantifierFree = true)
    (truth : ∀ {D : Domain} (M M' : Structure D) (env : Env D),
      (∀ i ∈ items, Improves i.1 (i.2.1.Holds M env) (i.2.2.Holds M' env)) → Improves pos (e.Holds M env) (e'.Holds M' env)) :
    Skolemized prenex whole free outer st [(pos, e, e')] syms st' := by
  refine ⟨h.used, h.skfuns, h.fresh, h.pulled, h.univs, ?_, ?_, ?_, ?_⟩
  · refine List.forall_mem_singleton.mpr fun c hc => ?_
    obtain ⟨i, hi, mem⟩ := symbols c hc
    exact (h.symbols i hi c mem).imp (symbols' i hi ·) id
  · refine List.forall_mem_singleton.mpr fun x hx => ?_
    obtain ⟨i, hi, mem⟩ := vars x hx
    exact (h.vars i hi x mem).imp (vars' i hi ·) id
  · exact fun p => List.forall_mem_singleton.mpr fun leaves => plain' fun i hi => h.plain p i hi (plain leaves i hi)
  · intro D M env₀
    obtain ⟨M', agree, sound⟩ := h.sound M env₀
    exact ⟨M', agree, fun env fixed => List.forall_mem_singleton.mpr (truth M M' env (sound env fixed))⟩

end Skolemized

section

variable (visit : Expr → List Variable → List Variable) (prenex : Bool) (whole : List Variable) (n : Nat)

/-- The recursion does its work on formulas of a depth. -/
def SkolemizesTo : Prop :=
  ∀ (e : Expr) (pos : Bool) (free outer : List Variable) (st : SkolemState),
    Skolemizable prenex whole free outer st pos e → e.skolemDepth ≤ n → (∀ x ∈ outer, x.name ∈ st.vu.used) →
      ∃ e' st' syms, skolemizeRec visit prenex n e pos outer st = (e', st') ∧ st'.vu = e.namesAfter pos st.vu ∧
        Skolemized prenex whole free outer st [(pos, e, e')] syms st'

end

section

variable {visit : Expr → List Variable → List Variable} {prenex : Bool} {whole : List Variable} {n : Nat}

theorem Skolemizable.mono {free outer : List Variable} {st st' : SkolemState} {pos : Bool} {e : Expr}
    (h : Skolemizable prenex whole free outer st pos e) (used : st.renamer.used ⊆ st'.renamer.used)
    (clash : e.ClashFree prenex whole pos st'.vu outer) : Skolemizable prenex whole free outer st' pos e :=
  ⟨h.sort, h.formed, fun c hc => used (h.known c hc), h.scope, clash⟩

/-- The subformulas of a conjunction or a disjunction. -/
theorem traverseTerms_spec (ih : SkolemizesTo visit prenex whole n) (pos : Bool) (free outer : List Variable)
    {ts : List Expr} {st : SkolemState}
    (each : ∀ t ∈ ts, t.OfSort .boolean ∧ t.Formed ∧ (∀ c ∈ t.symbols, c.name ∈ st.renamer.used) ∧
      (∀ x ∈ t.freeVariables, x ∈ outer ∨ x ∈ free) ∧ t.skolemDepth ≤ n)
    (clash : ClashFreeList prenex whole ts pos st.vu outer) (named : ∀ x ∈ outer, x.name ∈ st.vu.used) :
    ∃ (items : List (Bool × Expr × Expr)) (st' : SkolemState) (syms : List Const),
      traverseTerms (fun t st => skolemizeRec visit prenex n t pos outer st) ts st = (items.map (·.2.2), st') ∧
      items.map (·.2.1) = ts ∧ (∀ i ∈ items, i.1 = pos) ∧ st'.vu = namesAfterList ts pos st.vu ∧
      Skolemized prenex whole free outer st items syms st' := by
  induction ts generalizing st with
  | nil => exact ⟨[], st, [], rfl, rfl, by simp, rfl, .nil prenex whole free outer st⟩
  | cons t ts tail =>
    rw [List.forall_mem_cons] at each
    obtain ⟨⟨sort, formed, known, scope, depth⟩, rest⟩ := each
    obtain ⟨t', st₁, syms, eq, names, head⟩ := ih t pos free outer st ⟨sort, formed, known, scope, clash.1⟩ depth named
    obtain ⟨items, st₂, syms', eq', terms, same, names', later⟩ := @tail st₁
      (fun u hu => ⟨(rest u hu).1, (rest u hu).2.1, fun c hc => head.used ((rest u hu).2.2.1 c hc), (rest u hu).2.2.2⟩)
      (names ▸ clash.2) fun x hx => names ▸ namesAfter_used t pos st.vu (named x hx)
    refine ⟨(pos, t, t') :: items, st₂, syms ++ syms', ?_, ?_, ?_, ?_, ?_⟩
    · simp only [traverseTerms, eq, eq', List.map_cons]
    · rw [List.map_cons, terms]
    · exact List.forall_mem_cons.mpr ⟨rfl, same⟩
    · rw [names', namesAfterList, names]
    · refine head.append later ?_
      rw [List.forall_mem_append, List.forall_mem_singleton]
      refine ⟨known, fun i hi => (rest i.2.1 ?_).2.2.1⟩
      exact terms ▸ List.mem_map_of_mem hi

variable {pos : Bool} {free outer : List Variable} {st : SkolemState}

theorem skolemizeRec_not (ih : SkolemizesTo visit prenex whole n) {a : Expr}
    (h : Skolemizable prenex whole free outer st pos (.not a)) (depth : a.skolemDepth ≤ n)
    (named : ∀ x ∈ outer, x.name ∈ st.vu.used) :
    ∃ e' st' syms, skolemizeRec visit prenex (n + 1) (.not a) pos outer st = (e', st') ∧
      st'.vu = (Expr.not a).namesAfter pos st.vu ∧
      Skolemized prenex whole free outer st [(pos, .not a, e')] syms st' := by
  obtain ⟨a', st₁, syms, eq, names, inner⟩ := ih a (!pos) free outer st ⟨h.sort.2, h.formed, h.known, h.scope, h.clash⟩ depth named
  refine ⟨.not a', st₁, syms, by simp only [skolemizeRec, eq], names, inner.wrap ?_ ?_ ?_ ?_ ?_ ?_ ?_⟩
  · exact fun c hc => ⟨_, List.mem_cons_self, hc⟩
  · exact List.forall_mem_singleton.mpr (List.Subset.refl _)
  · exact fun x hx => ⟨_, List.mem_cons_self, hx⟩
  · exact List.forall_mem_singleton.mpr (List.Subset.refl _)
  · exact fun leaves => List.forall_mem_singleton.mpr leaves
  · exact fun plain => plain _ List.mem_cons_self
  · intro D M M' env improves
    have := List.forall_mem_singleton.mp improves
    rw [holds_not, holds_not]
    cases pos with
    | true => exact fun out inn => out (this inn)
    | false => exact fun inn out => inn (this out)

theorem skolemizeRec_implies (ih : SkolemizesTo visit prenex whole n) {a b : Expr}
    (h : Skolemizable prenex whole free outer st pos (.implies a b)) (depth : a.skolemDepth ≤ n) (depth' : b.skolemDepth ≤ n)
    (named : ∀ x ∈ outer, x.name ∈ st.vu.used) :
    ∃ e' st' syms, skolemizeRec visit prenex (n + 1) (.implies a b) pos outer st = (e', st') ∧
      st'.vu = (Expr.implies a b).namesAfter pos st.vu ∧
      Skolemized prenex whole free outer st [(pos, .implies a b, e')] syms st' := by
  obtain ⟨-, sortA, sortB⟩ := h.sort
  have known : (∀ c ∈ a.symbols, c.name ∈ st.renamer.used) ∧ ∀ c ∈ b.symbols, c.name ∈ st.renamer.used :=
    List.forall_mem_append.mp h.known
  have scope : (∀ x ∈ a.freeVariables, x ∈ outer ∨ x ∈ free) ∧ ∀ x ∈ b.freeVariables, x ∈ outer ∨ x ∈ free :=
    List.forall_mem_append.mp h.scope
  obtain ⟨a', st₁, syms, eq, names, left⟩ :=
    ih a (!pos) free outer st ⟨sortA, h.formed.1, known.1, scope.1, h.clash.1⟩ depth named
  obtain ⟨b', st₂, syms', eq', names', right⟩ := ih b pos free outer st₁
    ⟨sortB, h.formed.2, fun c hc => left.used (known.2 c hc), scope.2, names ▸ h.clash.2⟩ depth'
    fun x hx => names ▸ namesAfter_used a _ st.vu (named x hx)
  have both := left.append right (by simpa using known)
  refine ⟨.implies a' b', st₂, _, by simp only [skolemizeRec, eq, eq'], by rw [names', names]; rfl, both.wrap ?_ ?_ ?_ ?_ ?_ ?_ ?_⟩
  · intro c hc
    simpa [Expr.symbols] using hc
  · simp [Expr.symbols]
  · intro x hx
    simpa [freeVariables] using hx
  · simp [freeVariables]
  · exact fun leaves => by simpa [PlainLeaves] using leaves
  · exact fun plain => by simpa [isQuantifierFree] using plain
  · intro D M M' env improves
    have left := improves (!pos, a, a') (by simp)
    have right := improves (pos, b, b') (by simp)
    rw [holds_implies, holds_implies]
    cases pos with
    | true => exact fun out inn => right (out (left inn))
    | false => exact fun inn out => right (inn (left out))

/-- A conjunction or a disjunction. -/
theorem skolemizeRec_terms (ih : SkolemizesTo visit prenex whole n) {quant : List Expr → Expr} {ts : List Expr}
    (junction : quant = .and ∨ quant = .or) (h : Skolemizable prenex whole free outer st pos (quant ts))
    (depth : skolemDepthList ts ≤ n) (named : ∀ x ∈ outer, x.name ∈ st.vu.used) :
    ∃ e' st' syms, skolemizeRec visit prenex (n + 1) (quant ts) pos outer st = (e', st') ∧
      st'.vu = (quant ts).namesAfter pos st.vu ∧
      Skolemized prenex whole free outer st [(pos, quant ts, e')] syms st' := by
  have shape : (∀ us, (quant us).symbols = symbolsList us) ∧ (∀ us, (quant us).freeVariables = freeVariablesList us) ∧
      (∀ us, (quant us).PlainLeaves = AllPlainLeaves us) ∧
      (∀ us, (quant us).isQuantifierFree = allQuantifierFree us) ∧
      (quant ts).namesAfter pos st.vu = namesAfterList ts pos st.vu := by
    rcases junction with rfl | rfl <;> exact ⟨fun _ => rfl, fun _ => rfl, fun _ => rfl, fun _ => rfl, rfl⟩
  obtain ⟨symbols, vars, leaves, plain, names⟩ := shape
  have each : ∀ t ∈ ts, t.OfSort .boolean ∧ t.Formed ∧ (∀ c ∈ t.symbols, c.name ∈ st.renamer.used) ∧
      (∀ x ∈ t.freeVariables, x ∈ outer ∨ x ∈ free) ∧ t.skolemDepth ≤ n := by
    intro t ht
    have sort : t.OfSort .boolean := by
      rcases junction with rfl | rfl <;> exact ofSorts_map.mp h.sort.2 t ht
    have formed : t.Formed := by
      rcases junction with rfl | rfl <;> exact allFormed_iff.mp h.formed t ht
    refine ⟨sort, formed, fun c hc => h.known c ?_, fun x hx => h.scope x ?_, Nat.le_trans (le_skolemDepthList ht) depth⟩
    · rw [symbols, symbolsList_eq_flatMap]
      exact List.mem_flatMap.mpr ⟨t, ht, hc⟩
    · rw [vars, freeVariablesList_eq_flatMap]
      exact List.mem_flatMap.mpr ⟨t, ht, hx⟩
  have clash : ClashFreeList prenex whole ts pos st.vu outer := by
    rcases junction with rfl | rfl <;> exact h.clash
  obtain ⟨items, st', syms, eq, terms, same, names', inner⟩ := traverseTerms_spec ih pos free outer each clash named
  refine ⟨quant (items.map (·.2.2)), st', syms, ?_, by rw [names', names], inner.wrap ?_ ?_ ?_ ?_ ?_ ?_ ?_⟩
  · rcases junction with rfl | rfl <;> simp only [skolemizeRec, eq]
  · intro c hc
    rw [symbols, symbolsList_eq_flatMap, List.flatMap_map] at hc
    exact List.mem_flatMap.mp hc
  · intro i hi c hc
    rw [symbols, symbolsList_eq_flatMap, ← terms]
    exact List.mem_flatMap.mpr ⟨i.2.1, List.mem_map_of_mem hi, hc⟩
  · intro x hx
    rw [vars, freeVariablesList_eq_flatMap, List.flatMap_map] at hx
    exact List.mem_flatMap.mp hx
  · intro i hi x hx
    rw [vars, freeVariablesList_eq_flatMap, ← terms]
    exact List.mem_flatMap.mpr ⟨i.2.1, List.mem_map_of_mem hi, hx⟩
  · intro all i hi
    rw [leaves, allPlainLeaves_iff, ← terms] at all
    exact all i.2.1 (List.mem_map_of_mem hi)
  · intro all
    rw [plain, allQuantifierFree_iff, List.forall_mem_map]
    exact all
  · intro D M M' env improves
    subst terms
    have each : ∀ i ∈ items, Improves pos (i.2.1.Holds M env) (i.2.2.Holds M' env) := fun i hi => same i hi ▸ improves i hi
    rcases junction with rfl | rfl
    · simp only [holds_and, List.forall_mem_map]
      cases pos with
      | true => exact fun out i hi => each i hi (out i hi)
      | false => exact fun inn i hi => each i hi (inn i hi)
    · simp only [holds_or, List.mem_map, exists_exists_and_eq_and]
      cases pos with
      | true =>
        rintro ⟨i, hi, out⟩
        exact ⟨i, hi, each i hi out⟩
      | false =>
        rintro ⟨i, hi, inn⟩
        exact ⟨i, hi, each i hi inn⟩

end

section

variable {visit : Expr → List Variable → List Variable} {prenex : Bool} {whole : List Variable} {n : Nat}
  {pos : Bool} {free outer : List Variable} {st : SkolemState} {vs : List Variable} {a : Expr}

/-- The quantifier that is skolemized in a position, if `stays` is false, or the one that stays. -/
def quantifierAt (pos stays : Bool) : List Variable → Expr → Expr := if pos = stays then .exists else .forAll

theorem mem_outerVarsInFormula (order : ∀ e xs, (visit e xs).Perm xs) {e : Expr} {x : Variable} :
    x ∈ outerVarsInFormula visit e outer ↔ x ∈ e.allVariables ∧ x ∈ outer := by
  rw [outerVarsInFormula, (order _ _).mem_iff]
  simp

theorem freeVariables_quantifierAt (pos stays : Bool) (vs : List Variable) (a : Expr) :
    (quantifierAt pos stays vs a).freeVariables = a.freeVariables.filter (· ∉ vs) := by
  rw [quantifierAt]
  split <;> rfl

theorem mem_allVariables_quantifierAt {stays : Bool} {x : Variable} (hx : x ∈ a.freeVariables) :
    x ∈ (quantifierAt pos stays vs a).allVariables := by
  rw [quantifierAt]
  split <;> exact List.mem_append_right _ (freeVariables_subset_allVariables a hx)

/-- The choice of the Skolem symbols is good for the whole body, wherever the quantifier allows a good choice. -/
theorem good_choice {D : Domain} {env₀ env env' : Env D} {fvs : List Variable} {w : Env D → Env D} {good : Env D → Prop}
    (respects : ∀ env env' : Env D, (∀ x ∈ a.freeVariables, env x = env' x) → (good env → good env'))
    (chosen : (∃ env', (Env.seen env₀ fvs vs env).Off vs env' ∧ good env') →
      (Env.seen env₀ fvs vs env).Off vs (w env) ∧ good (w env))
    (visible : ∀ x ∈ a.freeVariables, x ∉ vs → x ∈ fvs ∨ env x = env₀ x)
    (off : env.Off vs env') (values : ∀ v ∈ vs, v ∈ a.freeVariables → env' v = w env v)
    (some : ∃ env₁, env.Off vs env₁ ∧ good env₁) : good env' := by
  have seen : ∀ x ∈ a.freeVariables, x ∉ vs → Env.seen env₀ fvs vs env x = env x := by
    intro x hx other
    simp only [Env.seen]
    split
    · rfl
    · rename_i hidden
      exact ((visible x hx other).resolve_left fun mem => hidden ⟨mem, other⟩).symm
  obtain ⟨env₁, off₁, good₁⟩ := some
  obtain ⟨env₂, off₂, bound, agree⟩ := off₁.transfer fun x hx other => (seen x hx other).symm
  obtain ⟨offW, goodW⟩ := chosen ⟨env₂, off₂, respects _ _ (fun x hx => (agree x hx).symm) good₁⟩
  refine respects _ _ (fun x hx => ?_) goodW
  by_cases hv : x ∈ vs
  · exact (values x hv hx).symm
  · rw [offW x hv, seen x hx hv, off x hv]

theorem skolemizeRec_skolemize (order : ∀ e xs, (visit e xs).Perm xs) (ih : SkolemizesTo visit prenex whole n)
    (h : Skolemizable prenex whole free outer st pos (quantifierAt pos false vs a)) (depth : a.skolemDepth ≤ n)
    (named : ∀ x ∈ outer, x.name ∈ st.vu.used) :
    ∃ e' st' syms, skolemizeRec visit prenex (n + 1) (quantifierAt pos false vs a) pos outer st = (e', st') ∧
      st'.vu = (quantifierAt pos false vs a).namesAfter pos st.vu ∧
      Skolemized prenex whole free outer st [(pos, quantifierAt pos false vs a, e')] syms st' := by
  obtain ⟨fvs, hfvs⟩ : ∃ fvs, outerVarsInFormula visit (quantifierAt pos false vs a) outer = fvs := ⟨_, rfl⟩
  have mem_fvs : ∀ x, x ∈ fvs ↔ x ∈ (quantifierAt pos false vs a).allVariables ∧ x ∈ outer := fun x =>
    hfvs ▸ mem_outerVarsInFormula order
  have facts : a.OfSort .boolean ∧ vs.Nodup ∧ a.Formed ∧ (∀ c ∈ a.symbols, c.name ∈ st.renamer.used) ∧
      SkolemClear vs a outer ∧ a.ClashFree prenex whole pos st.vu outer ∧
      (∀ {e : Expr}, e.symbols ⊆ a.symbols → e.symbols ⊆ (quantifierAt pos false vs a).symbols) ∧
      ((quantifierAt pos false vs a).PlainLeaves → a.PlainLeaves) ∧
      (quantifierAt pos false vs a).namesAfter pos st.vu = a.namesAfter pos st.vu ∧
      skolemizeRec visit prenex (n + 1) (quantifierAt pos false vs a) pos outer st =
        skolemizeRec visit prenex n (skolemizeVars fvs vs a st).1 pos outer (skolemizeVars fvs vs a st).2 := by
    subst hfvs
    cases pos with
    | true => exact ⟨h.sort.2, nodup_of_deduplicateAndSortVars h.formed.2.1, h.formed.2.2, h.known, h.clash.1, h.clash.2,
        id, id, rfl, rfl⟩
    | false => exact ⟨h.sort.2, nodup_of_deduplicateAndSortVars h.formed.2.1, h.formed.2.2, h.known, h.clash.1, h.clash.2,
        id, id, rfl, rfl⟩
  obtain ⟨sort, nodup, formed, known, clear, clash, symbols, leaves, names, unfold⟩ := facts
  obtain ⟨syms, body, rn, eq, used, fresh, distinct, sorts, replaced, vars, value⟩ :=
    @skolemizeVars_spec fvs vs a.freeVariables a .boolean st sort formed
      fun v hv mem x hx => clear v hv mem x ((mem_fvs x).mp hx).2
  obtain ⟨sort', formed'⟩ := replaced.ofSort sort formed
  have scope' : ∀ x ∈ body.freeVariables, x ∈ (quantifierAt pos false vs a).freeVariables ∨ x ∈ outer := by
    intro x hx
    rcases vars x hx with ⟨mem, other⟩ | mem
    · refine .inl ?_
      rw [freeVariables_quantifierAt]
      exact List.mem_filter.mpr ⟨mem, by simpa using fun hv => other hv mem⟩
    · exact .inr ((mem_fvs x).mp mem).2
  have older : fvs.map Variable.name ⊆ st.vu.used := by
    intro name hname
    obtain ⟨x, hx, rfl⟩ := List.mem_map.mp hname
    exact named x ((mem_fvs x).mp hx).2
  obtain ⟨e', st', syms', eq', names', inner⟩ := ih body pos free outer { st with renamer := rn, skfuns := st.skfuns ++ syms }
    ⟨sort', formed', fun c hc => (replaced.symbols sort formed c hc).elim (fun mem => used (known c mem)) fun mem => (fresh c mem).2,
      fun x hx => (scope' x hx).elim (h.scope x) .inl, replaced.clashFree sort formed older clash⟩
    (replaced.skolemDepth ▸ depth) named
  refine ⟨e', st', syms ++ syms', by rw [unfold, eq]; exact eq', by rw [names', replaced.namesAfter, names], ?_⟩
  refine ⟨List.Subset.trans used inner.used, by rw [inner.skfuns, List.append_assoc], ?_, inner.pulled, inner.univs, ?_, ?_, ?_, ?_⟩
  · refine List.forall_mem_append.mpr ⟨fun c hc => ⟨(fresh c hc).1, inner.used (fresh c hc).2⟩, fun c hc => ?_⟩
    exact ⟨fun mem => (inner.fresh c hc).1 (used mem), (inner.fresh c hc).2⟩
  · refine List.forall_mem_singleton.mpr fun c hc => ?_
    rcases inner.symbols _ List.mem_cons_self c hc with mem | mem
    · rcases replaced.symbols sort formed c mem with old | new
      · exact .inl (symbols (List.Subset.refl _) old)
      · exact .inr (List.mem_append_left _ new)
    · exact .inr (List.mem_append_right _ mem)
  · refine List.forall_mem_singleton.mpr fun x hx => ?_
    rcases inner.vars _ List.mem_cons_self x hx with mem | mem
    · exact (scope' x mem).imp id .inl
    · exact .inr mem
  · exact fun p => List.forall_mem_singleton.mpr fun all =>
      inner.plain p (pos, body, e') List.mem_cons_self (replaced.plainLeaves (leaves all))
  · intro D M env₀
    -- in a positive position a good choice makes the body false, in a negative one true
    obtain ⟨M₁, w, agree, keeps, terms, chosen⟩ :=
      @exists_skolem D M env₀ vs fvs syms distinct sorts fun env => (a.Holds M env ↔ pos = false)
    obtain ⟨M', agree', sound⟩ := inner.sound M₁ env₀
    refine ⟨M', fun c hc => ?_, fun env fixed => List.forall_mem_singleton.mpr ?_⟩
    · exact (agree c fun mem => hc (List.mem_append_left _ mem)).trans
        (agree' c fun mem => hc (List.mem_append_right _ mem))
    refine Improves.trans ?_ (sound env fixed (pos, body, e') List.mem_cons_self)
    obtain ⟨env', off, values, eval⟩ := value M₁ w nodup keeps terms env
    have same : a.eval M₁ = a.eval M :=
      (eval_congr fun c hc => agree c fun mem => (fresh c mem).1 (known c hc)).symm
    have body' : body.Holds M₁ env ↔ a.Holds M env' := by rw [Expr.Holds, eval, same, Expr.Holds]
    have visible : ∀ x ∈ a.freeVariables, x ∉ vs → x ∈ fvs ∨ env x = env₀ x := by
      intro x hx other
      have mem : x ∈ (quantifierAt pos false vs a).freeVariables := by
        rw [freeVariables_quantifierAt]
        exact List.mem_filter.mpr ⟨hx, by simpa using other⟩
      exact (h.scope x mem).imp (fun out => (mem_fvs x).mpr ⟨mem_allVariables_quantifierAt hx, out⟩) (fixed x)
    have good := good_choice (a := a) (fun env env' agree holds => by
      rwa [Expr.Holds, ← eval_freeVariables M agree]) (chosen env) visible off values
    cases pos with
    | true =>
      rw [quantifierAt, if_neg (by decide), holds_forAll]
      intro hbody env₁ off₁
      by_contra false
      exact absurd (body'.mp hbody) (by simpa using good ⟨env₁, off₁, by simpa using false⟩)
    | false =>
      rw [quantifierAt, if_pos rfl, holds_exists]
      rintro ⟨env₁, off₁, true⟩
      exact body'.mpr (by simpa using good ⟨env₁, off₁, by simpa using true⟩)

/-- The quantifier over the new variables, where it is not pulled out. -/
def ivyQuantifierAt (pos : Bool) (us : List Variable) (e : Expr) : Expr := if pos then ivyExists us e else ivyForAll us e

theorem freeVariables_ivyQuantifierAt {pos : Bool} {us : List Variable} {e : Expr} {x : Variable} :
    x ∈ (ivyQuantifierAt pos us e).freeVariables ↔ x ∈ e.freeVariables ∧ x ∉ us := by
  cases pos
  · exact freeVariables_ivyForAll
  · exact freeVariables_ivyExists

theorem symbols_ivyQuantifierAt (pos : Bool) (us : List Variable) (e : Expr) : (ivyQuantifierAt pos us e).symbols = e.symbols := by
  cases pos
  · exact symbols_ivyForAll us e
  · exact symbols_ivyExists us e

/-- A quantifier over variables that are not free in `e` keeps what the formula under it is good for. -/
theorem improves_ivyQuantifierAt {D : Domain} {M M' : Structure D} {pos : Bool} {us : List Variable} {e ψ : Expr}
    {env : Env D} (closed : ∀ u ∈ us, u ∉ e.freeVariables)
    (each : ∀ env', env.Off us env' → Improves pos (e.Holds M env') (ψ.Holds M' env')) :
    Improves pos (e.Holds M env) ((ivyQuantifierAt pos us ψ).Holds M' env) := by
  have same : ∀ env', env.Off us env' → (e.Holds M env' ↔ e.Holds M env) := fun env' off => by
    rw [Expr.Holds, Expr.Holds, eval_freeVariables M fun x hx => off x fun mem => closed x mem hx]
  cases pos with
  | true =>
    refine fun out => ?_
    obtain ⟨env', off, inn⟩ := (holds_ivyExists M' env us ψ).mp out
    exact (same env' off).mp (each env' off inn)
  | false => exact fun inn => (holds_ivyForAll M' env us ψ).mpr fun env' off => each env' off ((same env' off).mpr inn)

theorem skolemizeRec_universalize (ih : SkolemizesTo visit prenex whole n)
    (h : Skolemizable prenex whole free outer st pos (quantifierAt pos true vs a)) (depth : a.skolemDepth ≤ n)
    (named : ∀ x ∈ outer, x.name ∈ st.vu.used) :
    ∃ e' st' syms, skolemizeRec visit prenex (n + 1) (quantifierAt pos true vs a) pos outer st = (e', st') ∧
      st'.vu = (quantifierAt pos true vs a).namesAfter pos st.vu ∧
      Skolemized prenex whole free outer st [(pos, quantifierAt pos true vs a, e')] syms st' := by
  obtain ⟨us, hus⟩ : ∃ us, (newVariables st.vu vs).1 = us := ⟨_, rfl⟩
  have facts : a.OfSort .boolean ∧ a.Formed ∧ (∀ c ∈ a.symbols, c.name ∈ st.renamer.used) ∧
      RenameClear vs a us (if prenex then whole else (quantifierAt pos true vs a).freeVariables) ∧
      a.ClashFree prenex whole pos (newVariables st.vu vs).2 (outer ++ us) ∧
      (a.symbols = (quantifierAt pos true vs a).symbols) ∧
      ((quantifierAt pos true vs a).PlainLeaves → a.PlainLeaves) ∧
      (quantifierAt pos true vs a).namesAfter pos st.vu = a.namesAfter pos (newVariables st.vu vs).2 ∧
      skolemizeRec visit prenex (n + 1) (quantifierAt pos true vs a) pos outer st =
        (let made := universalizeVars prenex vs a st
        let res := skolemizeRec visit prenex n made.2.1 pos (outer ++ made.1) made.2.2
        (if prenex then res.1 else ivyQuantifierAt pos made.1 res.1, res.2)) := by
    subst hus
    cases pos with
    | true => exact ⟨h.sort.2, h.formed.2.2, h.known, h.clash.1, h.clash.2, rfl, id, rfl, rfl⟩
    | false => exact ⟨h.sort.2, h.formed.2.2, h.known, h.clash.1, h.clash.2, rfl, id, rfl, rfl⟩
  obtain ⟨sort, formed, known, clear, clash, symbols, leaves, names, unfold⟩ := facts
  obtain ⟨body, eq, replaced, vars, value⟩ := @universalizeVars_spec prenex vs a a .boolean st [] [] sort formed
    (hus.symm ▸ clear.1) fun x hx => .inl ⟨hx, List.not_mem_nil⟩
  simp only [hus, List.nil_append] at eq vars
  obtain ⟨sort', formed'⟩ := replaced.ofSort sort formed
  have vars' : ∀ x ∈ body.freeVariables, x ∈ (quantifierAt pos true vs a).freeVariables ∨ x ∈ us := by
    intro x hx
    refine (vars x hx).imp (fun here => ?_) id
    rw [freeVariables_quantifierAt]
    exact List.mem_filter.mpr ⟨here.1, by simpa using here.2⟩
  have named' : ∀ x ∈ outer ++ us, x.name ∈ (newVariables st.vu vs).2.used :=
    List.forall_mem_append.mpr ⟨fun x hx => newVariables_used _ _ (named x hx),
      fun u hu => newVariables_mem_used st.vu vs u (hus.symm ▸ hu)⟩
  have scope' : ∀ x ∈ body.freeVariables, x ∈ outer ++ us ∨ x ∈ free.filter (· ∉ us) := by
    intro x hx
    by_cases new : x ∈ us
    · exact .inl (List.mem_append_right _ new)
    · rcases h.scope x ((vars' x hx).resolve_right new) with out | fixed
      · exact .inl (List.mem_append_left _ out)
      · exact .inr (List.mem_filter.mpr ⟨fixed, by simpa using new⟩)
  obtain ⟨e', st', syms, eq', names', inner⟩ := ih body pos (free.filter (· ∉ us)) (outer ++ us)
    { st with vu := (newVariables st.vu vs).2, univs := st.univs ++ if prenex then us else [] }
    ⟨sort', formed', fun c hc => (replaced.symbols sort formed c hc).elim (known c) (by simp), scope',
      replaced.clashFree sort formed (List.Subset.refl _) clash⟩
    (replaced.skolemDepth ▸ depth) named'
  have result : (if prenex then e' else ivyQuantifierAt pos us e').symbols = e'.symbols := by
    split
    · rfl
    · exact symbols_ivyQuantifierAt pos us e'
  refine ⟨if prenex then e' else ivyQuantifierAt pos us e', st', syms, by simp only [unfold, eq, eq'],
    by rw [names', replaced.namesAfter, names], ?_⟩
  have pulled : st.univs ⊆ st'.univs := List.Subset.trans (List.subset_append_left _ _) inner.pulled
  refine ⟨inner.used, inner.skfuns, inner.fresh, pulled, fun u hu => ?_, ?_, ?_, fun p => ?_, fun M env₀ => ?_⟩
  · rcases inner.univs u hu with mem | new
    · rcases List.mem_append.mp mem with old | new
      · exact .inl old
      · cases prenex with
        | true => exact .inr ⟨rfl, clear.2 u new⟩
        | false => exact absurd new List.not_mem_nil
    · exact .inr new
  · refine List.forall_mem_singleton.mpr fun c hc => ?_
    rw [result] at hc
    refine (inner.symbols _ List.mem_cons_self c hc).imp (fun mem => ?_) id
    exact symbols ▸ (replaced.symbols sort formed c mem).resolve_right List.not_mem_nil
  · refine List.forall_mem_singleton.mpr fun x hx => ?_
    have kept : x ∈ e'.freeVariables ∧ (x ∈ us → x ∈ st'.univs) := by
      cases prenex with
      | true => exact ⟨hx, fun new => inner.pulled (List.mem_append_right _ new)⟩
      | false =>
        obtain ⟨mem, other⟩ := freeVariables_ivyQuantifierAt.mp hx
        exact ⟨mem, fun new => absurd new other⟩
    rcases inner.vars _ List.mem_cons_self x kept.1 with mem | mem | mem
    · exact (vars' x mem).imp id fun new => .inr (kept.2 new)
    · exact .inr ((List.mem_append.mp mem).imp id kept.2)
    · exact .inr (.inr mem)
  · refine List.forall_mem_singleton.mpr fun all => ?_
    subst p
    exact inner.plain rfl (pos, body, e') List.mem_cons_self (replaced.plainLeaves (leaves all))
  · obtain ⟨M', agree, sound⟩ := inner.sound M env₀
    refine ⟨M', agree, fun env fixed => List.forall_mem_singleton.mpr ?_⟩
    have instance' : ∀ env, Improves pos ((quantifierAt pos true vs a).Holds M env) (body.Holds M env) := by
      intro env
      obtain ⟨env', off, eval⟩ := value M env
      rw [Expr.Holds, Expr.Holds, eval]
      cases pos with
      | true => exact fun holds => (holds_exists M env vs a).mpr ⟨env', off, holds⟩
      | false => exact fun holds => (holds_forAll M env vs a).mp holds env' off
    have each : ∀ env', env.Off us env' → Improves pos ((quantifierAt pos true vs a).Holds M env') (e'.Holds M' env') := by
      intro env' off
      refine (instance' env').trans (sound env' (fun x hx => ?_) (pos, body, e') List.mem_cons_self)
      obtain ⟨mem, other⟩ := List.mem_filter.mp hx
      rw [off x (by simpa using other)]
      exact fixed x mem
    cases prenex with
    | true => exact each env fun _ _ => rfl
    | false => exact improves_ivyQuantifierAt clear.2 each

theorem skolemizesTo (order : ∀ e xs, (visit e xs).Perm xs) (n : Nat) : SkolemizesTo visit prenex whole n := by
  have leaf {e : Expr} {pos : Bool} {free outer : List Variable} {st : SkolemState} (n : Nat)
      (same : skolemizeRec visit prenex n e pos outer st = (e, st)) (names : e.namesAfter pos st.vu = st.vu)
      (plain : e.PlainLeaves → e.isQuantifierFree = true) :
      ∃ e' st' syms, skolemizeRec visit prenex n e pos outer st = (e', st') ∧ st'.vu = e.namesAfter pos st.vu ∧
        Skolemized prenex whole free outer st [(pos, e, e')] syms st' :=
    ⟨e, st, [], same, names.symm, .leaf prenex whole free outer st pos plain⟩
  induction n with
  | zero =>
    intro e pos free outer st h depth named
    cases e with
    | not | implies | and | or | forAll | «exists» => simp [skolemDepth] at depth
    | _ => exact leaf 0 rfl rfl id
  | succ n ih =>
    intro e pos free outer st h depth named
    cases e with
    | not a => exact skolemizeRec_not ih h (Nat.le_of_succ_le_succ depth) named
    | implies a b =>
      have depth := Nat.le_of_succ_le_succ depth
      exact skolemizeRec_implies ih h (Nat.le_trans (Nat.le_max_left _ _) depth)
        (Nat.le_trans (Nat.le_max_right _ _) depth) named
    | and ts => exact skolemizeRec_terms ih (.inl rfl) h (Nat.le_of_succ_le_succ depth) named
    | or ts => exact skolemizeRec_terms ih (.inr rfl) h (Nat.le_of_succ_le_succ depth) named
    | forAll vs a =>
      cases pos with
      | true => exact skolemizeRec_skolemize order ih h (Nat.le_of_succ_le_succ depth) named
      | false => exact skolemizeRec_universalize ih h (Nat.le_of_succ_le_succ depth) named
    | «exists» vs a =>
      cases pos with
      | true => exact skolemizeRec_universalize ih h (Nat.le_of_succ_le_succ depth) named
      | false => exact skolemizeRec_skolemize order ih h (Nat.le_of_succ_le_succ depth) named
    | _ => exact leaf (n + 1) rfl rfl id

end

end Goivy
