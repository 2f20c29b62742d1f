import Goivy.Mc.Elimination

/-! What one call of the quantifier elimination does: the expression keeps its value, and the
constraints that it adds are true, where the propositions mean their quantifiers. -/
namespace Goivy

/-- The propositions are numbered in the order in which they were made. -/
def Qelim.Numbered (q : Qelim) : Prop :=
  q.syms.map Prod.snd = (List.range q.symsCtr).reverse.map qeConst

/-- More propositions are known, and they are numbered on. -/
structure Qelim.Extends (q q' : Qelim) : Prop where
  syms : q.syms <:+ q'.syms
  numbered : q.Numbered → q'.Numbered

namespace Qelim.Extends

variable {q q' q'' : Qelim}

theorem refl (q : Qelim) : q.Extends q := ⟨List.suffix_rfl, id⟩

theorem trans (h : q.Extends q') (h' : q'.Extends q'') : q.Extends q'' :=
  ⟨h.syms.trans h'.syms, h'.numbered ∘ h.numbered⟩

theorem fresh (key : String) (constraints : List Expr) (q : Qelim) :
    q.Extends ((q.fresh key).2.constrain constraints) where
  syms := List.suffix_cons _ _
  numbered h := by
    simp only [Numbered] at h
    simp [Numbered, Qelim.fresh, constrain, List.range_succ, h]

end Qelim.Extends

/-- Everything on the right of related lists is related to something on the left. -/
theorem exists_of_forall₂ {α β : Type} {R : α → β → Prop} {xs : List α} {ys : List β}
    (h : List.Forall₂ R xs ys) : ∀ y ∈ ys, ∃ x ∈ xs, R x y := by
  induction h with
  | nil => simp
  | @cons x y xs ys head _ ih =>
    intro z hz
    rcases List.mem_cons.mp hz with rfl | hz
    · exact ⟨x, List.mem_cons_self, head⟩
    · obtain ⟨w, hw, related⟩ := ih z hz
      exact ⟨w, List.mem_cons_of_mem _ hw, related⟩

variable {D : Domain}

/-- Every proposition has the value of the quantifiers of its key. -/
def Qelim.Meaning (N : Structure D) (V : Expr → Prop) (q : Qelim) : Prop :=
  ∀ k c, (k, c) ∈ q.syms → ∀ e, V e → e.key = some k →
    ∀ env, (Expr.const c).eval N env = e.eval N env

def Qelim.Constraints (N : Structure D) (q : Qelim) : Prop := ∀ f ∈ q.fmlas, f.Valid N

theorem Qelim.Meaning.mono {N : Structure D} {V : Expr → Prop} {q q' : Qelim}
    (h : q'.Meaning N V) (extend : q.Extends q') : q.Meaning N V :=
  fun k c hc => h k c (extend.syms.subset hc)

/-- The effect of a call that takes `e` to `e'` and `q` to `q'`. -/
structure Qelim.Effect (N : Structure D) (V : Expr → Prop) (e e' : Expr) (q q' : Qelim) : Prop where
  extend : q.Extends q'
  eval : q'.Meaning N V → q.Constraints N → ∀ env, e'.eval N env = e.eval N env
  constraints : q'.Meaning N V → q.Constraints N → q'.Constraints N

/-- The effect of a loop. -/
structure Qelim.ListEffect (N : Structure D) (V : Expr → Prop) (ts us : List Expr) (q q' : Qelim) :
    Prop where
  extend : q.Extends q'
  eval : q'.Meaning N V → q.Constraints N →
    List.Forall₂ (fun t u => ∀ env, u.eval N env = t.eval N env) ts us
  constraints : q'.Meaning N V → q.Constraints N → q'.Constraints N

theorem qeList_effect {N : Structure D} {V : Expr → Prop} {qe : Expr → Qelim → Option (Expr × Qelim)}
    {ts : List Expr} (step : ∀ t ∈ ts, ∀ q u q', qe t q = some (u, q') → Qelim.Effect N V t u q q')
    {us : List Expr} {q q' : Qelim} (h : qeList qe ts q = some (us, q')) :
    Qelim.ListEffect N V ts us q q' := by
  induction ts generalizing us q with
  | nil =>
    cases h
    exact ⟨.refl _, fun _ _ => .nil, fun _ => id⟩
  | cons t ts ih =>
    simp only [qeList, Option.bind_eq_bind, Option.bind_eq_some_iff, Prod.exists] at h
    obtain ⟨u, q₁, hu, us, q₂, hus, h⟩ := h
    cases h
    have head := step t List.mem_cons_self q u q₁ hu
    have tail := ih (fun w hw => step w (List.mem_cons_of_mem _ hw)) hus
    exact ⟨head.extend.trans tail.extend,
      fun meaning valid => .cons (head.eval (meaning.mono tail.extend) valid)
        (tail.eval meaning (head.constraints (meaning.mono tail.extend) valid)),
      fun meaning valid => tail.constraints meaning (head.constraints (meaning.mono tail.extend) valid)⟩

theorem qeList_defined {qe : Expr → Qelim → Option (Expr × Qelim)} {ts : List Expr}
    (step : ∀ t ∈ ts, ∀ q, (qe t q).isSome) (q : Qelim) : (qeList qe ts q).isSome := by
  induction ts generalizing q with
  | nil => rfl
  | cons t ts ih =>
    obtain ⟨⟨u, q₁⟩, hu⟩ := Option.isSome_iff_exists.mp (step t List.mem_cons_self q)
    obtain ⟨⟨us, q₂⟩, hus⟩ := Option.isSome_iff_exists.mp
      (ih (fun w hw => step w (List.mem_cons_of_mem _ hw)) q₁)
    simp [qeList, hu, hus]

theorem Expr.Ground.compares {t : Expr} (ground : t.Ground) {s : FSort} (sort : t.HasSort [] s) :
    ∀ c ∈ t.symbols, c.Compares := by
  cases ground with
  | const c =>
    simp only [Expr.symbols, List.forall_mem_singleton]
    intro _ domain range function
    rw [show c.sort = .first s from sort] at function
    contradiction
  | fls | tru => simp [Expr.fls, Expr.tru, Expr.symbols, symbolsList]

theorem evalList_of_forall₂ {N : Structure D} {ts us : List Expr} (env : Env D)
    (same : List.Forall₂ (fun t u => ∀ env, u.eval N env = t.eval N env) ts us) :
    evalList N us env = evalList N ts env := by
  induction same with
  | nil => rfl
  | cons head _ tail => rw [evalList, evalList, head, tail]

namespace QelimConfig

variable (cfg : QelimConfig) (table : InsMap String (List Const))

/-- The expressions that `QE` comes to from `root`. -/
inductive Visits (root : Expr) : Expr → Prop
  | root : Visits root root
  | expansion {e e' : Expr} : Visits root e → cfg.usePolymorphicMacros = true → e.isMacro = true →
      e.expandMacro = some e' → Visits root e'
  | child {e t : Expr} : Visits root e → e.binder = none → t ∈ e.children → Visits root t
  | instance {e : Expr} {vs : List Variable} {body : Expr} {isForall : Bool} {combo : List Expr} :
      Visits root e → e.binder = some (vs, body, isForall) → combo ∈ cfg.combos table vs →
      Visits root (body.substituteByName (instanceMap vs combo))

/-- A closed well-sorted expression without fresh propositions, whose bound variables have
sorts of `S`. -/
structure Admissible (S : FSort → Prop) (e : Expr) : Prop where
  sort : ∃ s, e.HasSort [] s
  fresh : ∀ c ∈ e.symbols, ¬ IsQe c
  compares : cfg.usePolymorphicMacros = true → ∀ c ∈ e.symbols, c.Compares
  binders : ∀ s ∈ e.binderSorts, S s

variable {cfg table} {S : FSort → Prop} {e : Expr}

theorem Visits.trans {root x : Expr} (h : cfg.Visits table root e) (h' : cfg.Visits table e x) :
    cfg.Visits table root x := by
  induction h' with
  | root => exact h
  | expansion _ use isMacro expand ih => exact .expansion ih use isMacro expand
  | child _ plain mem ih => exact .child ih plain mem
  | «instance» _ quantifier mem ih => exact .instance ih quantifier mem

theorem Admissible.child (h : cfg.Admissible S e) (plain : e.binder = none) :
    ∀ t ∈ e.children, cfg.Admissible S t := by
  obtain ⟨s, sort⟩ := h.sort
  intro t ht
  obtain ⟨sort, symbols, binders, -⟩ := Expr.child_spec sort plain t ht
  exact ⟨sort, fun c hc => h.fresh c (symbols hc), fun use c hc => h.compares use c (symbols hc),
    fun s hs => h.binders s (binders hs)⟩

theorem not_isQe_lt (sort : LSort) : ¬ IsQe ⟨"<", sort⟩ := by
  rintro ⟨n, h⟩
  have name : "<" = qeName n := congrArg Const.name h
  have chars := congrArg (fun s => s.toList.head?) name
  simp [qeName] at chars

theorem Admissible.expansion (h : cfg.Admissible S e) (use : cfg.usePolymorphicMacros = true)
    (isMacro : e.isMacro = true) : ∃ e', e.expandMacro = some e' ∧ cfg.Admissible S e' ∧
      e'.depth < e.depth ∧ ∀ {D : Domain} {N : Structure D}, N.ReadsMacros → e'.eval N = e.eval N := by
  obtain ⟨s, sort⟩ := h.sort
  obtain ⟨e', expand, sort', symbols, binders, depth, eval⟩ :=
    Expr.expandMacro_spec sort isMacro (h.compares use)
  refine ⟨e', expand, ⟨sort', fun c hc => ?_, fun _ c hc => ?_, fun s hs => h.binders s (binders hs)⟩,
    depth, eval⟩
  · rcases symbols c hc with old | lt
    · exact h.fresh c old
    · obtain ⟨name, sort⟩ := c
      cases lt
      exact not_isQe_lt sort
  · rcases symbols c hc with old | lt
    · exact h.compares use c old
    · intro named
      rw [lt] at named
      exact absurd named (by decide)

section instances

variable {vs : List Variable} {body : Expr} {isForall : Bool}

theorem Admissible.quantified (h : cfg.Admissible S e) (quantifier : e.binder = some (vs, body, isForall)) :
    (vs.map Variable.name).Nodup ∧ body.HasSort vs .boolean ∧ (∀ v ∈ vs, S v.sort) ∧
      e.symbols = body.symbols ∧ (∀ s ∈ body.binderSorts, S s) ∧ e.depth = 1 + body.depth := by
  obtain ⟨s, sort⟩ := h.sort
  have binders := h.binders
  cases e <;> simp only [Expr.binder, Option.some.injEq, Prod.mk.injEq, reduceCtorEq] at quantifier
  all_goals
    obtain ⟨rfl, rfl, rfl⟩ := quantifier
    simp only [Expr.binderSorts, List.forall_mem_append, List.forall_mem_map] at binders
    exact ⟨sort.2.1, by simpa using sort.2.2, binders.1, rfl, binders.2, rfl⟩

theorem groundValues (listed : ∀ s, S s → cfg.Listed table s) (sorts : ∀ v ∈ vs, S v.sort)
    {combo : List Expr} (mem : combo ∈ cfg.combos table vs) :
    ∀ t ∈ combo, t.Ground ∧ ∀ c ∈ t.symbols, ¬ IsQe c := by
  rw [mem_combos] at mem
  induction mem with
  | nil => simp
  | @cons t v combo vs head _ ih =>
    have here := listed v.sort (sorts v List.mem_cons_self)
    rw [List.forall_mem_cons]
    exact ⟨⟨here.ground t head, here.fresh t head⟩, ih fun w hw => sorts w (List.mem_cons_of_mem _ hw)⟩

theorem Admissible.inst (h : cfg.Admissible S e) (listed : ∀ s, S s → cfg.Listed table s)
    (quantifier : e.binder = some (vs, body, isForall)) {combo : List Expr}
    (mem : combo ∈ cfg.combos table vs) :
    cfg.Admissible S (body.substituteByName (instanceMap vs combo)) ∧
      (body.substituteByName (instanceMap vs combo)).depth < e.depth := by
  obtain ⟨nodup, sort, sorts, symbols, binders, depth⟩ := h.quantified quantifier
  have ground := groundValues listed sorts mem
  have values : Expr.GroundValues (instanceMap vs combo) :=
    instanceMap_ground fun t ht => (ground t ht).1
  have proper := proper_of_mem_combos (fun v hv => listed v.sort (sorts v hv)) mem
  have sorted : ∀ t ∈ combo, ∃ s, t.HasSort [] s := fun t ht =>
    have ⟨v, _, _, sort⟩ := exists_of_forall₂ proper.flip t ht
    ⟨v.sort, sort⟩
  have member : ∀ p ∈ instanceMap vs combo, p.2 ∈ combo := fun p hp =>
    (List.of_mem_zip (List.mem_reverse.mp hp)).2
  refine ⟨⟨⟨_, Expr.hasSort_substituteByName sort (instantiates_instanceMap nodup proper)⟩, ?_, ?_, ?_⟩,
    ?_⟩
  · intro c hc
    rcases Expr.mem_symbols_substituteByName hc with old | ⟨p, hp, hc⟩
    · exact h.fresh c (symbols ▸ old)
    · exact (ground _ (member p hp)).2 c hc
  · intro use c hc
    rcases Expr.mem_symbols_substituteByName hc with old | ⟨p, hp, hc⟩
    · exact h.compares use c (symbols ▸ old)
    · obtain ⟨s, sort⟩ := sorted _ (member p hp)
      exact Expr.Ground.compares (ground _ (member p hp)).1 sort c hc
  · rwa [Expr.binderSorts_substituteByName values]
  · rw [Expr.depth_substituteByName values]
    omega

end instances

/-- The values listed for a sort are all its elements. -/
def Exact (cfg : QelimConfig) (table : InsMap String (List Const)) (N : Structure D) (s : FSort) :
    Prop :=
  ∀ x : El D s, ∃ t ∈ cfg.listedValues table s, ∀ env, t.eval N env = ⟨s, x⟩

theorem qe_quantifier {vs : List Variable} {body : Expr} {isForall : Bool}
    (quantifier : e.binder = some (vs, body, isForall)) (fuel : Nat) (q : Qelim) :
    cfg.qe table (fuel + 1) e q =
      cfg.qeQuantifier table (cfg.qe table fuel) vs body isForall q := by
  cases e <;> simp only [Expr.binder, Option.some.injEq, Prod.mk.injEq, reduceCtorEq] at quantifier
  all_goals
    obtain ⟨rfl, rfl, rfl⟩ := quantifier
    rfl

theorem qe_plain (plain : e.binder = none) (fuel : Nat) (q : Qelim) :
    cfg.qe table (fuel + 1) e q =
      if cfg.usePolymorphicMacros && e.isMacro then e.expandMacro.bind fun x => cfg.qe table fuel x q
      else if e.children.isEmpty then some (e, q)
      else (qeList (cfg.qe table fuel) e.children q).bind fun r => some (e.cloneNormal r.1, r.2) := by
  cases e with
  | forAll | «exists» => simp [Expr.binder] at plain
  | _ => rfl

section effect

variable {N : Structure D} {V : Expr → Prop} {vs : List Variable} {body : Expr} {isForall : Bool}
  (admissible : cfg.Admissible S e) (quantifier : e.binder = some (vs, body, isForall))
  (listed : ∀ s, S s → cfg.Listed table s)

/-- The instances of a quantifier. -/
def insts (cfg : QelimConfig) (table : InsMap String (List Const)) (vs : List Variable) (body : Expr) :
    List Expr := (cfg.combos table vs).map fun combo => body.substituteByName (instanceMap vs combo)

include admissible quantifier listed

theorem eval_finite (exact : ∀ v ∈ vs, cfg.Exact table N v.sort) (env : Env D) :
    (if isForall then Expr.and (cfg.insts table vs body) else .or (cfg.insts table vs body)).eval N env =
      e.eval N env := by
  obtain ⟨nodup, sort, sorts, -⟩ := admissible.quantified quantifier
  have listed := fun v hv => listed v.sort (sorts v hv)
  have values : ∀ v ∈ vs, ∀ x : El D v.sort, ∃ t ∈ cfg.listedValues table v.sort,
      t.eval N env = ⟨v.sort, x⟩ := by
    intro v hv x
    obtain ⟨t, ht, eval⟩ := exact v hv x
    exact ⟨t, ht, eval env⟩
  have some_instance := fun env' => exists_instance nodup sort listed values env'
  cases e <;> simp only [Expr.binder, Option.some.injEq, Prod.mk.injEq, reduceCtorEq] at quantifier
  · obtain ⟨rfl, rfl, rfl⟩ := quantifier
    simp only [if_true, Expr.eval, evalList_eq_map, insts, List.map_map, List.forall_mem_map]
    refine congrArg Val.ofProp (propext ⟨fun h env' off => ?_, fun h combo mem => ?_⟩)
    · obtain ⟨combo, mem, same⟩ := some_instance env'
      exact same.mp (h combo mem)
    · exact holds_forAll_instances nodup sort listed mem ((Expr.holds_forAll N env _ _).mpr h)
  · obtain ⟨rfl, rfl, rfl⟩ := quantifier
    simp only [Bool.false_eq_true, if_false, Expr.eval, evalList_eq_map, insts, List.map_map,
      List.mem_map, exists_exists_and_eq_and]
    refine congrArg Val.ofProp (propext ⟨?_, ?_⟩)
    · rintro ⟨combo, mem, h⟩
      exact (Expr.holds_exists N env _ _).mp (holds_exists_of_instance nodup sort listed mem h)
    · rintro ⟨env', off, h⟩
      obtain ⟨combo, mem, same⟩ := some_instance env'
      exact ⟨combo, mem, same.mpr h⟩

/-- A quantifier constrains its instances. -/
theorem holds_instance {inst : Expr} (mem : inst ∈ cfg.insts table vs body) (env : Env D) :
    if isForall then (e.Holds N env → inst.Holds N env) else (inst.Holds N env → e.Holds N env) := by
  obtain ⟨nodup, sort, sorts, -⟩ := admissible.quantified quantifier
  have listed := fun v hv => listed v.sort (sorts v hv)
  obtain ⟨combo, chosen, rfl⟩ := List.mem_map.mp mem
  cases e <;> simp only [Expr.binder, Option.some.injEq, Prod.mk.injEq, reduceCtorEq] at quantifier
  all_goals obtain ⟨rfl, rfl, rfl⟩ := quantifier
  · exact holds_forAll_instances nodup sort listed chosen
  · exact holds_exists_of_instance nodup sort listed chosen

theorem qeQuantifier_effect (exact : ∀ s, S s → cfg.isFiniteSort s = true → cfg.Exact table N s)
    (visited : V e) {qe : Expr → Qelim → Option (Expr × Qelim)}
    (step : ∀ inst ∈ cfg.insts table vs body, ∀ q u q', qe inst q = some (u, q') →
      Qelim.Effect N V inst u q q') {e' : Expr} {q q' : Qelim}
    (run : cfg.qeQuantifier table qe vs body isForall q = some (e', q')) :
    Qelim.Effect N V e e' q q' := by
  obtain ⟨-, -, sorts, -⟩ := admissible.quantified quantifier
  have key : e.key = some (quantifierKey vs body isForall) := by rw [Expr.key, quantifier]; rfl
  unfold qeQuantifier at run
  split at run
  · rename_i old known
    cases run
    exact ⟨.refl q, fun meaning _ => meaning _ _ (InsMap.mem_of_lookup known) e visited key,
      fun _ => id⟩
  · rw [instances_eq fun v hv => listed v.sort (sorts v hv)] at run
    simp only [Option.bind_eq_bind, Option.bind_some] at run
    rw [Option.bind_eq_some_iff] at run
    obtain ⟨⟨us, q₁⟩, loop, run⟩ := run
    have inner := qeList_effect step loop
    simp only at run
    split at run
    · rename_i finite
      rw [List.all_eq_true] at finite
      cases run
      refine ⟨inner.extend, fun meaning valid env => ?_, inner.constraints⟩
      have values := evalList_of_forall₂ env (inner.eval meaning valid)
      rw [← eval_finite admissible quantifier listed
        (fun v hv => exact v.sort (sorts v hv) (finite v hv)) env]
      split <;> simp only [Expr.eval, values]
    · cases run
      have extend := Qelim.Extends.fresh (quantifierKey vs body isForall)
        (us.map fun inst => if isForall = true then Expr.implies (.const (qeConst q₁.symsCtr)) inst
          else Expr.implies inst (.const (qeConst q₁.symsCtr))) q₁
      refine ⟨inner.extend.trans extend, fun meaning _ => ?_, fun meaning valid => ?_⟩
      · exact meaning _ _ List.mem_cons_self e visited key
      · have res := meaning _ _ List.mem_cons_self e visited key
        have meaning := meaning.mono extend
        have same := inner.eval meaning valid
        refine List.forall_mem_append.mpr ⟨inner.constraints meaning valid, ?_⟩
        rw [List.forall_mem_map]
        intro u hu env
        obtain ⟨inst, mem, eval⟩ := exists_of_forall₂ same u hu
        have constrains := holds_instance (N := N) admissible quantifier listed mem env
        have holds : (Expr.const (q₁.fresh (quantifierKey vs body isForall)).1).Holds N env ↔
            e.Holds N env :=
          Expr.holds_congr N env (res env)
        have holds' : u.Holds N env ↔ inst.Holds N env := Expr.holds_congr N env (eval env)
        split
        · rename_i all
          rw [if_pos all] at constrains
          rw [Expr.holds_implies, holds, holds']
          exact constrains
        · rename_i all
          rw [if_neg all] at constrains
          rw [Expr.holds_implies, holds, holds']
          exact constrains

theorem qeQuantifier_defined {qe : Expr → Qelim → Option (Expr × Qelim)}
    (step : ∀ inst ∈ cfg.insts table vs body, ∀ q, (qe inst q).isSome) (q : Qelim) :
    (cfg.qeQuantifier table qe vs body isForall q).isSome := by
  obtain ⟨-, -, sorts, -⟩ := admissible.quantified quantifier
  unfold qeQuantifier
  split
  · rfl
  · obtain ⟨⟨us, q₁⟩, loop⟩ := Option.isSome_iff_exists.mp (qeList_defined step q)
    rw [insts] at loop
    rw [instances_eq fun v hv => listed v.sort (sorts v hv)]
    simp only [Option.bind_eq_bind, Option.bind_some, loop]
    split <;> rfl

end effect

/-- Elimination keeps the value of an expression. -/
theorem qe_effect {N : Structure D} {V : Expr → Prop} (listed : ∀ s, S s → cfg.Listed table s)
    (exact : ∀ s, S s → cfg.isFiniteSort s = true → cfg.Exact table N s)
    (reads : cfg.usePolymorphicMacros = true → N.ReadsMacros) {fuel : Nat}
    (admissible : cfg.Admissible S e) (visits : ∀ x, cfg.Visits table e x → V x) {e' : Expr}
    {q q' : Qelim} (run : cfg.qe table fuel e q = some (e', q')) : Qelim.Effect N V e e' q q' := by
  induction fuel generalizing e e' q q' with
  | zero => contradiction
  | succ fuel ih =>
    cases quantifier : e.binder with
    | some b =>
      obtain ⟨vs, body, isForall⟩ := b
      rw [qe_quantifier quantifier] at run
      refine qeQuantifier_effect admissible quantifier listed exact (visits e .root) ?_ run
      intro inst mem q u q' step
      obtain ⟨combo, chosen, rfl⟩ := List.mem_map.mp mem
      exact ih (admissible.inst listed quantifier chosen).1
        (fun x hx => visits x (Visits.trans (.instance .root quantifier chosen) hx)) step
    | none =>
      rw [qe_plain quantifier] at run
      split at run
      · rename_i isMacro
        rw [Bool.and_eq_true] at isMacro
        obtain ⟨expansion, expand, inner, -, same⟩ := admissible.expansion isMacro.1 isMacro.2
        rw [expand, Option.bind_some] at run
        have effect := ih inner (fun x hx =>
          visits x (Visits.trans (.expansion .root isMacro.1 isMacro.2 expand) hx)) run
        refine ⟨effect.extend, fun meaning valid env => ?_, effect.constraints⟩
        rw [effect.eval meaning valid env, same (reads isMacro.1)]
      · split at run
        · cases run
          exact ⟨.refl q, fun _ _ _ => rfl, fun _ => id⟩
        · rw [Option.bind_eq_some_iff] at run
          obtain ⟨⟨us, q₁⟩, loop, run⟩ := run
          cases run
          have effect := qeList_effect (N := N) (V := V) (fun t ht q u q' step =>
            ih (admissible.child quantifier t ht)
              (fun x hx => visits x (Visits.trans (.child .root quantifier ht) hx)) step) loop
          refine ⟨effect.extend, fun meaning valid env => ?_, effect.constraints⟩
          obtain ⟨s, sort⟩ := admissible.sort
          exact Expr.eval_cloneNormal sort quantifier
            ((effect.eval meaning valid).imp fun _ _ same => same env)

/-- Elimination returns where the fuel covers the depth of the expression. -/
theorem qe_defined (listed : ∀ s, S s → cfg.Listed table s) {fuel : Nat}
    (admissible : cfg.Admissible S e) (enough : e.depth ≤ fuel) (q : Qelim) :
    (cfg.qe table fuel e q).isSome := by
  induction fuel generalizing e q with
  | zero => exact absurd e.depth_pos (by omega)
  | succ fuel ih =>
    cases quantifier : e.binder with
    | some b =>
      obtain ⟨vs, body, isForall⟩ := b
      rw [qe_quantifier quantifier]
      refine qeQuantifier_defined admissible quantifier listed (fun inst mem q => ?_) q
      obtain ⟨combo, chosen, rfl⟩ := List.mem_map.mp mem
      obtain ⟨inner, smaller⟩ := admissible.inst listed quantifier chosen
      exact ih inner (by omega) q
    | none =>
      rw [qe_plain quantifier]
      split
      · rename_i isMacro
        rw [Bool.and_eq_true] at isMacro
        obtain ⟨expansion, expand, inner, smaller, -⟩ := admissible.expansion isMacro.1 isMacro.2
        rw [expand, Option.bind_some]
        exact ih inner (by omega) q
      · split
        · rfl
        · obtain ⟨s, sort⟩ := admissible.sort
          obtain ⟨r, loop⟩ := Option.isSome_iff_exists.mp (qeList_defined (fun t ht q =>
            ih (admissible.child quantifier t ht)
              (by have := (Expr.child_spec sort quantifier t ht).2.2.2; omega) q) q)
          rw [loop]
          rfl

end QelimConfig

end Goivy
