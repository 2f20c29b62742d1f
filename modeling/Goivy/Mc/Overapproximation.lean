import Goivy.Mc.QelimSpec
import Goivy.Module.Clauses
import Goivy.TransRel.Update

/-! Quantifier elimination of a transition system is an over-approximation. -/
namespace Goivy

theorem qeName_injective : Function.Injective qeName := by
  intro m n same
  have same := (String.append_right_inj _).mp ((String.append_left_inj _).mp same)
  exact Nat.repr_injective same

theorem qeConst_injective : Function.Injective qeConst := fun _ _ h =>
  qeName_injective (Const.mk.inj h).1

namespace Qelim

variable {q : Qelim}

theorem Numbered.isQe (h : q.Numbered) {k : String} {c : Const} (mem : (k, c) ∈ q.syms) : IsQe c := by
  have mem : c ∈ q.syms.map Prod.snd := List.mem_map_of_mem mem
  rw [h] at mem
  obtain ⟨n, -, rfl⟩ := List.mem_map.mp mem
  exact ⟨n, rfl⟩

/-- A proposition belongs to one key. -/
theorem Numbered.key_unique (h : q.Numbered) {k k' : String} {c : Const} (mem : (k, c) ∈ q.syms)
    (mem' : (k', c) ∈ q.syms) : k = k' := by
  have nodup : (q.syms.map Prod.snd).Nodup := by
    rw [h]
    exact (List.nodup_reverse.mpr List.nodup_range).map qeConst_injective
  exact congrArg Prod.fst (List.inj_on_of_nodup_map nodup mem mem' rfl)

variable {D : Domain} (M : Structure D) (V : Expr → Prop)

/-- What a proposition stands for. -/
def Stands (q : Qelim) (c : Const) : Prop :=
  ∃ k e, (k, c) ∈ q.syms ∧ V e ∧ e.key = some k ∧ e.Valid M

open Classical in
/-- The expansion of a structure by the propositions of `q`. -/
noncomputable def expand (q : Qelim) : Structure D
  | n, .first .boolean => fun args =>
    if IsQe (boolConst n) then decide (q.Stands M V (boolConst n)) else M n (.first .boolean) args
  | n, s => M n s

theorem agreeOff_expand (q : Qelim) : AgreeOff IsQe M (q.expand M V) := by
  rintro ⟨n, s⟩ old
  change M n s = q.expand M V n s
  unfold expand
  split
  · exact (funext fun args => if_neg old).symm
  · rfl

open Classical in
theorem holds_expand {c : Const} (h : IsQe c) (env : Env D) :
    (Expr.const c).Holds (q.expand M V) env ↔ q.Stands M V c := by
  have isQe := h
  obtain ⟨n, rfl⟩ := h
  rw [qeConst, boolConst, Expr.holds_boolean, expand]
  exact (Eq.congr_left (if_pos isQe)).trans decide_eq_true_iff

variable {M V}

/-- Quantifiers with one key have one value, so the expansion reads every key. -/
theorem meaning_expand (numbered : q.Numbered)
    (same : ∀ x y, V x → V y → x.key ≠ none → x.key = y.key → (x.Valid M ↔ y.Valid M))
    (closed : ∀ x, V x → x.HasSort [] .boolean ∨ x.key = none)
    (old : ∀ x, V x → ∀ c ∈ x.symbols, ¬ IsQe c) : q.Meaning (q.expand M V) V := by
  intro k c mem e visited key env
  have isQe := numbered.isQe mem
  have sort := (closed e visited).resolve_right (by simp [key])
  have unchanged : e.eval (q.expand M V) = e.eval M := Expr.eval_congr fun d hd =>
    (agreeOff_expand M V q d (old e visited d hd)).symm
  have boolean : ((Expr.const c).eval (q.expand M V) env).1 = .boolean := by
    obtain ⟨n, rfl⟩ := isQe
    rfl
  refine Val.eq_of_holds_iff boolean (Expr.sort_eval_of_hasSort _ sort env) ?_
  have stands : (Expr.const c).Holds (q.expand M V) env ↔ e.Valid M := by
    rw [holds_expand M V isQe]
    constructor
    · rintro ⟨k', x, mem', visited', key', valid⟩
      obtain rfl := numbered.key_unique mem mem'
      exact (same x e visited' visited (by simp [key']) (by rw [key, key'])).mp valid
    · exact fun valid => ⟨k, e, mem, visited, key, valid⟩
  have holds : e.Holds (q.expand M V) env ↔ e.Valid M := by
    rw [Expr.Holds, unchanged]
    exact ⟨Expr.valid_of_holds (Expr.freeVariables_of_hasSort sort), fun valid => valid env⟩
  exact stands.trans holds.symm

end Qelim

/-- The structure has an expansion by fresh propositions in which the result holds, and in which
the new invariant implies the original one. -/
def Qelim.Result.Approximates {D : Domain} (result : Qelim.Result) (M : Structure D)
    (invariant : Expr) : Prop :=
  ∃ N, AgreeOff IsQe M N ∧ (∀ f ∈ result.fmlas, f.Valid N) ∧
    (∀ d ∈ result.defs, ∀ env, d.lhs.eval N env = d.rhs.eval N env) ∧
    ∀ env, result.invariant.Holds N env → invariant.Holds M env

namespace QelimConfig

variable {cfg : QelimConfig} {D : Domain}

/-- What the elimination is called on, with the table that each call reads. -/
def roots (cfg : QelimConfig) (transFmlas : List Expr) (transDefs : List Definition)
    (invariant : Expr) (indhyps : List Expr) : List (InsMap String (List Const) × Expr) :=
  transDefs.flatMap (fun d => [(cfg.transConstants, d.lhs), (cfg.transConstants, d.rhs)]) ++
    transFmlas.map (fun f => (cfg.transConstants, closeFormula f)) ++
    (cfg.sortConstants, invariant) :: indhyps.map fun f => (cfg.sortConstants2, f)

/-- The expressions that the elimination comes to. -/
def Visited (cfg : QelimConfig) (roots : List (InsMap String (List Const) × Expr)) (x : Expr) : Prop :=
  ∃ r ∈ roots, cfg.Visits r.1 r.2 x

/-- Closed well-sorted expressions without fresh propositions, and tables that list terms of
the sorts of their bound variables. -/
structure Input (cfg : QelimConfig) (roots : List (InsMap String (List Const) × Expr)) : Prop where
  sort : ∀ r ∈ roots, ∃ s, r.2.HasSort [] s
  fresh : ∀ r ∈ roots, ∀ c ∈ r.2.symbols, ¬ IsQe c
  compares : cfg.usePolymorphicMacros = true → ∀ r ∈ roots, ∀ c ∈ r.2.symbols, c.Compares
  listed : ∀ r ∈ roots, ∀ s ∈ r.2.binderSorts, cfg.Listed r.1 s

/-- The structure reads macros as they expand, and the values of the finite sorts are exactly
their elements. -/
structure Reads (cfg : QelimConfig) (roots : List (InsMap String (List Const) × Expr))
    (M : Structure D) : Prop where
  macros : cfg.usePolymorphicMacros = true → M.ReadsMacros
  exact : ∀ r ∈ roots, ∀ s ∈ r.2.binderSorts, cfg.isFiniteSort s = true → cfg.Exact r.1 M s

/-- Quantified formulas that are printed alike are both true or both false. -/
def KeysDistinguish (cfg : QelimConfig) (roots : List (InsMap String (List Const) × Expr))
    (M : Structure D) : Prop :=
  ∀ x y, cfg.Visited roots x → cfg.Visited roots y → x.key ≠ none → x.key = y.key →
    (x.Valid M ↔ y.Valid M)

variable {table : InsMap String (List Const)} {S : FSort → Prop} {N M : Structure D}
  {roots : List (InsMap String (List Const) × Expr)}

/-- Everything that is visited is admissible. -/
theorem Admissible.visits {e x : Expr} (listed : ∀ s, S s → cfg.Listed table s)
    (h : cfg.Admissible S e) (visits : cfg.Visits table e x) : cfg.Admissible S x := by
  induction visits with
  | root => exact h
  | expansion _ use isMacro expand ih =>
    obtain ⟨e', expand', inner, -⟩ := ih.expansion use isMacro
    rw [expand, Option.some.injEq] at expand'
    exact expand' ▸ inner
  | child _ plain mem ih => exact ih.child plain _ mem
  | «instance» _ quantifier mem ih => exact (ih.inst listed quantifier mem).1

theorem Admissible.boolean {x : Expr} (h : cfg.Admissible S x) :
    x.HasSort [] .boolean ∨ x.key = none := by
  obtain ⟨s, sort⟩ := h.sort
  cases x with
  | forAll | «exists» =>
    obtain rfl := sort.1
    exact .inl sort
  | _ => exact .inr rfl

theorem Input.admissible (h : cfg.Input roots) : ∀ r ∈ roots,
    cfg.Admissible (fun s => s ∈ r.2.binderSorts) r.2 := fun r hr =>
  ⟨h.sort r hr, h.fresh r hr, fun use => h.compares use r hr, fun _ => id⟩

theorem Input.visited (h : cfg.Input roots) {x : Expr} (visited : cfg.Visited roots x) :
    (x.HasSort [] .boolean ∨ x.key = none) ∧ ∀ c ∈ x.symbols, ¬ IsQe c := by
  obtain ⟨r, hr, visits⟩ := visited
  have admissible := (h.admissible r hr).visits (h.listed r hr) visits
  exact ⟨admissible.boolean, admissible.fresh⟩

theorem Reads.expand (h : cfg.Reads roots M) (input : cfg.Input roots) (V : Expr → Prop) (q : Qelim) :
    cfg.Reads roots (q.expand M V) where
  macros use := by
    have value : ∀ name sort, ¬ IsQe ⟨name, sort⟩ →
        (q.expand M V).value ⟨name, sort⟩ = M.value ⟨name, sort⟩ := fun name sort old =>
      (Qelim.agreeOff_expand M V q ⟨name, sort⟩ old).symm.value
    have function : ∀ name domain range, ¬ IsQe ⟨name, .function domain range⟩ := by
      rintro name domain range ⟨n, eq⟩
      cases (Const.mk.inj eq).2
    refine ⟨fun t x y => ?_, fun t x y => ?_, fun t x y => ?_⟩
    · rw [value _ _ (function _ _ _), value _ _ (function _ _ _), (h.macros use).le]
    · rw [value _ _ (function _ _ _), value _ _ (function _ _ _), (h.macros use).gt]
    · rw [value _ _ (function _ _ _), value _ _ (function _ _ _), (h.macros use).ge]
  exact r hr s hs finite x := by
    obtain ⟨t, ht, eval⟩ := h.exact r hr s hs finite x
    have unchanged : t.eval (q.expand M V) = t.eval M := Expr.eval_congr fun c hc =>
      (Qelim.agreeOff_expand M V q c ((input.listed r hr s hs).fresh t ht c hc)).symm
    exact ⟨t, ht, fun env => by rw [unchanged, eval env]⟩

/-- A call on a root. -/
theorem Input.effect {V : Expr → Prop} (h : cfg.Input roots) (reads : cfg.Reads roots N)
    (visited : ∀ x, cfg.Visited roots x → V x) {r : InsMap String (List Const) × Expr} (hr : r ∈ roots)
    {fuel : Nat} {e' : Expr} {q q' : Qelim} (run : cfg.qe r.1 fuel r.2 q = some (e', q')) :
    Qelim.Effect N V r.2 e' q q' :=
  qe_effect (h.listed r hr) (reads.exact r hr) reads.macros (h.admissible r hr)
    (fun x hx => visited x ⟨r, hr, hx⟩) run

/-- The definitions after a loop of calls on both sides. -/
theorem Input.qeDefs_effect {V : Expr → Prop} (h : cfg.Input roots) (reads : cfg.Reads roots N)
    (visited : ∀ x, cfg.Visited roots x → V x) {fuel : Nat} {ds : List Definition}
    (sides : ∀ d ∈ ds, (table, d.lhs) ∈ roots ∧ (table, d.rhs) ∈ roots) {ds' : List Definition}
    {q q' : Qelim} (run : cfg.qeDefs table fuel ds q = some (ds', q')) : q.Extends q' ∧
      (q'.Meaning N V → q.Constraints N → q'.Constraints N ∧ List.Forall₂ (fun d d' =>
        ∀ env, d'.lhs.eval N env = d.lhs.eval N env ∧ d'.rhs.eval N env = d.rhs.eval N env) ds ds') := by
  induction ds generalizing ds' q with
  | nil =>
    cases run
    exact ⟨.refl _, fun _ valid => ⟨valid, .nil⟩⟩
  | cons d ds ih =>
    simp only [qeDefs, Option.bind_eq_bind, Option.bind_eq_some_iff, Prod.exists] at run
    obtain ⟨lhs, q₁, hl, rhs, q₂, hr, rest, q₃, tail, run⟩ := run
    cases run
    have here := sides d List.mem_cons_self
    have left := h.effect reads visited here.1 hl
    have right := h.effect reads visited here.2 hr
    obtain ⟨extend, after⟩ := ih (fun d hd => sides d (List.mem_cons_of_mem _ hd)) tail
    refine ⟨(left.extend.trans right.extend).trans extend, fun meaning valid => ?_⟩
    have meaning₂ := meaning.mono extend
    have meaning₁ := meaning₂.mono right.extend
    have valid₁ := left.constraints meaning₁ valid
    have valid₂ := right.constraints meaning₂ valid₁
    obtain ⟨valid₃, same⟩ := after meaning valid₂
    exact ⟨valid₃, .cons (fun env => ⟨left.eval meaning₁ valid env, right.eval meaning₂ valid₁ env⟩) same⟩

theorem Input.qeDefs_defined (h : cfg.Input roots) {fuel : Nat}
    (enough : ∀ r ∈ roots, r.2.depth ≤ fuel) {ds : List Definition}
    (sides : ∀ d ∈ ds, (table, d.lhs) ∈ roots ∧ (table, d.rhs) ∈ roots) (q : Qelim) :
    (cfg.qeDefs table fuel ds q).isSome := by
  induction ds generalizing q with
  | nil => rfl
  | cons d ds ih =>
    have here := sides d List.mem_cons_self
    obtain ⟨⟨lhs, q₁⟩, hl⟩ := Option.isSome_iff_exists.mp
      (qe_defined (h.listed _ here.1) (h.admissible _ here.1) (enough _ here.1) q)
    obtain ⟨⟨rhs, q₂⟩, hr⟩ := Option.isSome_iff_exists.mp
      (qe_defined (h.listed _ here.2) (h.admissible _ here.2) (enough _ here.2) q₁)
    obtain ⟨⟨rest, q₃⟩, tail⟩ := Option.isSome_iff_exists.mp
      (ih (fun d hd => sides d (List.mem_cons_of_mem _ hd)) q₂)
    simp only [qeDefs, hl, hr, tail, Option.bind_eq_bind, Option.bind_some]
    rfl

section roots

variable (cfg) {transFmlas : List Expr} {transDefs : List Definition} {invariant : Expr}
  {indhyps : List Expr}

theorem sides_mem_roots : ∀ d ∈ transDefs,
    (cfg.transConstants, d.lhs) ∈ cfg.roots transFmlas transDefs invariant indhyps ∧
      (cfg.transConstants, d.rhs) ∈ cfg.roots transFmlas transDefs invariant indhyps := by
  intro d hd
  have mem : ∀ r ∈ [(cfg.transConstants, d.lhs), (cfg.transConstants, d.rhs)],
      r ∈ cfg.roots transFmlas transDefs invariant indhyps := fun r hr =>
    List.mem_append_left _ (List.mem_append_left _ (List.mem_flatMap.mpr ⟨d, hd, hr⟩))
  exact ⟨mem _ (by simp), mem _ (by simp)⟩

theorem fmlas_mem_roots : ∀ t ∈ transFmlas.map closeFormula,
    (cfg.transConstants, t) ∈ cfg.roots transFmlas transDefs invariant indhyps := by
  simp only [List.forall_mem_map]
  exact fun f hf => List.mem_append_left _ (List.mem_append_right _ (List.mem_map_of_mem hf))

theorem invariant_mem_roots :
    (cfg.sortConstants, invariant) ∈ cfg.roots transFmlas transDefs invariant indhyps :=
  List.mem_append_right _ List.mem_cons_self

theorem hyps_mem_roots : ∀ t ∈ indhyps,
    (cfg.sortConstants2, t) ∈ cfg.roots transFmlas transDefs invariant indhyps := fun _ ht =>
  List.mem_append_right _ (List.mem_cons_of_mem _ (List.mem_map_of_mem ht))

end roots

theorem Input.qeList_effect {V : Expr → Prop} (h : cfg.Input roots) (reads : cfg.Reads roots N)
    (visited : ∀ x, cfg.Visited roots x → V x) {fuel : Nat} {ts : List Expr}
    (mem : ∀ t ∈ ts, (table, t) ∈ roots) {us : List Expr} {q q' : Qelim}
    (run : qeList (cfg.qe table fuel) ts q = some (us, q')) : Qelim.ListEffect N V ts us q q' :=
  Goivy.qeList_effect (fun t ht _ _ _ step => h.effect reads visited (mem t ht) step) run

theorem Input.qeList_defined (h : cfg.Input roots) {fuel : Nat}
    (enough : ∀ r ∈ roots, r.2.depth ≤ fuel) {ts : List Expr} (mem : ∀ t ∈ ts, (table, t) ∈ roots)
    (q : Qelim) : (qeList (cfg.qe table fuel) ts q).isSome :=
  Goivy.qeList_defined (fun t ht =>
    qe_defined (h.listed _ (mem t ht)) (h.admissible _ (mem t ht)) (enough _ (mem t ht))) q

theorem valid_closeFormula (e : Expr) : (closeFormula e).Valid M ↔ e.Valid M := by
  unfold closeFormula
  split
  · rfl
  · exact Expr.Valid.forAll

theorem valid_of_forall₂ {ts us : List Expr}
    (same : List.Forall₂ (fun t u => ∀ env, u.eval N env = t.eval N env) ts us)
    (valid : ∀ t ∈ ts, t.Valid N) : ∀ u ∈ us, u.Valid N := by
  intro u hu env
  obtain ⟨t, ht, eval⟩ := exists_of_forall₂ same u hu
  exact (Expr.holds_congr N env (eval env)).mpr (valid t ht env)

theorem valid_congr_eval {e : Expr} (same : e.eval N = e.eval M) (valid : e.Valid M) : e.Valid N := by
  intro env
  rw [Expr.Holds, same]
  exact valid env

/-- The elimination returns, and what it returns holds in an expansion of every structure that
the transition clauses and the hypotheses hold in. The invariant keeps its truth value. -/
theorem apply_overapproximates (cfg : QelimConfig) (transFmlas : List Expr)
    (transDefs : List Definition) (invariant : Expr) (indhyps : List Expr)
    (input : cfg.Input (cfg.roots transFmlas transDefs invariant indhyps)) {fuel : Nat}
    (enough : ∀ r ∈ cfg.roots transFmlas transDefs invariant indhyps, r.2.depth ≤ fuel)
    (M : Structure D) (reads : cfg.Reads (cfg.roots transFmlas transDefs invariant indhyps) M)
    (keys : cfg.KeysDistinguish (cfg.roots transFmlas transDefs invariant indhyps) M)
    (fmlas : ∀ f ∈ transFmlas, f.Valid M)
    (defs : ∀ d ∈ transDefs, ∀ env, d.lhs.eval M env = d.rhs.eval M env)
    (hyps : ∀ f ∈ indhyps, f.Valid M) :
    ∃ result, cfg.apply fuel transFmlas transDefs invariant indhyps = some result ∧
      result.Approximates M invariant := by
  obtain ⟨⟨newDefs, q₁⟩, runDefs⟩ := Option.isSome_iff_exists.mp
    (input.qeDefs_defined enough (sides_mem_roots cfg) .new)
  obtain ⟨⟨newFmlas, q₂⟩, runFmlas⟩ := Option.isSome_iff_exists.mp
    (input.qeList_defined enough (fmlas_mem_roots cfg) q₁)
  have hinv : (cfg.sortConstants, invariant) ∈ cfg.roots transFmlas transDefs invariant indhyps :=
    invariant_mem_roots cfg
  obtain ⟨⟨newInv, q₃⟩, runInv⟩ := Option.isSome_iff_exists.mp
    (qe_defined (input.listed _ hinv) (input.admissible _ hinv) (enough _ hinv) q₂)
  obtain ⟨⟨newHyps, q₄⟩, runHyps⟩ := Option.isSome_iff_exists.mp
    (input.qeList_defined enough (hyps_mem_roots cfg) q₃)
  refine ⟨⟨newFmlas ++ newHyps ++ q₄.fmlas, newDefs, newInv⟩, ?_, ?_⟩
  · simp only [apply, runDefs, runFmlas, runInv, runHyps, Option.bind_eq_bind, Option.bind_some]
    rfl
  -- the final propositions give the expansion in which all calls are read
  let V := cfg.Visited (cfg.roots transFmlas transDefs invariant indhyps)
  let N := q₄.expand M V
  have readsN : cfg.Reads _ N := reads.expand input V q₄
  obtain ⟨extend₁, effectDefs⟩ :=
    input.qeDefs_effect (V := V) readsN (fun _ => id) (sides_mem_roots cfg) runDefs
  have effectFmlas := input.qeList_effect (V := V) readsN (fun _ => id) (fmlas_mem_roots cfg) runFmlas
  have effectInv := input.effect (V := V) readsN (fun _ => id) hinv runInv
  have effectHyps := input.qeList_effect (V := V) readsN (fun _ => id) (hyps_mem_roots cfg) runHyps
  have numbered : q₄.Numbered := effectHyps.extend.numbered (effectInv.extend.numbered
    (effectFmlas.extend.numbered (extend₁.numbered rfl)))
  have meaning₄ : q₄.Meaning N V := Qelim.meaning_expand numbered keys
    (fun x hx => (input.visited hx).1) (fun x hx => (input.visited hx).2)
  have meaning₃ := meaning₄.mono effectHyps.extend
  have meaning₂ := meaning₃.mono effectInv.extend
  have meaning₁ := meaning₂.mono effectFmlas.extend
  obtain ⟨valid₁, sameDefs⟩ := effectDefs meaning₁ (by simp [Qelim.Constraints, Qelim.new])
  have valid₂ := effectFmlas.constraints meaning₂ valid₁
  have valid₃ := effectInv.constraints meaning₃ valid₂
  have unchanged : ∀ r ∈ cfg.roots transFmlas transDefs invariant indhyps,
      r.2.eval N = r.2.eval M := fun r hr => Expr.eval_congr fun c hc =>
    (Qelim.agreeOff_expand M V q₄ c (input.fresh r hr c hc)).symm
  refine ⟨N, Qelim.agreeOff_expand M V q₄, ?_, ?_, ?_⟩
  · simp only [List.forall_mem_append]
    refine ⟨⟨?_, ?_⟩, effectHyps.constraints meaning₄ valid₃⟩
    · refine valid_of_forall₂ (effectFmlas.eval meaning₂ valid₁) fun t ht => ?_
      obtain ⟨f, hf, rfl⟩ := List.mem_map.mp ht
      exact valid_congr_eval (unchanged _ (fmlas_mem_roots cfg _ ht))
        ((valid_closeFormula f).mpr (fmlas f hf))
    · exact valid_of_forall₂ (effectHyps.eval meaning₄ valid₃) fun t ht =>
        valid_congr_eval (unchanged _ (hyps_mem_roots cfg _ ht)) (hyps t ht)
  · intro d' hd' env
    obtain ⟨d, hd, same⟩ := exists_of_forall₂ sameDefs d' hd'
    have sides : (cfg.transConstants, d.lhs) ∈ cfg.roots transFmlas transDefs invariant indhyps ∧
        (cfg.transConstants, d.rhs) ∈ cfg.roots transFmlas transDefs invariant indhyps :=
      sides_mem_roots cfg d hd
    rw [(same env).1, (same env).2, unchanged _ sides.1, unchanged _ sides.2]
    exact defs d hd env
  · intro env h
    rwa [Expr.Holds, effectInv.eval meaning₃ valid₂ env, unchanged _ hinv] at h

section examples

def sortS : FSort := .uninterpreted "s"

/-- Without interpretations every uninterpreted sort is infinite. -/
def plainConfig (table : InsMap String (List Const)) : QelimConfig :=
  ⟨table, table, false, false, fun _ => none⟩

def predicateP : Const := ⟨"p", .function [sortS] .boolean⟩

def constantC : Const := ⟨"c", .first sortS⟩

def variableX : Variable := ⟨"X", sortS⟩

/-- `forall X. p(X)`. -/
def everywhere : Expr := .forAll [variableX] (.apply predicateP [.var variableX])

/-- The definition `p(X) = forall Y. X = c` of a predicate with a parameter. -/
def openDefinition : Definition :=
  ⟨.apply predicateP [.var variableX],
    .forAll [⟨"Y", sortS⟩] (.eq (.var variableX) (.const constantC))⟩

/-- `forall X. p(X) & exists X:t,Z:t. X ~= Z`, which is printed without the sort `t`. -/
def shadowing (t : FSort) : Expr :=
  .forAll [variableX] (.and [.apply predicateP [.var variableX],
    .exists [⟨"X", t⟩, ⟨"Z", t⟩] (.not (.eq (.var ⟨"X", t⟩) (.var ⟨"Z", t⟩)))])

/-- Two elements in every sort but `u`. -/
def twoElements : Domain where
  carrier
    | .uninterpreted "u" => Unit
    | _ => Bool
  nonempty s := by
    split
    · exact ⟨()⟩
    · exact ⟨true⟩

open Classical in
/-- Relations hold of some argument lists, and all constants of a sort are equal. -/
noncomputable def relations (holds : List (Val twoElements) → Prop) : Structure twoElements :=
  fun _ s args =>
    match s.range with
    | .boolean => decide (holds args.1)
    | r => Classical.arbitrary (El twoElements r)

open Classical in
theorem holds_predicateP (holds : List (Val twoElements) → Prop) (v : Variable) (hv : v.sort = sortS)
    (env : Env twoElements) :
    (Expr.apply predicateP [.var v]).Holds (relations holds) env ↔ holds [⟨v.sort, env v⟩] := by
  obtain ⟨n, s⟩ := v
  cases hv
  rw [Expr.Holds, Expr.eval, Structure.value_eq _ (by rfl), Val.Holds]
  constructor
  · intro h
    exact of_decide_eq_true (eq_of_heq (Sigma.mk.inj h).2)
  · intro h
    exact congrArg (Sigma.mk FSort.boolean) (decide_eq_true h)

theorem reads_plainConfig (table : InsMap String (List Const))
    (roots : List (InsMap String (List Const) × Expr)) (M : Structure D)
    (infinite : ∀ r ∈ roots, ∀ s ∈ r.2.binderSorts, ∃ n, s = .uninterpreted n) :
    (plainConfig table).Reads roots M where
  macros use := by contradiction
  exact r hr s hs finite := by
    obtain ⟨n, rfl⟩ := infinite r hr s hs
    simp [isFiniteSort, isFiniteSortWithInterp, plainConfig, getSortTheory] at finite

theorem holds_shadowing (n : String) (env : Env twoElements) :
    (shadowing (.uninterpreted n)).Holds (relations fun _ => True) env ↔
      ∃ x z : El twoElements (.uninterpreted n), x ≠ z := by
  have inner : ∀ env : Env twoElements, (Expr.and [.apply predicateP [.var variableX],
      .exists [⟨"X", .uninterpreted n⟩, ⟨"Z", .uninterpreted n⟩]
        (.not (.eq (.var ⟨"X", .uninterpreted n⟩) (.var ⟨"Z", .uninterpreted n⟩)))]).Holds
          (relations fun _ => True) env ↔ ∃ x z : El twoElements (.uninterpreted n), x ≠ z := by
    intro env
    simp only [Expr.holds_and, List.forall_mem_cons, holds_predicateP _ variableX rfl, true_and,
      Expr.holds_exists, Expr.holds_not, Expr.holds_eq, Expr.eval]
    constructor
    · rintro ⟨⟨env', -, differ⟩, -⟩
      exact ⟨_, _, fun same => differ (congrArg (Sigma.mk _) same)⟩
    · rintro ⟨x, z, differ⟩
      refine ⟨⟨Function.update (Function.update env ⟨"X", .uninterpreted n⟩ x) ⟨"Z", .uninterpreted n⟩ z,
        fun v hv => ?_, fun same => differ ?_⟩, by simp⟩
      · simp only [List.mem_cons, List.not_mem_nil, or_false, not_or] at hv
        rw [Function.update_of_ne hv.2, Function.update_of_ne hv.1]
      · have same := eq_of_heq (Sigma.mk.inj same).2
        rwa [Function.update_of_ne (by simp), Function.update_self, Function.update_self] at same
  rw [shadowing, Expr.holds_forAll]
  constructor
  · exact fun h => (inner env).mp (h env fun _ _ => rfl)
  · exact fun h env' _ => (inner env').mpr h

theorem run_openDefinition : (plainConfig .empty).apply 5 [] [openDefinition] .tru [] =
    some ⟨[], [⟨openDefinition.lhs, .const (qeConst 0)⟩], .tru⟩ := by
  decide +kernel

theorem run_shadowing : (plainConfig .empty).apply 6 [shadowing (.uninterpreted "t")] []
    (shadowing (.uninterpreted "u")) [] =
    some ⟨[.const (qeConst 0)], [], .const (qeConst 0)⟩ := by
  decide +kernel

/-- One proposition cannot stand for an open formula, nor for two formulas that are printed
alike: a structure is lost in the first case, a violation of the invariant in the second. -/
theorem apply_loses :
    (∃ M : Structure twoElements,
      (plainConfig .empty).Reads ((plainConfig .empty).roots [] [openDefinition] .tru []) M ∧
      (∀ env, openDefinition.lhs.eval M env = openDefinition.rhs.eval M env) ∧
      ∃ result, (plainConfig .empty).apply 5 [] [openDefinition] .tru [] = some result ∧
        ¬ result.Approximates M .tru) ∧
    ∃ M : Structure twoElements,
      (plainConfig .empty).Reads ((plainConfig .empty).roots [shadowing (.uninterpreted "t")] []
        (shadowing (.uninterpreted "u")) []) M ∧
      (shadowing (.uninterpreted "t")).Valid M ∧
      ∃ result, (plainConfig .empty).apply 6 [shadowing (.uninterpreted "t")] []
          (shadowing (.uninterpreted "u")) [] = some result ∧
        ¬ result.Approximates M (shadowing (.uninterpreted "u")) := by
  constructor
  · -- `c` is the arbitrary element of `s`, and `p` holds of it only
    let x₀ : El twoElements sortS := Classical.arbitrary _
    let M := relations fun vs => vs = [⟨sortS, x₀⟩]
    have lhs : ∀ env : Env twoElements, openDefinition.lhs.Holds M env ↔ env variableX = x₀ := by
      intro env
      refine (holds_predicateP _ variableX rfl env).trans ⟨fun h => ?_, fun h => ?_⟩
      · exact eq_of_heq (Sigma.mk.inj (List.cons.inj h).1).2
      · exact congrArg (fun x => [(⟨sortS, x⟩ : Val twoElements)]) h
    have rhs : ∀ env : Env twoElements, openDefinition.rhs.Holds M env ↔ env variableX = x₀ := by
      intro env
      have body : ∀ env : Env twoElements,
          (Expr.eq (.var variableX) (.const constantC)).Holds M env ↔ env variableX = x₀ := by
        intro env
        rw [Expr.holds_eq, Expr.eval, Expr.eval, Structure.value_eq M (by rfl)]
        exact ⟨fun h => eq_of_heq (Sigma.mk.inj h).2, fun h => congrArg (Sigma.mk sortS) h⟩
      rw [openDefinition, Expr.holds_forAll]
      constructor
      · exact fun h => (body env).mp (h env fun _ _ => rfl)
      · exact fun h env' off => (body env').mpr ((off variableX (by decide)).trans h)
    refine ⟨M, reads_plainConfig _ _ _ ?_, fun env => ?_, _, run_openDefinition, ?_⟩
    · simp [roots, openDefinition, Expr.binderSorts, sortS, Expr.tru, Expr.binderSortsList]
    · exact Val.eq_of_holds_iff rfl rfl ((lhs env).trans (rhs env).symm)
    · rintro ⟨N, agree, -, defs, -⟩
      have same : ∀ env : Env twoElements, openDefinition.lhs.Holds N env ↔ env variableX = x₀ := by
        intro env
        rw [← lhs env]
        refine Expr.holds_congr N env (congrFun (Expr.eval_congr fun c hc => ?_) env)
        refine (agree c ?_).symm
        rintro ⟨n, rfl⟩
        simp [openDefinition, Expr.symbols, symbolsList, predicateP, qeConst, boolConst] at hc
      have value := defs _ List.mem_cons_self
      have alike : ∀ env env' : Env twoElements,
          openDefinition.lhs.Holds N env → openDefinition.lhs.Holds N env' := by
        intro env env' h
        rw [Expr.Holds, value env] at h
        rw [Expr.Holds, value env']
        exact h
      let at_ := fun x => Function.update (fun _ => Classical.arbitrary _ : Env twoElements) variableX x
      have given : ∀ x, at_ x variableX = x := fun x => Function.update_self ..
      obtain ⟨x₁, other⟩ : ∃ x₁ : El twoElements sortS, x₁ ≠ x₀ :=
        ⟨(!x₀ : Bool), Bool.not_ne_self x₀⟩
      refine other ?_
      rw [← given x₁]
      exact (same (at_ x₁)).mp (alike (at_ x₀) _ ((same (at_ x₀)).mpr (given x₀)))
  · let M := relations fun _ => True
    refine ⟨M, reads_plainConfig _ _ _ ?_, fun env => ?_, _, run_shadowing, ?_⟩
    · simp [roots, shadowing, closeFormula, Expr.freeVariables, Expr.freeVariablesList, Expr.binderSorts,
        sortS, Expr.binderSortsList, variableX]
    · exact (holds_shadowing _ env).mpr ⟨true, false, Bool.true_eq_false_eq_False⟩
    · rintro ⟨N, -, fmlas, -, implies⟩
      let env : Env twoElements := fun _ => Classical.arbitrary _
      have h := implies env (fmlas _ List.mem_cons_self env)
      obtain ⟨x, z, differ⟩ := (holds_shadowing _ env).mp h
      exact differ rfl

def tableC : InsMap String (List Const) := InsMap.empty.set "s" [constantC]

theorem visits_everywhere {x : Expr} (h : (plainConfig tableC).Visits tableC everywhere x) :
    x = everywhere ∨ x = .apply predicateP [.const constantC] ∨ x = .const constantC := by
  induction h with
  | root => exact .inl rfl
  | expansion _ use => contradiction
  | child _ plain mem ih =>
    rcases ih with rfl | rfl | rfl
    · contradiction
    · simp only [Expr.children, List.mem_singleton] at mem
      exact .inr (.inr mem)
    · simp [Expr.children] at mem
  | «instance» _ quantifier mem ih =>
    rcases ih with rfl | rfl | rfl
    · cases quantifier
      have only : (plainConfig tableC).combos tableC [variableX] = [[.const constantC]] := by
        decide +kernel
      rw [only, List.mem_singleton] at mem
      subst mem
      exact .inr (.inl (by decide +kernel))
    · contradiction
    · contradiction

theorem apply_overapproximates_everywhere :
    ∃ result, (plainConfig tableC).apply 4 [everywhere] [] everywhere [] = some result ∧
      result.Approximates (relations fun _ => True) everywhere := by
  have only : ∀ r ∈ (plainConfig tableC).roots [everywhere] [] everywhere [],
      r = (tableC, everywhere) := by
    have roots : (plainConfig tableC).roots [everywhere] [] everywhere [] =
        [(tableC, everywhere), (tableC, everywhere)] := rfl
    simp [roots]
  have lists : (plainConfig tableC).listedValues tableC sortS = [.const constantC] := by
    decide +kernel
  have input : (plainConfig tableC).Input ((plainConfig tableC).roots [everywhere] [] everywhere []) := by
    constructor
    · intro r hr
      rw [only r hr]
      exact ⟨.boolean, rfl, by decide, [sortS], rfl, ⟨by decide, rfl⟩, trivial⟩
    · intro r hr c hc
      rw [only r hr] at hc
      rintro ⟨n, rfl⟩
      simp [everywhere, Expr.symbols, symbolsList, predicateP, qeConst, boolConst] at hc
    · intro use
      contradiction
    · intro r hr s hs
      rw [only r hr] at hs ⊢
      have hs : s = sortS := by
        simpa [everywhere, Expr.binderSorts, Expr.binderSortsList, variableX] using hs
      subst hs
      refine ⟨by decide +kernel, ?_, ?_⟩ <;> rw [lists, List.forall_mem_singleton]
      · rfl
      · rw [Expr.symbols, List.forall_mem_singleton]
        rintro ⟨n, same⟩
        cases (Const.mk.inj same).2
  have quantified : ∀ x, (plainConfig tableC).Visited
      ((plainConfig tableC).roots [everywhere] [] everywhere []) x → x.key ≠ none → x = everywhere := by
    rintro x ⟨r, hr, visits⟩ key
    rw [only r hr] at visits
    rcases visits_everywhere visits with rfl | rfl | rfl
    · rfl
    · exact absurd rfl key
    · exact absurd rfl key
  have valid : everywhere.Valid (relations fun _ => True) := by
    intro env
    rw [everywhere, Expr.holds_forAll]
    exact fun env' _ => (holds_predicateP _ variableX rfl env').mpr trivial
  refine apply_overapproximates (plainConfig tableC) [everywhere] [] everywhere [] input
    (fun r hr => ?_) _ (reads_plainConfig _ _ _ fun r hr s hs => ?_) (fun x y hx hy key same => ?_)
    ?_ ?_ ?_
  · rw [only r hr]
    decide +kernel
  · rw [only r hr] at hs
    exact ⟨"s", by
      simpa [everywhere, Expr.binderSorts, Expr.binderSortsList, variableX, sortS] using hs⟩
  · rw [quantified x hx key, quantified y hy (same ▸ key)]
  · simpa using valid
  · simp
  · simp

end examples

end QelimConfig

end Goivy
