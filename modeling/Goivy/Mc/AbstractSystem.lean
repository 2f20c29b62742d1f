import Goivy.Mc.Abstraction

/-! The abstraction step of the model checker simulates the concrete system: the abstract
constants that become state variables have the right values in the next state. -/
namespace Goivy

namespace Pipeline

variable {D : Domain} {p : Pipeline} {defs : List Definition} {fmlas : List Expr} {invariant : Expr}

/-- Two states in which the symbols that the test accepts are rigid. -/
structure Successive (p : Pipeline) (constant : Const → Prop) (s s' : Structure D) : Prop where
  next : ∀ n σ, s (actionNewName n) σ = s' n σ
  rigid : ∀ c : Const, p.isStVar c.name = false → isNew c.name = false →
    (isSkolem c.name = true → constant c) → SameAt s s' c

/-- A skolem that counts as constant over time: a sort constant, or a symbol of the invariant. -/
def Constant (p : Pipeline) (c : Const) : Prop := p.isSortConstant c = true ∨ c.name ∈ p.invarSyms

/-- What `ToAiger` passes: closed definitions, a closed invariant, and formulas. -/
structure Inputs (p : Pipeline) (defs : List Definition) (fmlas : List Expr) (invariant : Expr) :
    Prop where
  defs : ∀ d ∈ defs, (Node.definition d).Input
  fmlas : ∀ f ∈ fmlas, (Node.expr (closeFormula f)).Input
  invariant : (Node.expr invariant).Input
  operators : ∀ c ∈ p.stVars, isInterpretedSymbol c = false

/-- The value that a recorded constant has in the next state. -/
def ValueAt (pa : PropAbs) (s' : Structure D) (v : Const) (val : Val D) : Prop :=
  (∃ n env, pa.map.get n = some v ∧ val = n.eval s' env) ∨
    (∀ n, pa.map.get n ≠ some v) ∧ val = s'.value v []

/-- The abstract constants are interpreted, and the added definitions hold. -/
structure Result.Models (a : Result) (s M : Structure D) : Prop where
  interp : a.state.Interprets s M
  keeps : ∀ d ∈ a.addDefs, d.lhs.eval M = d.rhs.eval M

theorem rnInv_operators (operators : ∀ c ∈ p.stVars, isInterpretedSymbol c = false) {c : Const}
    (h : isInterpretedSymbol c = true) : Renaming.const p.rnInv c = c := by
  have off : ∀ cs : List Const, (∀ d ∈ cs, isInterpretedSymbol d = false) →
      ((cs.map fun d => (d, actionNewName d.name)) : Renaming).lookup c = none := by
    intro cs hcs
    induction cs with
    | nil => rfl
    | cons d cs ih =>
      rw [List.map_cons, InsMap.lookup_cons, if_neg, ih fun e he => hcs e (List.mem_cons_of_mem _ he)]
      rintro rfl
      simp [hcs c List.mem_cons_self] at h
  rw [Renaming.const, Renaming.name, rnInv, off p.stVars operators]
  rfl

theorem Successive.value_new {s s' : Structure D} {constant : Const → Prop}
    (step : p.Successive constant s s') (c : Const) : s.value (newActionConst c) = s'.value c := by
  funext vs
  simp only [Structure.value, newActionConst, step.next]

/-- The value of a next-state version is the value of the node before in the next state. -/
theorem Successive.eval_prevExpr {s s' : Structure D} {constant : Const → Prop}
    (step : p.Successive constant s s') (sortConstants : ∀ c, p.isSortConstant c = true → constant c)
    {n m : Node} (h : p.prevExpr n = some m) : n.eval s = m.eval s' := by
  obtain ⟨current, -, rfl⟩ := PropAbsConfig.prevExpr_eq_some.mp h
  rw [Node.eval_rename]
  refine Node.eval_congr fun c hc => ?_
  have old := current c hc
  simp only [PropAbsConfig.isCurrent, Bool.or_eq_false_iff] at old
  rw [SameAt, Structure.comap, PropAbsConfig.name_of_prevExpr hc]
  cases new : isNew c.name with
  | true => rw [← step.next, actionNewName_newOf new]
  | false =>
    rw [newOf, if_neg (by simp [new])]
    refine step.rigid c old.1 new fun skolem => sortConstants c ?_
    simpa [skolem] using old.2

/-- An immutable node keeps its value. -/
theorem Successive.eval_immutable {s s' : Structure D} (step : p.Successive p.Constant s s') {n : Node}
    (h : p.isImmutableExpr n = true) : n.eval s = n.eval s' := by
  refine Node.eval_congr fun c hc => ?_
  have immutable := List.all_eq_true.mp h c hc
  simp only [Bool.and_eq_true, Bool.not_eq_true', Bool.or_eq_false_iff, Bool.and_eq_false_iff,
    decide_eq_false_iff_not, not_not] at immutable
  refine step.rigid c immutable.2.2 immutable.2.1 fun skolem => .inr ?_
  obtain notSkolem | mem := immutable.1
  · simp [skolem] at notSkolem
  · exact mem

theorem prevExpr_immutable {n : Node} (h : p.isImmutableExpr n = true) : p.prevExpr n = none := by
  by_contra some
  obtain ⟨m, hm⟩ := Option.ne_none_iff_exists'.mp some
  obtain ⟨-, ⟨c, hc, new⟩, -⟩ := PropAbsConfig.prevExpr_eq_some.mp hm
  have immutable := List.all_eq_true.mp h c hc
  simp [new] at immutable

/-- A constant that keeps its value: it stands for an immutable node, or is such a symbol. -/
def Kept (p : Pipeline) (pa : PropAbs) (v : Const) : Prop :=
  (∃ q, pa.map.get q = some v ∧ p.isImmutableExpr q = true) ∨
    isSkolem v.name = false ∧ p.isImmutableExpr (.expr (.const v)) = true

theorem kept_immutable {kept : List Const} {pa : PropAbs} (linked : Linked p.toPropAbsConfig kept pa)
    {v : Const} (hv : v ∈ p.immutable pa) : p.Kept pa v := by
  simp only [immutable, List.mem_append, List.mem_map, List.mem_filter, Bool.and_eq_true] at hv
  obtain ⟨⟨q, w⟩, ⟨mem, immutable, -⟩, rfl⟩ | ⟨mem, immutable⟩ := hv
  · exact .inl ⟨q, InsMap.mem_entries.mp mem, immutable⟩
  · exact .inr ⟨linked.finite v mem, immutable⟩

/-- What the abstraction step makes, with the state that it ends in. -/
structure Outcome (p : Pipeline) (defs : List Definition) (fmlas : List Expr) (invariant : Expr)
    (a : Result) (kept : List Const) (pa : PropAbs) : Prop where
  linked : Linked p.toPropAbsConfig kept pa
  state : ∃ syms, a.state = { pa with finiteSyms := syms }
  addDefs : a.addDefs = kept.map keeps
  kept : ∀ v ∈ kept, p.Kept pa v
  next : a.next = a.invariant.rename p.rnInv
  defs : ∀ {D : Domain} {s M : Structure D}, pa.Interprets s M →
    List.Forall₂ (fun r d => ∀ env, Node.eval M r env = (Node.definition d).eval s env) a.defs defs
  fmlas : ∀ {D : Domain} {s M : Structure D}, pa.Interprets s M →
    List.Forall₂ (fun r f => ∀ env, Expr.eval M r env = (closeFormula f).eval s env) a.fmlas fmlas
  invariant : ∀ {D : Domain} {s M : Structure D}, pa.Interprets s M →
    ∀ env, a.invariant.eval M env = invariant.eval s env

theorem abstractSystem_outcome (inputs : p.Inputs defs fmlas invariant) :
    ∃ kept pa, p.Outcome defs fmlas invariant (p.abstractSystem defs fmlas invariant) kept pa := by
  obtain ⟨linked₁, -, values₁⟩ :=
    PropAbs.mkPropAbsDefs_spec (linked_new p.toPropAbsConfig []) inputs.defs
  have closed : ∀ t ∈ fmlas.map closeFormula, (Node.expr t).Input := by
    intro t ht
    obtain ⟨f, hf, rfl⟩ := List.mem_map.mp ht
    exact inputs.fmlas f hf
  obtain ⟨linked₂, extends₂, values₂⟩ := PropAbs.mkPropAbsList_forall linked₁ closed
  generalize defs' : PropAbs.mkPropAbsDefs p.toPropAbsConfig defs .new = r₁ at *
  generalize fmlas' : PropAbs.mkPropAbsList p.toPropAbsConfig (fmlas.map closeFormula) r₁.2 = r₂ at *
  have linked₃ : Linked p.toPropAbsConfig (p.immutable r₂.2)
      { r₂.2 with newStVars := r₂.2.newStVars ++ p.immutable r₂.2 } :=
    ⟨linked₂.input, linked₂.origin, linked₂.distinct, fun v hv => by
      rw [List.mem_append] at hv
      obtain hv | hv := hv
      · exact (linked₂.recorded v hv).imp (fun h => absurd h List.not_mem_nil) id
      · exact .inl hv, linked₂.finite⟩
  have inv := PropAbs.mkPropAbs_spec inputs.invariant _ linked₃
  generalize inv' : PropAbs.mkPropAbs p.toPropAbsConfig invariant
    { r₂.2 with newStVars := r₂.2.newStVars ++ p.immutable r₂.2 } = r₃ at inv
  obtain ⟨syms, next⟩ := PropAbs.mkPropAbs_propositional
    (PropAbs.propositional_rename (fun c => rnInv_operators inputs.operators) inv.done) r₃.2
  have result : p.abstractSystem defs fmlas invariant = ⟨r₁.1, r₂.1, (p.immutable r₂.2).map keeps,
      r₃.1, r₃.1.rename p.rnInv, { r₃.2 with finiteSyms := syms }⟩ := by
    simp only [abstractSystem, defs', fmlas', inv', next]
  rw [result]
  have extends₃ : r₂.2.Extends r₃.2 := inv.extends_
  refine ⟨p.immutable r₂.2, r₃.2, inv.linked, ⟨syms, rfl⟩, rfl, fun v hv => ?_, rfl,
    fun interp => values₁ ((interp.mono extends₃).mono extends₂), fun interp => ?_, inv.eval⟩
  · exact (kept_immutable linked₂ hv).imp (fun ⟨q, hq, immutable⟩ => ⟨q, extends₃ q v hq, immutable⟩) id
  · simpa [List.forall₂_map_right_iff] using values₂ (interp.mono extends₃)

namespace Outcome

variable {a : Result} {kept : List Const} {pa : PropAbs} {s s' : Structure D}

/-- The node of an abstract constant that keeps its value. -/
theorem immutable_of_kept (h : p.Outcome defs fmlas invariant a kept pa) {v : Const} (hv : v ∈ kept)
    {q : Node} (hq : pa.map.get q = some v) : p.isImmutableExpr q = true := by
  obtain ⟨m, hm, immutable⟩ | ⟨notSkolem, -⟩ := h.kept v hv
  · rw [h.linked.unique hm (prevExpr_immutable immutable) hq]
    exact immutable
  · exact absurd (h.linked.isAbs hq) (not_isAbs notSkolem).1

/-- A constant stands for a node in the map, or is the new version of a kept one. -/
def StandsFor (kept : List Const) (pa : PropAbs) (c : Const) (q : Node) : Prop :=
  pa.map.get q = some c ∨ ∃ v ∈ kept, pa.map.get q = some v ∧ c = newActionConst v

theorem eval_standsFor (h : p.Outcome defs fmlas invariant a kept pa)
    (step : p.Successive p.Constant s s') {c : Const} {m n : Node} (hm : StandsFor kept pa c m)
    (hn : StandsFor kept pa c n) : m.eval s = n.eval s := by
  have mapped : ∀ {n m}, pa.map.get n = some c → pa.map.get m = some c → m.eval s = n.eval s := by
    intro n m hn hm
    cases hp : p.prevExpr n with
    | none => rw [h.linked.unique hn hp hm]
    | some q =>
      rw [step.eval_prevExpr (fun _ => .inl) hp,
        step.eval_prevExpr (fun _ => .inl) (h.linked.next_unique hn hp hm)]
  -- the new version of a kept constant: the node is immutable, so its value is the old one
  have mixed : ∀ {n m v}, pa.map.get n = some c → v ∈ kept → pa.map.get m = some v →
      c = newActionConst v → n.eval s = m.eval s := by
    intro n m v hn hv hm eq
    have immutable := h.immutable_of_kept hv hm
    obtain ⟨i, -, rfl⟩ := h.linked.base hm (prevExpr_immutable immutable)
    cases hp : p.prevExpr n with
    | none =>
      obtain ⟨j, -, same⟩ := h.linked.base hn hp
      exact absurd (congrArg Const.name (same.symm.trans eq)) (absName_ne_new j i)
    | some q =>
      obtain ⟨j, -, hq, same⟩ := h.linked.next hn hp
      obtain ⟨-, firstQ, sortQ⟩ := (h.linked.input n _ hn).prevExpr hp
      have eq := Const.mk.inj (same.symm.trans eq)
      have index := absName_injective (actionNewName_injective eq.1)
      rw [index, sortQ, eq.2] at hq
      rw [step.eval_prevExpr (fun _ => .inl) hp, h.linked.unique hm (prevExpr_immutable immutable) hq,
        step.eval_immutable immutable]
  obtain hm | ⟨v, hv, hm, eqV⟩ := hm
  · obtain hn | ⟨w, hw, hn, eqW⟩ := hn
    · exact mapped hn hm
    · exact mixed hm hw hn eqW
  · obtain hn | ⟨w, hw, hn, eqW⟩ := hn
    · exact (mixed hn hv hm eqV).symm
    · have same := Const.mk.inj (eqV.symm.trans eqW)
      obtain rfl : v = w := by
        cases v
        cases w
        exact congrArg₂ Const.mk (actionNewName_injective same.1) same.2
      have first := prevExpr_immutable (h.immutable_of_kept hw hn)
      rw [h.linked.unique hn first hm]

/-- The abstract constants can be interpreted. -/
theorem exists_models (h : p.Outcome defs fmlas invariant a kept pa)
    (step : p.Successive p.Constant s s') : ∃ M : Structure D, a.Models s M := by
  have meaning : ∀ (n : String) (σ : LSort) (args : Args D σ.domain), ∃ val : El D σ.range,
      ∀ q, StandsFor kept pa ⟨n, σ⟩ q → ∀ env, (⟨σ.range, val⟩ : Val D) = q.eval s env := by
    intro n σ args
    by_cases some : ∃ q, StandsFor kept pa ⟨n, σ⟩ q
    · obtain ⟨q, hq⟩ := some
      have input : q.Input := by
        obtain hq | ⟨v, -, hq, -⟩ := hq <;> exact h.linked.input q _ hq
      have sort : q.nodeSort = σ := by
        obtain hq | ⟨v, -, hq, eq⟩ := hq
        · exact (h.linked.sort hq).symm
        · exact (h.linked.sort hq).symm.trans (congrArg Const.sort eq).symm
      have env₀ : Env D := Classical.arbitrary _
      have range := input.sort_eval s env₀
      generalize hv : q.eval s env₀ = value at range
      obtain ⟨σ', val⟩ := value
      rw [sort] at range
      subst range
      refine ⟨val, fun r hr env => ?_⟩
      rw [← hv, h.eval_standsFor step hr hq, input.eval_env s env env₀]
    · exact ⟨Classical.arbitrary _, fun q hq => absurd ⟨q, hq⟩ some⟩
  choose N hN using meaning
  let M := Structure.patch {c | IsAbs c.name} N s
  have off : AgreeOff (fun c => IsAbs c.name) s M := fun c hc =>
    (Structure.patch_not_mem (c := c) hc).symm
  have value : ∀ c q, StandsFor kept pa c q → IsAbs c.name → c.sort.domain = [] → ∀ env,
      M.value c [] = q.eval s env := by
    intro c q hq abs nullary env
    have fits : ([] : List (Val D)).map Sigma.fst = c.sort.domain := nullary.symm
    rw [(Structure.patch_mem (S := {c | IsAbs c.name}) abs).value, Structure.value_eq N fits]
    exact hN c.name c.sort ⟨[], fits⟩ q hq env
  have nullary : ∀ {q v}, pa.map.get q = some v → v.sort.domain = [] := fun hq => by
    rw [h.linked.sort hq]
    exact (h.linked.input _ _ hq).domain
  have entry : ∀ q v, pa.map.get q = some v → ∀ env, M.value v [] = q.eval s env := fun q v hq =>
    value v q (.inl hq) (h.linked.isAbs hq) (nullary hq)
  obtain ⟨syms, state⟩ := h.state
  refine ⟨M, ⟨off, by rw [state]; exact entry⟩, ?_⟩
  rw [h.addDefs]
  intro d hd
  obtain ⟨v, hv, rfl⟩ := List.mem_map.mp hd
  funext env
  simp only [keeps, Expr.eval]
  obtain ⟨q, hq, immutable⟩ | ⟨notSkolem, immutable⟩ := h.kept v hv
  · obtain ⟨i, -, rfl⟩ := h.linked.base hq (prevExpr_immutable immutable)
    have domain := nullary hq
    rw [entry q _ hq env]
    exact value _ q (.inr ⟨_, hv, hq, rfl⟩) ⟨i, .inr rfl⟩ domain env
  · have new : M.value (newActionConst v) [] = s'.value v [] := by
      rw [← (off (newActionConst v) (not_isAbs notSkolem).2).value]
      exact congrArg (· []) (step.value_new v)
    rw [new, ← (off v (not_isAbs notSkolem).1).value]
    exact (congrFun (step.eval_immutable immutable) env).symm

theorem valueAt_mapped (h : p.Outcome defs fmlas invariant a kept pa) {q : Node} {v : Const}
    (hq : pa.map.get q = some v) (first : p.prevExpr q = none) {val : Val D} :
    ValueAt pa s' v val ↔ ∀ env, val = q.eval s' env := by
  have input := h.linked.input q v hq
  constructor
  · rintro (⟨n, env', hn, rfl⟩ | ⟨none, -⟩)
    · intro env
      rw [h.linked.unique hq first hn, input.eval_env s' env' env]
    · exact absurd hq (none q)
  · exact fun value => .inl ⟨q, Classical.arbitrary _, hq, value _⟩

/-- A recorded constant has, in its new version, the value that it has in the next state. -/
theorem recorded_value (h : p.Outcome defs fmlas invariant a kept pa)
    (step : p.Successive p.Constant s s') {M : Structure D} (models : a.Models s M) {v : Const}
    (hv : v ∈ pa.newStVars) {val : Val D} :
    ValueAt pa s' v val ↔ val = M.value (newActionConst v) [] := by
  obtain ⟨syms, state⟩ := h.state
  have entry : ∀ n w, pa.map.get n = some w → ∀ env, M.value w [] = n.eval s env := by
    have := models.interp.entry
    rwa [state] at this
  have const : ∀ {q : Node}, pa.map.get q = some v → p.prevExpr q = none →
      (∀ env, M.value (newActionConst v) [] = q.eval s' env) →
      (ValueAt pa s' v val ↔ val = M.value (newActionConst v) []) := by
    intro q hq first value
    rw [h.valueAt_mapped hq first]
    constructor
    · intro eq
      rw [eq (Classical.arbitrary _), value]
    · rintro rfl env
      exact value env
  obtain kept | ⟨n, q, hp, hq, hn⟩ := h.linked.recorded v hv
  · have same : ∀ env : Env D, M.value (newActionConst v) [] = M.value v [] := by
      have := models.keeps (keeps v) (by rw [h.addDefs]; exact List.mem_map.mpr ⟨v, kept, rfl⟩)
      exact fun env => congrFun this env
    obtain ⟨q, hq, immutable⟩ | ⟨notSkolem, immutable⟩ := h.kept v kept
    · refine const hq (prevExpr_immutable immutable) fun env => ?_
      rw [same env, entry q v hq env, step.eval_immutable immutable]
    · have new : M.value (newActionConst v) [] = s'.value v [] := by
        rw [← (models.interp.off (newActionConst v) (not_isAbs notSkolem).2).value]
        exact congrArg (· []) (step.value_new v)
      have none : ∀ n, pa.map.get n ≠ some v := fun n hn =>
        (not_isAbs notSkolem).1 (h.linked.isAbs hn)
      rw [new]
      constructor
      · rintro (⟨n, -, hn, -⟩ | ⟨-, eq⟩)
        · exact absurd hn (none n)
        · exact eq
      · exact fun eq => .inr ⟨none, eq⟩
  · obtain ⟨-, first, -⟩ := (h.linked.input n _ hn).prevExpr hp
    refine const hq first fun env => ?_
    rw [entry n _ hn env, step.eval_prevExpr (fun _ => .inl) hp]

end Outcome

/-- The abstraction step simulates the concrete system. In every pair of successive states the
abstract constants can be interpreted by what they stand for; then what is returned has the
value of what was passed, and the new version of every recorded constant has the value that
the constant has in the next state. -/
theorem abstractSystem_simulates (inputs : p.Inputs defs fmlas invariant) {s s' : Structure D}
    (step : p.Successive p.Constant s s') :
    (∃ M : Structure D, (p.abstractSystem defs fmlas invariant).Models s M) ∧
    ∀ M : Structure D, (p.abstractSystem defs fmlas invariant).Models s M →
      List.Forall₂ (fun r d => ∀ env, Node.eval M r env = (Node.definition d).eval s env)
        (p.abstractSystem defs fmlas invariant).defs defs ∧
      List.Forall₂ (fun r f => ∀ env, Expr.eval M r env = (closeFormula f).eval s env)
        (p.abstractSystem defs fmlas invariant).fmlas fmlas ∧
      (∀ env, (p.abstractSystem defs fmlas invariant).invariant.eval M env = invariant.eval s env) ∧
      (p.abstractSystem defs fmlas invariant).next =
        (p.abstractSystem defs fmlas invariant).invariant.rename p.rnInv ∧
      ∀ v ∈ (p.abstractSystem defs fmlas invariant).state.newStVars, ∀ val,
        ValueAt (p.abstractSystem defs fmlas invariant).state s' v val ↔
          val = M.value (newActionConst v) [] := by
  obtain ⟨kept, pa, outcome⟩ := p.abstractSystem_outcome inputs
  obtain ⟨syms, state⟩ := outcome.state
  refine ⟨outcome.exists_models step, fun M models => ?_⟩
  have interp : pa.Interprets s M := by
    have := models.interp
    rw [state] at this
    exact ⟨this.off, this.entry⟩
  refine ⟨outcome.defs interp, outcome.fmlas interp, outcome.invariant interp, outcome.next, ?_⟩
  rw [state]
  exact fun v hv val => outcome.recorded_value step models hv

section Examples

/-- A predicate of an uninterpreted sort at a constant. -/
def predicate (name : String) : Const := ⟨name, .function [.uninterpreted "S"] .boolean⟩

def holdsOf (name : String) : Expr := .apply (predicate name) [.const ⟨"c", .first (.uninterpreted "S")⟩]

def predicateSystem (stVars : List Const) : Pipeline :=
  ⟨⟨stVars, .empty, none, []⟩, ["c", "f__g"], []⟩

/-- The state after a state that makes some predicates true. -/
def afterNames (trueNames : List String) : Structure Domain.unit :=
  fun n σ => Structure.ofNames trueNames (actionNewName n) σ

theorem input_holdsOf {name : String} (plain : isSkolem name = false)
    (once : isNew name = true → isNew (newOf name) = false) : (Node.expr (holdsOf name)).Input where
  closed := rfl
  sorted := rfl
  concrete := by
    rintro c (_ | ⟨_, _ | ⟨_, ⟨⟩⟩⟩)
    · exact (not_isAbs plain).1
    · exact (not_isAbs (by decide)).1
  once := by
    rintro c (_ | ⟨_, _ | ⟨_, ⟨⟩⟩⟩)
    · exact once
    · exact fun new => absurd new (by decide)

theorem successive_ofNames {stVars : List Const} {name : String} {constant : Const → Prop}
    (excluded : ∀ c : Const, c.name = name → (predicateSystem stVars).isStVar c.name = false →
      isNew c.name = false → (isSkolem c.name = true → constant c) → False)
    (excludedNew : ∀ c : Const, actionNewName c.name = name →
      (predicateSystem stVars).isStVar c.name = false → False) :
    (predicateSystem stVars).Successive constant (Structure.ofNames [name]) (afterNames [name]) where
  next := fun _ _ => rfl
  rigid := by
    intro c stVar new skolem
    have now : c.name ∉ [name] := fun h => excluded c (List.mem_singleton.mp h) stVar new skolem
    have next : actionNewName c.name ∉ [name] := fun h => excludedNew c (List.mem_singleton.mp h) stVar
    funext vs
    simp only [afterNames, Structure.ofNames, now, next]

/-- The next value of a state variable, linked to the value before. -/
theorem abstractSystem_simulates_linked : ∃ M : Structure Domain.unit,
    ((predicateSystem [predicate "r"]).abstractSystem [] [holdsOf "new_r"] (holdsOf "r")).Models
      (.ofNames ["new_r"]) M := by
  refine (abstractSystem_simulates ⟨?_, ?_, input_holdsOf (by decide) (by decide), by decide⟩
    (successive_ofNames ?_ ?_)).1
  · exact fun d hd => absurd hd List.not_mem_nil
  · intro f hf
    rw [List.mem_singleton.mp hf]
    exact input_holdsOf (by decide) (by decide)
  · intro c name _ new
    rw [name] at new
    exact absurd new (by decide)
  · intro c name stVar
    have : c.name = "r" := actionNewName_injective name
    rw [this] at stVar
    exact absurd stVar (by decide)

/-- A skolem function of the invariant need not be constant over time where only the sort
constants are: its abstract constant then keeps a value that changes. -/
theorem abstractSystem_fixes_skolem : ∃ s s' M : Structure Domain.unit,
    (predicateSystem []).Successive (fun c => (predicateSystem []).isSortConstant c = true) s s' ∧
    ((predicateSystem []).abstractSystem [] [holdsOf "f__g"] (holdsOf "f__g")).Models s M ∧
    ∃ v ∈ ((predicateSystem []).abstractSystem [] [holdsOf "f__g"] (holdsOf "f__g")).state.newStVars,
      ∃ val, ValueAt ((predicateSystem []).abstractSystem [] [holdsOf "f__g"]
        (holdsOf "f__g")).state s' v val ∧ val ≠ M.value (newActionConst v) [] := by
  let v : Const := ⟨"__abs[0]", .first .boolean⟩
  let pa : PropAbs := ⟨InsMap.empty.set (.expr (holdsOf "f__g")) v, 1, [], []⟩
  have fresh : PropAbs.newProp (predicateSystem []).toPropAbsConfig (.expr (holdsOf "f__g")) .new =
      (v, pa) := PropAbs.newProp_fresh rfl (by decide)
  have abstracted : PropAbs.mkPropAbs (predicateSystem []).toPropAbsConfig (holdsOf "f__g") = fun pa =>
      (PropAbs.newProp (predicateSystem []).toPropAbsConfig (.expr (holdsOf "f__g")) pa).map .const id :=
    rfl
  have closed : closeFormula (holdsOf "f__g") = holdsOf "f__g" := rfl
  have kept : (predicateSystem []).immutable pa = [v] := by decide
  have result : (predicateSystem []).abstractSystem [] [holdsOf "f__g"] (holdsOf "f__g") =
      ⟨[], [.const v], [keeps v], .const v, .const v, { pa with newStVars := [v] }⟩ := by
    simp only [abstractSystem, PropAbs.mkPropAbsDefs, List.map_cons, List.map_nil, closed,
      PropAbs.mkPropAbsList, abstracted, fresh, Prod.map, id, kept]
    rw [PropAbs.newProp_known rfl]
    have next : PropAbs.track (predicateSystem []).toPropAbsConfig v { pa with newStVars := [v] } =
        { pa with newStVars := [v] } := if_pos (by decide)
    exact congrArg (Result.mk [] [.const v] [keeps v] (.const v) (.const v)) next
  rw [result]
  have mapped : ∀ n w, pa.map.get n = some w → n = .expr (holdsOf "f__g") ∧ w = v := by
    intro n w hn
    rw [InsMap.get_set] at hn
    split at hn
    · rename_i same
      cases hn
      exact ⟨same, rfl⟩
    · simp at hn
  have value : ∀ names : List String, ∀ env, Node.eval (Structure.ofNames names) (.expr (holdsOf "f__g")) env =
      ⟨.boolean, decide ("f__g" ∈ names)⟩ := by
    intro names env
    rw [Node.eval, holdsOf, Expr.eval, Structure.value_eq _ (by rfl)]
    rfl
  refine ⟨.ofNames ["f__g"], afterNames ["f__g"], .ofNames ["f__g", "__abs[0]", "new___abs[0]"], ?_,
    ⟨⟨?_, ?_⟩, ?_⟩, v, List.mem_singleton_self v, ⟨.boolean, false⟩, ?_, ?_⟩
  · refine successive_ofNames (fun c name _ _ skolem => ?_) fun c name _ => ?_
    · have := skolem (by rw [name]; decide)
      simp [predicateSystem, PropAbsConfig.isSortConstant] at this
    · have := congrArg isNew name
      rw [isNew_actionNewName] at this
      exact absurd this (by decide)
  · intro c abs
    have first : c.name ≠ "__abs[0]" := fun name => abs ⟨0, .inl name⟩
    have second : c.name ≠ "new___abs[0]" := fun name => abs ⟨0, .inr name⟩
    funext vs
    simp only [Structure.ofNames, List.mem_cons, first, second, List.not_mem_nil, or_false]
  · intro n w hn env
    obtain ⟨rfl, rfl⟩ := mapped n w hn
    rw [value, Structure.value_eq _ (by rfl)]
    rfl
  · intro d hd
    rw [List.mem_singleton.mp hd]
    funext env
    simp only [keeps, Expr.eval]
    rw [Structure.value_eq _ (by rfl), Structure.value_eq _ (by rfl)]
    rfl
  · refine .inl ⟨.expr (holdsOf "f__g"), fun _ => Classical.arbitrary _, rfl, ?_⟩
    rw [Node.eval, holdsOf, Expr.eval, Structure.value_eq _ (by rfl)]
    rfl
  · rw [Structure.value_eq _ (by rfl)]
    exact fun same => Bool.false_ne_true (eq_of_heq (Sigma.mk.inj same).2)

end Examples

end Pipeline

end Goivy
