import Goivy.Mc.Evaluation

/-! Evaluation with a callback that may define symbols meanwhile. The encoder keeps an invariant,
and its circuit only gets more gates. -/
namespace Goivy

namespace Encoder

theorem evalSymbol_some {enc : Encoder} {getdef : Option GetDefFunc} {x : Const} {ls : List Nat}
    (found : enc.lit x = some ls) : enc.evalSymbol getdef x = .ok (enc, ls) := by
  simp only [evalSymbol, found]

theorem evalSymbol_none {enc : Encoder} {getdef : GetDefFunc} {x : Const} (missing : enc.lit x = none) :
    enc.evalSymbol (some getdef) x = getdef enc x := by
  simp only [evalSymbol, missing]

/-- An encoder whose circuit has more gates. -/
structure Extends (enc enc' : Encoder) : Prop where
  gates : enc.sub.gates <+: enc'.sub.gates
  nextID : enc.sub.nextID ≤ enc'.sub.nextID

namespace Extends

variable {enc enc' enc'' : Encoder}

theorem refl (enc : Encoder) : enc.Extends enc := ⟨List.prefix_rfl, Nat.le_refl _⟩

theorem trans (h : enc.Extends enc') (h' : enc'.Extends enc'') : enc.Extends enc'' :=
  ⟨h.gates.trans h'.gates, Nat.le_trans h.nextID h'.nextID⟩

theorem ofGrows {a : Aiger} (grows : enc.sub.Grows a) : enc.Extends { enc with sub := a } :=
  ⟨grows.gates, grows.nextID⟩

theorem settled (h : enc.Extends enc') {v : Nat → Bool} (settled : Circuit.Settled enc'.sub.gates v) :
    Circuit.Settled enc.sub.gates v := fun g hg => settled g (h.gates.subset hg)

theorem exists_ (h : enc.Extends enc') {l : Nat} (here : l < 2 * enc.sub.nextID) : l < 2 * enc'.sub.nextID := by
  have := h.nextID
  omega

end Extends

/-- Structures that are considered under a valuation of the gates. -/
abbrev Scope := (Nat → Bool) → ∀ D : Domain, Structure D → Env D → Prop

/-- What holds of the encoder all the time. -/
structure Invariant (sig : Signature) where
  holds : Encoder → Prop
  interp : ∀ enc, holds enc → enc.interp = sig.interp
  isConstructor : ∀ enc, holds enc → ∀ x, enc.isConstructor x = decide (x.name ∈ sig.constructors)
  index : ∀ enc, holds enc → enc.constructorIndexFn = constructorIndex sig.interp
  numbered : ∀ enc, holds enc → enc.sub.Numbered
  grows : ∀ enc a, holds enc → enc.sub.Grows a → holds { enc with sub := a }

/-- Literals for the bits of the value of an expression. -/
structure Reads (sig : Signature) (scope : Scope) (enc : Encoder) (e : Expr) (s : FSort) (th : FiniteTheory)
    (ls : List Nat) : Prop where
  length : ls.length = th.width
  exists_ : ∀ l ∈ ls, l < 2 * enc.sub.nextID
  means : ∀ v, Circuit.Settled enc.sub.gates v →
    ∀ (D : Domain) (M : Structure D) (number : (s : FSort) → Int → El D s) (env : Env D),
      sig.Standard M number → scope v D M env →
      e.eval M env = (th.value s (min (binary (ls.map (litValue v))) th.last)).eval M env

theorem Reads.mono {sig : Signature} {scope : Scope} {enc enc' : Encoder} {e : Expr} {s : FSort} {th : FiniteTheory}
    {ls : List Nat} (h : Reads sig scope enc e s th ls) (extend : enc.Extends enc') :
    Reads sig scope enc' e s th ls :=
  ⟨h.length, fun l hl => extend.exists_ (h.exists_ l hl), fun v settled => h.means v (extend.settled settled)⟩

/-- A successful evaluation, which gives literals for the bits of the value. -/
structure Gives {sig : Signature} (I : Invariant sig) (scope : Scope) (enc : Encoder) (run : Evaluated) (e : Expr)
    (s : FSort) (th : FiniteTheory) (enc' : Encoder) (ls : List Nat) : Prop where
  result : run = .ok (enc', ls)
  holds : I.holds enc'
  extends_ : enc.Extends enc'
  reads : Reads sig scope enc' e s th ls

variable {sig : Signature} {I : Invariant sig} {scope : Scope} {getdef : Option GetDefFunc}

/-- A Boolean expression has one literal, which has its truth value. -/
theorem Gives.literal {enc enc' : Encoder} {run : Evaluated} {e : Expr} {ls : List Nat}
    (h : Gives I scope enc run e .boolean .boolean enc' ls) :
    ∃ l, ls = [l] ∧ ∀ v, Circuit.Settled enc'.sub.gates v →
      ∀ (D : Domain) (M : Structure D) (number : (s : FSort) → Int → El D s) (env : Env D),
        sig.Standard M number → scope v D M env → (e.Holds M env ↔ litValue v l = true) := by
  obtain ⟨l, rfl⟩ := List.length_eq_one_iff.mp (h.reads.length.trans (by decide))
  refine ⟨l, rfl, fun v settled D M number env standard inside => ?_⟩
  have value := h.reads.means v settled D M number env standard inside
  rw [List.map_singleton, boolean_value, eval_boolExpr] at value
  rw [Expr.Holds, value, holds_ofProp]

/-- A Boolean result from a literal that the last gates give. -/
theorem Gives.ofLiteral {enc enc₁ : Encoder} {run : Evaluated} {e : Expr} {a : Aiger} {l : Nat}
    (value : (Nat → Bool) → Bool) (result : run = .ok ({ enc₁ with sub := a }, [l])) (holds : I.holds enc₁)
    (extend : enc.Extends enc₁) (yields : enc₁.sub.YieldsBits (a, [l]) (fun v => [value v]))
    (means : ∀ v, Circuit.Settled a.gates v →
      ∀ (D : Domain) (M : Structure D) (number : (s : FSort) → Int → El D s) (env : Env D),
        sig.Standard M number → scope v D M env → e.eval M env = .ofProp (value v = true)) :
    Gives I scope enc run e .boolean .boolean { enc₁ with sub := a } [l] := by
  refine ⟨result, I.grows _ _ holds yields.grows, extend.trans (.ofGrows yields.grows), rfl, yields.exists_,
    fun v settled D M number env standard inside => ?_⟩
  rw [yields.means v settled, boolean_value, eval_boolExpr]
  exact means v settled D M number env standard inside

/-- A list of Boolean expressions. -/
theorem evalTerms_gives {ts : List Expr}
    (ih : ∀ t ∈ ts, ∀ enc, I.holds enc →
      ∃ enc' ls, Gives I scope enc (evalRec getdef enc t) t .boolean .boolean enc' ls)
    {enc : Encoder} (holds : I.holds enc) :
    ∃ enc' ls, evalTerms getdef enc ts = .ok (enc', ls.map ([·])) ∧ I.holds enc' ∧ enc.Extends enc' ∧
      (∀ l ∈ ls, l < 2 * enc'.sub.nextID) ∧ ∀ v, Circuit.Settled enc'.sub.gates v →
        ∀ (D : Domain) (M : Structure D) (number : (s : FSort) → Int → El D s) (env : Env D),
          sig.Standard M number → scope v D M env →
          List.Forall₂ (fun t l => t.Holds M env ↔ litValue v l = true) ts ls := by
  induction ts generalizing enc with
  | nil => exact ⟨enc, [], rfl, holds, .refl enc, fun _ h => absurd h List.not_mem_nil, fun _ _ _ _ _ _ _ _ => .nil⟩
  | cons t ts tail =>
    obtain ⟨enc₁, ls₁, here⟩ := ih t List.mem_cons_self enc holds
    obtain ⟨l, rfl, means⟩ := here.literal
    obtain ⟨enc₂, ls, result, holds₂, rest, exist, meansTail⟩ :=
      tail (fun t ht => ih t (List.mem_cons_of_mem _ ht)) here.holds
    refine ⟨enc₂, l :: ls, ?_, holds₂, here.extends_.trans rest, ?_, ?_⟩
    · rw [evalTerms, here.result]
      simp only [bind, Except.bind, result, pure, Except.pure, List.map_cons]
    · rw [List.forall_mem_cons]
      exact ⟨rest.exists_ (here.reads.exists_ l (List.mem_singleton_self l)), exist⟩
    · intro v settled D M number env standard inside
      exact .cons (means v (rest.settled settled) D M number env standard inside)
        (meansTail v settled D M number env standard inside)

/-- A connective of a list of Boolean expressions. -/
theorem gives_terms {op : Aiger → List Nat → Aiger × Nat} {multi : Aiger → List (List Nat) → Aiger × List Nat}
    (single : ∀ a xs, multi a (xs.map ([·])) = ((op a xs).1, [(op a xs).2]))
    {f : List Nat → (Nat → Bool) → Bool}
    (yields : ∀ a : Aiger, a.Numbered → ∀ xs : List Nat, (∀ x ∈ xs, x < 2 * a.nextID) →
      a.Yields (op a xs) (fun v => f xs (litValue v)))
    {ts : List Expr} {e : Expr}
    (unfolds : ∀ enc : Encoder, evalRec getdef enc e = do
      let (enc, args) ← evalTerms getdef enc ts
      return enc.withSub (multi enc.sub args))
    (meaning : ∀ (D : Domain) (M : Structure D) (env : Env D) (value : Nat → Bool) (ls : List Nat),
      List.Forall₂ (fun t l => t.Holds M env ↔ value l = true) ts ls →
      e.eval M env = .ofProp (f ls value = true))
    (ih : ∀ t ∈ ts, ∀ enc, I.holds enc →
      ∃ enc' ls, Gives I scope enc (evalRec getdef enc t) t .boolean .boolean enc' ls)
    {enc : Encoder} (holds : I.holds enc) :
    ∃ enc' ls, Gives I scope enc (evalRec getdef enc e) e .boolean .boolean enc' ls := by
  obtain ⟨enc₁, ls, result, holds₁, extend, exist, means⟩ := evalTerms_gives ih holds
  have gate := yields enc₁.sub (I.numbered _ holds₁) ls exist
  refine ⟨_, _, .ofLiteral _ ?_ holds₁ extend gate.single ?_⟩
  · rw [unfolds, result]
    simp only [bind, Except.bind, single]
    rfl
  · intro v settled D M number env standard inside
    exact meaning D M env _ ls
      (means v (Aiger.settled_of_grows gate.grows settled) D M number env standard inside)

/-- A connective of two Boolean expressions. -/
theorem gives_connective {op : Aiger → Nat → Nat → Aiger × Nat} {f : Bool → Bool → Bool}
    (computes : ∀ a, Computes a op (fun _ => f)) {a b e : Expr}
    (unfolds : ∀ enc : Encoder, evalRec getdef enc e = do
      let (enc, lhs) ← evalRec getdef enc a
      let (enc, rhs) ← evalRec getdef enc b
      return enc.withSub (← zipBits op enc.sub lhs rhs))
    (meaning : ∀ (D : Domain) (M : Structure D) (env : Env D) (x y : Bool),
      (a.Holds M env ↔ x = true) → (b.Holds M env ↔ y = true) → e.eval M env = .ofProp (f x y = true))
    (ihA : ∀ enc, I.holds enc → ∃ enc' ls, Gives I scope enc (evalRec getdef enc a) a .boolean .boolean enc' ls)
    (ihB : ∀ enc, I.holds enc → ∃ enc' ls, Gives I scope enc (evalRec getdef enc b) b .boolean .boolean enc' ls)
    {enc : Encoder} (holds : I.holds enc) :
    ∃ enc' ls, Gives I scope enc (evalRec getdef enc e) e .boolean .boolean enc' ls := by
  obtain ⟨enc₁, lhs, left⟩ := ihA enc holds
  obtain ⟨enc₂, rhs, right⟩ := ihB enc₁ left.holds
  obtain ⟨x, rfl, meansX⟩ := left.literal
  obtain ⟨y, rfl, meansY⟩ := right.literal
  have gate := computes enc₂.sub enc₂.sub (.refl (I.numbered _ right.holds)) x y
    (right.extends_.exists_ (left.reads.exists_ x (List.mem_singleton_self x)))
    (right.reads.exists_ y (List.mem_singleton_self y))
  refine ⟨_, _, .ofLiteral _ ?_ right.holds (left.extends_.trans right.extends_) gate.single ?_⟩
  · rw [unfolds, left.result]
    simp only [bind, Except.bind, right.result]
    rfl
  · intro v settled D M number env standard inside
    have settled₂ := Aiger.settled_of_grows gate.grows settled
    exact meaning D M env _ _ (meansX v (right.extends_.settled settled₂) D M number env standard inside)
      (meansY v settled₂ D M number env standard inside)

theorem Invariant.ready {enc : Encoder} (holds : I.holds enc) : enc.Ready sig [] :=
  ⟨I.interp enc holds, I.isConstructor enc holds, I.index enc holds, I.numbered enc holds, by simp⟩

/-- An evaluation that looks up no symbol. -/
theorem Evaluates.gives {enc : Encoder} (holds : I.holds enc) {e : Expr} {s : FSort} {th : FiniteTheory}
    {r : Aiger × List Nat} (h : enc.Evaluates sig [] getdef enc.sub e s th r) :
    Gives I scope enc (evalRec getdef enc e) e s th { enc with sub := r.1 } r.2 :=
  ⟨h.result, I.grows _ _ holds h.grows, .ofGrows h.grows, h.length, h.exists_,
    fun v settled D M number env standard _ => h.means v settled D M number env standard (by simp [Denotes])⟩

/-- Literals are found for every well-sorted expression when they are found for its symbols. -/
theorem gives (I : Invariant sig) (scope : Scope) (getdef : Option GetDefFunc) {syms : List Const}
    (declares : sig.Declares syms) (encodable : sig.Encodable)
    (symbols : ∀ x ∈ syms, ∀ s, x.sort = .first s → ∀ th, HasTheory s sig.interp th → ∀ enc, I.holds enc →
      ∃ enc' ls, Gives I scope enc (enc.evalSymbol getdef x) (.const x) s th enc' ls)
    {e : Expr} {s : FSort} (ws : sig.WellSorted syms e s) :
    ∀ th, HasTheory s sig.interp th → ∀ enc, I.holds enc →
      ∃ enc' ls, Gives I scope enc (evalRec getdef enc e) e s th enc' ls := by
  have boolean := sig.hasTheory_boolean
  induction ws with
  | @symbol x s hx sort =>
    intro th h enc holds
    obtain ⟨notConstructor, notNumeral⟩ := declares.fresh x hx
    have isConstructor := I.isConstructor enc holds x
    rw [decide_eq_false notConstructor] at isConstructor
    have looked : evalRec getdef enc (.const x) = enc.evalSymbol getdef x := by
      simp [evalRec, isConstructor, notNumeral]
    rw [looked]
    exact symbols x hx s sort th h enc holds
  | constructor hs h hn =>
    intro th h' enc holds
    rw [h'.unique h]
    obtain ⟨r, found⟩ : ∃ r, enc.Evaluates sig [] getdef enc.sub _ _ _ r :=
      evaluates_constructor encodable (I.ready holds) hs h hn (.refl (I.numbered enc holds))
    exact ⟨_, _, found.gives holds⟩
  | numeral hs h numeral value inRange =>
    intro th h' enc holds
    rw [h'.unique h]
    obtain ⟨r, found⟩ : ∃ r, enc.Evaluates sig [] getdef enc.sub _ _ _ r :=
      evaluates_numeral encodable (I.ready holds) hs h numeral value inRange (.refl (I.numbered enc holds))
    exact ⟨_, _, found.gives holds⟩
  | and _ ih =>
    intro th h enc holds
    rw [h.unique boolean]
    refine gives_terms andlMulti_single (fun _ => Aiger.andl_yields) (fun _ => by rw [evalRec])
      (fun D M env value ls same => ?_) (fun t ht => ih t ht .boolean boolean) holds
    rw [Expr.eval, evalList_eq_map]
    refine congrArg Val.ofProp (propext ?_)
    rw [List.all_eq_true, List.forall_mem_map]
    exact forall_mem_congr same
  | or _ ih =>
    intro th h enc holds
    rw [h.unique boolean]
    refine gives_terms orlMulti_single (fun _ => Aiger.orl_yields) (fun _ => by rw [evalRec])
      (fun D M env value ls same => ?_) (fun t ht => ih t ht .boolean boolean) holds
    rw [Expr.eval, evalList_eq_map]
    refine congrArg Val.ofProp (propext ?_)
    simp only [List.any_eq_true, List.mem_map, exists_exists_and_eq_and]
    exact exists_mem_congr same
  | not _ ih =>
    intro th h enc holds
    rw [h.unique boolean]
    obtain ⟨enc₁, ls, here⟩ := ih .boolean boolean enc holds
    obtain ⟨l, rfl, means⟩ := here.literal
    have exist := here.reads.exists_ l (List.mem_singleton_self l)
    refine ⟨_, _, .ofLiteral (a := enc₁.sub) (l := Aiger.notl l) (fun v => !litValue v l) ?_ here.holds here.extends_
      ⟨.refl (I.numbered _ here.holds), ?_, fun v _ => ?_⟩ ?_⟩
    · rw [evalRec, here.result]
      rfl
    · simp only [List.mem_singleton, forall_eq]
      exact Aiger.notl_lt exist
    · rw [List.map_singleton, Aiger.litValue_notl]
    · intro v settled D M number env standard inside
      rw [Expr.eval]
      refine congrArg Val.ofProp (propext ?_)
      rw [Bool.not_eq_true', ← Bool.not_eq_true]
      exact not_congr (means v settled D M number env standard inside)
  | implies _ _ ihA ihB =>
    intro th h enc holds
    rw [h.unique boolean]
    refine gives_connective (fun _ => computes_impliesL) (fun _ => by rw [evalRec]; rfl)
      (fun D M env x y hx hy => ?_) (ihA .boolean boolean) (ihB .boolean boolean) holds
    rw [Expr.eval]
    refine congrArg Val.ofProp (propext ((imp_congr hx hy).trans ?_))
    cases x <;> simp
  | iff _ _ ihA ihB =>
    intro th h enc holds
    rw [h.unique boolean]
    refine gives_connective (fun _ => computes_iff) (fun _ => by rw [evalRec]; rfl)
      (fun D M env x y hx hy => ?_) (ihA .boolean boolean) (ihB .boolean boolean) holds
    rw [Expr.eval]
    refine congrArg Val.ofProp (propext ((iff_congr hx hy).trans ?_))
    cases x <;> cases y <;> simp
  | ite _ _ _ ihC ihA ihB =>
    intro th h enc holds
    obtain ⟨enc₁, cs, cond⟩ := ihC .boolean boolean enc holds
    obtain ⟨l, rfl, meansC⟩ := cond.literal
    obtain ⟨enc₂, xs, then_⟩ := ihA th h enc₁ cond.holds
    obtain ⟨enc₃, ys, else_⟩ := ihB th h enc₂ then_.holds
    have extend := then_.extends_.trans else_.extends_
    obtain ⟨r, zipped, length, yields⟩ := zipBits_yields (I.numbered _ else_.holds)
      (computes_ite (extend.exists_ (cond.reads.exists_ l (List.mem_singleton_self l))))
      (then_.reads.length.trans else_.reads.length.symm) (fun x hx => else_.extends_.exists_ (then_.reads.exists_ x hx))
      else_.reads.exists_
    refine ⟨{ enc₃ with sub := r.1 }, r.2, ?_, I.grows _ _ else_.holds yields.grows,
      cond.extends_.trans (extend.trans (.ofGrows yields.grows)), length.trans then_.reads.length, yields.exists_, ?_⟩
    · rw [evalRec, cond.result]
      simp only [bind, Except.bind, then_.result, else_.result, encodeIte, zipped]
      rfl
    · intro v settled D M number env standard inside
      have settled₃ := Aiger.settled_of_grows yields.grows settled
      have settled₂ := else_.extends_.settled settled₃
      have lengths : (xs.map (litValue v)).length = (ys.map (litValue v)).length := by
        rw [List.length_map, List.length_map]
        exact then_.reads.length.trans else_.reads.length.symm
      have cond := meansC v (then_.extends_.settled settled₂) D M number env standard inside
      rw [yields.means v settled, zipWith_bif _ lengths]
      cases truth : litValue v l
      · rw [Expr.eval_ite_neg M env _ _ (by simp [cond, truth])]
        exact else_.reads.means v settled₃ D M number env standard inside
      · rw [Expr.eval_ite_pos M env _ _ (cond.mpr truth)]
        exact then_.reads.means v settled₂ D M number env standard inside
  | @eq a b s wsA _ ihA ihB =>
    intro th h enc holds
    rw [h.unique boolean]
    have mem := wsA.theory declares
    obtain ⟨th, h⟩ := Signature.theory_of_mem mem
    have ok := encodable.theory mem h
    obtain ⟨enc₁, xs, left⟩ := ihA th h enc holds
    obtain ⟨enc₂, ys, right⟩ := ihB th h enc₁ left.holds
    have width : xs.length ≤ 62 ∨ xs.length = 63 ∧ th.last = 2 ^ 63 - 1 := by
      rw [show xs.length = th.width from left.reads.length]
      exact FiniteTheory.width_le ok
    obtain ⟨⟨a₃, ls⟩, result, length, yields⟩ := encodeEquality_yields (I.numbered _ right.holds)
      (sortSize_eq h ok) (left.reads.length.trans right.reads.length.symm) width
      (fun l hl => right.extends_.exists_ (left.reads.exists_ l hl)) right.reads.exists_
    obtain ⟨l, rfl⟩ := List.length_eq_one_iff.mp length
    refine ⟨_, _, .ofLiteral _ ?_ right.holds (left.extends_.trans right.extends_) yields ?_⟩
    · rw [← I.interp _ right.holds] at result
      rw [evalRec, left.result]
      simp only [bind, Except.bind, right.result, wsA.nodeSort, LSort.range, result]
      rfl
    · intro v settled D M number env standard inside
      have settled₂ := Aiger.settled_of_grows yields.grows settled
      rw [Expr.eval, left.reads.means v (right.extends_.settled settled₂) D M number env standard inside,
        right.reads.means v settled₂ D M number env standard inside]
      refine congrArg Val.ofProp (propext ?_)
      rw [Signature.eval_value_inj standard mem h ok (Nat.min_le_right ..) (Nat.min_le_right ..),
        decide_eq_true_iff]

/-- The circuit of the encoder gets more gates, and nothing else changes. -/
def growing {enc : Encoder} {syms : List Const} (ready : enc.Ready sig syms) : Invariant sig where
  holds enc' := ∃ a, enc.sub.Grows a ∧ enc' = { enc with sub := a }
  interp := by
    rintro _ ⟨a, -, rfl⟩
    exact ready.interp
  isConstructor := by
    rintro _ ⟨a, -, rfl⟩
    exact ready.isConstructor
  index := by
    rintro _ ⟨a, -, rfl⟩
    exact ready.index
  numbered := by
    rintro _ ⟨a, grows, rfl⟩
    exact grows.numbered
  grows := by
    rintro _ b ⟨a, grows, rfl⟩ more
    exact ⟨b, grows.trans more, rfl⟩

variable (getdef) in
/-- A circuit is built for every well-sorted expression, and it computes its value. -/
theorem evaluates {enc : Encoder} {syms : List Const} (declares : sig.Declares syms) (encodable : sig.Encodable)
    (ready : enc.Ready sig syms) {e : Expr} {s : FSort} (ws : sig.WellSorted syms e s) :
    ∀ th, HasTheory s sig.interp th → ∀ sub, enc.sub.Grows sub →
      ∃ r, enc.Evaluates sig syms getdef sub e s th r := by
  intro th h sub grows
  have symbols : ∀ x ∈ syms, ∀ s, x.sort = .first s → ∀ th, HasTheory s sig.interp th →
      ∀ enc', (growing ready).holds enc' → ∃ enc₁ ls, Gives (growing ready) (fun v _ M env => enc.Denotes sig syms v M env)
        enc' (enc'.evalSymbol getdef x) (.const x) s th enc₁ ls := by
    rintro x hx s sort th h _ ⟨a, grows, rfl⟩
    obtain ⟨ls, lit, length, exist⟩ := ready.lits x hx s sort th h
    have sameLit : Encoder.lit { enc with sub := a } x = some ls := by
      rw [← lit, Encoder.lit, Encoder.lit, grows.varMap]
    exact ⟨_, ls, evalSymbol_some sameLit, ⟨a, grows, rfl⟩, .refl _, length, fun l hl => grows.exists_ (exist l hl),
      fun v _ D M number env _ denotes => denotes x hx s sort th h ls lit⟩
  obtain ⟨enc', ls, given⟩ := gives (growing ready) _ getdef declares encodable symbols ws th h _ ⟨sub, grows, rfl⟩
  obtain ⟨a, grown, rfl⟩ := given.holds
  exact ⟨(a, ls), given.result,
    ⟨grown.inputs.trans grows.inputs.symm, grown.latches.trans grows.latches.symm,
      grown.outputs.trans grows.outputs.symm, grown.varMap.trans grows.varMap.symm,
      grown.values.trans grows.values.symm, grown.numbered, given.extends_.nextID, given.extends_.gates⟩,
    given.reads.length, given.reads.exists_, given.reads.means⟩

end Encoder

end Goivy
