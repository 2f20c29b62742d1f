import Goivy.LogicUtil.Syntax

/-! Values of expressions in a structure, at the positions of a run. -/
namespace Goivy.LogicUtil

/-- What a structure says beyond the meaning of its symbols: the elements of the sorts, truth, application of function values,
and the values of the binders and operators that the logic does not define. -/
structure Reading (V : Type) where
  carrier : LSort → Set V
  default : LSort → V
  ofProp : Prop → V
  Holds : V → Prop
  holds_ofProp : ∀ p, Holds (ofProp p) ↔ p
  apply : V → List V → V
  lambda : List LSort → (List V → V) → V
  namedBinder : String → Option String → List LSort → (List V → Nat → V) → Nat → V
  whenOperator : String → (Nat → V) → (Nat → Prop) → Nat → V

/-- The values of the symbols at each position. -/
abbrev Assignment (V : Type) := Nat → Symbol → V

/-- The values of the bound variables. -/
def Assignment.bind {V : Type} (ρ : Assignment V) (vs : List LogicVariable) (xs : LogicVariable → V) : Assignment V :=
  fun j x =>
    match x with
    | .var v => if v ∈ vs then xs v else ρ j x
    | .const _ => ρ j x

section Values

variable {V : Type} (W : Reading V)

open Classical in
/-- The value of a connective, from the values of its arguments. -/
noncomputable def Connective.value : Connective → List (Nat → V) → Nat → V
  | .eq, [f, g], i => W.ofProp (f i = g i)
  | .ite, [c, f, g], i => if W.Holds (c i) then f i else g i
  | .not, [f], i => W.ofProp (¬ W.Holds (f i))
  | .and, fs, i => W.ofProp (∀ f ∈ fs, W.Holds (f i))
  | .or, fs, i => W.ofProp (∃ f ∈ fs, W.Holds (f i))
  | .implies, [f, g], i => W.ofProp (W.Holds (f i) → W.Holds (g i))
  | .iff, [f, g], i => W.ofProp (W.Holds (f i) ↔ W.Holds (g i))
  | .globally _, [f], i => W.ofProp (∀ j, i ≤ j → W.Holds (f j))
  | .eventually _, [f], i => W.ofProp (∃ j, i ≤ j ∧ W.Holds (f j))
  | .whenOperator name, [f, c], i => W.whenOperator name f (fun j => W.Holds (c j)) i
  | .cond, [_, f], i => f i
  | _, _, _ => W.ofProp False

/-- The elements that the variables can have. -/
def Ranged (vs : List LogicVariable) (xs : LogicVariable → V) : Prop := ∀ v ∈ vs, xs v ∈ W.carrier v.sort

/-- The values of the variables of a function at its arguments. -/
def atArgs (vs : List LogicVariable) (args : List V) (v : LogicVariable) : V := ((vs.zip args).lookup v).getD (W.default v.sort)

open Classical in
/-- The value of a description: `ifVal` at a witness, or `elseVal` with the parameters at any values. -/
noncomputable def pick (vs : List LogicVariable) (fmla ifVal elseVal : (LogicVariable → V) → V) : V :=
  if h : ∃ d, ∃ xs, Ranged W vs xs ∧ W.Holds (fmla xs) ∧ ifVal xs = d then h.choose else elseVal fun v => W.default v.sort

/-- The value of a binder, from the values of its parts as functions of the bound variables. -/
noncomputable def Binder.value : Binder → List LogicVariable → List ((LogicVariable → V) → Nat → V) → Nat → V
  | .forAll, vs, [f], i | .rawForAll _, vs, [f], i => W.ofProp (∀ xs, Ranged W vs xs → W.Holds (f xs i))
  | .exists, vs, [f], i => W.ofProp (∃ xs, Ranged W vs xs ∧ W.Holds (f xs i))
  | .lambda, vs, [f], i => W.lambda (vs.map LogicVariable.sort) fun args => f (atArgs W vs args) i
  | .namedBinder name environ, vs, [f], i =>
    W.namedBinder name environ (vs.map LogicVariable.sort) (fun args j => f (atArgs W vs args) j) i
  | .some ifVal elseVal, vs, f :: gs, i =>
    let param (xs : LogicVariable → V) : V := (vs.head?.map xs).getD (W.default (.first (.top "TopSort")))
    match ifVal, elseVal, gs with
    | false, false, [] => pick W vs (f · i) param param
    | true, false, [g] => pick W vs (f · i) (g · i) param
    | false, true, [g] => pick W vs (f · i) param (g · i)
    | true, true, [g, h] => pick W vs (f · i) (g · i) (h · i)
    | _, _, _ => W.ofProp False
  | _, _, _, _ => W.ofProp False

mutual
/-- The value of an expression at each position. -/
noncomputable def Expr.eval : Expr → Assignment V → Nat → V
  | .symbol x, ρ, i => ρ i x
  | .apply f ts, ρ, i => W.apply (f.eval ρ i) ((evals ts ρ).map fun g => g i)
  | .node op ts, ρ, i => op.value W (evals ts ρ) i
  | .bind b vs ts, ρ, i => b.value W vs (evalParts ts vs ρ) i
noncomputable def evals : List Expr → Assignment V → List (Nat → V)
  | [], _ => []
  | t :: ts, ρ => t.eval ρ :: evals ts ρ
noncomputable def evalParts : List Expr → List LogicVariable → Assignment V → List ((LogicVariable → V) → Nat → V)
  | [], _, _ => []
  | t :: ts, vs, ρ => (fun xs => t.eval (ρ.bind vs xs)) :: evalParts ts vs ρ
end

theorem evals_eq (ts : List Expr) (ρ : Assignment V) : evals W ts ρ = ts.map fun t => t.eval W ρ := by
  induction ts with
  | nil => rfl
  | cons t ts ih => rw [evals, ih, List.map_cons]

theorem evalParts_eq (ts : List Expr) (vs : List LogicVariable) (ρ : Assignment V) :
    evalParts W ts vs ρ = ts.map fun t xs => t.eval W (ρ.bind vs xs) := by
  induction ts with
  | nil => rfl
  | cons t ts ih => rw [evalParts, ih, List.map_cons]

/-- The values of the symbols after a substitution: those of the replacements. -/
noncomputable def Assignment.update (ρ : Assignment V) (subs : Subs) : Assignment V :=
  fun j x => ((subs.lookup x).map fun r => r.eval W ρ j).getD (ρ j x)

end Values

section Symbols

mutual
/-- The symbols that occur free in an expression. -/
def Expr.symbols : Expr → List Symbol
  | .symbol x => [x]
  | .apply f ts => f.symbols ++ symbolsList ts
  | .node _ ts => symbolsList ts
  | .bind _ vs ts => (symbolsList ts).filter (· ∉ vs.map Symbol.var)
def symbolsList : List Expr → List Symbol
  | [] => []
  | t :: ts => t.symbols ++ symbolsList ts
end

mutual
/-- The symbols that occur free in the heads of the applications of an expression. -/
def Expr.headSymbols : Expr → List Symbol
  | .symbol _ => []
  | .apply f ts => f.symbols ++ headSymbolsList ts
  | .node _ ts => headSymbolsList ts
  | .bind _ vs ts => (headSymbolsList ts).filter (· ∉ vs.map Symbol.var)
def headSymbolsList : List Expr → List Symbol
  | [] => []
  | t :: ts => t.headSymbols ++ headSymbolsList ts
end

theorem symbolsList_eq (ts : List Expr) : symbolsList ts = ts.flatMap Expr.symbols := by
  induction ts with
  | nil => rfl
  | cons t ts ih => rw [symbolsList, ih, List.flatMap_cons]

theorem headSymbolsList_eq (ts : List Expr) : headSymbolsList ts = ts.flatMap Expr.headSymbols := by
  induction ts with
  | nil => rfl
  | cons t ts ih => rw [headSymbolsList, ih, List.flatMap_cons]

/-- A variable that occurs free is one of those that `FreeVariables` finds, or occurs in a head. -/
theorem Expr.mem_freeVariables {e : Expr} {v : LogicVariable} (h : .var v ∈ e.symbols) :
    v ∈ e.freeVariables ∨ .var v ∈ e.headSymbols := by
  induction e with
  | symbol x =>
    obtain rfl := List.mem_singleton.mp h
    exact .inl List.mem_cons_self
  | apply f ts _ ih =>
    rw [symbols, List.mem_append, symbolsList_eq, List.mem_flatMap] at h
    rw [freeVariables, headSymbols, freeVariablesList_eq, headSymbolsList_eq, List.mem_append]
    rcases h with head | ⟨t, ht, here⟩
    · exact .inr (.inl head)
    · rcases ih t ht here with free | inner
      · exact .inl (List.mem_flatMap.mpr ⟨t, ht, free⟩)
      · exact .inr (.inr (List.mem_flatMap.mpr ⟨t, ht, inner⟩))
  | node op ts ih =>
    rw [symbols, symbolsList_eq, List.mem_flatMap] at h
    obtain ⟨t, ht, here⟩ := h
    rw [freeVariables, headSymbols, freeVariablesList_eq, headSymbolsList_eq]
    exact (ih t ht here).imp (fun free => List.mem_flatMap.mpr ⟨t, ht, free⟩) fun inner => List.mem_flatMap.mpr ⟨t, ht, inner⟩
  | bind b vs ts ih =>
    rw [symbols, List.mem_filter, symbolsList_eq, List.mem_flatMap, decide_eq_true_eq] at h
    obtain ⟨⟨t, ht, here⟩, outside⟩ := h
    have other : v ∉ vs := fun mem => outside (List.mem_map_of_mem mem)
    rw [headSymbols, headSymbolsList_eq, List.mem_filter, decide_eq_true_eq]
    refine (ih t ht here).imp (fun free => ?_) fun inner => ⟨List.mem_flatMap.mpr ⟨t, ht, inner⟩, outside⟩
    have part : v ∈ freeVariablesList ts := by
      rw [freeVariablesList_eq]
      exact List.mem_flatMap.mpr ⟨t, ht, free⟩
    cases b with
    | some _ _ => exact List.mem_append_right _ part
    | _ => exact List.mem_filter.mpr ⟨part, decide_eq_true other⟩

variable {V : Type} {W : Reading V} {ρ ρ' : Assignment V}

theorem Assignment.bind_agree {vs : List LogicVariable} {xs : LogicVariable → V} {x : Symbol}
    (same : x ∉ vs.map Symbol.var → ∀ j, ρ j x = ρ' j x) (j : Nat) : ρ.bind vs xs j x = ρ'.bind vs xs j x := by
  cases x with
  | const c => exact same (by simp) j
  | var v =>
    simp only [Assignment.bind]
    split
    · rfl
    · rename_i outside
      exact same (by simpa using outside) j

/-- The value of an expression depends on the symbols that occur free in it. -/
theorem Expr.eval_congr {e : Expr} (same : ∀ x ∈ e.symbols, ∀ j, ρ j x = ρ' j x) : e.eval W ρ = e.eval W ρ' := by
  induction e generalizing ρ ρ' with
  | symbol x => exact funext fun i => same x List.mem_cons_self i
  | apply f ts hf ih =>
    rw [symbols, symbolsList_eq] at same
    rw [List.forall_mem_append] at same
    have terms : evals W ts ρ = evals W ts ρ' := by
      rw [evals_eq, evals_eq]
      exact List.map_congr_left fun t ht => ih t ht fun x hx => same.2 x (List.mem_flatMap.mpr ⟨t, ht, hx⟩)
    funext i
    rw [eval, eval, hf same.1, terms]
  | node op ts ih =>
    rw [symbols, symbolsList_eq] at same
    have args : evals W ts ρ = evals W ts ρ' := by
      rw [evals_eq, evals_eq]
      exact List.map_congr_left fun t ht => ih t ht fun x hx => same x (List.mem_flatMap.mpr ⟨t, ht, hx⟩)
    funext i
    rw [eval, eval, args]
  | bind b vs ts ih =>
    have parts : evalParts W ts vs ρ = evalParts W ts vs ρ' := by
      rw [evalParts_eq, evalParts_eq]
      refine List.map_congr_left fun t ht => funext fun xs => ih t ht fun x hx j => Assignment.bind_agree (fun outside => ?_) j
      refine same x ?_
      rw [symbols, List.mem_filter, symbolsList_eq, List.mem_flatMap]
      exact ⟨⟨t, ht, hx⟩, decide_eq_true outside⟩
    funext i
    rw [eval, eval, parts]

end Symbols

end Goivy.LogicUtil
