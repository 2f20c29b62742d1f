import Goivy.Mc.Combos
import Goivy.Logic.Vocabulary

/-! Quantifier elimination keeps the value of a closed expression, in a structure that gives
every fresh proposition the truth value of its quantifier. -/
namespace Goivy

/-- Comparisons other than `<` mean what the macros of their names expand to. -/
structure Structure.ReadsMacros {D : Domain} (M : Structure D) : Prop where
  le : ∀ (t : FSort) (x y : El D t), M.value ⟨"<=", .function [t, t] .boolean⟩ [⟨t, x⟩, ⟨t, y⟩] =
    .ofProp ((M.value ⟨"<", .function [t, t] .boolean⟩ [⟨t, x⟩, ⟨t, y⟩]).Holds ∨ x = y)
  gt : ∀ (t : FSort) (x y : El D t), M.value ⟨">", .function [t, t] .boolean⟩ [⟨t, x⟩, ⟨t, y⟩] =
    M.value ⟨"<", .function [t, t] .boolean⟩ [⟨t, y⟩, ⟨t, x⟩]
  ge : ∀ (t : FSort) (x y : El D t), M.value ⟨">=", .function [t, t] .boolean⟩ [⟨t, x⟩, ⟨t, y⟩] =
    .ofProp ((M.value ⟨"<", .function [t, t] .boolean⟩ [⟨t, y⟩, ⟨t, x⟩]).Holds ∨ x = y)

/-- A symbol with the name of a macro compares two elements of one sort. -/
def Const.Compares (c : Const) : Prop :=
  c.name ∈ Expr.macroNames → ∀ domain range, c.sort = .function domain range →
    ∃ t, domain = [t, t] ∧ range = .boolean

namespace Expr

/-- The variables, the body and the kind of a quantifier. -/
def binder : Expr → Option (List Variable × Expr × Bool)
  | .forAll vs a => Option.some (vs, a, true)
  | .exists vs a => Option.some (vs, a, false)
  | _ => none

/-- The text that a quantifier is cached under. -/
def key (e : Expr) : Option String := e.binder.map fun b => quantifierKey b.1 b.2.1 b.2.2

variable {e e' : Expr} {s : FSort}

/-- The children of a node that is no quantifier. -/
theorem child_spec (h : e.HasSort [] s) (plain : e.binder = none) : ∀ t ∈ e.children,
    (∃ s, t.HasSort [] s) ∧ t.symbols ⊆ e.symbols ∧ t.binderSorts ⊆ e.binderSorts ∧
      t.depth < e.depth := by
  have list : ∀ (ts : List Expr), ∀ t ∈ ts, t.symbols ⊆ symbolsList ts ∧
      t.binderSorts ⊆ binderSortsList ts ∧ t.depth ≤ depthList ts := by
    intro ts t ht
    rw [symbolsList_eq_flatMap, binderSortsList_eq_flatMap]
    exact ⟨fun c hc => List.mem_flatMap.mpr ⟨t, ht, hc⟩, fun s hs => List.mem_flatMap.mpr ⟨t, ht, hs⟩,
      depth_le_depthList t ht⟩
  cases e with
  | var v | const c => simp [children]
  | apply f ts =>
    obtain ⟨domain, -, sorts⟩ := h
    intro t ht
    obtain ⟨symbols, binders, depth⟩ := list ts t ht
    refine ⟨sorts.exists_sort t ht, List.subset_cons_of_subset _ symbols, binders, ?_⟩
    have bound : t.depth ≤ depthList ts := depth
    rw [Expr.depth]
    split <;> omega
  | and ts | or ts =>
    intro t ht
    obtain ⟨symbols, binders, depth⟩ := list ts t ht
    have bound : t.depth ≤ depthList ts := depth
    exact ⟨⟨_, hasSorts_map.mp h.2 t ht⟩, symbols, binders, by rw [Expr.depth]; omega⟩
  | not a =>
    simp only [children, List.forall_mem_singleton]
    exact ⟨⟨_, h.2⟩, List.Subset.refl _, List.Subset.refl _, by rw [depth]; omega⟩
  | eq a b =>
    obtain ⟨-, r, sortA, sortB⟩ := h
    simp only [children, List.mem_cons, List.not_mem_nil, or_false, symbols, binderSorts, depth]
    rintro t (rfl | rfl)
    · exact ⟨⟨r, sortA⟩, List.subset_append_left _ _, List.subset_append_left _ _, by omega⟩
    · exact ⟨⟨r, sortB⟩, List.subset_append_right _ _, List.subset_append_right _ _, by omega⟩
  | implies a b | iff a b =>
    simp only [children, List.mem_cons, List.not_mem_nil, or_false, symbols, binderSorts, depth]
    rintro t (rfl | rfl)
    · exact ⟨⟨_, h.2.1⟩, List.subset_append_left _ _, List.subset_append_left _ _, by omega⟩
    · exact ⟨⟨_, h.2.2⟩, List.subset_append_right _ _, List.subset_append_right _ _, by omega⟩
  | ite a b c =>
    simp only [children, List.mem_cons, List.not_mem_nil, or_false, symbols, binderSorts, depth]
    rintro t (rfl | rfl | rfl)
    · exact ⟨⟨_, h.1⟩, by simp, by simp, by omega⟩
    · exact ⟨⟨_, h.2.1⟩, by simp, by simp, by omega⟩
    · exact ⟨⟨_, h.2.2⟩, by simp, by simp, by omega⟩
  | forAll | «exists» => simp [binder] at plain
  | some | someElse => exact h.elim

/-- The children have the same values, so the node has. -/
theorem eval_cloneNormal {D : Domain} {N : Structure D} (h : e.HasSort [] s) (plain : e.binder = none)
    {us : List Expr} {env : Env D}
    (same : List.Forall₂ (fun t u => u.eval N env = t.eval N env) e.children us) :
    (e.cloneNormal us).eval N env = e.eval N env := by
  have list : ∀ {ts us : List Expr}, List.Forall₂ (fun t u => u.eval N env = t.eval N env) ts us →
      evalList N us env = evalList N ts env := by
    intro ts us same
    induction same with
    | nil => rfl
    | cons head _ tail => rw [evalList, evalList, head, tail]
  cases e with
  | var v | const c => rfl
  | apply f ts =>
    have terms := list same
    cases same with
    | nil => rfl
    | cons head tail =>
      simp only [cloneNormal, eval]
      exact congrArg (N.value f) terms
  | and ts | or ts => simp only [cloneNormal, eval, list same, children]
  | not a =>
    simp only [children, List.forall₂_cons_left_iff, List.forall₂_nil_left_iff] at same
    obtain ⟨u, _, hu, rfl, rfl⟩ := same
    simp only [cloneNormal, eval, hu]
  | eq a b =>
    simp only [children, List.forall₂_cons_left_iff, List.forall₂_nil_left_iff] at same
    obtain ⟨u, _, hu, ⟨v, _, hv, rfl, rfl⟩, rfl⟩ := same
    simp only [cloneNormal]
    split
    · rename_i equal
      cases (equal_iff u v).mp equal
      simp [eval, tru, evalList, ← hu, ← hv]
    · split
      · simp only [eval, hu, hv, eq_comm]
      · simp only [eval, hu, hv]
  | implies a b | iff a b =>
    simp only [children, List.forall₂_cons_left_iff, List.forall₂_nil_left_iff] at same
    obtain ⟨u, _, hu, ⟨v, _, hv, rfl, rfl⟩, rfl⟩ := same
    simp only [cloneNormal, eval, hu, hv]
  | ite a b c =>
    simp only [children, List.forall₂_cons_left_iff, List.forall₂_nil_left_iff] at same
    obtain ⟨u, _, hu, ⟨v, _, hv, ⟨w, _, hw, rfl, rfl⟩, rfl⟩, rfl⟩ := same
    simp only [cloneNormal, eval, hu, hv, hw]
  | forAll | «exists» => simp [binder] at plain
  | some | someElse => exact h.elim

/-- A macro expands to a smaller expression with the same value. -/
theorem expandMacro_spec (h : e.HasSort [] s) (isMacro : e.isMacro = true)
    (compares : ∀ c ∈ e.symbols, c.Compares) : ∃ e', e.expandMacro = Option.some e' ∧
      (∃ s, e'.HasSort [] s) ∧ (∀ c ∈ e'.symbols, c ∈ e.symbols ∨ c.name = "<") ∧
      e'.binderSorts ⊆ e.binderSorts ∧ e'.depth < e.depth ∧
      ∀ {D : Domain} {N : Structure D}, N.ReadsMacros → e'.eval N = e.eval N := by
  cases e with
  | apply f ts =>
    obtain ⟨domain, sort, sorts⟩ := h
    obtain ⟨t, rfl, rfl⟩ := compares f (by simp [symbols]) (by simpa [Expr.isMacro] using isMacro)
      domain s sort
    obtain ⟨name, fsort⟩ := f
    cases sort
    obtain ⟨a, b, rfl, sortA, sortB⟩ := sorts.pair
    have fits : ∀ x y : Expr, x.HasSort [] t → y.HasSort [] t →
        newApply ⟨"<", .function [t, t] .boolean⟩ [x, y] =
          Option.some (.apply ⟨"<", .function [t, t] .boolean⟩ [x, y]) := by
      intro x y hx hy
      simp [newApply, argumentFits, nodeSort_of_hasSort hx, nodeSort_of_hasSort hy]
    have values : ∀ {D : Domain} (N : Structure D) (env : Env D), ∃ x y : El D t,
        a.eval N env = ⟨t, x⟩ ∧ b.eval N env = ⟨t, y⟩ := by
      intro D N env
      have hx := sort_eval_of_hasSort N sortA env
      have hy := sort_eval_of_hasSort N sortB env
      generalize a.eval N env = x at hx
      generalize b.eval N env = y at hy
      obtain ⟨r, x⟩ := x
      obtain ⟨r', y⟩ := y
      cases hx
      cases hy
      exact ⟨x, y, rfl, rfl⟩
    simp only [Expr.isMacro, macroNames, List.mem_cons, List.not_mem_nil, or_false,
      decide_eq_true_eq] at isMacro
    rcases isMacro with rfl | rfl | rfl
    · refine ⟨.or [.apply ⟨"<", .function [t, t] .boolean⟩ [a, b], .eq a b], ?_, ?_, ?_, ?_, ?_, ?_⟩
      · simp [expandMacro, fits a b sortA sortB]
      · exact ⟨.boolean, rfl, ⟨[t, t], rfl, sortA, sortB, trivial⟩, ⟨rfl, t, sortA, sortB⟩, trivial⟩
      · simp only [symbols, symbolsList, List.mem_cons, List.mem_append]
        grind
      · intro r
        simp only [binderSorts, binderSortsList, List.mem_append]
        grind
      · simp [depth, depthList, macroNames]
        omega
      · intro D N reads
        funext env
        obtain ⟨x, y, hx, hy⟩ := values N env
        simp [eval, evalList, hx, hy, reads.le]
    · refine ⟨.apply ⟨"<", .function [t, t] .boolean⟩ [b, a], ?_, ?_, ?_, ?_, ?_, ?_⟩
      · simp [expandMacro, fits b a sortB sortA]
      · exact ⟨.boolean, [t, t], rfl, sortB, sortA, trivial⟩
      · simp only [symbols, symbolsList, List.mem_cons, List.mem_append]
        grind
      · intro r
        simp only [binderSorts, binderSortsList, List.mem_append]
        grind
      · simp [depth, depthList, macroNames]
        omega
      · intro D N reads
        funext env
        obtain ⟨x, y, hx, hy⟩ := values N env
        simp [eval, evalList, hx, hy, reads.gt]
    · refine ⟨.or [.apply ⟨"<", .function [t, t] .boolean⟩ [b, a], .eq a b], ?_, ?_, ?_, ?_, ?_, ?_⟩
      · simp [expandMacro, fits b a sortB sortA]
      · exact ⟨.boolean, rfl, ⟨[t, t], rfl, sortB, sortA, trivial⟩, ⟨rfl, t, sortA, sortB⟩, trivial⟩
      · simp only [symbols, symbolsList, List.mem_cons, List.mem_append]
        grind
      · intro r
        simp only [binderSorts, binderSortsList, List.mem_append]
        grind
      · simp [depth, depthList, macroNames]
        omega
      · intro D N reads
        funext env
        obtain ⟨x, y, hx, hy⟩ := values N env
        simp [eval, evalList, hx, hy, reads.ge]
  | _ => simp [Expr.isMacro] at isMacro

end Expr

end Goivy
