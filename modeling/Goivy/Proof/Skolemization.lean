import Goivy.Proof.SkolemSound

/-! What `SkolemizeFmla` is for, and when it does it. -/
namespace Goivy

open Expr

/-- A block of one kind of quantifier over a formula without quantifiers. -/
def IsBlock (pos : Bool) (g : Expr) : Prop :=
  g.isQuantifierFree = true ∨
    ∃ us a, a.isQuantifierFree = true ∧ g = if pos then Expr.exists us a else Expr.forAll us a

/-- `g` stands for `f` in a position, over the Skolem symbols `syms`. -/
structure SkolemizesSoundly (f g : Expr) (syms : List Const) (pos prenex : Bool) : Prop where
  vars : ∀ x ∈ g.freeVariables, x ∈ f.freeVariables
  positive : pos = true → ∀ {D : Domain} (M : Structure D) (env : Env D),
    (∀ M', AgreeOff (· ∈ syms) M M' → g.Holds M' env) → f.Holds M env
  negative : pos = false → ∀ {D : Domain} (M : Structure D) (env : Env D),
    f.Holds M env → ∃ M', AgreeOff (· ∈ syms) M M' ∧ g.Holds M' env
  block : prenex = true → f.PlainLeaves → IsBlock pos g

theorem isBlock_ivyQuantifierAt {pos : Bool} {us : List Variable} {a : Expr} (plain : a.isQuantifierFree = true) :
    IsBlock pos (ivyQuantifierAt pos us a) := by
  cases pos with
  | true =>
    rw [ivyQuantifierAt, if_pos rfl, ivyExists]
    split
    · exact .inl plain
    · exact .inr ⟨_, a, plain, rfl⟩
  | false =>
    rw [ivyQuantifierAt, if_neg (by decide), ivyForAll]
    split
    · exact .inl plain
    · exact .inr ⟨_, a, plain, rfl⟩

/-- The formula as a whole: the variables that were pulled out are quantified at the end. -/
theorem Skolemized.soundly {prenex pos : Bool} {f e : Expr} {st st' : SkolemState} {syms : List Const}
    (h : Skolemized prenex f.freeVariables f.freeVariables [] st [(pos, f, e)] syms st') (start : st.univs = []) :
    SkolemizesSoundly f (ivyQuantifierAt pos st'.univs e) syms pos prenex := by
  have closed : ∀ u ∈ st'.univs, u ∉ f.freeVariables := by
    intro u hu
    rcases h.univs u hu with old | new
    · exact absurd (start ▸ old) List.not_mem_nil
    · exact new.2
  have improves {D : Domain} (M : Structure D) (env : Env D) : ∃ M', AgreeOff (· ∈ syms) M M' ∧
      Improves pos (f.Holds M env) ((ivyQuantifierAt pos st'.univs e).Holds M' env) := by
    obtain ⟨M', agree, sound⟩ := h.sound M env
    refine ⟨M', agree, improves_ivyQuantifierAt closed fun env' off => ?_⟩
    exact sound env' (fun x hx => off x fun mem => closed x mem hx) (pos, f, e) List.mem_cons_self
  constructor
  · intro x hx
    obtain ⟨mem, other⟩ := freeVariables_ivyQuantifierAt.mp hx
    rcases h.vars (pos, f, e) List.mem_cons_self x mem with here | outer | pulled
    · exact here
    · exact absurd outer List.not_mem_nil
    · exact absurd pulled other
  · intro p D M env all
    obtain ⟨M', agree, improves⟩ := improves M env
    subst p
    exact improves (all M' agree)
  · intro p D M env holds
    obtain ⟨M', agree, improves⟩ := improves M env
    subst p
    exact ⟨M', agree, improves holds⟩
  · exact fun p leaves => isBlock_ivyQuantifierAt (h.plain p (pos, f, e) List.mem_cons_self leaves)

/-- Where no substitution would capture a variable, and no variable that is pulled out is free in the whole formula,
`SkolemizeFmla` does what it is for. -/
theorem skolemizeFmla_soundly {visit : Expr → List Variable → List Variable} (order : ∀ e xs, (visit e xs).Perm xs)
    {f : Expr} (sort : f.OfSort .boolean) (formed : f.Formed) {renamer : UniqueRenamer}
    (known : ∀ c ∈ f.symbols, c.name ∈ renamer.used) (skfuns : List Const) {pos prenex : Bool}
    (clash : f.ClashFree prenex f.freeVariables pos ⟨"", renamer.used⟩ []) :
    ∃ syms, (skolemizeFmla visit f pos renamer skfuns prenex).2.1 = skfuns ++ syms ∧
      (∀ c ∈ syms, c.name ∉ renamer.used) ∧
      SkolemizesSoundly f (skolemizeFmla visit f pos renamer skfuns prenex).1 syms pos prenex := by
  obtain ⟨e, st, syms, eq, -, h⟩ := @skolemizesTo visit prenex f.freeVariables order f.skolemDepth f pos f.freeVariables []
    ⟨renamer, ⟨"", renamer.used⟩, skfuns, []⟩ ⟨sort, formed, known, fun _ => .inr, clash⟩ (Nat.le_refl _) (by simp)
  refine ⟨syms, ?_, fun c hc => (h.fresh c hc).1, ?_⟩
  · simp only [skolemizeFmla, eq]
    exact h.skfuns
  · simp only [skolemizeFmla, eq]
    exact h.soundly rfl

/-- `exists X. forall Y. r(X, Y)` over one sort. -/
def existsForAll : Expr :=
  .exists [⟨"X", .uninterpreted "s"⟩] (.forAll [⟨"Y", .uninterpreted "s"⟩] (.apply
    ⟨"r", .function [.uninterpreted "s", .uninterpreted "s"] .boolean⟩
    [.var ⟨"X", .uninterpreted "s"⟩, .var ⟨"Y", .uninterpreted "s"⟩]))

theorem skolemizeFmla_soundly_existsForAll :
    ∃ syms, (skolemizeFmla (fun _ xs => xs) existsForAll true ⟨"", ["r"]⟩ [] true).2.1 = [] ++ syms ∧
      (∀ c ∈ syms, c.name ∉ ["r"]) ∧
      SkolemizesSoundly existsForAll (skolemizeFmla (fun _ xs => xs) existsForAll true ⟨"", ["r"]⟩ [] true).1 syms true true := by
  have sort : existsForAll.OfSort .boolean := by simp [existsForAll, OfSort, OfSorts]
  have formed : existsForAll.Formed := by simp [existsForAll, Formed, AllFormed, deduplicateAndSortVars]
  have known : ∀ c ∈ existsForAll.symbols, c.name ∈ (⟨"", ["r"]⟩ : UniqueRenamer).used := by decide
  refine skolemizeFmla_soundly (fun _ xs => .refl xs) sort formed known [] ?_
  refine ⟨⟨?_, by decide +kernel⟩, ?_, trivial⟩
  · exact List.forall_mem_singleton.mpr fun _ => by decide +kernel
  · exact List.forall_mem_singleton.mpr fun _ => by decide +kernel

/-- `exists X. forall Y. exists X. r(X, Y)`: the inner quantifier would capture the argument of the Skolem term for `Y`, so
that `Y` is left free. -/
theorem skolemizeFmla_captures : ¬ ∀ (f : Expr) (renamer : UniqueRenamer) (pos prenex : Bool), f.OfSort .boolean →
    f.Formed → (∀ c ∈ f.symbols, c.name ∈ renamer.used) →
    ∃ syms, (skolemizeFmla (fun _ xs => xs) f pos renamer [] prenex).2.1 = [] ++ syms ∧
      (∀ c ∈ syms, c.name ∉ renamer.used) ∧
      SkolemizesSoundly f (skolemizeFmla (fun _ xs => xs) f pos renamer [] prenex).1 syms pos prenex := by
  intro claim
  let s : FSort := .uninterpreted "s"
  let f : Expr := .exists [⟨"X", s⟩] (.forAll [⟨"Y", s⟩] (.exists [⟨"X", s⟩]
    (.apply ⟨"r", .function [s, s] .boolean⟩ [.var ⟨"X", s⟩, .var ⟨"Y", s⟩])))
  have sort : f.OfSort .boolean := by simp [f, s, OfSort, OfSorts]
  have formed : f.Formed := by simp [f, s, Formed, AllFormed, deduplicateAndSortVars]
  obtain ⟨syms, -, -, sound⟩ := claim f ⟨"", ["r"]⟩ true true sort formed (by decide)
  have free : (⟨"Y", s⟩ : Variable) ∈ (skolemizeFmla (fun _ xs => xs) f true ⟨"", ["r"]⟩ [] true).1.freeVariables := by
    decide +kernel
  have closed : (⟨"Y", s⟩ : Variable) ∉ f.freeVariables := by decide
  exact closed (sound.vars _ free)

end Goivy
