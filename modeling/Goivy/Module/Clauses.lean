import Goivy.Logic.Constraint

/-! Clauses: conjuncts and definitions, all read under universal closure.
Annotations only serve trace reconstruction and are left out. -/
namespace Goivy

namespace Expr

mutual
/-- `dropUniversals`. -/
@[grind =] def dropUniversals : Expr → Expr
  | .forAll _ a => a.dropUniversals
  | .not a => .not a.dropExistentials
  | .and ts => (dropSingleton ts).getD (.and ts)
  | e => e
/-- `dropExistentials`. -/
@[grind =] def dropExistentials : Expr → Expr
  | .exists _ a => a.dropExistentials
  | .not a => .not a.dropUniversals
  | e => e
/-- The case of a conjunction with one term. -/
@[grind =] def dropSingleton : List Expr → Option Expr
  | [] => none
  | t :: ts => if ts.isEmpty then .some t.dropUniversals else none
end

mutual
/-- The conjuncts that `collectAndList` takes one formula apart into. -/
@[grind =] def conjuncts : Expr → List Expr
  | .and ts => collectAndList ts
  | e => [e]
/-- `collectAndList`. -/
@[grind =] def collectAndList : List Expr → List Expr
  | [] => []
  | t :: ts => t.conjuncts ++ collectAndList ts
end

theorem collectAndList_eq_flatMap (ts : List Expr) : collectAndList ts = ts.flatMap conjuncts := by
  induction ts with
  | nil => rfl
  | cons t ts ih => simp [collectAndList, ih]

variable {D : Domain}

theorem Valid.forAll {M : Structure D} {vs : List Variable} {a : Expr} :
    (Expr.forAll vs a).Valid M ↔ a.Valid M := by
  constructor
  · intro h env
    exact (holds_forAll M env vs a).mp (h env) env fun _ _ => rfl
  · intro h env
    exact (holds_forAll M env vs a).mpr fun env' _ => h env'

/-- An existential is false under every assignment when its body is. -/
theorem never_exists {M : Structure D} {vs : List Variable} {a : Expr} :
    (∀ env, ¬ (Expr.exists vs a).Holds M env) ↔ ∀ env, ¬ a.Holds M env := by
  constructor
  · intro h env ha
    exact h env ((holds_exists M env vs a).mpr ⟨env, fun _ _ => rfl, ha⟩)
  · intro h env he
    obtain ⟨env', -, ha⟩ := (holds_exists M env vs a).mp he
    exact h env' ha

theorem valid_not {M : Structure D} {a : Expr} :
    (Expr.not a).Valid M ↔ ∀ env, ¬ a.Holds M env := by
  simp [Valid]

theorem valid_and {M : Structure D} {ts : List Expr} :
    (Expr.and ts).Valid M ↔ ∀ t ∈ ts, t.Valid M := by
  simp only [Valid, holds_and]
  exact ⟨fun h t ht env => h env t ht, fun h env t ht => h t ht env⟩

/-- Stripping the quantifiers leaves the universal closure of a formula, and the
universal closure of its negation, as they are. -/
theorem drop_spec (M : Structure D) (e : Expr) :
    (e.dropUniversals.Valid M ↔ e.Valid M) ∧
      ((∀ env, ¬ e.dropExistentials.Holds M env) ↔ ∀ env, ¬ e.Holds M env) := by
  induction e with
  | forAll vs a ih => exact ⟨ih.1.trans Valid.forAll.symm, Iff.rfl⟩
  | «exists» vs a ih => exact ⟨Iff.rfl, ih.2.trans never_exists.symm⟩
  | not a ih =>
    refine ⟨by simpa only [dropUniversals, valid_not] using ih.2, ?_⟩
    simpa only [dropExistentials, holds_not, not_not, Valid] using ih.1
  | and ts ih =>
    refine ⟨?_, Iff.rfl⟩
    cases ts with
    | nil => rfl
    | cons t ts =>
      cases ts with
      | nil => simpa [dropUniversals, dropSingleton, valid_and] using (ih t (by simp)).1
      | cons u us => rfl
  | _ => exact ⟨Iff.rfl, Iff.rfl⟩

theorem drop_symbols (e : Expr) :
    e.dropUniversals.symbols = e.symbols ∧ e.dropExistentials.symbols = e.symbols := by
  induction e with
  | forAll vs a ih => exact ⟨ih.1, rfl⟩
  | «exists» vs a ih => exact ⟨rfl, ih.2⟩
  | not a ih => exact ⟨ih.2, ih.1⟩
  | and ts ih =>
    refine ⟨?_, rfl⟩
    cases ts with
    | nil => rfl
    | cons t ts =>
      cases ts with
      | nil => simpa [dropUniversals, dropSingleton, symbols, symbolsList] using
          (ih t (by simp)).1
      | cons u us => rfl
  | _ => exact ⟨rfl, rfl⟩

theorem conjuncts_valid (M : Structure D) (e : Expr) :
    (∀ t ∈ e.conjuncts, t.Valid M) ↔ e.Valid M := by
  induction e with
  | and ts ih =>
    simp only [conjuncts, collectAndList_eq_flatMap, List.mem_flatMap, valid_and]
    constructor
    · intro h t ht
      exact (ih t ht).mp fun u hu => h u ⟨t, ht, hu⟩
    · rintro h u ⟨t, ht, hu⟩
      exact (ih t ht).mpr (h t ht) u hu
  | _ => simp [conjuncts]

theorem conjuncts_symbols (e : Expr) : e.conjuncts.flatMap symbols = e.symbols := by
  induction e with
  | and ts ih =>
    simp only [conjuncts, collectAndList_eq_flatMap, symbols, symbolsList_eq_flatMap,
      List.flatMap_assoc]
    exact List.flatMap_congr ih
  | _ => simp [conjuncts]

end Expr

/-- The symbol on the left-hand side, or the whole left-hand side where it is no
application. -/
def Definition.defines (d : Definition) : Expr :=
  match d.lhs with
  | .apply f _ => .const f
  | e => e

/-- A definition of a Boolean constant by another one. -/
def boolDef (lhs rhs : String) : Definition := ⟨.const (boolConst lhs), .const (boolConst rhs)⟩

structure Clauses where
  fmlas : List Expr
  defs : List Definition
deriving DecidableEq

namespace Clauses

/-- `NewClauses`. -/
def new (fmlas : List Expr) (defs : List Definition) : Clauses :=
  ⟨Expr.collectAndList (fmlas.map Expr.dropUniversals), defs⟩

/-- The definition that `DefIdx` has for a symbol: the last one. -/
def lookup (cl : Clauses) (key : Expr) : Option Definition :=
  cl.defs.reverse.find? (fun d => d.defines = key)

/-- `TrueClauses`. -/
def tru : Clauses := new [] []

/-- `FalseClauses`. -/
def fls : Clauses := new [.fls] []

def isFalse (cl : Clauses) : Bool := cl.fmlas.any Expr.isFalse

/-- `UsedSymbolsClausesOrdered`, with repetitions. -/
def symbols (cl : Clauses) : List Const :=
  cl.fmlas.flatMap Expr.symbols ++ cl.defs.flatMap Definition.symbols

/-- `UsedSymbolNamesClauses`. -/
def usedSymbolNames (cl : Clauses) : List String := cl.symbols.map Const.name

/-- `RenameClauses`. -/
def rename (ρ : Renaming) (cl : Clauses) : Clauses :=
  new (cl.fmlas.map (Expr.rename ρ)) (cl.defs.map (Definition.rename ρ))

/-- `AndClausesTyped`: one false argument makes the result false, without definitions. -/
def and (args : List Clauses) : Clauses :=
  if args.any isFalse then fls
  else new (args.flatMap fmlas) (args.flatMap defs)

/-- `ClausesUsingSymbols`. -/
def usingSymbols (syms : List Const) (cl : Clauses) : Clauses :=
  if syms.isEmpty then new [] []
  else new (cl.fmlas.filter (fun f => syms.any (· ∈ f.symbols)))
    (cl.defs.filter (fun d => syms.any (· ∈ d.symbols)))

variable {D : Domain}

/-- A structure makes the universal closure of all formulas and definitions true. -/
def Sat (M : Structure D) (cl : Clauses) : Prop :=
  (∀ f ∈ cl.fmlas, f.Valid M) ∧ ∀ d ∈ cl.defs, d.toConstraint.Valid M

theorem sat_new {M : Structure D} {fmlas : List Expr} {defs : List Definition} :
    (new fmlas defs).Sat M ↔ (∀ f ∈ fmlas, f.Valid M) ∧ ∀ d ∈ defs, d.toConstraint.Valid M := by
  refine and_congr_left fun _ => ?_
  simp only [new, Expr.collectAndList_eq_flatMap, List.mem_flatMap, List.mem_map]
  constructor
  · intro h f hf
    exact (Expr.drop_spec M f).1.mp
      ((Expr.conjuncts_valid M _).mp fun t ht => h t ⟨_, ⟨f, hf, rfl⟩, ht⟩)
  · rintro h t ⟨_, ⟨f, hf, rfl⟩, ht⟩
    exact (Expr.conjuncts_valid M _).mpr ((Expr.drop_spec M f).1.mpr (h f hf)) t ht

@[simp] theorem symbols_new (fmlas : List Expr) (defs : List Definition) :
    (new fmlas defs).symbols = fmlas.flatMap Expr.symbols ++ defs.flatMap Definition.symbols := by
  simp [symbols, new, Expr.collectAndList_eq_flatMap, List.flatMap_assoc, List.flatMap_map,
    Expr.conjuncts_symbols, Expr.drop_symbols]

@[simp] theorem sat_tru (M : Structure D) : tru.Sat M := by simp [tru, sat_new]

theorem not_sat_of_isFalse {M : Structure D} {cl : Clauses} (h : cl.isFalse = true) :
    ¬ cl.Sat M := by
  obtain ⟨f, hf, hfalse⟩ := List.any_eq_true.mp h
  intro sat
  have := sat.1 f hf (Classical.arbitrary _)
  rw [Expr.isFalse_eq hfalse] at this
  exact Expr.not_holds_fls _ _ this

theorem fls_isFalse : fls.isFalse = true := by decide

@[simp] theorem not_sat_fls (M : Structure D) : ¬ fls.Sat M := not_sat_of_isFalse fls_isFalse

theorem valid_congr {M N : Structure D} {e : Expr} (same : ∀ c ∈ e.symbols, SameAt M N c) :
    e.Valid M ↔ e.Valid N :=
  forall_congr' fun env => Expr.holds_congr M env (congrFun (Expr.eval_congr same) env)

/-- Truth depends on the meaning of the symbols that occur only. -/
theorem sat_congr {M N : Structure D} {cl : Clauses} (same : ∀ c ∈ cl.symbols, SameAt M N c) :
    cl.Sat M ↔ cl.Sat N := by
  refine and_congr (forall₂_congr fun f hf => valid_congr fun c hc => same c ?_)
    (forall₂_congr fun d hd => valid_congr fun c hc => same c ?_)
  · exact List.mem_append_left _ (List.mem_flatMap.mpr ⟨f, hf, hc⟩)
  · exact List.mem_append_right _ (List.mem_flatMap.mpr ⟨d, hd, d.symbols_toConstraint c hc⟩)

theorem valid_rename {M : Structure D} {ρ : Renaming} {e : Expr} :
    (e.rename ρ).Valid M ↔ e.Valid (M.comap ρ) := forall_congr' (Expr.holds_rename M ρ e)

theorem sat_rename {M : Structure D} {ρ : Renaming} {cl : Clauses} :
    (cl.rename ρ).Sat M ↔ cl.Sat (M.comap ρ) := by
  rw [rename, sat_new]
  simp only [List.forall_mem_map, Definition.toConstraint_rename, valid_rename, Sat]

theorem symbols_rename (ρ : Renaming) (cl : Clauses) :
    (cl.rename ρ).symbols = cl.symbols.map ρ.const := by
  rw [rename, symbols_new]
  simp [symbols, List.flatMap_map, List.map_flatMap, Expr.symbols_rename,
    Definition.symbols_rename]

theorem sat_and {M : Structure D} {args : List Clauses} :
    (and args).Sat M ↔ ∀ a ∈ args, a.Sat M := by
  unfold and
  split
  · rename_i h
    obtain ⟨a, ha, hfalse⟩ := List.any_eq_true.mp h
    exact iff_of_false (not_sat_fls M) fun sat => not_sat_of_isFalse hfalse (sat a ha)
  · simp only [sat_new, List.mem_flatMap]
    constructor
    · intro h a ha
      exact ⟨fun f hf => h.1 f ⟨a, ha, hf⟩, fun d hd => h.2 d ⟨a, ha, hd⟩⟩
    · intro h
      exact ⟨fun f ⟨a, ha, hf⟩ => (h a ha).1 f hf, fun d ⟨a, ha, hd⟩ => (h a ha).2 d hd⟩

theorem mem_symbols_and {args : List Clauses} {c : Const} (h : c ∈ (and args).symbols) :
    ∃ a ∈ args, c ∈ a.symbols := by
  unfold and at h
  split at h
  · simp [fls, Expr.fls, Expr.symbols, symbolsList] at h
  · simp only [symbols_new, List.mem_append, List.mem_flatMap] at h
    simp only [symbols, List.mem_append, List.mem_flatMap]
    grind

/-- No symbol is lost in a conjunction without a false argument. -/
theorem mem_symbols_and_of_not_false {args : List Clauses} (h : ∀ a ∈ args, a.isFalse = false)
    {a : Clauses} (ha : a ∈ args) {c : Const} (hc : c ∈ a.symbols) : c ∈ (and args).symbols := by
  have none : args.any isFalse = false := by simpa using h
  simp only [and, none, Bool.false_eq_true, if_false, symbols_new, List.mem_append,
    List.mem_flatMap]
  simp only [symbols, List.mem_append, List.mem_flatMap] at hc
  grind

theorem mem_symbols_usingSymbols {syms : List Const} {cl : Clauses} {c : Const}
    (h : c ∈ (cl.usingSymbols syms).symbols) : c ∈ cl.symbols := by
  unfold usingSymbols at h
  split at h
  · simp at h
  · simp only [symbols_new, List.mem_append, List.mem_flatMap, List.mem_filter] at h
    simp only [symbols, List.mem_append, List.mem_flatMap]
    grind

end Clauses

end Goivy
