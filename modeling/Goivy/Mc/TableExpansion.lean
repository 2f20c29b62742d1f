import Goivy.Mc.TableRecursion

/-! The structures of the clauses and the invariant that the table lookup returns. -/
namespace Goivy

variable {D : Domain} (interp : Interpretation)

/-- The arguments of functions in clauses that become constants. -/
def Clauses.namedArgs (cl : Clauses) : List Expr :=
  cl.defs.flatMap (·.namedArgs interp) ++ namedArgsList interp cl.fmlas

/-- An expansion by the defined constants in which the definitions hold. -/
structure ArgExpands (new : List Definition) (M N : Structure D) : Prop where
  agree : AgreeOff (fun c => ∃ d ∈ new, d.lhs = .const c) M N
  holds : ∀ d ∈ new, d.toConstraint.Valid N

/-- A constant for an argument, of which `n` exist already. -/
def IsArgFrom (n : Nat) (c : Const) : Prop := ∃ k, n ≤ k ∧ c.name = argName k

/-- One expansion satisfies the new definitions, and in it the clauses and the invariant say the same as before, the
invariant for all values of the other constants. -/
structure TablePreserves (new : List Definition) (trans trans' : Clauses) (invariant invariant' : Expr) (M : Structure D) :
    Prop where
  expands : ∃! N, ArgExpands new M N
  trans : ∀ N, ArgExpands new M N → (trans'.Sat N ↔ trans.Sat M)
  invariant : ∀ N, ArgExpands new M N →
    ((∀ N', AgreeOff (IsArgFrom new.length) N N' → invariant'.Valid N') ↔ invariant.Valid M)

/-- The function returns, and its result with the definitions `new` after the old ones preserves the meaning. -/
def TableLookupPreserves (trans : Clauses) (invariant : Expr) (M : Structure D) : Prop :=
  ∃ trans' invariant' old new, toTableLookup interp trans invariant = some (trans', invariant') ∧
    trans'.defs = old ++ new ∧ old.length = trans.defs.length ∧
    (∀ d ∈ new, ∃ k < new.length, ∃ s, d.lhs = .const ⟨argName k, .first s⟩) ∧
    TablePreserves new trans trans' invariant invariant' M

/-- The sorts of the arguments of all symbols. -/
def argumentSorts (trans : Clauses) (invariant : Expr) (s : FSort) : Prop :=
  ∃ c ∈ trans.symbols ++ invariant.symbols, s ∈ c.sort.domain

section Run

variable {interp} {S : FSort → Prop} {st st' : TableState} {new : List Definition} {args : List Expr}
  {pairs : List (Const × Expr)}

theorem ExactSorts.congr {M N : Structure D} (exact : ExactSorts interp S M)
    (same : ∀ s, S s → ∀ vals, sortValuesAsExprs s interp = some vals → ∀ t ∈ vals, ∀ c ∈ t.symbols, SameAt M N c) :
    ExactSorts interp S N := by
  intro s hs finite
  obtain ⟨vals, list, values⟩ := exact s hs finite
  refine ⟨vals, list, fun x => ?_⟩
  obtain ⟨t, ht, value⟩ := values x
  refine ⟨t, ht, fun env => ?_⟩
  rw [← Expr.eval_congr (same s hs vals list t ht)]
  exact value env

namespace ArgRun

theorem fresh_iff (run : ArgRun interp S st st' new pairs args) (c : Const) :
    c.name ∈ pairs.map (fun p => p.1.name) ↔ ∃ k, st.counter ≤ k ∧ k < st'.counter ∧ c.name = argName k := by
  rw [run.names, run.counter]
  simp only [List.mem_map, List.mem_range'_1, eq_comm, and_assoc]

/-- The constants of a run can be given the values that their arguments have under one assignment. -/
theorem exists_values (run : ArgRun interp S st st' new pairs args) (M : Structure D) (env : Env D) :
    ∃ N, AgreeOff (fun c => ∃ p ∈ pairs, p.1 = c) M N ∧ ∀ p ∈ pairs, N.value p.1 [] = p.2.eval M env :=
  exists_namedValues M env (run.names ▸ List.Nodup.map argName_injective List.nodup_range') run.sorted

theorem isArgFrom (run : ArgRun interp S st st' new pairs args) {p : Const × Expr} (hp : p ∈ pairs) :
    IsArgFrom st.counter p.1 := by
  obtain ⟨k, low, -, name⟩ := (run.fresh_iff p.1).mp (List.mem_map_of_mem hp)
  exact ⟨k, low, name⟩

theorem defined_iff (run : ArgRun interp S st st' new pairs args) (c : Const) :
    (∃ d ∈ new, d.lhs = .const c) ↔ ∃ p ∈ pairs, p.1 = c := by
  simp only [run.consts, Expr.const.injEq, eq_comm]

section Expansion

variable (run : ArgRun interp S st st' new pairs args) {M N : Structure D}
  (exact : ∀ N, AgreeOff (IsArgFrom 0) M N → ExactSorts interp S N)
  (old : ∀ t ∈ args, ∀ c ∈ t.symbols, ¬ IsArgFrom 0 c)
include run

theorem agreeOff (expands : ArgExpands new M N) : AgreeOff (IsArgFrom 0) M N := fun c hc => expands.agree c fun defined => by
  obtain ⟨p, hp, rfl⟩ := (run.defined_iff c).mp defined
  obtain ⟨k, -, name⟩ := run.isArgFrom hp
  exact hc ⟨k, Nat.zero_le k, name⟩

include exact old

/-- In an expansion, the constants have the values that their arguments have before. -/
theorem value_eq (expands : ArgExpands new M N) (env : Env D) : ∀ p ∈ pairs, N.value p.1 [] = p.2.eval M env := by
  intro p hp
  have agree := run.agreeOff expands
  have same : p.2.eval M = p.2.eval N := Expr.eval_congr fun c hc => agree c (old p.2 ((run.args p.2).mpr ⟨p, hp, rfl⟩) c hc)
  rw [same]
  exact (run.holds N env (exact N agree)).mp (fun d hd => expands.holds d hd env) p hp

/-- The expansions exist where the arguments have one value. -/
theorem exists_expands_iff : (∃ N, ArgExpands new M N) ↔ ∀ t ∈ args, t.OneValue M := by
  constructor
  · rintro ⟨N, expands⟩ t ht env env'
    obtain ⟨p, hp, rfl⟩ := (run.args t).mp ht
    rw [← run.value_eq exact old expands env p hp, ← run.value_eq exact old expands env' p hp]
  · intro one
    let env₀ : Env D := fun v => Classical.arbitrary _
    obtain ⟨N, agree, values⟩ := run.exists_values M env₀
    have off : AgreeOff (IsArgFrom 0) M N := fun c hc => agree c fun ⟨p, hp, same⟩ => by
      obtain ⟨k, -, name⟩ := run.isArgFrom hp
      exact hc (same ▸ ⟨k, Nat.zero_le k, name⟩)
    refine ⟨N, fun c hc => agree c fun fresh => hc ((run.defined_iff c).mpr fresh), fun d hd env => ?_⟩
    refine (run.holds N env (exact N off)).mpr (fun p hp => ?_) d hd
    have mem : p.2 ∈ args := (run.args p.2).mpr ⟨p, hp, rfl⟩
    have same : p.2.eval M = p.2.eval N := Expr.eval_congr fun c hc => off c (old p.2 mem c hc)
    rw [values p hp, ← same]
    exact one p.2 mem env₀ env

theorem expands_unique {N' : Structure D} (expands : ArgExpands new M N) (expands' : ArgExpands new M N') : N = N' := by
  let env : Env D := fun v => Classical.arbitrary _
  funext n s
  by_cases fresh : ∃ d ∈ new, d.lhs = .const ⟨n, s⟩
  · obtain ⟨p, hp, same⟩ := (run.defined_iff ⟨n, s⟩).mp fresh
    obtain ⟨bound, r, sort, -⟩ := run.sorted p hp
    have value := (run.value_eq exact old expands env p hp).trans (run.value_eq exact old expands' env p hp).symm
    rw [same] at value sort
    obtain rfl : s = .first r := sort
    rw [Structure.value_eq N (by rfl), Structure.value_eq N' (by rfl)] at value
    funext vs
    obtain ⟨vs, fits⟩ := vs
    obtain rfl := List.map_eq_nil_iff.mp fits
    exact eq_of_heq (Sigma.mk.inj value).2
  · exact (expands.agree ⟨n, s⟩ fresh).symm.trans (expands'.agree ⟨n, s⟩ fresh)

end Expansion

/-- An invariant behind the definitions of its arguments says for all values of the constants what it said before. -/
theorem guarded_iff {e e' : Expr} (run : ArgRun interp S st st' new pairs args) {N : Structure D}
    (exact : ∀ N', AgreeOff (IsArgFrom 0) N N' → ExactSorts interp S N')
    (old : ∀ t ∈ args, ∀ c ∈ t.symbols, ¬ IsArgFrom 0 c) (oldE : ∀ c ∈ e.symbols, ¬ IsArgFrom 0 c)
    (keeps : ∀ (N' : Structure D) (env : Env D), ExactSorts interp S N' → (∀ d ∈ new, d.toConstraint.Holds N' env) → e'.eval N' env = e.eval N' env) :
    (∀ N', AgreeOff (IsArgFrom st.counter) N N' → ∀ env, (∀ d ∈ new, d.toConstraint.Holds N' env) → e'.Holds N' env) ↔
      e.Valid N := by
  have weaken : ∀ {N'}, AgreeOff (IsArgFrom st.counter) N N' → AgreeOff (IsArgFrom 0) N N' := by
    intro N' agree c hc
    refine agree c ?_
    rintro ⟨k, _, name⟩
    exact hc ⟨k, Nat.zero_le k, name⟩
  have same : ∀ {N'} (env : Env D), AgreeOff (IsArgFrom 0) N N' → (∀ d ∈ new, d.toConstraint.Holds N' env) →
      (e'.Holds N' env ↔ e.Holds N env) := fun {N'} env agree holds => by
    rw [Expr.holds_congr N' env (keeps N' env (exact N' agree) holds), Expr.Holds, Expr.Holds,
      Expr.eval_congr fun c hc => agree c (oldE c hc)]
  constructor
  · intro valid env
    obtain ⟨N', agree, values⟩ := run.exists_values N env
    have agree : AgreeOff (IsArgFrom st.counter) N N' := by
      intro c hc
      refine agree c ?_
      rintro ⟨p, hp, eq⟩
      exact hc (eq ▸ run.isArgFrom hp)
    have holds : ∀ d ∈ new, d.toConstraint.Holds N' env := (run.holds N' env (exact N' (weaken agree))).mpr fun p hp => by
      have mem : p.2 ∈ args := (run.args p.2).mpr ⟨p, hp, rfl⟩
      rw [values p hp, Expr.eval_congr fun c hc => weaken agree c (old p.2 mem c hc)]
    exact (same env (weaken agree) holds).mp (valid N' agree env holds)
  · exact fun valid N' agree env holds => (same env (weaken agree) holds).mpr (valid env)

end ArgRun


theorem symbols_namedArgs {e t : Expr} (h : t ∈ e.namedArgs interp) : t.symbols ⊆ e.symbols := by
  have list : ∀ {ts : List Expr}, (∀ u ∈ ts, t ∈ u.namedArgs interp → t.symbols ⊆ u.symbols) →
      t ∈ namedArgsList interp ts → t.symbols ⊆ symbolsList ts := by
    intro ts ih h
    induction ts with
    | nil => cases h
    | cons u ts tail =>
      rw [List.forall_mem_cons] at ih
      rcases List.mem_append.mp h with h | h
      · exact List.subset_append_of_subset_left _ (ih.1 h)
      · exact List.subset_append_of_subset_right _ (tail ih.2 h)
  have lookups : ∀ {ts : List Expr}, (∀ u ∈ ts, t ∈ u.namedArgs interp → t.symbols ⊆ u.symbols) →
      t ∈ lookedUpArgs interp ts → t.symbols ⊆ symbolsList ts := by
    intro ts ih h
    induction ts with
    | nil => cases h
    | cons u ts tail =>
      rw [List.forall_mem_cons] at ih
      have found : t = u ∨ t ∈ u.namedArgs interp ∨ t ∈ lookedUpArgs interp ts := by
        cases u with
        | const c => exact .inr (.inr h)
        | _ => simpa only [lookedUpArgs, List.mem_cons, List.mem_append] using h
      rcases found with rfl | h | h
      · exact List.subset_append_left _ _
      · exact List.subset_append_of_subset_left _ (ih.1 h)
      · exact List.subset_append_of_subset_right _ (tail ih.2 h)
  induction e with
  | var v | const c => simp [Expr.namedArgs] at h
  | apply f ts ih =>
    rw [Expr.namedArgs] at h
    refine List.subset_cons_of_subset _ ?_
    split at h
    · exact lookups ih h
    · exact list ih h
  | and ts ih | or ts ih => exact list ih h
  | not a ih | forAll vs a ih | «exists» vs a ih | some vs a ih => exact ih h
  | eq a b iha ihb | implies a b iha ihb | iff a b iha ihb =>
    rcases List.mem_append.mp h with h | h
    · exact List.subset_append_of_subset_left _ (iha h)
    · exact List.subset_append_of_subset_right _ (ihb h)
  | ite c a b ihc iha ihb | someElse vs c a b ihc iha ihb =>
    simp only [Expr.namedArgs, List.mem_append] at h
    simp only [Expr.symbols]
    rcases h with h | h | h
    · have := ihc h
      grind
    · have := iha h
      grind
    · have := ihb h
      grind

theorem symbols_clausesNamedArgs {cl : Clauses} {t : Expr} (h : t ∈ cl.namedArgs interp) : t.symbols ⊆ cl.symbols := by
  have list : t ∈ namedArgsList interp cl.fmlas → ∃ f ∈ cl.fmlas, t ∈ f.namedArgs interp := by
    generalize cl.fmlas = fs
    induction fs with
    | nil => exact fun h => absurd h List.not_mem_nil
    | cons f fs ih =>
      intro h
      rcases List.mem_append.mp h with h | h
      · exact ⟨f, List.mem_cons_self, h⟩
      · obtain ⟨g, hg, h⟩ := ih h
        exact ⟨g, List.mem_cons_of_mem _ hg, h⟩
  intro c hc
  rcases List.mem_append.mp h with h | h
  · obtain ⟨d, hd, h⟩ := List.mem_flatMap.mp h
    refine List.mem_append_right _ (List.mem_flatMap.mpr ⟨d, hd, ?_⟩)
    rcases List.mem_append.mp h with h | h
    · exact List.mem_append_left _ (symbols_namedArgs h hc)
    · exact List.mem_append_right _ (symbols_namedArgs h hc)
  · obtain ⟨f, hf, h⟩ := list h
    exact List.mem_append_left _ (List.mem_flatMap.mpr ⟨f, hf, symbols_namedArgs h hc⟩)

theorem holds_guarded {N : Structure D} {env : Env D} (defs : List Definition) (e : Expr) :
    (if defs.isEmpty then e else .implies (.and (defs.map Definition.toConstraint)) e).Holds N env ↔
      ((∀ d ∈ defs, d.toConstraint.Holds N env) → e.Holds N env) := by
  cases defs with
  | nil => simp
  | cons d defs => simp

/-- What `ToTableLookup` is given: well-sorted expressions without quantifiers, in which no constant for an argument
occurs. -/
structure TableInput (interp : Interpretation) (trans : Clauses) (invariant : Expr) : Prop where
  fmlas : ∀ f ∈ trans.fmlas, f.isQuantifierFree = true ∧ ∃ bound s, f.HasSort bound s
  defs : ∀ d ∈ trans.defs, d.lhs.isQuantifierFree = true ∧ d.rhs.isQuantifierFree = true ∧
    ∃ bound s, d.lhs.HasSort bound s ∧ d.rhs.HasSort bound s
  inv : invariant.isQuantifierFree = true ∧ ∃ bound s, invariant.HasSort bound s
  unused : ∀ c ∈ trans.symbols ++ invariant.symbols, ¬ IsArgFrom 0 c
  unusedValue : ∀ s, argumentSorts trans invariant s → ∀ vals, sortValuesAsExprs s interp = some vals →
    ∀ t ∈ vals, ∀ c ∈ t.symbols, ¬ IsArgFrom 0 c

/-- What a run of `ToTableLookup` returns. -/
structure TableRun (interp : Interpretation) (trans trans' : Clauses) (invariant invariant' : Expr)
    (old new : List Definition) (st : TableState) (pairs : List (Const × Expr)) : Prop where
  returns : toTableLookup interp trans invariant = some (trans', invariant')
  defs : trans'.defs = old ++ new
  length : old.length = trans.defs.length
  argRun : ArgRun interp (argumentSorts trans invariant) ⟨[], 0⟩ st new pairs (trans.namedArgs interp)
  sat : ∀ {D : Domain} (N : Structure D), ExactSorts interp (argumentSorts trans invariant) N →
    (∀ d ∈ new, d.toConstraint.Valid N) → (trans'.Sat N ↔ trans.Sat N)
  inv : ∀ {D : Domain} (N : Structure D),
    (∀ N', AgreeOff (IsArgFrom 0) N N' → ExactSorts interp (argumentSorts trans invariant) N') →
    ((∀ N', AgreeOff (IsArgFrom new.length) N N' → invariant'.Valid N') ↔ invariant.Valid N)

theorem TableInput.exists_run {trans : Clauses} {invariant : Expr} (input : TableInput interp trans invariant)
    (listed : ListedSorts interp (argumentSorts trans invariant)) : ∃ trans' invariant' old new st pairs,
      TableRun interp trans trans' invariant invariant' old new st pairs := by
  have tabled : ∀ e : Expr, e.isQuantifierFree = true → (∃ bound s, e.HasSort bound s) →
      e.symbols ⊆ trans.symbols ++ invariant.symbols → e.Tabled (argumentSorts trans invariant) :=
    fun e plain sorted sub => ⟨plain, sorted, fun c hc s hs => ⟨c, sub hc, hs⟩⟩
  have fmlas : ∀ f ∈ trans.fmlas, f.Tabled (argumentSorts trans invariant) := fun f hf =>
    tabled f (input.fmlas f hf).1 (input.fmlas f hf).2 fun c hc =>
      List.mem_append_left _ (List.mem_append_left _ (List.mem_flatMap.mpr ⟨f, hf, hc⟩))
  have side : ∀ d ∈ trans.defs, d.symbols ⊆ trans.symbols ++ invariant.symbols := fun d hd c hc =>
    List.mem_append_left _ (List.mem_append_right _ (List.mem_flatMap.mpr ⟨d, hd, hc⟩))
  have defs : ∀ d ∈ trans.defs, d.Tabled (argumentSorts trans invariant) := by
    intro d hd
    obtain ⟨plainL, plainR, bound, s, sortL, sortR⟩ := input.defs d hd
    exact ⟨tabled d.lhs plainL ⟨bound, s, sortL⟩ fun c hc => side d hd (List.mem_append_left _ hc),
      tabled d.rhs plainR ⟨bound, s, sortR⟩ fun c hc => side d hd (List.mem_append_right _ hc), bound, s, sortL, sortR⟩
  obtain ⟨defs', st₁, runD, length, newD, pairsD, argRunD, holdsD⟩ := tableRecurDefs_keeps listed defs ⟨[], 0⟩
  obtain ⟨fmlas', st₂, runF, newF, pairsF, argRunF, -, evalF⟩ :=
    tableRecurList_keeps (fun f hf => tableRecur_keeps listed (fmlas f hf)) st₁
  have argRun := argRunD.trans argRunF
  have counter : st₂.counter = (newD ++ newF).length := by rw [argRun.counter, argRun.length, Nat.zero_add]
  have newDefs : st₂.newDefs = newD ++ newF := argRun.newDefs
  have old : ∀ t : Expr, t.symbols ⊆ trans.symbols ++ invariant.symbols → ∀ c ∈ t.symbols, ¬ IsArgFrom 0 c :=
    fun t sub c hc => input.unused c (sub hc)
  have oldInv := old invariant (List.subset_append_right _ _)
  by_cases kept : (trans.defs.isEmpty && trans.fmlas.all (keepsNode interp) && st₂.newDefs.isEmpty) = true
  · refine ⟨trans, invariant, trans.defs, newD ++ newF, st₂, pairsD ++ pairsF, ?_, ?_, rfl, argRun, fun _ _ _ => Iff.rfl,
      fun N _ => ⟨fun valid => valid N (.refl _ N), fun valid N' agree env => ?_⟩⟩
    · rw [toTableLookup, runD]
      simp only [Option.bind_eq_bind, Option.bind_some, runF]
      rw [if_pos kept]
      rfl
    · rw [Bool.and_eq_true, newDefs, List.isEmpty_iff] at kept
      rw [kept.2, List.append_nil]
    · have same : invariant.eval N = invariant.eval N' := Expr.eval_congr fun c hc => agree c fun ⟨k, _, name⟩ =>
        oldInv c hc ⟨k, Nat.zero_le k, name⟩
      rw [Expr.Holds, ← same]
      exact valid env
  · obtain ⟨newInv, inv, runI, newI, pairsI, argRunI, -, evalI⟩ := tableRecur_keeps listed
      (tabled invariant input.inv.1 input.inv.2 (List.subset_append_right _ _)) ⟨[], st₂.counter⟩
    have invDefs : inv.newDefs = newI := argRunI.newDefs
    refine ⟨.new fmlas' (defs' ++ (newD ++ newF)), if newI.isEmpty then newInv else .implies
      (.and (newI.map Definition.toConstraint)) newInv, defs', newD ++ newF, st₂, pairsD ++ pairsF, ?_, rfl, length, argRun,
      fun N exact holds => ?_, fun N exact => ?_⟩
    · rw [toTableLookup, runD]
      simp only [Option.bind_eq_bind, Option.bind_some, runF]
      rw [if_neg kept, runI]
      simp only [Option.bind_some, newDefs, invDefs]
      rfl
    · have parts : ∀ env, (∀ d ∈ newD, d.toConstraint.Holds N env) ∧ ∀ d ∈ newF, d.toConstraint.Holds N env := fun env =>
        List.forall_mem_append.mp fun d hd => holds d hd env
      have defsValid : (∀ d ∈ defs', d.toConstraint.Valid N) ↔ ∀ d ∈ trans.defs, d.toConstraint.Valid N := by
        have each := fun env => holdsD N env exact (parts env).1
        exact ⟨fun h d hd env => (each env).mp (fun d hd => h d hd env) d hd,
          fun h d hd env => (each env).mpr (fun d hd => h d hd env) d hd⟩
      have fmlasValid : (∀ f ∈ fmlas', f.Valid N) ↔ ∀ f ∈ trans.fmlas, f.Valid N := by
        have values : ∀ (es : List Expr), (∀ f ∈ es, f.Valid N) ↔ ∀ env, ∀ v ∈ es.map (·.eval N env), v.Holds := fun es =>
          ⟨fun h env => List.forall_mem_map.mpr fun f hf => h f hf env,
            fun h f hf env => h env _ (List.mem_map_of_mem hf)⟩
        rw [values, values]
        exact forall_congr' fun env => by rw [evalF N env exact (parts env).2]
      rw [Clauses.sat_new, List.forall_mem_append, defsValid, fmlasValid, Clauses.Sat]
      exact and_congr_right fun _ => and_iff_left holds
    · have guarded := argRunI.guarded_iff exact (fun t ht => old t fun c hc =>
        List.mem_append_right _ (symbols_namedArgs ht hc)) oldInv fun N' env exact holds =>
          (List.cons.inj (evalI N' env exact holds)).1
      rw [counter] at guarded
      simp only [Expr.Valid, holds_guarded]
      exact guarded

section Preserves

variable {trans : Clauses} {invariant : Expr} (input : TableInput interp trans invariant) {M : Structure D}
  (exact : ExactSorts interp (argumentSorts trans invariant) M)
include input exact

theorem TableInput.exact_expansion (N : Structure D) (agree : AgreeOff (IsArgFrom 0) M N) :
    ExactSorts interp (argumentSorts trans invariant) N :=
  exact.congr fun s hs vals list t ht c hc => agree c (input.unusedValue s hs vals list t ht c hc)

omit exact in
theorem TableInput.namedArgs_old : ∀ t ∈ trans.namedArgs interp, ∀ c ∈ t.symbols, ¬ IsArgFrom 0 c := fun _ ht c hc =>
  input.unused c (List.mem_append_left _ (symbols_clausesNamedArgs ht hc))

/-- Where the meaning is preserved, no argument that becomes a constant depends on variables. -/
theorem TableInput.oneValue (preserves : TableLookupPreserves interp trans invariant M) :
    ∀ t ∈ trans.namedArgs interp, t.OneValue M := by
  obtain ⟨trans', invariant', old, new, st, pairs, run⟩ := input.exists_run exact.listed
  obtain ⟨trans₁, invariant₁, old₁, new₁, returns, defs, length, -, preserves⟩ := preserves
  obtain ⟨rfl, rfl⟩ := Prod.mk.inj (Option.some.inj (run.returns.symm.trans returns))
  obtain ⟨rfl, rfl⟩ := List.append_inj (run.defs.symm.trans defs) (run.length.trans length.symm)
  exact (run.argRun.exists_expands_iff (input.exact_expansion exact) input.namedArgs_old).mp preserves.expands.exists

theorem TableInput.preserves (one : ∀ t ∈ trans.namedArgs interp, t.OneValue M) :
    TableLookupPreserves interp trans invariant M := by
  obtain ⟨trans', invariant', old, new, st, pairs, run⟩ := input.exists_run exact.listed
  have exact := input.exact_expansion exact
  obtain ⟨N, expands⟩ := (run.argRun.exists_expands_iff exact input.namedArgs_old).mpr one
  refine ⟨trans', invariant', old, new, run.returns, run.defs, run.length, fun d hd => ?_, ?_, fun N expands => ?_,
    fun N expands => ?_⟩
  · obtain ⟨p, hp, lhs⟩ := (run.argRun.consts d.lhs).mp ⟨d, hd, rfl⟩
    obtain ⟨k, -, high, name⟩ := (run.argRun.fresh_iff p.1).mp (List.mem_map_of_mem hp)
    obtain ⟨bound, s, sort, -⟩ := run.argRun.sorted p hp
    rw [run.argRun.counter, ← run.argRun.length, Nat.zero_add] at high
    exact ⟨k, high, s, by rw [lhs, ← name, ← sort]⟩
  · exact ⟨N, expands, fun N' expands' => run.argRun.expands_unique exact input.namedArgs_old expands' expands⟩
  · have agree := run.argRun.agreeOff expands
    rw [run.sat N (exact N agree) expands.holds]
    exact (Clauses.sat_congr fun c hc => agree c (input.unused c (List.mem_append_left _ hc))).symm
  · have agree := run.argRun.agreeOff expands
    rw [run.inv N fun N' agree' => exact N' (agree.trans agree')]
    exact (Clauses.valid_congr fun c hc => agree c (input.unused c (List.mem_append_right _ hc))).symm

end Preserves

variable (interp)

/-- The meaning is preserved exactly where the arguments in the clauses that become constants do not depend on
variables. -/
theorem toTableLookup_preserves_iff (trans : Clauses) (invariant : Expr) (input : TableInput interp trans invariant)
    (M : Structure D) (exact : ExactSorts interp (argumentSorts trans invariant) M) :
    TableLookupPreserves interp trans invariant M ↔ ∀ t ∈ trans.namedArgs interp, t.OneValue M :=
  ⟨input.oneValue exact, input.preserves exact⟩

end Run

/-- A unary and a binary predicate on truth values, a proposition and a variable. -/
def tableP : Const := ⟨"p", .function [.boolean] .boolean⟩
def tableR : Const := ⟨"r", .function [.boolean, .boolean] .boolean⟩
def tableA : Const := ⟨"a", .first .boolean⟩
def tableX : Variable := ⟨"X", .boolean⟩

/-- r(p(a), true) and not p(p(a)), with the definition a = p(true) -/
def closedTable : Clauses :=
  ⟨[.apply tableR [.apply tableP [.const tableA], .tru], .not (.apply tableP [.apply tableP [.const tableA]])],
    [⟨.const tableA, .apply tableP [.tru]⟩]⟩

/-- p(X) -/
def openTable : Clauses := ⟨[.apply tableP [.var tableX]], []⟩

/-- Inputs whose functions take truth values. -/
theorem argumentSorts_boolean (trans : Clauses) (invariant : Expr)
    (only : ∀ c ∈ trans.symbols ++ invariant.symbols, ∀ s ∈ c.sort.domain, s = .boolean) :
    (∀ s, argumentSorts trans invariant s → ∀ vals, sortValuesAsExprs s (fun _ => none) = some vals →
      ∀ t ∈ vals, ∀ c ∈ t.symbols, ¬ IsArgFrom 0 c) ∧
    ∀ {D : Domain} (M : Structure D), ExactSorts (fun _ => none) (argumentSorts trans invariant) M := by
  constructor
  · rintro s ⟨d, hd, hs⟩ vals list t ht c hc
    obtain rfl := only d hd s hs
    cases list
    rcases List.mem_pair.mp ht with rfl | rfl <;> cases hc
  · rintro D M s ⟨d, hd, hs⟩ -
    obtain rfl := only d hd s hs
    refine ⟨[.fls, .tru], rfl, fun x => ?_⟩
    cases x with
    | false => exact ⟨.fls, by simp, fun env => by simp [Expr.fls, Expr.eval, evalList, Val.ofProp]⟩
    | true => exact ⟨.tru, by simp, fun env => by simp [Expr.tru, Expr.eval, evalList, Val.ofProp]⟩

theorem not_isArgFrom {c : Const} (start : c.name.toList.head? ≠ some '_') : ¬ IsArgFrom 0 c := by
  rintro ⟨k, -, name⟩
  rw [name] at start
  simp [argName, String.toList_append] at start

theorem toTableLookup_preserves_iff_closedTable : TableLookupPreserves (fun _ => none) closedTable
    (.apply tableP [.apply tableP [.const tableA]]) (.ofNames ["a"]) := by
  have symbols : ∀ c ∈ closedTable.symbols ++ (Expr.apply tableP [.apply tableP [.const tableA]]).symbols,
      c = tableP ∨ c = tableR ∨ c = tableA := by decide
  have boolean := argumentSorts_boolean closedTable (.apply tableP [.apply tableP [.const tableA]]) fun c hc => by
      rcases symbols c hc with rfl | rfl | rfl <;> simp [tableP, tableR, tableA, LSort.domain]
  refine (toTableLookup_preserves_iff (fun _ => none) closedTable _ ⟨?_, ?_, ?_, ?_, boolean.1⟩ _ (boolean.2 _)).mpr ?_
  · refine List.forall_mem_cons.mpr ⟨⟨rfl, [], .boolean, _, rfl, ⟨_, rfl, rfl, trivial⟩, ⟨rfl, trivial⟩, trivial⟩, ?_⟩
    exact List.forall_mem_singleton.mpr ⟨rfl, [], .boolean, rfl, _, rfl, ⟨_, rfl, rfl, trivial⟩, trivial⟩
  · exact List.forall_mem_singleton.mpr ⟨rfl, rfl, [], .boolean, rfl, _, rfl, ⟨rfl, trivial⟩, trivial⟩
  · exact ⟨rfl, [], .boolean, _, rfl, ⟨_, rfl, rfl, trivial⟩, trivial⟩
  · intro c hc
    rcases symbols c hc with rfl | rfl | rfl <;> exact not_isArgFrom (by decide)
  · have closed : ∀ t ∈ closedTable.namedArgs (fun _ => none), t.freeVariables = [] := by decide
    intro t ht env env'
    exact Expr.eval_freeVariables _ (by simp [closed t ht])

/-- No constant has all values of X. -/
theorem openTable_not_preserved : TableInput (fun _ => none) openTable .tru ∧
    ExactSorts (fun _ => none) (argumentSorts openTable .tru) (.ofNames []) ∧
    ¬ TableLookupPreserves (fun _ => none) openTable .tru (.ofNames []) := by
  have symbols : ∀ c ∈ openTable.symbols ++ Expr.tru.symbols, c = tableP := by decide
  have boolean := argumentSorts_boolean openTable .tru fun c hc => by
    rw [symbols c hc]
    simp [tableP, LSort.domain]
  have input : TableInput (fun _ => none) openTable .tru :=
    ⟨List.forall_mem_singleton.mpr ⟨rfl, [tableX], .boolean, _, rfl, ⟨rfl, rfl⟩, trivial⟩, by simp [openTable],
      ⟨rfl, [], .boolean, rfl, trivial⟩, fun c hc => symbols c hc ▸ not_isArgFrom (by decide), boolean.1⟩
  refine ⟨input, boolean.2 _, fun preserves => ?_⟩
  have one := input.oneValue (boolean.2 _) preserves (.var tableX) (by decide)
    (fun v => El.ofBool true v.sort) (fun v => El.ofBool false v.sort)
  exact Bool.noConfusion (eq_of_heq (Sigma.mk.inj one).2)

end Goivy
