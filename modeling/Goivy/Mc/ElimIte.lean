import Goivy.Mc.CloneNode
import Goivy.Logic.Vocabulary

/-! Elimination of conditionals over infinite sorts. A conditional becomes a fresh constant with
a constraint, and an equation with a conditional on its right becomes a conditional itself. -/
namespace Goivy

/-- The constraints so far, and the counter of the constants. -/
structure IteState where
  cnsts : List Expr
  iteCtr : Nat

def iteName (n : Nat) : String := "__ite[" ++ itoa n ++ "]"

theorem iteName_injective : Function.Injective iteName := by
  intro i j same
  exact Nat.repr_injective ((String.append_right_inj _).mp ((String.append_left_inj _).mp same))

section
variable (isFinite : LSort → Bool)

mutual
/-- `elimIteWithFinite`. -/
@[grind =] def elimIteWithFinite (e : Expr) (st : IteState) : Expr × IteState :=
  match e with
  | .ite c a b =>
    if isFinite a.nodeSort then
      let us := elimIteList [c, a, b] st
      (Expr.cloneNode (.ite c a b) us.1, us.2)
    else
      let v : Const := ⟨iteName st.iteCtr, a.nodeSort⟩
      let cElim := elimIteWithFinite c { st with iteCtr := st.iteCtr + 1 }
      let eqThen := elimIteWithFinite (.eq (.const v) a) cElim.2
      let eqElse := elimIteWithFinite (.eq (.const v) b) eqThen.2
      (.const v, { eqElse.2 with cnsts := eqElse.2.cnsts ++ [.ite cElim.1 eqThen.1 eqElse.1] })
  | .eq t (.ite c a b) =>
    if isFinite a.nodeSort then
      let us := elimIteList [t, .ite c a b] st
      (Expr.cloneNode (.eq t (.ite c a b)) us.1, us.2)
    else
      let cElim := elimIteWithFinite c st
      let eqThen := elimIteWithFinite (.eq t a) cElim.2
      let eqElse := elimIteWithFinite (.eq t b) eqThen.2
      (.ite cElim.1 eqThen.1 eqElse.1, eqElse.2)
  | e =>
    let us := elimIteList e.children st
    (e.cloneNode us.1, us.2)
termination_by e.weight
decreasing_by
  all_goals first
    | exact Expr.weightList_children _
    | (simp only [Expr.weight, Expr.weightList]; have := c.weight_pos; have := a.weight_pos; have := b.weight_pos; omega)
/-- The loop over the children. -/
@[grind =] def elimIteList (ts : List Expr) (st : IteState) : List Expr × IteState :=
  match ts with
  | [] => ([], st)
  | t :: ts =>
    let u := elimIteWithFinite t st
    let us := elimIteList ts u.2
    (u.1 :: us.1, us.2)
termination_by Expr.weightList ts
decreasing_by
  all_goals (simp only [Expr.weightList]; omega)
end
end

/-- `IsFiniteSortWithInterp` of any sort. -/
def finiteWithInterp (interp : Interpretation) : LSort → Bool
  | .first s => isFiniteSortWithInterp s interp
  | .function _ _ => false

/-- `ElimIteWithInterp`. -/
def elimIteWithInterp (e : Expr) (st : IteState) (interp : Interpretation) : Expr × IteState :=
  elimIteWithFinite (finiteWithInterp interp) e st

mutual
/-- The conditionals over infinite sorts that become constants: all but those that are the right side of
an equation, or a branch of another one. -/
@[grind =] def Expr.replacedItes (isFinite : LSort → Bool) (right : Bool) : Expr → List Expr
  | .var _ | .const _ => []
  | .apply _ ts | .and ts | .or ts => replacedItesList isFinite ts
  | .eq a b => a.replacedItes isFinite false ++ b.replacedItes isFinite true
  | .not a | .forAll _ a | .exists _ a | .some _ a => a.replacedItes isFinite false
  | .implies a b | .iff a b => a.replacedItes isFinite false ++ b.replacedItes isFinite false
  | .ite c a b =>
    (if isFinite a.nodeSort || right then [] else [.ite c a b]) ++ (c.replacedItes isFinite false ++
      (a.replacedItes isFinite (!isFinite a.nodeSort) ++ b.replacedItes isFinite (!isFinite a.nodeSort)))
  | .someElse _ a b c =>
    a.replacedItes isFinite false ++ (b.replacedItes isFinite false ++ c.replacedItes isFinite false)
@[grind =] def replacedItesList (isFinite : LSort → Bool) : List Expr → List Expr
  | [] => []
  | t :: ts => t.replacedItes isFinite false ++ replacedItesList isFinite ts
end

variable {D : Domain}

/-- An expression has the same value for all values of its variables. -/
def Expr.OneValue (M : Structure D) (e : Expr) : Prop := ∀ env env', e.eval M env = e.eval M env'

/-- The constant has the value of the conditional. -/
def NamesIte (N : Structure D) (p : Const × Expr) : Prop := ∀ env, N.value p.1 [] = p.2.eval N env

/-- Constants of different names can be given the values that expressions have under one assignment. -/
theorem exists_namedValues (M : Structure D) (env : Env D) {pairs : List (Const × Expr)}
    (distinct : (pairs.map fun p => p.1.name).Nodup)
    (sorted : ∀ p ∈ pairs, ∃ bound s, p.1.sort = .first s ∧ p.2.HasSort bound s) :
    ∃ N, AgreeOff (fun c => ∃ p ∈ pairs, p.1 = c) M N ∧ ∀ p ∈ pairs, N.value p.1 [] = p.2.eval M env := by
  obtain ⟨N, agree, values⟩ := exists_values M (pairs.map fun p => (p.1, p.2.eval M env))
    (by rwa [List.map_map]) (by
      simp only [List.forall_mem_map]
      intro p hp
      obtain ⟨bound, s, sort, typed⟩ := sorted p hp
      rw [sort, Expr.sort_eval_of_hasSort M typed])
  refine ⟨N, fun c hc => agree c fun mem => hc ?_, fun p hp => values (p.1, _) (List.mem_map_of_mem hp)⟩
  rw [List.map_map] at mem
  exact List.mem_map.mp mem

/-- A run adds the constraints `new`, which say that the constants have the values of their conditionals. -/
structure IteRun (st st' : IteState) (new : List Expr) (pairs : List (Const × Expr)) (replaced : List Expr) :
    Prop where
  cnsts : st'.cnsts = st.cnsts ++ new
  iteCtr : st'.iteCtr = st.iteCtr + pairs.length
  names : pairs.map (fun p => p.1.name) = (List.range' st.iteCtr pairs.length).map iteName
  replaced : ∀ t, t ∈ replaced ↔ ∃ p ∈ pairs, p.2 = t
  sorted : ∀ p ∈ pairs, ∃ bound s, p.1.sort = .first s ∧ p.2.HasSort bound s
  valid : ∀ {D : Domain} (N : Structure D), (∀ f ∈ new, f.Valid N) ↔ ∀ p ∈ pairs, NamesIte N p

namespace IteRun

variable {st st₁ st₂ : IteState} {new new₁ new₂ replaced replaced₁ replaced₂ : List Expr}
  {pairs pairs₁ pairs₂ : List (Const × Expr)}

theorem refl (st : IteState) : IteRun st st [] [] [] := by
  constructor <;> simp

theorem trans (h : IteRun st st₁ new₁ pairs₁ replaced₁) (h' : IteRun st₁ st₂ new₂ pairs₂ replaced₂) :
    IteRun st st₂ (new₁ ++ new₂) (pairs₁ ++ pairs₂) (replaced₁ ++ replaced₂) where
  cnsts := by rw [h'.cnsts, h.cnsts, List.append_assoc]
  iteCtr := by rw [h'.iteCtr, h.iteCtr, List.length_append, Nat.add_assoc]
  names := by
    rw [List.map_append, h.names, h'.names, h.iteCtr, List.length_append, ← List.range'_append_1, List.map_append]
  replaced t := by
    simp only [List.mem_append, h.replaced, h'.replaced, or_and_right, exists_or]
  sorted := List.forall_mem_append.mpr ⟨h.sorted, h'.sorted⟩
  valid N := by rw [List.forall_mem_append, List.forall_mem_append, h.valid, h'.valid]

theorem congr (h : IteRun st st₁ new pairs replaced₁) (same : ∀ t, t ∈ replaced ↔ t ∈ replaced₁) :
    IteRun st st₁ new pairs replaced :=
  ⟨h.cnsts, h.iteCtr, h.names, fun t => (same t).trans (h.replaced t), h.sorted, h.valid⟩

/-- A new constant, whose constraint comes after those of the parts. -/
theorem fresh {bound : List Variable} {s : FSort} {t f : Expr}
    (h : IteRun { st with iteCtr := st.iteCtr + 1 } st₁ new pairs replaced) (sort : t.HasSort bound s)
    (exact : ∀ {D : Domain} (N : Structure D), (∀ g ∈ new, g.Valid N) →
      (f.Valid N ↔ NamesIte N (⟨iteName st.iteCtr, .first s⟩, t))) :
    IteRun st { st₁ with cnsts := st₁.cnsts ++ [f] } (new ++ [f])
      ((⟨iteName st.iteCtr, .first s⟩, t) :: pairs) (t :: replaced) where
  cnsts := by rw [h.cnsts, List.append_assoc]
  iteCtr := h.iteCtr.trans (by rw [List.length_cons, Nat.add_assoc, Nat.add_comm 1])
  names := by rw [List.map_cons, h.names, List.length_cons, List.range'_succ, List.map_cons]
  replaced u := by simp only [List.mem_cons, h.replaced, exists_eq_or_imp, eq_comm]
  sorted := List.forall_mem_cons.mpr ⟨⟨bound, s, rfl, sort⟩, h.sorted⟩
  valid N := by
    rw [List.forall_mem_append, List.forall_mem_singleton, List.forall_mem_cons, ← h.valid N, and_comm]
    exact and_congr_left (exact N)

end IteRun

namespace Expr

/-- A conditional between equations is an equation with a conditional. -/
theorem eval_eq_ite (N : Structure D) (t c a b : Expr) :
    (Expr.ite c (.eq t a) (.eq t b)).eval N = (Expr.eq t (.ite c a b)).eval N := by
  funext env
  simp only [eval, Val.ite]
  split <;> rfl

end Expr

variable (isFinite : LSort → Bool)

/-- The value of an expression is kept, and the constraints of the run are exact. -/
def IteKeeps (es es' : List Expr) (st st' : IteState) (replaced : List Expr) : Prop :=
  ∃ new pairs, IteRun st st' new pairs replaced ∧ ∀ {D : Domain} (N : Structure D), (∀ f ∈ new, f.Valid N) →
    es'.map (·.eval N) = es.map (·.eval N)

theorem replacedItes_right {e : Expr} (plain : ∀ c a b, e = .ite c a b → isFinite a.nodeSort = true) :
    e.replacedItes isFinite true = e.replacedItes isFinite false := by
  cases e with
  | ite c a b => simp only [Expr.replacedItes, plain c a b rfl, Bool.true_or]
  | _ => rfl

/-- The conditionals of a node that is rebuilt from its children. -/
theorem replacedItes_children {e : Expr} {bound : List Variable} {s : FSort} (h : e.HasSort bound s)
    (noIte : ∀ c a b, e = .ite c a b → isFinite a.nodeSort = true)
    (noRight : ∀ t c a b, e = .eq t (.ite c a b) → isFinite a.nodeSort = true) :
    e.replacedItes isFinite false = replacedItesList isFinite e.children := by
  cases e with
  | var | const | apply | and | or => rfl
  | not | forAll | «exists» | implies | iff =>
    simp only [Expr.replacedItes, Expr.children, replacedItesList, List.append_nil]
  | eq a b =>
    simp only [Expr.replacedItes, Expr.children, replacedItesList, List.append_nil,
      replacedItes_right isFinite fun c x y same => noRight a c x y (same ▸ rfl)]
  | ite c a b =>
    simp only [Expr.replacedItes, Expr.children, replacedItesList, List.append_nil, noIte c a b rfl, Bool.true_or,
      if_true, List.nil_append, Bool.not_true]
  | some | someElse => exact h.elim

variable {isFinite}

theorem IteKeeps.children {e : Expr} {us : List Expr} {st st' : IteState}
    (keeps : (∀ t ∈ e.children, ∃ bound s, t.HasSort bound s) →
      IteKeeps e.children us st st' (replacedItesList isFinite e.children))
    (sorted : ∃ bound s, e.HasSort bound s) (noIte : ∀ c a b, e = .ite c a b → isFinite a.nodeSort = true)
    (noRight : ∀ t c a b, e = .eq t (.ite c a b) → isFinite a.nodeSort = true) :
    IteKeeps [e] [e.cloneNode us] st st' (e.replacedItes isFinite false) := by
  obtain ⟨bound, s, h⟩ := sorted
  obtain ⟨new, pairs, run, eval⟩ := keeps (Expr.hasSort_children h)
  rw [replacedItes_children isFinite h noIte noRight]
  exact ⟨new, pairs, run, fun N valid => congrArg (fun value => [value]) (Expr.eval_cloneNode h (eval N valid))⟩

/-- The three parts of a conditional over an infinite sort. -/
theorem IteKeeps.parts {c a b c' a' b' : Expr} {st st₁ st₂ st₃ : IteState} {rc ra rb : List Expr}
    (cond : IteKeeps [c] [c'] st st₁ rc) (thenE : IteKeeps [a] [a'] st₁ st₂ ra)
    (elseE : IteKeeps [b] [b'] st₂ st₃ rb) :
    IteKeeps [.ite c a b] [.ite c' a' b'] st st₃ (rc ++ (ra ++ rb)) := by
  obtain ⟨newC, pairsC, runC, evalC⟩ := cond
  obtain ⟨newA, pairsA, runA, evalA⟩ := thenE
  obtain ⟨newB, pairsB, runB, evalB⟩ := elseE
  refine ⟨_, _, runC.trans (runA.trans runB), fun N valid => ?_⟩
  obtain ⟨validC, validAB⟩ := List.forall_mem_append.mp valid
  obtain ⟨validA, validB⟩ := List.forall_mem_append.mp validAB
  have sameC : c'.eval N = c.eval N := (List.cons.inj (evalC N validC)).1
  have sameA : a'.eval N = a.eval N := (List.cons.inj (evalA N validA)).1
  have sameB : b'.eval N = b.eval N := (List.cons.inj (evalB N validB)).1
  refine congrArg (fun value => [value]) (funext fun env => ?_)
  simp only [Expr.eval, sameC, sameA, sameB]

variable (isFinite)

theorem elimIteWithFinite_keeps (e : Expr) (st : IteState) : (∃ bound s, e.HasSort bound s) →
    IteKeeps [e] [(elimIteWithFinite isFinite e st).1] st (elimIteWithFinite isFinite e st).2
      (e.replacedItes isFinite false) := by
  refine elimIteWithFinite.induct isFinite
    (fun e st => (∃ bound s, e.HasSort bound s) →
      IteKeeps [e] [(elimIteWithFinite isFinite e st).1] st (elimIteWithFinite isFinite e st).2
        (e.replacedItes isFinite false))
    (fun ts st => (∀ t ∈ ts, ∃ bound s, t.HasSort bound s) →
      IteKeeps ts (elimIteList isFinite ts st).1 st (elimIteList isFinite ts st).2
        (replacedItesList isFinite ts))
    ?_ ?_ ?_ ?_ ?_ ?_ ?_ e st
  · intro st c a b finite children sorted
    rw [elimIteWithFinite, if_pos finite]
    exact IteKeeps.children children sorted (by rintro _ _ _ ⟨⟩; exact finite) (by rintro _ _ _ _ ⟨⟩)
  · rintro st c a b infinite v cElim eqThen cond thenE _ elseE ⟨bound, s, sortC, sortA, sortB⟩
    have sort := Expr.nodeSort_of_hasSort sortA
    have equation : ∀ {x}, x.HasSort bound s → ∃ bound s, (Expr.eq (.const v) x).HasSort bound s := fun h =>
      ⟨bound, .boolean, rfl, s, sort, h⟩
    obtain ⟨new, pairs, run, eval⟩ :=
      IteKeeps.parts (cond ⟨bound, _, sortC⟩) (thenE (equation sortA)) (elseE (equation sortB))
    rw [elimIteWithFinite, if_neg infinite]
    have constraint : ∀ {D : Domain} (N : Structure D), (∀ f ∈ new, f.Valid N) →
        ((Expr.ite cElim.1 eqThen.1 (elimIteWithFinite isFinite (.eq (.const v) b) eqThen.2).1).Valid N ↔
          NamesIte N (⟨iteName st.iteCtr, .first s⟩, .ite c a b)) := by
      intro D N valid
      have value : (Expr.ite cElim.1 eqThen.1 (elimIteWithFinite isFinite (.eq (.const v) b) eqThen.2).1).eval N =
          (Expr.eq (.const v) (.ite c a b)).eval N :=
        (List.cons.inj (eval N valid)).1.trans (Expr.eval_eq_ite N (.const v) c a b)
      have name : v = ⟨iteName st.iteCtr, .first s⟩ := congrArg (Const.mk _) sort
      rw [← name]
      refine forall_congr' fun env => ?_
      rw [Expr.Holds, value, ← Expr.Holds, Expr.holds_eq, Expr.eval]
    have run := run.fresh (t := .ite c a b) ⟨sortC, sortA, sortB⟩ constraint
    refine ⟨_, _, run.congr fun u => ?_, fun N valid => ?_⟩
    · simp [Expr.replacedItes, infinite]
    · have named := (run.valid N).mp valid _ List.mem_cons_self
      refine congrArg (fun value => [value]) (funext fun env => ?_)
      rw [sort]
      exact named env
  · intro st t c a b finite children sorted
    rw [elimIteWithFinite, if_pos finite]
    exact IteKeeps.children children sorted (by rintro _ _ _ ⟨⟩) (by rintro _ _ _ _ ⟨⟩; exact finite)
  · rintro st t c a b infinite cElim eqThen cond thenE _ elseE ⟨bound, s, _, r, sortT, sortC, sortA, sortB⟩
    have equation : ∀ {x}, x.HasSort bound r → ∃ bound s, (Expr.eq t x).HasSort bound s := fun h =>
      ⟨bound, .boolean, rfl, r, sortT, h⟩
    obtain ⟨new, pairs, run, eval⟩ :=
      IteKeeps.parts (cond ⟨bound, _, sortC⟩) (thenE (equation sortA)) (elseE (equation sortB))
    rw [elimIteWithFinite, if_neg infinite]
    refine ⟨new, pairs, run.congr fun u => ?_, fun N valid => ?_⟩
    · simp only [Expr.replacedItes, infinite, if_true, List.nil_append, List.mem_append, Bool.or_true]
      grind
    · rw [eval N valid]
      exact congrArg (fun value => [value]) (Expr.eval_eq_ite N t c a b)
  · intro st e noIte noRight children sorted
    rw [elimIteWithFinite]
    · exact IteKeeps.children children sorted (fun c a b same => (noIte c a b same).elim)
        fun t c a b same => (noRight t c a b same).elim
    · exact noIte
    · exact noRight
  · intro st _
    rw [elimIteList]
    exact ⟨[], [], .refl st, fun _ _ => rfl⟩
  · intro st t ts u head tail sorted
    obtain ⟨new, pairs, run, eval⟩ := head (sorted t List.mem_cons_self)
    obtain ⟨newT, pairsT, runT, evalT⟩ := tail fun x hx => sorted x (List.mem_cons_of_mem _ hx)
    rw [elimIteList]
    refine ⟨_, _, run.trans runT, fun N valid => ?_⟩
    obtain ⟨here, there⟩ := List.forall_mem_append.mp valid
    exact congrArg₂ List.cons (List.cons.inj (eval N here)).1 (evalT N there)

theorem replacedItesList_eq_flatMap (ts : List Expr) :
    replacedItesList isFinite ts = ts.flatMap (·.replacedItes isFinite false) := by
  induction ts with
  | nil => rfl
  | cons t ts ih => simp [replacedItesList, ih]

theorem symbols_replacedItes {e t : Expr} {right : Bool} (h : t ∈ e.replacedItes isFinite right) :
    t.symbols ⊆ e.symbols := by
  have list : ∀ {ts}, (∀ u ∈ ts, ∀ {right}, t ∈ u.replacedItes isFinite right → t.symbols ⊆ u.symbols) →
      t ∈ replacedItesList isFinite ts → t.symbols ⊆ symbolsList ts := by
    intro ts ih h
    rw [replacedItesList_eq_flatMap] at h
    obtain ⟨u, hu, h⟩ := List.mem_flatMap.mp h
    rw [symbolsList_eq_flatMap]
    exact fun c hc => List.mem_flatMap.mpr ⟨u, hu, ih u hu h hc⟩
  induction e generalizing right with
  | var v | const c => simp [Expr.replacedItes] at h
  | apply f ts ih => exact List.subset_cons_of_subset _ (list (fun u hu _ => ih u hu) h)
  | and ts ih | or ts ih => exact list (fun u hu _ => ih u hu) h
  | not a ih | forAll vs a ih | «exists» vs a ih | some vs a ih => exact ih h
  | eq a b iha ihb | implies a b iha ihb | iff a b iha ihb =>
    rcases List.mem_append.mp h with h | h
    · exact List.subset_append_of_subset_left _ (iha h)
    · exact List.subset_append_of_subset_right _ (ihb h)
  | ite c a b ihc iha ihb =>
    simp only [Expr.replacedItes, List.mem_append] at h
    simp only [Expr.symbols]
    rcases h with h | h | h | h
    · split at h
      · contradiction
      · rw [List.mem_singleton.mp h]
        exact List.Subset.refl _
    · have := ihc h
      grind
    · have := iha h
      grind
    · have := ihb h
      grind
  | someElse vs a b c iha ihb ihc =>
    simp only [Expr.replacedItes, List.mem_append] at h
    simp only [Expr.symbols]
    rcases h with h | h | h
    · have := iha h
      grind
    · have := ihb h
      grind
    · have := ihc h
      grind

/-- The constants of a run. -/
def IteFresh (st st' : IteState) (c : Const) : Prop :=
  ∃ k, st.iteCtr ≤ k ∧ k < st'.iteCtr ∧ c.name = iteName k

variable {isFinite}

namespace IteRun

variable {st st' : IteState} {new replaced : List Expr} {pairs : List (Const × Expr)}

theorem fresh_iff (run : IteRun st st' new pairs replaced) (c : Const) :
    c.name ∈ pairs.map (fun p => p.1.name) ↔ IteFresh st st' c := by
  rw [run.names, IteFresh, run.iteCtr]
  simp only [List.mem_map, List.mem_range'_1, eq_comm, and_assoc]

/-- A structure in which the conditionals have one value has an expansion that satisfies the constraints. -/
theorem exists_expansion (run : IteRun st st' new pairs replaced) {M : Structure D}
    (one : ∀ t ∈ replaced, t.OneValue M) (old : ∀ t ∈ replaced, ∀ c ∈ t.symbols, ¬ IteFresh st st' c) :
    ∃ N, AgreeOff (IteFresh st st') M N ∧ ∀ f ∈ new, f.Valid N := by
  let env₀ : Env D := fun v => Classical.arbitrary _
  obtain ⟨N, agree, values⟩ := exists_namedValues M env₀ (run.names ▸ List.Nodup.map iteName_injective List.nodup_range')
    run.sorted
  have agree : AgreeOff (IteFresh st st') M N := fun c hc => agree c fun ⟨p, hp, same⟩ =>
    hc ((run.fresh_iff c).mp (same ▸ List.mem_map_of_mem hp))
  refine ⟨N, agree, (run.valid N).mpr fun p hp env => ?_⟩
  have mem : p.2 ∈ replaced := (run.replaced p.2).mpr ⟨p, hp, rfl⟩
  have same : p.2.eval M = p.2.eval N := Expr.eval_congr fun c hc => agree c (old p.2 mem c hc)
  rw [values p hp, ← same]
  exact one p.2 mem env₀ env

/-- Where the constraints of an expansion hold, the conditionals have one value. -/
theorem oneValue (run : IteRun st st' new pairs replaced) {M N : Structure D} (agree : AgreeOff (IteFresh st st') M N)
    (valid : ∀ f ∈ new, f.Valid N) (old : ∀ t ∈ replaced, ∀ c ∈ t.symbols, ¬ IteFresh st st' c) :
    ∀ t ∈ replaced, t.OneValue M := by
  intro t ht env env'
  obtain ⟨p, hp, rfl⟩ := (run.replaced t).mp ht
  have same : p.2.eval M = p.2.eval N := Expr.eval_congr fun c hc => agree c (old p.2 ht c hc)
  have named := (run.valid N).mp valid p hp
  rw [same, ← named env, ← named env']

end IteRun

/-- The formula and the constraints together are satisfiable where the original formula is: its structures
have expansions that satisfy them, and every structure that satisfies them satisfies it. -/
structure ItePreserves (fmla fmla' : Expr) (cnsts : List Expr) (fresh : Const → Prop) : Prop where
  expands : ∀ {D : Domain} (M : Structure D), fmla.Valid M →
    ∃ N, AgreeOff fresh M N ∧ fmla'.Valid N ∧ ∀ f ∈ cnsts, f.Valid N
  reflects : ∀ {D : Domain} (N : Structure D), fmla'.Valid N → (∀ f ∈ cnsts, f.Valid N) → fmla.Valid N

/-- Satisfiability is preserved where the conditionals that become constants do not depend on variables. -/
theorem elimIteWithInterp_preserves_iff (fmla : Expr) (n : Nat) (interp : Interpretation) (bound : List Variable)
    (sorted : fmla.HasSort bound .boolean) (old : ∀ c ∈ fmla.symbols, ∀ k, n ≤ k → c.name ≠ iteName k) :
    ItePreserves fmla (elimIteWithInterp fmla ⟨[], n⟩ interp).1 (elimIteWithInterp fmla ⟨[], n⟩ interp).2.cnsts
      (IteFresh ⟨[], n⟩ (elimIteWithInterp fmla ⟨[], n⟩ interp).2) ↔
    ∀ {D : Domain} (M : Structure D), fmla.Valid M →
      ∀ t ∈ fmla.replacedItes (finiteWithInterp interp) false, t.OneValue M := by
  obtain ⟨new, pairs, run, eval⟩ :=
    elimIteWithFinite_keeps (finiteWithInterp interp) fmla ⟨[], n⟩ ⟨bound, .boolean, sorted⟩
  have cnsts : (elimIteWithInterp fmla ⟨[], n⟩ interp).2.cnsts = new := run.cnsts
  have value : ∀ {D : Domain} (N : Structure D), (∀ f ∈ new, f.Valid N) →
      ((elimIteWithInterp fmla ⟨[], n⟩ interp).1.Valid N ↔ fmla.Valid N) := fun N valid => by
    have same : (elimIteWithInterp fmla ⟨[], n⟩ interp).1.eval N = fmla.eval N := (List.cons.inj (eval N valid)).1
    simp only [Expr.Valid, Expr.Holds, same]
  have stale : ∀ c ∈ fmla.symbols, ¬ IteFresh ⟨[], n⟩ (elimIteWithInterp fmla ⟨[], n⟩ interp).2 c := by
    rintro c hc ⟨k, low, _, name⟩
    exact old c hc k low name
  have staleIn : ∀ t ∈ fmla.replacedItes (finiteWithInterp interp) false, ∀ c ∈ t.symbols,
      ¬ IteFresh ⟨[], n⟩ (elimIteWithInterp fmla ⟨[], n⟩ interp).2 c :=
    fun t ht c hc => stale c (symbols_replacedItes _ ht hc)
  rw [cnsts]
  constructor
  · intro preserves D M valid
    obtain ⟨N, agree, -, constraints⟩ := preserves.expands M valid
    exact run.oneValue agree constraints staleIn
  · intro one
    refine ⟨fun M valid => ?_, fun N valid constraints => (value N constraints).mp valid⟩
    obtain ⟨N, agree, constraints⟩ := run.exists_expansion (one M valid) staleIn
    refine ⟨N, agree, (value N constraints).mpr fun env => ?_, constraints⟩
    rw [Expr.Holds, ← Expr.eval_congr fun c hc => agree c (stale c hc)]
    exact valid env

/-- Two constants and a variable of a sort t, and conditionals on them. -/
def iteA : Const := ⟨"a", .first (.uninterpreted "t")⟩
def iteB : Const := ⟨"b", .first (.uninterpreted "t")⟩
def iteX : Variable := ⟨"X", .uninterpreted "t"⟩

/-- ite(a = b, a, b) = b -/
def closedIte : Expr := .eq (.ite (.eq (.const iteA) (.const iteB)) (.const iteA) (.const iteB)) (.const iteB)

/-- ite(X = a, a, b) = X -/
def openIte : Expr := .eq (.ite (.eq (.var iteX) (.const iteA)) (.const iteA) (.const iteB)) (.var iteX)

theorem elimIteWithInterp_preserves_iff_closedIte : ItePreserves closedIte
    (elimIteWithInterp closedIte ⟨[], 0⟩ fun _ => none).1 (elimIteWithInterp closedIte ⟨[], 0⟩ fun _ => none).2.cnsts
    (IteFresh ⟨[], 0⟩ (elimIteWithInterp closedIte ⟨[], 0⟩ fun _ => none).2) := by
  refine (elimIteWithInterp_preserves_iff closedIte 0 (fun _ => none) [] ?_ ?_).mpr ?_
  · exact ⟨rfl, _, ⟨⟨rfl, _, rfl, rfl⟩, rfl, rfl⟩, rfl⟩
  · intro c hc k _ same
    have start := congrArg (fun s => s.toList.head?) same
    simp only [closedIte, Expr.symbols, List.cons_append, List.nil_append, List.mem_cons, List.not_mem_nil,
      or_false] at hc
    rcases hc with rfl | rfl | rfl | rfl | rfl
    all_goals simp [iteA, iteB, iteName, String.toList_append] at start
  · intro D M _ t ht env env'
    have infinite : finiteWithInterp (fun _ => none) (.first (.uninterpreted "t")) = false := rfl
    simp [closedIte, Expr.replacedItes, iteA, iteB, Expr.nodeSort, infinite] at ht
    rw [ht]
    rfl

/-- A constant cannot follow the variable: in a structure with the elements a and b only, the equation holds, but
no value of the constant is equal to both. -/
theorem openIte_not_preserved : openIte.HasSort [iteX] .boolean ∧ ¬ ItePreserves openIte
    (elimIteWithInterp openIte ⟨[], 0⟩ fun _ => none).1 (elimIteWithInterp openIte ⟨[], 0⟩ fun _ => none).2.cnsts
    (IteFresh ⟨[], 0⟩ (elimIteWithInterp openIte ⟨[], 0⟩ fun _ => none).2) := by
  refine ⟨⟨rfl, _, ⟨⟨rfl, _, ⟨rfl, rfl⟩, rfl⟩, rfl, rfl⟩, rfl, rfl⟩, fun preserves => ?_⟩
  let D : Domain := ⟨fun _ => Bool, fun _ => ⟨true⟩⟩
  let bit (b : Bool) : Val D := ⟨.uninterpreted "t", b⟩
  obtain ⟨M, -, values⟩ := exists_values (fun _ _ _ => Classical.arbitrary _ : Structure D)
    [(iteA, bit true), (iteB, bit false)] (by decide) (by simp [iteA, iteB, bit])
  have valueA : M.value iteA [] = bit true := values _ List.mem_cons_self
  have valueB : M.value iteB [] = bit false := values _ (List.mem_cons_of_mem _ List.mem_cons_self)
  have valid : openIte.Valid M := fun env => by
    rw [openIte, Expr.holds_eq]
    by_cases same : (Expr.eq (.var iteX) (.const iteA)).Holds M env
    · rw [Expr.eval_ite_pos M env _ _ same]
      exact ((Expr.holds_eq M env _ _).mp same).symm
    · rw [Expr.eval_ite_neg M env _ _ same]
      rw [Expr.holds_eq, Expr.eval, Expr.eval, valueA] at same
      refine valueB.trans (congrArg (Sigma.mk (FSort.uninterpreted "t")) ?_)
      cases value : env iteX with
      | false => rfl
      | true => exact (same (congrArg (Sigma.mk (FSort.uninterpreted "t")) value)).elim
  obtain ⟨N, -, holds, -⟩ := preserves.expands M valid
  have eliminated : (elimIteWithInterp openIte ⟨[], 0⟩ fun _ => none).1 =
      .eq (.const ⟨iteName 0, .first (.uninterpreted "t")⟩) (.var iteX) := by
    have infinite : finiteWithInterp (fun _ => none) (.first (.uninterpreted "t")) = false := rfl
    simp [openIte, elimIteWithInterp, elimIteWithFinite, elimIteList, Expr.children, Expr.cloneNode, iteA,
      Expr.nodeSort, infinite]
  rw [eliminated] at holds
  let everywhere (b : Bool) : Env D := fun v => by cases v.sort <;> exact b
  have one : N.value ⟨iteName 0, .first (.uninterpreted "t")⟩ [] = bit true :=
    (Expr.holds_eq N _ _ _).mp (holds (everywhere true))
  have other : N.value ⟨iteName 0, .first (.uninterpreted "t")⟩ [] = bit false :=
    (Expr.holds_eq N _ _ _).mp (holds (everywhere false))
  exact Bool.noConfusion (eq_of_heq (Sigma.mk.inj (one.symm.trans other)).2)

end Goivy
