import Goivy.Logic.Rename
import Goivy.Util.InsMap

/-! Unification of atoms over variables and constants. Instead of failing on
different constants it collects equalities.
Maps keyed by the structural key of a term are association lists keyed by the term;
the entry set last comes first. -/
namespace Goivy

def isVar : Expr → Bool
  | .var _ => true
  | _ => false

def isConst : Expr → Bool
  | .const _ => true
  | _ => false

@[simp] theorem isVar_var (v : Variable) : isVar (.var v) = true := rfl
@[simp] theorem isVar_const (c : Const) : isVar (.const c) = false := rfl
@[simp] theorem isConst_var (v : Variable) : isConst (.var v) = false := rfl
@[simp] theorem isConst_const (c : Const) : isConst (.const c) = true := rfl

/-- `Atom`: a relation name, not a symbol, with its arguments. -/
structure ResolutionAtom where
  relName : String
  args : List Expr
deriving DecidableEq

/-- `EqualityAtom`. -/
def equalityAtom (t1 t2 : Expr) : ResolutionAtom := ⟨"=", [t1, t2]⟩

/-- `Env` of the resolution package. -/
abbrev ResolutionEnv := List (Expr × Expr)

def envFindFuel (env : ResolutionEnv) : Nat → Expr → Expr
  | n + 1, .var v =>
    match env.lookup (.var v) with
    | some next => envFindFuel env n next
    | none => .var v
  | _, t => t

/-- `EnvFind`: follows the chain of a variable, which visits no entry twice. -/
def envFind (env : ResolutionEnv) (t : Expr) : Expr := envFindFuel env env.length t

/-- One position of `TermsMGUEq`. -/
def unifyTerms (env : ResolutionEnv) (eqs : List ResolutionAtom) (t1 t2 : Expr) :
    Option (ResolutionEnv × List ResolutionAtom) :=
  if t1.nodeSort ≠ t2.nodeSort then none
  else
    let v1 := envFind env t1
    let v2 := envFind env t2
    if isConst v1 then
      if isConst v2 then some (env, if v1 ≠ v2 then eqs ++ [equalityAtom v1 v2] else eqs)
      else some ((v2, v1) :: env, eqs)
    else if isConst v2 ∨ v1 ≠ v2 then some ((v1, v2) :: env, eqs)
    else some (env, eqs)

def unifyLists (env : ResolutionEnv) (eqs : List ResolutionAtom) :
    List Expr → List Expr → Option (ResolutionEnv × List ResolutionAtom)
  | [], [] => some (env, eqs)
  | t1 :: ts, t2 :: us => (unifyTerms env eqs t1 t2).bind fun r => unifyLists r.1 r.2 ts us
  | _, _ => none

/-- `TermsMGUEq`. -/
def termsMGUEq (terms1 terms2 : List Expr) : Option (ResolutionEnv × List ResolutionAtom) :=
  (unifyLists [] [] terms1 terms2).map fun r => (r.1.map (fun p => (p.1, envFind r.1 p.2)), r.2)

/-- `MGUEq`. -/
def mguEq (atom1 atom2 : ResolutionAtom) : Option (ResolutionEnv × List ResolutionAtom) :=
  if atom1.relName ≠ atom2.relName then none else termsMGUEq atom1.args atom2.args

/-- A variable, or a constant of a first-order sort. -/
inductive Expr.IsTerm : Expr → Prop
  | var (v : Variable) : IsTerm (.var v)
  | const (n : String) (s : FSort) : IsTerm (.const ⟨n, .first s⟩)

/-- The chain of a term ends with it. -/
def EnvRoot (env : ResolutionEnv) (t : Expr) : Prop :=
  ∀ v : Variable, t = .var v → env.lookup (.var v) = none

/-- Every entry was a link between two ends of chains when it was set. -/
inductive Triangular : ResolutionEnv → Prop
  | nil : Triangular []
  | cons {env : ResolutionEnv} {v : Variable} {t : Expr} : Triangular env →
      EnvRoot env (.var v) → EnvRoot env t → t ≠ .var v → t.IsTerm → t.nodeSort = .first v.sort →
      Triangular ((.var v, t) :: env)

theorem lookup_env_mem {env : ResolutionEnv} {x t : Expr} (h : env.lookup x = some t) :
    (x, t) ∈ env := by
  induction env with
  | nil => cases h
  | cons p env ih =>
    obtain ⟨k, u⟩ := p
    rw [InsMap.lookup_cons] at h
    split at h
    · rename_i same
      cases Option.some.inj h
      exact same ▸ List.mem_cons_self
    · exact List.mem_cons_of_mem _ (ih h)

theorem lookup_env_map (f : Expr → Expr) (env : ResolutionEnv) (x : Expr) :
    (env.map (fun p => (p.1, f p.2))).lookup x = (env.lookup x).map f := by
  induction env with
  | nil => rfl
  | cons p env ih =>
    obtain ⟨k, u⟩ := p
    rw [List.map_cons, InsMap.lookup_cons, InsMap.lookup_cons, ih]
    split
    · rfl
    · rfl

theorem envFindFuel_root {env : ResolutionEnv} {t : Expr} (root : EnvRoot env t) (n : Nat) :
    envFindFuel env n t = t := by
  cases n with
  | zero => rfl
  | succ n =>
    cases t with
    | var v => simp only [envFindFuel, root v rfl]
    | _ => rfl

/-- A new entry continues the chains that ended with its key. -/
theorem envFindFuel_cons {env : ResolutionEnv} {v : Variable} {u : Expr}
    (key : EnvRoot env (.var v)) (value : EnvRoot env u) (ne : u ≠ .var v) (n : Nat) (t : Expr)
    (root : EnvRoot env (envFindFuel env n t)) :
    envFindFuel ((.var v, u) :: env) (n + 1) t =
      if envFindFuel env n t = .var v then u else envFindFuel env n t := by
  have valueRoot : EnvRoot ((.var v, u) :: env) u := by
    intro w hw
    rw [InsMap.lookup_cons, if_neg (by rw [← hw]; exact ne)]
    exact value w hw
  -- at the end of a chain of the old entries only the new one is left to follow
  have last : ∀ m x, EnvRoot env x → envFindFuel ((.var v, u) :: env) (m + 1) x =
      if x = .var v then u else x := by
    intro m x hx
    cases x with
    | var w =>
      by_cases same : w = v
      · simp [envFindFuel, same, envFindFuel_root valueRoot]
      · have : ¬ (Expr.var w = .var v) := fun h => same (Expr.var.inj h)
        rw [if_neg this, envFindFuel, InsMap.lookup_cons, if_neg this, hx w rfl]
    | _ => rfl
  induction n generalizing t with
  | zero => exact last 0 t root
  | succ n ih =>
    cases t with
    | var w =>
      cases hw : env.lookup (.var w) with
      | none =>
        have rootW : EnvRoot env (.var w) := fun x hx => by cases hx; exact hw
        rw [envFindFuel_root rootW]
        exact last (n + 1) _ rootW
      | some next =>
        have old : ¬ (Expr.var w = .var v) := by
          intro same
          rw [same, key v rfl] at hw
          cases hw
        have step : envFindFuel env (n + 1) (.var w) = envFindFuel env n next := by
          simp only [envFindFuel, hw]
        rw [step] at root ⊢
        rw [envFindFuel, InsMap.lookup_cons, if_neg old, hw]
        exact ih next root
    | _ => exact last (n + 1) _ root

/-- The length of the map is enough to reach the end of every chain. -/
theorem Triangular.reaches {env : ResolutionEnv} (tri : Triangular env) (t : Expr) (n : Nat)
    (enough : env.length ≤ n) :
    EnvRoot env (envFindFuel env n t) ∧ envFindFuel env n t = envFind env t := by
  induction tri generalizing n with
  | nil =>
    have root : ∀ x, EnvRoot [] x := fun _ _ _ => rfl
    rw [envFind, envFindFuel_root (root t), envFindFuel_root (root t)]
    exact ⟨root t, rfl⟩
  | @cons env v u tri key value ne term sort ih =>
    obtain ⟨m, rfl⟩ : ∃ m, n = m + 1 := ⟨n - 1, by simp only [List.length_cons] at enough; omega⟩
    have long : env.length ≤ m := by simp only [List.length_cons] at enough; omega
    obtain ⟨root, same⟩ := ih m long
    have value' := envFindFuel_cons key value ne m t root
    have short := envFindFuel_cons key value ne env.length t (ih env.length le_rfl).1
    rw [envFind, List.length_cons, value', short, same]
    refine ⟨?_, rfl⟩
    intro w hw
    rw [InsMap.lookup_cons]
    split at hw
    · rw [if_neg (by rw [← hw]; exact ne)]
      exact value w hw
    · rename_i other
      rw [if_neg (by rw [← hw]; exact other)]
      exact (same ▸ root) w hw

theorem Triangular.envRoot {env : ResolutionEnv} (tri : Triangular env) (t : Expr) :
    EnvRoot env (envFind env t) := (tri.reaches t _ le_rfl).1

/-- An entry leads on along the chain of its key. -/
theorem Triangular.envFind_lookup {env : ResolutionEnv} (tri : Triangular env) {v : Variable}
    {t : Expr} (h : env.lookup (.var v) = some t) : envFind env (.var v) = envFind env t := by
  have longer := (tri.reaches (.var v) (env.length + 1) (Nat.le_succ _)).2
  rw [← longer, envFindFuel, h]
  rfl

theorem Triangular.lookup_spec {env : ResolutionEnv} (tri : Triangular env) {x t : Expr}
    (h : env.lookup x = some t) :
    ∃ v, x = .var v ∧ t.IsTerm ∧ t.nodeSort = .first v.sort := by
  induction tri with
  | nil => cases h
  | @cons env v u tri key value ne term sort ih =>
    rw [InsMap.lookup_cons] at h
    split at h
    · rename_i same
      cases Option.some.inj h
      exact ⟨v, same, term, sort⟩
    · exact ih h

theorem Triangular.envFind_spec {env : ResolutionEnv} (tri : Triangular env) {t : Expr}
    (term : t.IsTerm) : (envFind env t).IsTerm ∧ (envFind env t).nodeSort = t.nodeSort := by
  unfold envFind
  generalize env.length = n
  induction n generalizing t with
  | zero => exact ⟨term, rfl⟩
  | succ n ih =>
    cases term with
    | var v =>
      simp only [envFindFuel]
      cases h : env.lookup (.var v) with
      | none => exact ⟨.var v, rfl⟩
      | some next =>
        obtain ⟨w, hw, next_term, next_sort⟩ := tri.lookup_spec h
        cases hw
        obtain ⟨found, sort⟩ := ih next_term
        exact ⟨found, sort.trans next_sort⟩
    | const c s => exact ⟨.const c s, rfl⟩

/-- `SubstituteLit` at one argument. -/
def substTerm (σ : ResolutionEnv) (t : Expr) : Expr := if isVar t then (σ.lookup t).getD t else t

/-- Variables stand for terms of their sorts. -/
def SortPreserving (σ : ResolutionEnv) : Prop :=
  ∀ v t, σ.lookup (.var v) = some t → t.IsTerm ∧ t.nodeSort = .first v.sort

/-- An equality between constants of one sort. -/
def ResolutionAtom.GroundEquality (a : ResolutionAtom) : Prop :=
  ∃ n m s, a = equalityAtom (.const ⟨n, .first s⟩) (.const ⟨m, .first s⟩)

variable {D : Domain} {M : Structure D}

theorem Expr.IsTerm.nodeSort_eval {t : Expr} (term : t.IsTerm) (env : Env D) :
    t.nodeSort = .first (t.eval M env).1 := by
  cases term with
  | var v => rfl
  | const n s => rfl

open Classical in
/-- Every variable of the map gets the value of its term. -/
noncomputable def Env.bind (M : Structure D) (σ : ResolutionEnv) (env : Env D) : Env D := fun v =>
  match σ.lookup (.var v) with
  | some t => if h : (t.eval M env).1 = v.sort then h ▸ (t.eval M env).2 else env v
  | none => env v

theorem Env.bind_none {σ : ResolutionEnv} {v : Variable} (h : σ.lookup (.var v) = none)
    (env : Env D) : Env.bind M σ env v = env v := by
  rw [Env.bind, h]

theorem Env.eval_bind {σ : ResolutionEnv} {v : Variable} {t : Expr}
    (h : σ.lookup (.var v) = some t) (term : t.IsTerm) (sort : t.nodeSort = .first v.sort)
    (env : Env D) : (Expr.var v).eval M (env.bind M σ) = t.eval M env := by
  have same : (t.eval M env).1 = v.sort := LSort.first.inj ((term.nodeSort_eval env).symm.trans sort)
  have value : Env.bind M σ env v = same ▸ (t.eval M env).2 := by
    simp only [Env.bind, h, dif_pos same]
  rw [Expr.eval, value]
  generalize t.eval M env = val at same
  obtain ⟨s, x⟩ := val
  cases same
  rfl

theorem eval_substTerm {σ : ResolutionEnv} (preserving : SortPreserving σ) {t : Expr}
    (term : t.IsTerm) (env : Env D) :
    (substTerm σ t).eval M env = t.eval M (env.bind M σ) := by
  cases term with
  | var v =>
    cases h : σ.lookup (.var v) with
    | none => simp only [substTerm, isVar, if_true, h, Option.getD_none, Expr.eval, Env.bind_none h]
    | some t =>
      obtain ⟨term, sort⟩ := preserving v t h
      simp only [substTerm, isVar, if_true, h, Option.getD_some, Env.eval_bind h term sort]
  | const n s => rfl

theorem substTerm_spec {σ : ResolutionEnv} (preserving : SortPreserving σ) {t : Expr}
    (term : t.IsTerm) : (substTerm σ t).IsTerm ∧ (substTerm σ t).nodeSort = t.nodeSort := by
  cases term with
  | var v =>
    cases h : σ.lookup (.var v) with
    | none => simpa [substTerm, isVar, h] using Expr.IsTerm.var v
    | some t => simpa [substTerm, isVar, h, Expr.nodeSort] using preserving v t h
  | const n s => exact ⟨.const n s, rfl⟩

/-- An assignment under which every entry of the map is an equality that is true. -/
def Respects (M : Structure D) (env : Env D) (σ : ResolutionEnv) : Prop :=
  ∀ v t, σ.lookup (.var v) = some t → (Expr.var v).eval M env = t.eval M env

theorem Respects.envFind {σ : ResolutionEnv} {env : Env D} (respects : Respects M env σ) (t : Expr) :
    (envFind σ t).eval M env = t.eval M env := by
  unfold Goivy.envFind
  generalize σ.length = n
  induction n generalizing t with
  | zero => rfl
  | succ n ih =>
    cases t with
    | var v =>
      simp only [envFindFuel]
      cases h : σ.lookup (.var v) with
      | none => rfl
      | some next => exact (ih next).trans (respects v next h).symm
    | _ => rfl

theorem Respects.mono {σ τ : ResolutionEnv} {env : Env D} (respects : Respects M env τ)
    (sub : ∀ x t, σ.lookup x = some t → τ.lookup x = some t) : Respects M env σ :=
  fun v t h => respects v t (sub _ _ h)

/-- A new link between the ends of two chains. -/
theorem Triangular.link {σ : ResolutionEnv} (tri : Triangular σ) {v : Variable} {u : Expr}
    (rootV : EnvRoot σ (.var v)) (rootU : EnvRoot σ u) (ne : u ≠ .var v) (term : u.IsTerm)
    (sort : u.nodeSort = .first v.sort) :
    Triangular ((.var v, u) :: σ) ∧
      (∀ x t, σ.lookup x = some t → List.lookup x ((.var v, u) :: σ) = some t) ∧
      ∀ (D : Domain) (M : Structure D) (env : Env D), Respects M env ((.var v, u) :: σ) →
        (Expr.var v).eval M env = u.eval M env := by
  refine ⟨.cons tri rootV rootU ne term sort, fun x t ht => ?_, fun D M env respects => ?_⟩
  · rw [InsMap.lookup_cons, if_neg, ht]
    intro same
    rw [same, rootV v rfl] at ht
    cases ht
  · refine respects v u ?_
    rw [InsMap.lookup_cons, if_pos rfl]

/-- Equalities between constants are true when their sides have the same value. -/
def EqualitiesHold (M : Structure D) (env : Env D) (eqs : List ResolutionAtom) : Prop :=
  ∀ x y, equalityAtom x y ∈ eqs → x.eval M env = y.eval M env

/-- The result of a step of unification: more links, more equalities between
constants, and `meet` where all of them hold. -/
structure UnifyStep (σ σ' : ResolutionEnv) (eqs eqs' : List ResolutionAtom)
    (meet : ∀ {D : Domain}, Structure D → Env D → Prop) : Prop where
  triangular : Triangular σ'
  links : ∀ x t, σ.lookup x = some t → σ'.lookup x = some t
  equalities : ∃ added, eqs' = eqs ++ added ∧ ∀ a ∈ added, a.GroundEquality
  meets : ∀ {D : Domain} (M : Structure D) (env : Env D), Respects M env σ' →
    EqualitiesHold M env eqs' → meet M env

theorem unifyTerms_spec {σ σ' : ResolutionEnv} {eqs eqs' : List ResolutionAtom} {t1 t2 : Expr}
    (tri : Triangular σ) (term1 : t1.IsTerm) (term2 : t2.IsTerm)
    (h : unifyTerms σ eqs t1 t2 = some (σ', eqs')) :
    UnifyStep σ σ' eqs eqs' (fun M env => t1.eval M env = t2.eval M env) := by
  have noEqualities : ∃ added, eqs = eqs ++ added ∧ ∀ a ∈ added, a.GroundEquality :=
    ⟨[], by simp, by simp⟩
  -- the ends of the two chains have the values of the terms
  have ends : ∀ {τ : ResolutionEnv}, (∀ x t, σ.lookup x = some t → τ.lookup x = some t) →
      ∀ {D : Domain} (M : Structure D) (env : Env D), Respects M env τ →
        (envFind σ t1).eval M env = (envFind σ t2).eval M env → t1.eval M env = t2.eval M env := by
    intro τ sub D M env respects same
    have old := respects.mono sub
    rwa [old.envFind t1, old.envFind t2] at same
  obtain ⟨found1, sort1⟩ := tri.envFind_spec term1
  obtain ⟨found2, sort2⟩ := tri.envFind_spec term2
  have root1 := tri.envRoot t1
  have root2 := tri.envRoot t2
  unfold unifyTerms at h
  by_cases sorts : t1.nodeSort = t2.nodeSort
  · rw [if_neg (not_not.mpr sorts)] at h
    have sorts' := sort1.trans (sorts.trans sort2.symm)
    generalize envFind σ t1 = v1 at *
    generalize envFind σ t2 = v2 at *
    cases found1 with
    | const n s =>
      cases found2 with
      | const m r =>
        cases LSort.first.inj sorts'
        by_cases same : Expr.const ⟨n, .first s⟩ = .const ⟨m, .first s⟩
        · simp only [isConst_const, if_true, ne_eq, same, not_true, if_false] at h
          cases h
          exact ⟨tri, fun _ _ h => h, noEqualities, fun M env respects _ =>
            ends (fun _ _ h => h) M env respects (by rw [same])⟩
        · simp only [isConst_const, if_true, ne_eq, same, not_false_iff] at h
          cases h
          refine ⟨tri, fun _ _ h => h, ⟨_, rfl, fun a ha => ?_⟩, fun M env respects holds =>
            ends (fun _ _ h => h) M env respects (holds _ _ ?_)⟩
          · rw [List.mem_singleton.mp ha]
            exact ⟨n, m, s, rfl⟩
          · exact List.mem_append_right _ (List.mem_singleton_self _)
      | var w =>
        simp only [isConst_const, isConst_var, if_true, Bool.false_eq_true, if_false] at h
        cases h
        obtain ⟨tri', sub, new⟩ := tri.link root2 root1 Expr.noConfusion (.const n s) sorts'
        exact ⟨tri', sub, noEqualities, fun M env respects _ =>
          ends sub M env respects (new _ M env respects).symm⟩
    | var v =>
      by_cases same : v2 = .var v
      · subst same
        simp only [isConst_var, Bool.false_eq_true, if_false, ne_eq, not_true, or_self] at h
        cases h
        exact ⟨tri, fun _ _ h => h, noEqualities, fun M env respects _ =>
          ends (fun _ _ h => h) M env respects rfl⟩
      · have different : isConst v2 = true ∨ Expr.var v ≠ v2 := .inr (Ne.symm same)
        simp only [isConst_var, Bool.false_eq_true, if_false, different, if_true] at h
        cases h
        obtain ⟨tri', sub, new⟩ := tri.link root1 root2 same found2 sorts'.symm
        exact ⟨tri', sub, noEqualities, fun M env respects _ =>
          ends sub M env respects (new _ M env respects)⟩
  · rw [if_pos sorts] at h
    cases h

theorem unifyLists_spec {σ σ' : ResolutionEnv} {eqs eqs' : List ResolutionAtom} {ts us : List Expr}
    (tri : Triangular σ) (terms1 : ∀ t ∈ ts, t.IsTerm) (terms2 : ∀ u ∈ us, u.IsTerm)
    (h : unifyLists σ eqs ts us = some (σ', eqs')) :
    UnifyStep σ σ' eqs eqs' (fun M env => evalList M ts env = evalList M us env) := by
  induction ts generalizing σ eqs us with
  | nil =>
    cases us with
    | nil =>
      cases h
      exact ⟨tri, fun _ _ h => h, ⟨[], by simp, by simp⟩, fun _ _ _ _ => rfl⟩
    | cons u us => cases h
  | cons t ts ih =>
    cases us with
    | nil => cases h
    | cons u us =>
      rw [unifyLists, Option.bind_eq_some_iff] at h
      obtain ⟨⟨τ, eqs₁⟩, first, rest⟩ := h
      rw [List.forall_mem_cons] at terms1 terms2
      have head := unifyTerms_spec tri terms1.1 terms2.1 first
      have tail := ih head.triangular terms1.2 terms2.2 rest
      obtain ⟨added₁, rfl, ground₁⟩ := head.equalities
      obtain ⟨added₂, rfl, ground₂⟩ := tail.equalities
      refine ⟨tail.triangular, fun x t hx => tail.links x t (head.links x t hx),
        ⟨added₁ ++ added₂, List.append_assoc .., fun a ha => ?_⟩, fun M env respects holds => ?_⟩
      · obtain ha | ha := List.mem_append.mp ha
        · exact ground₁ a ha
        · exact ground₂ a ha
      · have before : EqualitiesHold M env (eqs ++ added₁) :=
          fun x y hxy => holds x y (List.mem_append_left _ hxy)
        have first := head.meets M env (respects.mono tail.links) before
        have rest := tail.meets M env respects holds
        simp only [evalList]
        rw [first, rest]

/-- A unifier makes the two lists equal wherever the collected equalities hold. -/
theorem termsMGUEq_spec {subs : ResolutionEnv} {eqs : List ResolutionAtom} {ts us : List Expr}
    (terms1 : ∀ t ∈ ts, t.IsTerm) (terms2 : ∀ u ∈ us, u.IsTerm)
    (h : termsMGUEq ts us = some (subs, eqs)) :
    SortPreserving subs ∧ (∀ a ∈ eqs, a.GroundEquality) ∧
      ∀ {D : Domain} (M : Structure D) (env : Env D), EqualitiesHold M env eqs →
        evalList M ts (env.bind M subs) = evalList M us (env.bind M subs) := by
  rw [termsMGUEq, Option.map_eq_some_iff] at h
  obtain ⟨⟨σ, eqs'⟩, unified, result⟩ := h
  cases result
  have step := unifyLists_spec .nil terms1 terms2 unified
  obtain ⟨added, same, ground⟩ := step.equalities
  rw [List.nil_append] at same
  subst same
  have tri := step.triangular
  have lookup := lookup_env_map (envFind σ) σ
  have preserving : SortPreserving (σ.map (fun p => (p.1, envFind σ p.2))) := by
    intro v t ht
    rw [lookup, Option.map_eq_some_iff] at ht
    obtain ⟨u, hu, rfl⟩ := ht
    obtain ⟨w, hw, term, sort⟩ := tri.lookup_spec hu
    cases hw
    obtain ⟨term', sort'⟩ := tri.envFind_spec term
    exact ⟨term', sort'.trans sort⟩
  refine ⟨preserving, ground, fun {D} M env holds => step.meets M _ ?_ ?_⟩
  · intro v t hv
    have bound : List.lookup (Expr.var v) (σ.map (fun p => (p.1, envFind σ p.2))) =
        some (envFind σ t) := by rw [lookup, hv]; rfl
    obtain ⟨term', sort'⟩ := preserving v _ bound
    rw [Env.eval_bind bound term' sort']
    obtain ⟨w, hw, term, sort⟩ := tri.lookup_spec hv
    cases term with
    | var x =>
      cases hx : σ.lookup (.var x) with
      | none =>
        have root : EnvRoot σ (.var x) := fun y hy => by cases hy; exact hx
        have unbound : List.lookup (Expr.var x) (σ.map (fun p => (p.1, envFind σ p.2))) = none := by
          rw [lookup, hx]; rfl
        rw [envFind, envFindFuel_root root, Expr.eval, Expr.eval, Env.bind_none unbound]
      | some u =>
        have bound : List.lookup (Expr.var x) (σ.map (fun p => (p.1, envFind σ p.2))) =
            some (envFind σ u) := by rw [lookup, hx]; rfl
        obtain ⟨term', sort'⟩ := preserving x _ bound
        rw [Env.eval_bind bound term' sort', tri.envFind_lookup hx]
    | const n s =>
      have root : EnvRoot σ (.const ⟨n, .first s⟩) := fun y hy => by cases hy
      rw [envFind, envFindFuel_root root]
      rfl
  · intro x y hxy
    obtain ⟨n, m, s, same⟩ := ground _ hxy
    cases same
    exact holds _ _ hxy

end Goivy
