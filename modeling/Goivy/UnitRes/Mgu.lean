import Goivy.UnitRes.Resolution
import Goivy.Util.Bindings
import Goivy.Util.OptionList

/-! Most general unifiers of lists of variables and constants. The chains of the bindings are followed as long as they go on, so
that their end is part of what is proved. -/
namespace Goivy

open Bindings (resolve depth)

/-- The loop of `EnvFind`, for so many steps. -/
def envFindLoop (env : ResolutionEnv) : Nat → Expr → Option Expr
  | 0, _ => none
  | n + 1, .var v =>
    match env.lookup (.var v) with
    | some next => envFindLoop env n next
    | none => some (.var v)
  | _, t => some t

/-- The loop of `TermsMGU`, and of `TermsMGUEq`, which collects the constants that clash. -/
def bindTerms (fuel : Nat) (collect : Bool) :
    List (Expr × Expr) → ResolutionEnv → List ResolutionAtom → Option (Option (ResolutionEnv × List ResolutionAtom))
  | [], env, eqs => some (some (env, eqs))
  | (t1, t2) :: rest, env, eqs =>
    if t1.nodeSort ≠ t2.nodeSort then some none
    else
      (envFindLoop env fuel t1).bind fun v1 => (envFindLoop env fuel t2).bind fun v2 =>
        if isConst v1 then
          if isConst v2 then
            if v1 = v2 then bindTerms fuel collect rest env eqs
            else if collect then bindTerms fuel collect rest env (eqs ++ [equalityAtom v1 v2])
            else some none
          else bindTerms fuel collect rest ((v2, v1) :: env) eqs
        else if isConst v2 || v1 ≠ v2 then bindTerms fuel collect rest ((v1, v2) :: env) eqs
        else bindTerms fuel collect rest env eqs

/-- What is returned, with the bindings at the ends of their chains. -/
def mguLoop (fuel : Nat) (collect : Bool) (terms1 terms2 : List Expr) : Option (Option (ResolutionEnv × List ResolutionAtom)) :=
  if terms1.length ≠ terms2.length then some none
  else
    (bindTerms fuel collect (terms1.zip terms2) [] []).bind fun
      | none => some none
      | some (env, eqs) => (env.mapM fun p => (envFindLoop env fuel p.2).map (p.1, ·)).map fun subs => some (subs, eqs)

/-- `TermsMGU`: no result where a loop has not ended. -/
def termsMGULoop (fuel : Nat) (terms1 terms2 : List Expr) : Option (Option ResolutionEnv) :=
  (mguLoop fuel false terms1 terms2).map (Option.map Prod.fst)

/-- `TermsMGUEq`. -/
def termsMGUEqLoop (fuel : Nat) (terms1 terms2 : List Expr) : Option (Option (ResolutionEnv × List ResolutionAtom)) :=
  mguLoop fuel true terms1 terms2

/-- A variable or a constant. -/
inductive Expr.IsSymbol : Expr → Prop
  | var (v : Variable) : IsSymbol (.var v)
  | const (c : Const) : IsSymbol (.const c)

section Find

/-- The bindings that the loop makes: of variables, to terms of their sorts. -/
structure Chained (env : ResolutionEnv) : Prop where
  triangular : Bindings.Triangular env
  vars : ∀ p ∈ env, isVar p.1 = true
  symbols : ∀ p ∈ env, p.2.IsSymbol
  sorts : ∀ p ∈ env, p.1.nodeSort = p.2.nodeSort

namespace Chained

variable {env : ResolutionEnv} {t k u : Expr}

theorem nil : Chained [] := ⟨.nil, by simp, by simp, by simp⟩

theorem resolve_of_not_var (h : Chained env) (ht : isVar t = false) : resolve env t = t := by
  refine h.triangular.lookup_none (List.lookup_eq_none_iff.mpr fun p hp => bne_iff_ne.mpr ?_)
  rintro rfl
  rw [h.vars p hp] at ht
  contradiction

theorem nodeSort_resolve (h : Chained env) (t : Expr) : (resolve env t).nodeSort = t.nodeSort := Bindings.apply_resolve h.sorts t

theorem isSymbol_resolve (h : Chained env) (ht : t.IsSymbol) : (resolve env t).IsSymbol := by
  rcases Bindings.resolve_mem env t with same | ⟨p, hp, found⟩
  · rwa [same]
  · rw [found]
    exact h.symbols p hp

/-- The loop comes to the end of the chain. -/
theorem envFindLoop_eq (h : Chained env) {n : Nat} (enough : depth env t < n) : envFindLoop env n t = some (resolve env t) := by
  induction n generalizing t with
  | zero => omega
  | succ n ih =>
    cases t with
    | var v =>
      rw [envFindLoop]
      cases found : env.lookup (.var v) with
      | none => rw [h.triangular.lookup_none found]
      | some next =>
        obtain ⟨same, step⟩ := h.triangular.lookup_some found
        rw [same]
        exact ih (by omega)
    | _ => exact congrArg some (h.resolve_of_not_var rfl).symm

/-- A new binding between two different ends. -/
theorem cons (h : Chained env) (hk : resolve env k = k) (hu : resolve env u = u) (ne : u ≠ k) (isVar_k : isVar k = true)
    (symbol : u.IsSymbol) (sort : k.nodeSort = u.nodeSort) : Chained ((k, u) :: env) where
  triangular := .cons h.triangular hk hu ne
  vars := List.forall_mem_cons.mpr ⟨isVar_k, h.vars⟩
  symbols := List.forall_mem_cons.mpr ⟨symbol, h.symbols⟩
  sorts := List.forall_mem_cons.mpr ⟨sort, h.sorts⟩

end Chained

end Find

section Run

variable {fuel : Nat} {collect : Bool} {ps rest : List (Expr × Expr)} {env env' : ResolutionEnv} {eqs eqs' : List ResolutionAtom}

/-- What a position does: nothing, a clash of two constants, or a new binding. -/
theorem bindTerms_cons (collect : Bool) (rest : List (Expr × Expr)) (eqs : List ResolutionAtom) (h : Chained env) {t1 t2 : Expr} (enough : env.length < fuel) (sorts : t1.nodeSort = t2.nodeSort)
    (symbol1 : t1.IsSymbol) (symbol2 : t2.IsSymbol) :
    (resolve env t1 = resolve env t2 ∧ bindTerms fuel collect ((t1, t2) :: rest) env eqs = bindTerms fuel collect rest env eqs) ∨
    (resolve env t1 ≠ resolve env t2 ∧ isVar (resolve env t1) = false ∧ isVar (resolve env t2) = false ∧
      bindTerms fuel collect ((t1, t2) :: rest) env eqs =
        if collect then bindTerms fuel collect rest env (eqs ++ [equalityAtom (resolve env t1) (resolve env t2)]) else some none) ∨
    ∃ k u, (k = resolve env t1 ∧ u = resolve env t2 ∨ isConst (resolve env t1) = true ∧ k = resolve env t2 ∧ u = resolve env t1) ∧
      Chained ((k, u) :: env) ∧
      bindTerms fuel collect ((t1, t2) :: rest) env eqs = bindTerms fuel collect rest ((k, u) :: env) eqs := by
  have find : ∀ t, envFindLoop env fuel t = some (resolve env t) := fun t =>
    h.envFindLoop_eq ((Bindings.depth_le env t).trans_lt enough)
  rw [bindTerms, if_neg (not_not.mpr sorts), find, find, Option.bind_some, Option.bind_some]
  have end1 := h.triangular.resolve_resolve t1
  have end2 := h.triangular.resolve_resolve t2
  have same : (resolve env t1).nodeSort = (resolve env t2).nodeSort := by rw [h.nodeSort_resolve, h.nodeSort_resolve, sorts]
  have is1 := h.isSymbol_resolve symbol1
  have is2 := h.isSymbol_resolve symbol2
  generalize resolve env t1 = v1 at *
  generalize resolve env t2 = v2 at *
  by_cases eq : v1 = v2
  · obtain rfl := eq
    refine .inl ⟨rfl, ?_⟩
    cases is1 <;> simp
  · refine .inr ?_
    cases is1 with
    | const c =>
      cases is2 with
      | const d => exact .inl ⟨eq, rfl, rfl, if_neg eq⟩
      | var w => exact .inr ⟨_, _, .inr ⟨rfl, rfl, rfl⟩, h.cons end2 end1 eq rfl (.const c) same.symm, rfl⟩
    | var v =>
      refine .inr ⟨_, _, .inl ⟨rfl, rfl⟩, h.cons end1 end2 (Ne.symm eq) rfl is2 same, ?_⟩
      rw [isConst_var, if_neg Bool.false_ne_true, if_pos]
      simp [eq]

/-- The valuations that make the collected equalities true. -/
def Meets {β : Type} (f : Expr → β) (eqs : List ResolutionAtom) : Prop := ∀ x y, equalityAtom x y ∈ eqs → f x = f y

/-- The result of the loop: bindings that meet at all positions where the equalities hold, and that hold with the equalities wherever
the positions are equal. -/
structure Unified (ps : List (Expr × Expr)) (env env' : ResolutionEnv) (eqs eqs' : List ResolutionAtom) : Prop where
  chained : Chained env'
  length : env'.length ≤ env.length + ps.length
  sorts : ∀ p ∈ ps, p.1.nodeSort = p.2.nodeSort
  keeps : ∀ x y, resolve env x = resolve env y → resolve env' x = resolve env' y
  collects : ∀ a ∈ eqs, a ∈ eqs'
  meets : ∀ {β : Type} (f : Expr → β), Meets f eqs' → ∀ p ∈ ps, f (resolve env' p.1) = f (resolve env' p.2)
  general : ∀ {β : Type} (f : Expr → β), (∀ p ∈ env, f p.1 = f p.2) → Meets f eqs → (∀ p ∈ ps, f p.1 = f p.2) →
    (∀ p ∈ env', f p.1 = f p.2) ∧ Meets f eqs'

theorem Unified.nil (h : Chained env) : Unified [] env env eqs eqs where
  chained := h
  length := Nat.le_refl _
  sorts := by simp
  keeps _ _ same := same
  collects _ mem := mem
  meets _ _ := by simp
  general _ agree met _ := ⟨agree, met⟩

/-- The positions after the first one are bound from `env₁` and `eqs₁`, at which it has met. -/
theorem Unified.cons {env₁ : ResolutionEnv} {eqs₁ : List ResolutionAtom} {p : Expr × Expr} (rest : Unified ps env₁ env' eqs₁ eqs')
    (length : env₁.length ≤ env.length + 1) (sorts : p.1.nodeSort = p.2.nodeSort)
    (keeps : ∀ x y, resolve env x = resolve env y → resolve env₁ x = resolve env₁ y) (collects : ∀ a ∈ eqs, a ∈ eqs₁)
    (meets : ∀ {β : Type} (f : Expr → β), Meets f eqs' → f (resolve env' p.1) = f (resolve env' p.2))
    (general : ∀ {β : Type} (f : Expr → β), (∀ p ∈ env, f p.1 = f p.2) → Meets f eqs → f p.1 = f p.2 →
      (∀ p ∈ env₁, f p.1 = f p.2) ∧ Meets f eqs₁) : Unified (p :: ps) env env' eqs eqs' where
  chained := rest.chained
  length := by
    have := rest.length
    rw [List.length_cons]
    omega
  sorts := List.forall_mem_cons.mpr ⟨sorts, rest.sorts⟩
  keeps x y same := rest.keeps x y (keeps x y same)
  collects a mem := rest.collects a (collects a mem)
  meets f met := List.forall_mem_cons.mpr ⟨meets f met, rest.meets f met⟩
  general f agree met equal := by
    rw [List.forall_mem_cons] at equal
    obtain ⟨agree₁, met₁⟩ := general f agree met equal.1
    exact rest.general f agree₁ met₁ equal.2

/-- A substitution of terms of the same sorts for the variables. -/
structure Substitution where
  map : Variable → Expr
  symbol : ∀ v, (map v).IsSymbol
  sort : ∀ v, (map v).nodeSort = .first v.sort

def Substitution.apply (σ : Substitution) : Expr → Expr
  | .var v => σ.map v
  | t => t

theorem Substitution.apply_of_not_var (σ : Substitution) {t : Expr} (h : isVar t = false) : σ.apply t = t := by
  cases t with
  | var v => contradiction
  | _ => rfl

/-- Why there is no result: sorts that differ, or, where clashes are not collected, that nothing unifies the positions. -/
def Fails (collect : Bool) (ps : List (Expr × Expr)) (env : ResolutionEnv) : Prop :=
  (∃ p ∈ ps, p.1.nodeSort ≠ p.2.nodeSort) ∨
    collect = false ∧ ∀ σ : Substitution, (∀ p ∈ env, σ.apply p.1 = σ.apply p.2) → ¬ ∀ p ∈ ps, σ.apply p.1 = σ.apply p.2

theorem Fails.cons {env₁ : ResolutionEnv} {p : Expr × Expr} (rest : Fails collect ps env₁)
    (general : ∀ σ : Substitution, (∀ p ∈ env, σ.apply p.1 = σ.apply p.2) → σ.apply p.1 = σ.apply p.2 →
      ∀ p ∈ env₁, σ.apply p.1 = σ.apply p.2) : Fails collect (p :: ps) env := by
  rcases rest with ⟨q, mem, sorts⟩ | ⟨fails, none⟩
  · exact .inl ⟨q, List.mem_cons_of_mem _ mem, sorts⟩
  · refine .inr ⟨fails, fun σ agree equal => ?_⟩
    rw [List.forall_mem_cons] at equal
    exact none σ (general σ agree equal.1) equal.2

theorem bindTerms_spec (collect : Bool) (eqs : List ResolutionAtom) (h : Chained env) (enough : env.length + ps.length < fuel) (symbols : ∀ p ∈ ps, p.1.IsSymbol ∧ p.2.IsSymbol) :
    (∃ env' eqs', bindTerms fuel collect ps env eqs = some (some (env', eqs')) ∧ Unified ps env env' eqs eqs' ∧ (collect = false → eqs' = eqs)) ∨
    (bindTerms fuel collect ps env eqs = some none ∧ Fails collect ps env) := by
  induction ps generalizing env eqs with
  | nil => exact .inl ⟨env, eqs, rfl, .nil h, fun _ => rfl⟩
  | cons p ps ih =>
    obtain ⟨t1, t2⟩ := p
    rw [List.forall_mem_cons] at symbols
    rw [List.length_cons] at enough
    by_cases sorts : t1.nodeSort = t2.nodeSort
    · have ends : ∀ t, resolve env (resolve env t) = resolve env t := h.triangular.resolve_resolve
      have room : env.length < fuel := by omega
      rcases bindTerms_cons collect ps eqs h room sorts symbols.1.1 symbols.1.2 with
        ⟨same, step⟩ | ⟨clash, const1, const2, step⟩ | ⟨k, u, sides, chained, step⟩
      · rw [step]
        rcases ih _ h (by omega) symbols.2 with ⟨env', eqs', result, bound, kept⟩ | ⟨result, fails⟩
        · refine .inl ⟨env', eqs', result, ?_, kept⟩
          exact bound.cons (Nat.le_succ _) sorts (fun _ _ same => same) (fun _ mem => mem)
            (fun f _ => congrArg f (bound.keeps t1 t2 same)) fun f agree met _ => ⟨agree, met⟩
        · exact .inr ⟨result, fails.cons fun σ agree _ => agree⟩
      · rw [step]
        cases collect with
        | true =>
          rw [if_pos rfl]
          rcases ih _ h (by omega) symbols.2 with ⟨env', eqs', result, bound, kept⟩ | ⟨result, fails⟩
          · refine .inl ⟨env', eqs', result, ?_, by simp⟩
            have still : ∀ t, isVar (resolve env t) = false → resolve env' t = resolve env t := fun t const => by
              rw [bound.keeps t _ (ends t).symm, bound.chained.resolve_of_not_var const]
            refine bound.cons (Nat.le_succ _) sorts (fun _ _ same => same) (fun _ mem => List.mem_append_left _ mem) ?_ ?_
            · intro β f met
              rw [still t1 const1, still t2 const2]
              exact met _ _ (bound.collects _ (List.mem_append_right _ (List.mem_singleton_self _)))
            · intro β f agree met equal
              refine ⟨agree, fun x y mem => ?_⟩
              rcases List.mem_append.mp mem with old | new
              · exact met x y old
              · have atom := List.mem_singleton.mp new
                simp only [equalityAtom, ResolutionAtom.mk.injEq, List.cons.injEq, and_true, true_and] at atom
                rw [atom.1, atom.2, Bindings.apply_resolve agree, Bindings.apply_resolve agree]
                exact equal
          · exact .inr ⟨result, fails.cons fun σ agree _ => agree⟩
        | false =>
          refine .inr ⟨rfl, .inr ⟨rfl, fun σ agree equal => clash ?_⟩⟩
          have equal := equal (t1, t2) List.mem_cons_self
          rw [← σ.apply_of_not_var const1, ← σ.apply_of_not_var const2, Bindings.apply_resolve agree, Bindings.apply_resolve agree]
          exact equal
      · rw [step]
        have agree_cons : ∀ {β : Type} (f : Expr → β), (∀ p ∈ env, f p.1 = f p.2) → f t1 = f t2 → ∀ p ∈ (k, u) :: env, f p.1 = f p.2 := by
          intro β f agree equal
          refine List.forall_mem_cons.mpr ⟨?_, agree⟩
          rcases sides with ⟨rfl, rfl⟩ | ⟨-, rfl, rfl⟩
          · rw [Bindings.apply_resolve agree, Bindings.apply_resolve agree, equal]
          · rw [Bindings.apply_resolve agree, Bindings.apply_resolve agree, equal]
        have length : ((k, u) :: env).length = env.length + 1 := rfl
        rcases ih _ chained (by omega) symbols.2 with ⟨env', eqs', result, bound, kept⟩ | ⟨result, fails⟩
        · refine .inl ⟨env', eqs', result, ?_, kept⟩
          refine bound.cons (Nat.le_refl _) sorts (fun _ _ same => Bindings.resolve_cons_congr _ same) (fun _ mem => mem) ?_ fun f agree met equal =>
            ⟨agree_cons f agree equal, met⟩
          intro β f _
          have joined : resolve ((k, u) :: env) t1 = resolve ((k, u) :: env) t2 := by
            have both := chained.triangular.resolve_eq List.mem_cons_self
            rw [Bindings.resolve_cons_congr (k, u) (ends t1).symm, Bindings.resolve_cons_congr (k, u) (ends t2).symm]
            rcases sides with ⟨rfl, rfl⟩ | ⟨-, rfl, rfl⟩
            · exact both
            · exact both.symm
          rw [bound.keeps t1 t2 joined]
        · exact .inr ⟨result, fails.cons fun σ agree equal => agree_cons σ.apply agree equal⟩
    · exact .inr ⟨by rw [bindTerms, if_pos sorts], .inl ⟨(t1, t2), List.mem_cons_self, sorts⟩⟩

end Run

section Spec

variable {fuel : Nat} {collect : Bool} {terms1 terms2 : List Expr} {env : ResolutionEnv}

theorem mapM_envFindLoop (h : Chained env) (ps : ResolutionEnv) (enough : env.length < fuel) :
    (ps.mapM fun p => (envFindLoop env fuel p.2).map (p.1, ·)) = some (ps.map fun p => (p.1, resolve env p.2)) := by
  refine mapM_eq_map fun p _ => ?_
  rw [h.envFindLoop_eq ((Bindings.depth_le env p.2).trans_lt enough)]
  rfl

/-- The bindings at the ends of their chains replace a term by the end of its chain. -/
theorem substTerm_resolve (h : Chained env) (t : Expr) : substTerm (env.map fun p => (p.1, resolve env p.2)) t = resolve env t := by
  cases t with
  | var v =>
    rw [substTerm, isVar_var, if_pos rfl, lookup_env_map]
    cases found : env.lookup (.var v) with
    | none => exact (h.triangular.lookup_none found).symm
    | some t => exact (h.triangular.lookup_some found).1.symm
  | _ => exact (h.resolve_of_not_var rfl).symm

def Chained.substitution (h : Chained env) : Substitution where
  map v := resolve env (.var v)
  symbol v := h.isSymbol_resolve (.var v)
  sort v := h.nodeSort_resolve (.var v)

theorem Chained.apply_substitution (h : Chained env) (t : Expr) : h.substitution.apply t = resolve env t := by
  cases t with
  | var v => rfl
  | _ => exact (h.resolve_of_not_var rfl).symm

theorem Substitution.nodeSort_apply (σ : Substitution) (t : Expr) : (σ.apply t).nodeSort = t.nodeSort := by
  cases t with
  | var v => exact σ.sort v
  | _ => rfl

theorem forall_zip_iff {α β : Type} {f : α → β} {as bs : List α} (len : as.length = bs.length) :
    (∀ p ∈ as.zip bs, f p.1 = f p.2) ↔ as.map f = bs.map f := by
  induction as generalizing bs with
  | nil =>
    obtain rfl := List.length_eq_zero_iff.mp len.symm
    simp
  | cons a as ih =>
    cases bs with
    | nil => contradiction
    | cons b bs => rw [List.zip_cons_cons, List.forall_mem_cons, ih (Nat.succ.inj len), List.map_cons, List.map_cons, List.cons.injEq]

theorem symbols_zip (symbols1 : ∀ t ∈ terms1, t.IsSymbol) (symbols2 : ∀ t ∈ terms2, t.IsSymbol) :
    ∀ p ∈ terms1.zip terms2, p.1.IsSymbol ∧ p.2.IsSymbol :=
  fun p mem => ⟨symbols1 _ (List.of_mem_zip mem).1, symbols2 _ (List.of_mem_zip mem).2⟩

theorem mguLoop_spec (collect : Bool) (symbols1 : ∀ t ∈ terms1, t.IsSymbol) (symbols2 : ∀ t ∈ terms2, t.IsSymbol) (enough : terms1.length < fuel) :
    (∃ env eqs, mguLoop fuel collect terms1 terms2 = some (some (env.map (fun p => (p.1, resolve env p.2)), eqs)) ∧
      terms1.length = terms2.length ∧ Unified (terms1.zip terms2) [] env [] eqs ∧ (collect = false → eqs = [])) ∨
    (mguLoop fuel collect terms1 terms2 = some none ∧ (terms1.length ≠ terms2.length ∨ Fails collect (terms1.zip terms2) [])) := by
  by_cases len : terms1.length = terms2.length
  · rw [mguLoop, if_neg (not_not.mpr len)]
    have zip_length : ([] : ResolutionEnv).length + (terms1.zip terms2).length = terms1.length := by
      rw [List.length_zip, ← len, Nat.min_self, List.length_nil, Nat.zero_add]
    rcases bindTerms_spec collect [] .nil (zip_length.trans_lt enough) (symbols_zip symbols1 symbols2) with
      ⟨env, eqs, result, bound, kept⟩ | ⟨result, fails⟩
    · refine .inl ⟨env, eqs, ?_, len, bound, kept⟩
      have short := bound.length
      rw [result, Option.bind_some]
      dsimp only
      rw [mapM_envFindLoop bound.chained _ (by omega)]
      rfl
    · exact .inr ⟨by rw [result]; rfl, .inr fails⟩
  · exact .inr ⟨by rw [mguLoop, if_pos len], .inl len⟩

/-- A loop that has ended does not depend on the steps that are left. -/
theorem envFindLoop_mono {n m : Nat} {t r : Expr} (h : envFindLoop env n t = some r) (le : n ≤ m) : envFindLoop env m t = some r := by
  induction n generalizing m t with
  | zero => contradiction
  | succ n ih =>
    obtain ⟨m, rfl⟩ : ∃ k, m = k + 1 := ⟨m - 1, by omega⟩
    cases t with
    | var v =>
      rw [envFindLoop] at h ⊢
      cases found : env.lookup (.var v) with
      | none => rwa [found] at h
      | some next =>
        rw [found] at h
        exact ih h (by omega)
    | _ => exact h

theorem bindTerms_mono {n m : Nat} {ps : List (Expr × Expr)} {eqs : List ResolutionAtom} {r : Option (ResolutionEnv × List ResolutionAtom)}
    (h : bindTerms n collect ps env eqs = some r) (le : n ≤ m) : bindTerms m collect ps env eqs = some r := by
  induction ps generalizing env eqs with
  | nil => exact h
  | cons p ps ih =>
    rw [bindTerms] at h ⊢
    split at h
    · rename_i sorts
      rw [if_pos sorts, h]
    · rename_i sorts
      obtain ⟨v1, find1, h⟩ := Option.bind_eq_some_iff.mp h
      obtain ⟨v2, find2, h⟩ := Option.bind_eq_some_iff.mp h
      rw [if_neg sorts, envFindLoop_mono find1 le, envFindLoop_mono find2 le, Option.bind_some, Option.bind_some]
      split_ifs at h ⊢
      all_goals first | exact h | exact ih h

theorem mguLoop_mono {n m : Nat} {r : Option (ResolutionEnv × List ResolutionAtom)} (h : mguLoop n collect terms1 terms2 = some r) (le : n ≤ m) :
    mguLoop m collect terms1 terms2 = some r := by
  rw [mguLoop] at h ⊢
  split at h
  · rename_i len
    rw [if_pos len, h]
  · rename_i len
    obtain ⟨found, run, h⟩ := Option.bind_eq_some_iff.mp h
    rw [if_neg len, bindTerms_mono run le, Option.bind_some]
    cases found with
    | none => exact h
    | some found =>
      obtain ⟨subs, made, h⟩ := Option.map_eq_some_iff.mp h
      refine Option.map_eq_some_iff.mpr ⟨subs, ?_, h⟩
      rw [mapM_eq_some_iff] at made ⊢
      refine made.imp fun p q end_ => ?_
      obtain ⟨r, find, made⟩ := Option.map_eq_some_iff.mp end_
      exact Option.map_eq_some_iff.mpr ⟨r, envFindLoop_mono find le, made⟩

theorem Chained.envFind_eq (h : Chained env) (t : Expr) : envFind env t = resolve env t := by
  have follow : ∀ n t, depth env t ≤ n → envFindFuel env n t = resolve env t := by
    intro n
    induction n with
    | zero =>
      intro t short
      cases t with
      | var v =>
        cases found : env.lookup (.var v) with
        | none => exact (h.triangular.lookup_none found).symm
        | some next =>
          have step := (h.triangular.lookup_some found).2
          omega
      | _ => exact (h.resolve_of_not_var rfl).symm
    | succ n ih =>
      intro t short
      cases t with
      | var v =>
        rw [envFindFuel]
        cases found : env.lookup (.var v) with
        | none => exact (h.triangular.lookup_none found).symm
        | some next =>
          obtain ⟨same, step⟩ := h.triangular.lookup_some found
          rw [same]
          exact ih next (by omega)
      | _ => exact (h.resolve_of_not_var rfl).symm
  exact follow _ t (Bindings.depth_le env t)

end Spec

section Claims

variable {terms1 terms2 : List Expr}

theorem termsMGULoop_spec (symbols1 : ∀ t ∈ terms1, t.IsSymbol) (symbols2 : ∀ t ∈ terms2, t.IsSymbol) :
    ∃ r, (∀ n, termsMGULoop (terms1.length + 1 + n) terms1 terms2 = some r) ∧
      (r.isSome ↔ ∃ σ : Substitution, terms1.map σ.apply = terms2.map σ.apply) ∧
      ∀ subs, r = some subs → ∃ μ : Substitution, (∀ t, substTerm subs t = μ.apply t) ∧
        (∀ t, μ.apply (μ.apply t) = μ.apply t) ∧ terms1.map μ.apply = terms2.map μ.apply ∧
        ∀ σ : Substitution, terms1.map σ.apply = terms2.map σ.apply → ∀ t, σ.apply (μ.apply t) = σ.apply t := by
  have run : ∀ {r}, mguLoop (terms1.length + 1) false terms1 terms2 = some r → ∀ n,
      termsMGULoop (terms1.length + 1 + n) terms1 terms2 = some (r.map Prod.fst) := fun result n => by
    rw [termsMGULoop, mguLoop_mono result (Nat.le_add_right _ n)]
    rfl
  rcases mguLoop_spec false symbols1 symbols2 (Nat.lt_succ_self _) with ⟨env, eqs, result, len, bound, none⟩ | ⟨result, fails⟩
  · obtain rfl := none rfl
    have h := bound.chained
    have unifies : terms1.map h.substitution.apply = terms2.map h.substitution.apply := by
      refine (forall_zip_iff len).mp fun p mem => ?_
      rw [h.apply_substitution, h.apply_substitution]
      exact bound.meets id (fun _ _ mem => absurd mem List.not_mem_nil) p mem
    refine ⟨_, run result, iff_of_true rfl ⟨_, unifies⟩, fun subs found => ?_⟩
    obtain rfl := Option.some.inj found
    refine ⟨h.substitution, fun t => ?_, fun t => ?_, unifies, fun σ equal t => ?_⟩
    · rw [substTerm_resolve h, h.apply_substitution]
    · simp only [h.apply_substitution, h.triangular.resolve_resolve]
    · have agree := (bound.general σ.apply (by simp) (fun _ _ mem => absurd mem List.not_mem_nil) ((forall_zip_iff len).mpr equal)).1
      rw [h.apply_substitution, Bindings.apply_resolve agree]
  · refine ⟨_, run result, iff_of_false Bool.false_ne_true ?_, fun subs found => by contradiction⟩
    rintro ⟨σ, equal⟩
    have len : terms1.length = terms2.length := by simpa using congrArg List.length equal
    rcases fails with lengths | ⟨p, mem, sorts⟩ | ⟨-, none⟩
    · exact lengths len
    · have same := congrArg Expr.nodeSort ((forall_zip_iff len).mpr equal p mem)
      rw [σ.nodeSort_apply, σ.nodeSort_apply] at same
      exact sorts same
    · exact none σ (by simp) ((forall_zip_iff len).mpr equal)

theorem termsMGUEqLoop_spec (symbols1 : ∀ t ∈ terms1, t.IsSymbol) (symbols2 : ∀ t ∈ terms2, t.IsSymbol) :
    ∃ r, (∀ n, termsMGUEqLoop (terms1.length + 1 + n) terms1 terms2 = some r) ∧
      (r = none ↔ terms1.map Expr.nodeSort ≠ terms2.map Expr.nodeSort) ∧
      ∀ subs eqs, r = some (subs, eqs) → ∃ μ : Substitution, (∀ t, substTerm subs t = μ.apply t) ∧
        ∀ (D : Domain) (M : Structure D) (env : Env D),
          (EqualitiesHold M env eqs → evalList M (terms1.map μ.apply) env = evalList M (terms2.map μ.apply) env) ∧
          (evalList M terms1 env = evalList M terms2 env →
            EqualitiesHold M env eqs ∧ ∀ t, (μ.apply t).eval M env = t.eval M env) := by
  have run : ∀ {r}, mguLoop (terms1.length + 1) true terms1 terms2 = some r → ∀ n,
      termsMGUEqLoop (terms1.length + 1 + n) terms1 terms2 = some r := fun result n => mguLoop_mono result (Nat.le_add_right _ n)
  rcases mguLoop_spec true symbols1 symbols2 (Nat.lt_succ_self _) with ⟨env, eqs, result, len, bound, -⟩ | ⟨result, fails⟩
  · have h := bound.chained
    refine ⟨_, run result, iff_of_false (by simp) (not_not.mpr ((forall_zip_iff len).mp bound.sorts)), fun subs eqs' found => ?_⟩
    obtain ⟨rfl, rfl⟩ := Prod.mk.inj (Option.some.inj found)
    refine ⟨h.substitution, fun t => by rw [substTerm_resolve h, h.apply_substitution], fun D M ρ => ⟨fun hold => ?_, fun equal => ?_⟩⟩
    · rw [evalList_eq_map, evalList_eq_map, List.map_map, List.map_map]
      refine (forall_zip_iff len).mp fun p mem => ?_
      simp only [Function.comp_apply, h.apply_substitution]
      exact bound.meets (fun t => t.eval M ρ) hold p mem
    · rw [evalList_eq_map, evalList_eq_map] at equal
      obtain ⟨agree, hold⟩ := bound.general (fun t => t.eval M ρ) (by simp) (fun _ _ mem => absurd mem List.not_mem_nil)
        ((forall_zip_iff len).mpr equal)
      refine ⟨hold, fun t => ?_⟩
      rw [h.apply_substitution]
      exact Bindings.apply_resolve (f := fun t => t.eval M ρ) agree t
  · refine ⟨_, run result, iff_of_true rfl fun sorts => ?_, fun subs eqs found => by contradiction⟩
    have len : terms1.length = terms2.length := by simpa using congrArg List.length sorts
    rcases fails with lengths | ⟨p, mem, differ⟩ | ⟨fails, -⟩
    · exact lengths len
    · exact differ ((forall_zip_iff len).mpr sorts p mem)
    · contradiction

/-- The loop that collects is that of `termsMGUEq`. -/
theorem bindTerms_eq_unifyLists {fuel : Nat} {env : ResolutionEnv} (eqs : List ResolutionAtom) (h : Chained env)
    (len : terms1.length = terms2.length) (enough : env.length + terms1.length < fuel) (symbols1 : ∀ t ∈ terms1, t.IsSymbol)
    (symbols2 : ∀ t ∈ terms2, t.IsSymbol) :
    bindTerms fuel true (terms1.zip terms2) env eqs = some (unifyLists env eqs terms1 terms2) := by
  induction terms1 generalizing terms2 env eqs with
  | nil =>
    obtain rfl := List.length_eq_zero_iff.mp len.symm
    rfl
  | cons t1 ts ih =>
    cases terms2 with
    | nil => contradiction
    | cons t2 us =>
      rw [List.forall_mem_cons] at symbols1 symbols2
      rw [List.length_cons] at enough
      have len : ts.length = us.length := Nat.succ.inj len
      have room : env.length < fuel := by omega
      rw [List.zip_cons_cons, unifyLists, unifyTerms, h.envFind_eq, h.envFind_eq]
      by_cases sorts : t1.nodeSort = t2.nodeSort
      · have is1 := h.isSymbol_resolve symbols1.1
        have is2 := h.isSymbol_resolve symbols2.1
        rw [if_neg (not_not.mpr sorts)]
        rcases bindTerms_cons true (ts.zip us) eqs h room sorts symbols1.1 symbols2.1 with
          ⟨same, step⟩ | ⟨clash, const1, const2, step⟩ | ⟨k, u, sides, chained, step⟩
        · rw [step, ih _ h len (by omega) symbols1.2 symbols2.2, same]
          generalize resolve env t2 = v2 at is2
          cases is2 <;> simp
        · rw [step, if_pos rfl, ih _ h len (by omega) symbols1.2 symbols2.2]
          generalize resolve env t1 = v1 at *
          generalize resolve env t2 = v2 at *
          cases is1 with
          | var v => contradiction
          | const c =>
            cases is2 with
            | var v => contradiction
            | const d => simp [clash]
        · have longer : ((k, u) :: env).length = env.length + 1 := rfl
          have isVar_k : isVar k = true := chained.vars _ List.mem_cons_self
          have differ : u ≠ k := chained.triangular.ne
          rw [step, ih _ chained len (by omega) symbols1.2 symbols2.2]
          rcases sides with ⟨rfl, rfl⟩ | ⟨const1, rfl, rfl⟩
          · generalize resolve env t1 = v1 at *
            cases is1 with
            | const c => contradiction
            | var v => simp [Ne.symm differ]
          · generalize resolve env t2 = v2 at *
            cases is2 with
            | const c => contradiction
            | var v => simp [const1]
      · rw [if_pos sorts, bindTerms, if_pos sorts]
        rfl

theorem unifyLists_length {env : ResolutionEnv} {eqs : List ResolutionAtom} {r : ResolutionEnv × List ResolutionAtom}
    (h : unifyLists env eqs terms1 terms2 = some r) : terms1.length = terms2.length := by
  induction terms1 generalizing terms2 env eqs with
  | nil =>
    cases terms2 with
    | nil => rfl
    | cons t2 us => contradiction
  | cons t1 ts ih =>
    cases terms2 with
    | nil => contradiction
    | cons t2 us =>
      obtain ⟨_, -, rest⟩ := Option.bind_eq_some_iff.mp h
      exact congrArg Nat.succ (ih rest)

/-- With its loops run to their ends, the code computes `termsMGUEq`. -/
theorem termsMGUEqLoop_eq (symbols1 : ∀ t ∈ terms1, t.IsSymbol) (symbols2 : ∀ t ∈ terms2, t.IsSymbol) (n : Nat) :
    termsMGUEqLoop (terms1.length + 1 + n) terms1 terms2 = some (termsMGUEq terms1 terms2) := by
  refine mguLoop_mono (n := terms1.length + 1) ?_ (Nat.le_add_right _ n)
  rw [termsMGUEq]
  by_cases len : terms1.length = terms2.length
  · have short : ([] : ResolutionEnv).length + terms1.length < terms1.length + 1 := by simp
    have run := bindTerms_eq_unifyLists [] .nil len short symbols1 symbols2
    rw [mguLoop, if_neg (not_not.mpr len), run, Option.bind_some]
    cases found : unifyLists [] [] terms1 terms2 with
    | none => rfl
    | some r =>
      have zip_short : ([] : ResolutionEnv).length + (terms1.zip terms2).length < terms1.length + 1 := by
        rw [List.length_zip, ← len, Nat.min_self]
        exact short
      rcases bindTerms_spec true [] .nil zip_short (symbols_zip symbols1 symbols2) with ⟨env, eqs, result, bound, -⟩ | ⟨result, -⟩
      · rw [run, found] at result
        obtain rfl := Option.some.inj (Option.some.inj result)
        have length := bound.length
        dsimp only
        rw [mapM_envFindLoop bound.chained _ (by omega), Option.map_some, Option.map_some]
        simp only [bound.chained.envFind_eq]
      · rw [run, found] at result
        simp at result
  · rw [mguLoop, if_pos len]
    cases found : unifyLists [] [] terms1 terms2 with
    | none => rfl
    | some r => exact absurd (unifyLists_length found) len

theorem mgu_spec (symbols1 : ∀ t ∈ terms1, t.IsSymbol) (symbols2 : ∀ t ∈ terms2, t.IsSymbol) :
    (∃ r, (∀ n, termsMGULoop (terms1.length + 1 + n) terms1 terms2 = some r) ∧
      (r.isSome ↔ ∃ σ : Substitution, terms1.map σ.apply = terms2.map σ.apply) ∧
      ∀ subs, r = some subs → ∃ μ : Substitution, (∀ t, substTerm subs t = μ.apply t) ∧
        (∀ t, μ.apply (μ.apply t) = μ.apply t) ∧ terms1.map μ.apply = terms2.map μ.apply ∧
        ∀ σ : Substitution, terms1.map σ.apply = terms2.map σ.apply → ∀ t, σ.apply (μ.apply t) = σ.apply t) ∧
    ∃ r, (∀ n, termsMGUEqLoop (terms1.length + 1 + n) terms1 terms2 = some r) ∧
      (r = none ↔ terms1.map Expr.nodeSort ≠ terms2.map Expr.nodeSort) ∧
      ∀ subs eqs, r = some (subs, eqs) → ∃ μ : Substitution, (∀ t, substTerm subs t = μ.apply t) ∧
        ∀ (D : Domain) (M : Structure D) (env : Env D),
          (EqualitiesHold M env eqs → evalList M (terms1.map μ.apply) env = evalList M (terms2.map μ.apply) env) ∧
          (evalList M terms1 env = evalList M terms2 env →
            EqualitiesHold M env eqs ∧ ∀ t, (μ.apply t).eval M env = t.eval M env) :=
  ⟨termsMGULoop_spec symbols1 symbols2, termsMGUEqLoop_spec symbols1 symbols2⟩

theorem mgu_spec_chain :
    ∃ r, ∀ n, termsMGULoop (3 + n) [.var ⟨"X", .uninterpreted "s"⟩, .var ⟨"Y", .uninterpreted "s"⟩]
      [.var ⟨"Y", .uninterpreted "s"⟩, .const ⟨"a", .first (.uninterpreted "s")⟩] = some r := by
  have symbols1 : ∀ t ∈ [Expr.var ⟨"X", .uninterpreted "s"⟩, .var ⟨"Y", .uninterpreted "s"⟩], t.IsSymbol := by
    rw [List.forall_mem_cons, List.forall_mem_singleton]
    exact ⟨.var _, .var _⟩
  have symbols2 : ∀ t ∈ [Expr.var ⟨"Y", .uninterpreted "s"⟩, .const ⟨"a", .first (.uninterpreted "s")⟩], t.IsSymbol := by
    rw [List.forall_mem_cons, List.forall_mem_singleton]
    exact ⟨.var _, .const _⟩
  obtain ⟨r, run, -⟩ := (mgu_spec symbols1 symbols2).1
  exact ⟨r, run⟩

end Claims

end Goivy
