import Goivy.Logic.OfSort
import Goivy.TransRel.AtomicActions
import Goivy.Util.OptionList

/-! Witnesses for quantified variables. -/
namespace Goivy

namespace WitnessAst

section Walk

variable (witnesses : Variable → Option Expr)

/-- The loop over the variables of a quantifier: the variables without a witness, and the body. -/
def witnessVars : List Variable → Expr → Option (List Variable × Expr)
  | [], body => some ([], body)
  | v :: vars, body => match witnesses v with
    | some term =>
      if vars.any (· ∈ term.allVariables) then none
      else (body.substitute [(v, term)]).bind (witnessVars vars)
    | none => (witnessVars vars body).map fun (newVars, body) => (v :: newVars, body)

/-- `CloneBinder`, unless no variable is left. -/
def rebind (quantifier : List Variable → Expr → Expr) (newVars : List Variable) (body : Expr) : Expr :=
  if newVars.isEmpty then body else quantifier (deduplicateAndSortVars newVars) body

/-- Nothing where the source reports an error, or where the fuel does not suffice: a witness may bring in
quantifiers that have witnesses again. -/
def witnessAst : Nat → Bool → Expr → Option Expr
  | 0, _, _ => none
  | n + 1, pos, fmla => match fmla with
    | .var v => some (.var v)
    | .const c => some (.const c)
    | .apply f ts => (ts.mapM (witnessAst n pos)).map (.apply f)
    | .and ts => (ts.mapM (witnessAst n pos)).map .and
    | .or ts => (ts.mapM (witnessAst n pos)).map .or
    | .not a => (witnessAst n (!pos) a).map .not
    | .implies a b => (witnessAst n (!pos) a).bind fun a => (witnessAst n pos b).map (.implies a)
    | .eq a b => (witnessAst n pos a).bind fun a => (witnessAst n pos b).map (.eq a)
    | .iff a b => (witnessAst n pos a).bind fun a => (witnessAst n pos b).map (.iff a)
    | .ite c a b => (witnessAst n pos c).bind fun c => (witnessAst n pos a).bind fun a => (witnessAst n pos b).map (.ite c a)
    | .forAll vs a =>
      if pos then (witnessVars witnesses vs a).bind fun (newVars, body) => (witnessAst n pos body).map (rebind .forAll newVars)
      else (witnessAst n pos a).map (.forAll vs)
    | .exists vs a =>
      if !pos then (witnessVars witnesses vs a).bind fun (newVars, body) => (witnessAst n pos body).map (rebind .exists newVars)
      else (witnessAst n pos a).map (.exists vs)
    | .some vs a => (witnessAst n pos a).map (.some vs)
    | .someElse vs a b c =>
      (witnessAst n pos a).bind fun a => (witnessAst n pos b).bind fun b => (witnessAst n pos c).map (.someElse vs a b)

mutual
/-- At this polarity a quantifier with a witness is met. -/
def instantiates : Bool → Expr → Bool
  | _, .var _ | _, .const _ => false
  | pos, .apply _ ts | pos, .and ts | pos, .or ts => instantiatesList pos ts
  | pos, .not a => instantiates (!pos) a
  | pos, .implies a b => instantiates (!pos) a || instantiates pos b
  | pos, .eq a b | pos, .iff a b => instantiates pos a || instantiates pos b
  | pos, .ite a b c | pos, .someElse _ a b c => instantiates pos a || instantiates pos b || instantiates pos c
  | pos, .forAll vs a => (pos && vs.any fun v => (witnesses v).isSome) || instantiates pos a
  | pos, .exists vs a => (!pos && vs.any fun v => (witnesses v).isSome) || instantiates pos a
  | pos, .some _ a => instantiates pos a
def instantiatesList : Bool → List Expr → Bool
  | _, [] => false
  | pos, t :: ts => instantiates pos t || instantiatesList pos ts
end

mutual
/-- Quantifiers with witnesses are met at positions of one polarity only: not below an equivalence, in the
condition of a conditional, or in a term. -/
def polarized : Bool → Expr → Bool
  | _, .var _ | _, .const _ => true
  | pos, .and ts | pos, .or ts => polarizedList pos ts
  | pos, .not a => polarized (!pos) a
  | pos, .implies a b => polarized (!pos) a && polarized pos b
  | pos, .ite c a b => !instantiates witnesses pos c && polarized pos a && polarized pos b
  | pos, .forAll _ a | pos, .exists _ a => polarized pos a
  | pos, e => !instantiates witnesses pos e
def polarizedList : Bool → List Expr → Bool
  | _, [] => true
  | pos, t :: ts => polarized pos t && polarizedList pos ts
end

/-- Every witness is a term of its variable's sort, without a quantifier that has witnesses again. -/
def Terms : Prop := ∀ v term, witnesses v = some term → term.OfSort v.sort ∧ ∀ pos, instantiates witnesses pos term = false

end Walk

variable {witnesses : Variable → Option Expr} {n : Nat} {pos : Bool} {e e' a : Expr} {s : FSort} {vs newVars : List Variable} {ts : List Expr}

theorem instantiatesList_iff : instantiatesList witnesses pos ts = false ↔ ∀ t ∈ ts, instantiates witnesses pos t = false := by
  induction ts with
  | nil => simp [instantiatesList]
  | cons t ts ih => simp [instantiatesList, ih]

theorem polarizedList_iff : polarizedList witnesses pos ts = true ↔ ∀ t ∈ ts, polarized witnesses pos t = true := by
  induction ts with
  | nil => simp [polarizedList]
  | cons t ts ih => simp [polarizedList, ih]

section Substitution

variable {subs : List (Variable × Expr)}

theorem any_deduplicateAndSortVars (p : Variable → Bool) : (deduplicateAndSortVars vs).any p = vs.any p := by
  rw [Bool.eq_iff_iff]
  simp [deduplicateAndSortVars]

/-- The terms that a binder leaves are among the substituted ones. -/
theorem under_binder {P : Expr → Prop} {inner : List (Variable × Expr)} (h : Expr.substituteWithoutBoundVariables vs subs = some inner)
    (plain : ∀ v t, subs.lookup v = some t → P t) : ∀ v t, inner.lookup v = some t → P t := by
  intro v t found
  rw [(Expr.substituteWithoutBoundVariables_spec h).1] at found
  split at found
  · contradiction
  · exact plain v t found

theorem substituteList_eq {us : List Expr} (h : Expr.substituteList ts subs = some us) :
    List.Forall₂ (fun t u => t.substitute subs = some u) ts us := by
  induction ts generalizing us with
  | nil =>
    obtain rfl := Option.some.inj h
    exact .nil
  | cons t ts ih =>
    simp only [Expr.substituteList, Option.bind_eq_some_iff, Option.map_eq_some_iff] at h
    obtain ⟨u, hu, us', hus, rfl⟩ := h
    exact .cons hu (ih hus)

theorem forall_of_forall₂ {α β : Type} {R : α → β → Prop} {P : α → Prop} {Q : β → Prop} {as : List α} {bs : List β} (related : List.Forall₂ R as bs)
    (all : ∀ a ∈ as, P a) (step : ∀ a ∈ as, ∀ b, R a b → P a → Q b) : ∀ b ∈ bs, Q b := by
  induction related with
  | nil => exact fun _ h => absurd h List.not_mem_nil
  | cons head _ ih =>
    rw [List.forall_mem_cons] at all ⊢
    exact ⟨step _ List.mem_cons_self _ head all.1, ih all.2 fun a ha => step a (List.mem_cons_of_mem _ ha)⟩

theorem instantiates_substitute (plain : ∀ v t, subs.lookup v = some t → ∀ pos, instantiates witnesses pos t = false)
    (h : instantiates witnesses pos e = false) (sub : e.substitute subs = some e') : instantiates witnesses pos e' = false := by
  induction e generalizing subs e' pos with
  | var v =>
    cases sub
    cases found : subs.lookup v with
    | none => rfl
    | some t => exact plain v t found pos
  | const c =>
    cases sub
    rfl
  | apply f ts ih | and ts ih | or ts ih =>
    rw [instantiates, instantiatesList_iff] at h
    simp only [Expr.substitute, Option.bind_eq_some_iff, Expr.newAnd, Expr.newOr] at sub
    obtain ⟨us, hus, he⟩ := sub
    have args := forall_of_forall₂ (substituteList_eq hus) h fun t ht u hu none => ih t ht plain none hu
    first
      | cases Expr.newApply_eq he
        rw [instantiates, instantiatesList_iff]
        exact args
      | split at he
        · cases he
          rw [instantiates, instantiatesList_iff]
          exact args
        · contradiction
  | not a ha =>
    simp only [Expr.substitute, Option.bind_eq_some_iff, Expr.newNot] at sub
    obtain ⟨a', hsa, he⟩ := sub
    split at he
    · cases he
      rw [instantiates] at h ⊢
      exact ha plain h hsa
    · contradiction
  | eq a b ha hb =>
    simp only [instantiates, Bool.or_eq_false_iff] at h
    simp only [Expr.substitute, Option.bind_eq_some_iff] at sub
    obtain ⟨a', hsa, b', hsb, he⟩ := sub
    cases Expr.newEq_eq he
    simp only [instantiates, ha plain h.1 hsa, hb plain h.2 hsb, Bool.or_false]
  | implies a b ha hb | iff a b ha hb =>
    simp only [instantiates, Bool.or_eq_false_iff] at h
    simp only [Expr.substitute, Option.bind_eq_some_iff, Expr.newImplies, Expr.newIff] at sub
    obtain ⟨a', hsa, b', hsb, he⟩ := sub
    split at he
    · cases he
      simp only [instantiates, ha plain h.1 hsa, hb plain h.2 hsb, Bool.or_false]
    · contradiction
  | ite a b c ha hb hc =>
    simp only [instantiates, Bool.or_eq_false_iff] at h
    simp only [Expr.substitute, Option.bind_eq_some_iff] at sub
    obtain ⟨a', hsa, b', hsb, c', hsc, he⟩ := sub
    cases Expr.newIte_eq he
    simp only [instantiates, ha plain h.1.1 hsa, hb plain h.1.2 hsb, hc plain h.2 hsc, Bool.or_false]
  | forAll vs a ha | «exists» vs a ha =>
    simp only [instantiates, Bool.or_eq_false_iff] at h
    simp only [Expr.substitute, Option.bind_eq_some_iff, Expr.newForAll, Expr.newExists] at sub
    obtain ⟨inner, hin, a', hsa, he⟩ := sub
    split at he
    · contradiction
    · cases he
      simp only [instantiates, any_deduplicateAndSortVars, h.1, ha (under_binder hin plain) h.2 hsa, Bool.or_false]
  | some vs a ha =>
    simp only [Expr.substitute, Option.bind_eq_some_iff, Option.map_eq_some_iff] at sub
    obtain ⟨inner, hin, a', hsa, rfl⟩ := sub
    rw [instantiates] at h ⊢
    exact ha (under_binder hin plain) h hsa
  | someElse vs a b c ha hb hc =>
    simp only [instantiates, Bool.or_eq_false_iff] at h
    simp only [Expr.substitute, Option.bind_eq_some_iff, Option.map_eq_some_iff] at sub
    obtain ⟨inner, hin, a', hsa, b', hsb, c', hsc, rfl⟩ := sub
    have inner' := under_binder hin plain
    simp only [instantiates, ha inner' h.1.1 hsa, hb inner' h.1.2 hsb, hc inner' h.2 hsc, Bool.or_false]

theorem polarized_substitute (plain : ∀ v t, subs.lookup v = some t → ∀ pos, instantiates witnesses pos t = false ∧ polarized witnesses pos t = true)
    (h : polarized witnesses pos e = true) (sub : e.substitute subs = some e') : polarized witnesses pos e' = true := by
  have none : ∀ v t, subs.lookup v = some t → ∀ pos, instantiates witnesses pos t = false := fun v t found pos => (plain v t found pos).1
  induction e generalizing subs e' pos with
  | var v =>
    cases sub
    cases found : subs.lookup v with
    | none => rfl
    | some t => exact (plain v t found pos).2
  | const c =>
    cases sub
    rfl
  | and ts ih | or ts ih =>
    rw [polarized, polarizedList_iff] at h
    simp only [Expr.substitute, Option.bind_eq_some_iff, Expr.newAnd, Expr.newOr] at sub
    obtain ⟨us, hus, he⟩ := sub
    have args := forall_of_forall₂ (substituteList_eq hus) h fun t ht u hu safe => ih t ht plain safe hu none
    split at he
    · cases he
      rw [polarized, polarizedList_iff]
      exact args
    · contradiction
  | not a ha =>
    simp only [Expr.substitute, Option.bind_eq_some_iff, Expr.newNot] at sub
    obtain ⟨a', hsa, he⟩ := sub
    split at he
    · cases he
      rw [polarized] at h ⊢
      exact ha plain h hsa none
    · contradiction
  | implies a b ha hb =>
    simp only [polarized, Bool.and_eq_true] at h
    simp only [Expr.substitute, Option.bind_eq_some_iff, Expr.newImplies] at sub
    obtain ⟨a', hsa, b', hsb, he⟩ := sub
    split at he
    · cases he
      simp only [polarized, ha plain h.1 hsa none, hb plain h.2 hsb none, Bool.and_true]
    · contradiction
  | ite c a b hc ha hb =>
    simp only [polarized, Bool.and_eq_true, Bool.not_eq_true'] at h
    simp only [Expr.substitute, Option.bind_eq_some_iff] at sub
    obtain ⟨c', hsc, a', hsa, b', hsb, he⟩ := sub
    cases Expr.newIte_eq he
    simp only [polarized, instantiates_substitute none h.1.1 hsc, ha plain h.1.2 hsa none, hb plain h.2 hsb none, Bool.and_true, Bool.not_false]
  | forAll vs a ha | «exists» vs a ha =>
    rw [polarized] at h
    simp only [Expr.substitute, Option.bind_eq_some_iff, Expr.newForAll, Expr.newExists] at sub
    obtain ⟨inner, hin, a', hsa, he⟩ := sub
    split at he
    · contradiction
    · cases he
      rw [polarized]
      exact ha (under_binder hin plain) h hsa (under_binder hin none)
  | apply f ts =>
    simp only [polarized, Bool.not_eq_true'] at h
    have kept := instantiates_substitute none h sub
    simp only [Expr.substitute, Option.bind_eq_some_iff] at sub
    obtain ⟨us, hus, he⟩ := sub
    cases Expr.newApply_eq he
    simp only [polarized, kept, Bool.not_false]
  | eq a b =>
    simp only [polarized, Bool.not_eq_true'] at h
    have kept := instantiates_substitute none h sub
    simp only [Expr.substitute, Option.bind_eq_some_iff] at sub
    obtain ⟨a', hsa, b', hsb, he⟩ := sub
    cases Expr.newEq_eq he
    simp only [polarized, kept, Bool.not_false]
  | iff a b =>
    simp only [polarized, Bool.not_eq_true'] at h
    have kept := instantiates_substitute none h sub
    simp only [Expr.substitute, Option.bind_eq_some_iff, Expr.newIff] at sub
    obtain ⟨a', hsa, b', hsb, he⟩ := sub
    split at he
    · cases he
      simp only [polarized, kept, Bool.not_false]
    · contradiction
  | some vs a =>
    simp only [polarized, Bool.not_eq_true'] at h
    have kept := instantiates_substitute none h sub
    simp only [Expr.substitute, Option.bind_eq_some_iff, Option.map_eq_some_iff] at sub
    obtain ⟨inner, hin, a', hsa, rfl⟩ := sub
    simp only [polarized, kept, Bool.not_false]
  | someElse vs a b c =>
    simp only [polarized, Bool.not_eq_true'] at h
    have kept := instantiates_substitute none h sub
    simp only [Expr.substitute, Option.bind_eq_some_iff, Option.map_eq_some_iff] at sub
    obtain ⟨inner, hin, a', hsa, b', hsb, c', hsc, rfl⟩ := sub
    simp only [polarized, kept, Bool.not_false]

/-- What is instantiated nowhere needs no polarity. -/
theorem polarized_of_instantiates (h : instantiates witnesses pos e = false) : polarized witnesses pos e = true := by
  induction e generalizing pos with
  | var | const => rfl
  | and ts ih | or ts ih =>
    rw [instantiates, instantiatesList_iff] at h
    rw [polarized, polarizedList_iff]
    exact fun t ht => ih t ht (h t ht)
  | not a ha =>
    rw [instantiates] at h
    rw [polarized]
    exact ha h
  | implies a b ha hb =>
    simp only [instantiates, Bool.or_eq_false_iff] at h
    simp only [polarized, ha h.1, hb h.2, Bool.and_true]
  | ite c a b hc ha hb =>
    simp only [instantiates, Bool.or_eq_false_iff] at h
    simp only [polarized, h.1.1, ha h.1.2, hb h.2, Bool.and_true, Bool.not_false]
  | forAll vs a ha | «exists» vs a ha =>
    simp only [instantiates, Bool.or_eq_false_iff] at h
    rw [polarized]
    exact ha h.2
  | _ => simp only [polarized, h, Bool.not_false]

end Substitution

section Loop

variable {D : Domain} {M : Structure D} {body : Expr}

theorem witnessVars_none (h : vs.any (fun v => (witnesses v).isSome) = false) (a : Expr) : witnessVars witnesses vs a = some (vs, a) := by
  induction vs with
  | nil => rfl
  | cons v vs ih =>
    simp only [List.any_cons, Bool.or_eq_false_iff, Option.isSome_eq_false_iff, Option.isNone_iff_eq_none] at h
    simp only [witnessVars, h.1, ih h.2, Option.map_some]

/-- What one round makes of the body. -/
theorem witnessVars_cons {v : Variable} (h : witnessVars witnesses (v :: vs) a = some (newVars, body)) :
    (∃ term a', witnesses v = some term ∧ a.substitute [(v, term)] = some a' ∧ witnessVars witnesses vs a' = some (newVars, body)) ∨
      witnesses v = none ∧ ∃ rest, newVars = v :: rest ∧ witnessVars witnesses vs a = some (rest, body) := by
  rw [witnessVars] at h
  split at h
  · rename_i term found
    split at h
    · contradiction
    · obtain ⟨a', sub, h⟩ := Option.bind_eq_some_iff.mp h
      exact .inl ⟨term, a', found, sub, h⟩
  · rename_i missing
    obtain ⟨⟨rest, body'⟩, later, eq⟩ := Option.map_eq_some_iff.mp h
    obtain ⟨rfl, rfl⟩ := Prod.mk.inj eq
    exact .inr ⟨missing, rest, rfl, later⟩

/-- The loop keeps what substituting a single witness keeps. -/
theorem witnessVars_induct {P : Expr → Prop} (h : witnessVars witnesses vs a = some (newVars, body)) (start : P a)
    (step : ∀ v term b b', witnesses v = some term → b.substitute [(v, term)] = some b' → P b → P b') : P body := by
  induction vs generalizing a newVars with
  | nil =>
    obtain ⟨rfl, rfl⟩ := Prod.mk.inj (Option.some.inj h)
    exact start
  | cons v vs ih =>
    obtain ⟨term, a', found, sub, later⟩ | ⟨-, rest, -, later⟩ := witnessVars_cons h
    · exact ih later (step v term a a' found sub start)
    · exact ih later start

theorem lookup_single {v w : Variable} {t term : Expr} (h : [(v, term)].lookup w = some t) : w = v ∧ t = term := by
  rw [InsMap.lookup_cons] at h
  split at h
  · rename_i same
    exact ⟨same, (Option.some.inj h).symm⟩
  · cases h

theorem newVars_subset (h : witnessVars witnesses vs a = some (newVars, body)) : newVars ⊆ vs := by
  induction vs generalizing a newVars with
  | nil =>
    obtain ⟨rfl, rfl⟩ := Prod.mk.inj (Option.some.inj h)
    exact List.nil_subset _
  | cons v vs ih =>
    obtain ⟨term, a', found, sub, later⟩ | ⟨-, rest, rfl, later⟩ := witnessVars_cons h
    · exact List.Subset.trans (ih later) (List.subset_cons_self _ _)
    · exact List.cons_subset_cons _ (ih later)

theorem ofSort_witnessVars (terms : Terms witnesses) (sort : a.OfSort s) (h : witnessVars witnesses vs a = some (newVars, body)) : body.OfSort s := by
  refine witnessVars_induct (P := fun b => b.OfSort s) h sort fun v term b b' found sub sort => sort.substitute (fun w t ht => ?_) sub
  obtain ⟨rfl, rfl⟩ := lookup_single ht
  exact (terms w t found).1

theorem polarized_witnessVars (terms : Terms witnesses) (safe : polarized witnesses pos a = true)
    (h : witnessVars witnesses vs a = some (newVars, body)) : polarized witnesses pos body = true := by
  refine witnessVars_induct (P := fun b => polarized witnesses pos b = true) h safe fun v term b b' found sub safe => polarized_substitute (fun w t ht pos => ?_) safe sub
  obtain ⟨rfl, rfl⟩ := lookup_single ht
  have plain := (terms w t found).2 pos
  exact ⟨plain, polarized_of_instantiates plain⟩

/-- The instance of the body is the body at some values of the quantified variables. -/
theorem eval_witnessVars (terms : Terms witnesses) (sort : a.OfSort s) (h : witnessVars witnesses vs a = some (newVars, body))
    (env : Env D) : ∃ env', env.Off vs env' ∧ body.eval M env = a.eval M env' := by
  induction vs generalizing a newVars with
  | nil =>
    obtain ⟨rfl, rfl⟩ := Prod.mk.inj (Option.some.inj h)
    exact ⟨env, fun _ _ => rfl, rfl⟩
  | cons v vs ih =>
    obtain ⟨term, a', found, sub, later⟩ | ⟨-, rest, rfl, later⟩ := witnessVars_cons h
    · have sorts : ∀ w t, [(v, term)].lookup w = some t → t.OfSort w.sort := fun w t ht => by
        obtain ⟨rfl, rfl⟩ := lookup_single ht
        exact (terms w t found).1
      obtain ⟨env₁, off, same⟩ := ih (sort.substitute sorts sub) later
      have value : (term.eval M env₁).1 = v.sort := (terms v term found).1.sort_eval M env₁
      classical
      refine ⟨Function.update env₁ v (value ▸ (term.eval M env₁).2), fun w hw => ?_, same.trans (Expr.eval_substitute sort.descriptionFree ?_ sub)⟩
      · rw [List.mem_cons, not_or] at hw
        rw [Function.update_of_ne hw.1, off w hw.2]
      · intro w
        rw [InsMap.lookup_cons]
        split
        · rename_i same
          subst same
          rw [Function.update_self]
          exact Sigma.ext value.symm (eqRec_heq _ _)
        · rename_i other
          rw [Function.update_of_ne other]
          rfl
    · obtain ⟨env', off, same⟩ := ih sort later
      exact ⟨env', fun w hw => off w fun hw' => hw (List.mem_cons_of_mem _ hw'), same⟩

end Loop

section Soundness

variable {D : Domain} {M : Structure D}

theorem evalList_witnessAst {us : List Expr} (run : ts.mapM (witnessAst witnesses n pos) = some us) (env : Env D)
    (same : ∀ t ∈ ts, ∀ u, witnessAst witnesses n pos t = some u → u.eval M env = t.eval M env) : evalList M us env = evalList M ts env := by
  have each := mapM_eq_some_iff.mp run
  clear run
  induction each with
  | nil => rfl
  | cons head _ ih =>
    rw [List.forall_mem_cons] at same
    rw [evalList, evalList, same.1 _ head, ih same.2]

/-- A formula in which nothing is instantiated keeps its value. -/
theorem eval_witnessAst (sort : e.OfSort s) (none : instantiates witnesses pos e = false) (run : witnessAst witnesses n pos e = some e') (env : Env D) :
    e'.eval M env = e.eval M env := by
  induction n generalizing pos e e' s env with
  | zero => cases run
  | succ n ih =>
    cases e with
    | var | const =>
      obtain rfl := Option.some.inj run
      rfl
    | apply f ts =>
      obtain ⟨domain, -, sorts⟩ := sort
      rw [instantiates, instantiatesList_iff] at none
      obtain ⟨us, list, rfl⟩ := Option.map_eq_some_iff.mp run
      rw [Expr.eval, Expr.eval, evalList_witnessAst list env fun t ht u made => (sorts.exists_sort t ht).elim fun s hs => ih hs (none t ht) made env]
    | and ts | or ts =>
      have sorts := ofSorts_map.mp sort.2
      rw [instantiates, instantiatesList_iff] at none
      obtain ⟨us, list, rfl⟩ := Option.map_eq_some_iff.mp run
      rw [Expr.eval, Expr.eval, evalList_witnessAst list env fun t ht u made => ih (sorts t ht) (none t ht) made env]
    | not a =>
      rw [instantiates] at none
      obtain ⟨a', made, rfl⟩ := Option.map_eq_some_iff.mp run
      rw [Expr.eval, Expr.eval, ih sort.2 none made env]
    | implies a b =>
      simp only [instantiates, Bool.or_eq_false_iff] at none
      simp only [witnessAst, Option.bind_eq_some_iff, Option.map_eq_some_iff] at run
      obtain ⟨a', madeA, b', madeB, rfl⟩ := run
      rw [Expr.eval, Expr.eval, ih sort.2.1 none.1 madeA env, ih sort.2.2 none.2 madeB env]
    | iff a b =>
      simp only [instantiates, Bool.or_eq_false_iff] at none
      simp only [witnessAst, Option.bind_eq_some_iff, Option.map_eq_some_iff] at run
      obtain ⟨a', madeA, b', madeB, rfl⟩ := run
      rw [Expr.eval, Expr.eval, ih sort.2.1 none.1 madeA env, ih sort.2.2 none.2 madeB env]
    | eq a b =>
      obtain ⟨-, t, sortA, sortB⟩ := sort
      simp only [instantiates, Bool.or_eq_false_iff] at none
      simp only [witnessAst, Option.bind_eq_some_iff, Option.map_eq_some_iff] at run
      obtain ⟨a', madeA, b', madeB, rfl⟩ := run
      rw [Expr.eval, Expr.eval, ih sortA none.1 madeA env, ih sortB none.2 madeB env]
    | ite c a b =>
      simp only [instantiates, Bool.or_eq_false_iff] at none
      simp only [witnessAst, Option.bind_eq_some_iff, Option.map_eq_some_iff] at run
      obtain ⟨c', madeC, a', madeA, b', madeB, rfl⟩ := run
      rw [Expr.eval, Expr.eval, ih sort.1 none.1.1 madeC env, ih sort.2.1 none.1.2 madeA env, ih sort.2.2 none.2 madeB env]
    | forAll vs a =>
      simp only [instantiates, Bool.or_eq_false_iff] at none
      have body : ∀ {a'}, witnessAst witnesses n pos a = some a' → (Expr.forAll vs a').eval M env = (Expr.forAll vs a).eval M env := fun made => by
        simp only [Expr.eval, ih sort.2 none.2 made]
      rw [witnessAst] at run
      split at run
      · rename_i positive
        subst positive
        rw [Bool.true_and] at none
        rw [witnessVars_none none.1, Option.bind_some] at run
        obtain ⟨a', made, rfl⟩ := Option.map_eq_some_iff.mp run
        rw [← body made, rebind]
        split
        · rename_i empty
          obtain rfl := List.isEmpty_iff.mp empty
          refine Val.eq_of_holds_iff ?_ rfl ?_
          · rw [ih sort.2 none.2 made env]
            exact sort.2.sort_eval M env
          · exact ⟨fun holds => (Expr.holds_forAll M env [] a').mpr fun env' off => (funext fun v => off v List.not_mem_nil : env' = env) ▸ holds,
              fun holds => (Expr.holds_forAll M env [] a').mp holds env fun _ _ => rfl⟩
        · simp only [Expr.eval, Env.off_deduplicateAndSortVars]
      · obtain ⟨a', made, rfl⟩ := Option.map_eq_some_iff.mp run
        exact body made
    | «exists» vs a =>
      simp only [instantiates, Bool.or_eq_false_iff] at none
      have body : ∀ {a'}, witnessAst witnesses n pos a = some a' → (Expr.exists vs a').eval M env = (Expr.exists vs a).eval M env := fun made => by
        simp only [Expr.eval, ih sort.2 none.2 made]
      rw [witnessAst] at run
      split at run
      · rename_i negative
        obtain rfl := Bool.not_eq_true' _ ▸ negative
        rw [Bool.not_false, Bool.true_and] at none
        rw [witnessVars_none none.1, Option.bind_some] at run
        obtain ⟨a', made, rfl⟩ := Option.map_eq_some_iff.mp run
        rw [← body made, rebind]
        split
        · rename_i empty
          obtain rfl := List.isEmpty_iff.mp empty
          refine Val.eq_of_holds_iff ?_ rfl ?_
          · rw [ih sort.2 none.2 made env]
            exact sort.2.sort_eval M env
          · refine ⟨fun holds => (Expr.holds_exists M env [] a').mpr ⟨env, fun _ _ => rfl, holds⟩, fun holds => ?_⟩
            obtain ⟨env', off, holds⟩ := (Expr.holds_exists M env [] a').mp holds
            exact (funext fun v => off v List.not_mem_nil : env' = env) ▸ holds
        · simp only [Expr.eval, Env.off_deduplicateAndSortVars]
      · obtain ⟨a', made, rfl⟩ := Option.map_eq_some_iff.mp run
        exact body made
    | some | someElse => exact sort.elim

/-- `p` implies `q` at the positive polarity, and the converse at the negative one. -/
def Implied (pos : Bool) (p q : Prop) : Prop := if pos then p → q else q → p

theorem implied_of_iff {p q : Prop} (h : p ↔ q) : Implied pos p q := by
  cases pos
  · exact h.mpr
  · exact h.mp

theorem implied_forall {ι : Sort*} {p q : ι → Prop} (h : ∀ i, Implied pos (p i) (q i)) : Implied pos (∀ i, p i) (∀ i, q i) := by
  cases pos
  · exact fun all i => h i (all i)
  · exact fun all i => h i (all i)

theorem implied_exists {ι : Sort*} {p q : ι → Prop} (h : ∀ i, Implied pos (p i) (q i)) : Implied pos (∃ i, p i) (∃ i, q i) := by
  cases pos
  · exact fun some => some.imp h
  · exact fun some => some.imp h

theorem implied_imp {p q p' q' : Prop} (left : Implied (!pos) p p') (right : Implied pos q q') : Implied pos (p → q) (p' → q') := by
  cases pos
  · exact fun h hp => right (h (left hp))
  · exact fun h hp => right (h (left hp))

theorem implied_and {p q p' q' : Prop} (left : Implied pos p p') (right : Implied pos q q') : Implied pos (p ∧ q) (p' ∧ q') := by
  cases pos
  · exact And.imp left right
  · exact And.imp left right

theorem implied_or {p q p' q' : Prop} (left : Implied pos p p') (right : Implied pos q q') : Implied pos (p ∨ q) (p' ∨ q') := by
  cases pos
  · exact Or.imp left right
  · exact Or.imp left right

theorem implied_all {us : List Expr} {env : Env D} (each : List.Forall₂ (fun t u => Implied pos (t.Holds M env) (u.Holds M env)) ts us) :
    Implied pos (∀ t ∈ ts, t.Holds M env) (∀ u ∈ us, u.Holds M env) := by
  induction each with
  | nil => exact implied_of_iff Iff.rfl
  | cons head _ ih =>
    simp only [List.forall_mem_cons]
    exact implied_and head ih

theorem implied_any {us : List Expr} {env : Env D} (each : List.Forall₂ (fun t u => Implied pos (t.Holds M env) (u.Holds M env)) ts us) :
    Implied pos (∃ t ∈ ts, t.Holds M env) (∃ u ∈ us, u.Holds M env) := by
  induction each with
  | nil => exact implied_of_iff Iff.rfl
  | cons head _ ih =>
    simp only [List.exists_mem_cons_iff]
    exact implied_or head ih

theorem implied_args {us : List Expr} {env : Env D} (run : ts.mapM (witnessAst witnesses n pos) = some us)
    (step : ∀ t ∈ ts, ∀ u, witnessAst witnesses n pos t = some u → Implied pos (t.Holds M env) (u.Holds M env)) :
    List.Forall₂ (fun t u => Implied pos (t.Holds M env) (u.Holds M env)) ts us := by
  have each := mapM_eq_some_iff.mp run
  clear run
  induction each with
  | nil => exact .nil
  | cons head _ ih =>
    rw [List.forall_mem_cons] at step
    exact .cons (step.1 _ head) (ih step.2)

/-- Where the quantifiers with witnesses are at positions of one polarity, a positive formula implies its instance,
and a negative one follows from it. -/
theorem implied_witnessAst (terms : Terms witnesses) (sort : e.OfSort .boolean) (safe : polarized witnesses pos e = true)
    (run : witnessAst witnesses n pos e = some e') (env : Env D) : Implied pos (e.Holds M env) (e'.Holds M env) := by
  induction n generalizing pos e e' env with
  | zero => cases run
  | succ n ih =>
    cases e with
    | var | const =>
      obtain rfl := Option.some.inj run
      exact implied_of_iff Iff.rfl
    | apply | eq | iff =>
      simp only [polarized, Bool.not_eq_true'] at safe
      exact implied_of_iff (Expr.holds_congr M env (eval_witnessAst sort safe run env)).symm
    | and ts =>
      rw [polarized, polarizedList_iff] at safe
      obtain ⟨us, list, rfl⟩ := Option.map_eq_some_iff.mp run
      simp only [Expr.holds_and]
      exact implied_all (implied_args list fun t ht u made => ih (ofSorts_map.mp sort.2 t ht) (safe t ht) made env)
    | or ts =>
      rw [polarized, polarizedList_iff] at safe
      obtain ⟨us, list, rfl⟩ := Option.map_eq_some_iff.mp run
      simp only [Expr.holds_or]
      exact implied_any (implied_args list fun t ht u made => ih (ofSorts_map.mp sort.2 t ht) (safe t ht) made env)
    | not a =>
      rw [polarized] at safe
      obtain ⟨a', made, rfl⟩ := Option.map_eq_some_iff.mp run
      simp only [Expr.holds_not]
      exact implied_imp (ih sort.2 safe made env) (implied_of_iff Iff.rfl)
    | implies a b =>
      simp only [polarized, Bool.and_eq_true] at safe
      simp only [witnessAst, Option.bind_eq_some_iff, Option.map_eq_some_iff] at run
      obtain ⟨a', madeA, b', madeB, rfl⟩ := run
      simp only [Expr.holds_implies]
      exact implied_imp (ih sort.2.1 safe.1 madeA env) (ih sort.2.2 safe.2 madeB env)
    | ite c a b =>
      simp only [polarized, Bool.and_eq_true, Bool.not_eq_true'] at safe
      simp only [witnessAst, Option.bind_eq_some_iff, Option.map_eq_some_iff] at run
      obtain ⟨c', madeC, a', madeA, b', madeB, rfl⟩ := run
      have condition := Expr.holds_congr M env (eval_witnessAst (M := M) sort.1 safe.1.1 madeC env)
      by_cases hc : c.Holds M env
      · rw [Expr.holds_congr M env (Expr.eval_ite_pos M env a b hc), Expr.holds_congr M env (Expr.eval_ite_pos M env a' b' (condition.mpr hc))]
        exact ih sort.2.1 safe.1.2 madeA env
      · rw [Expr.holds_congr M env (Expr.eval_ite_neg M env a b hc), Expr.holds_congr M env (Expr.eval_ite_neg M env a' b' (mt condition.mp hc))]
        exact ih sort.2.2 safe.2 madeB env
    | forAll vs a =>
      rw [polarized] at safe
      rw [witnessAst] at run
      split at run
      · rename_i positive
        subst positive
        obtain ⟨⟨newVars, body⟩, loop, run⟩ := Option.bind_eq_some_iff.mp run
        obtain ⟨body', made, rfl⟩ := Option.map_eq_some_iff.mp run
        -- the value of the new body at `env'` is the value of `a` where the replaced variables have their witnesses
        have instance_ : ∀ env', env.Off newVars env' → (Expr.forAll vs a).Holds M env → body'.Holds M env' := by
          intro env' off all
          obtain ⟨env'', off', same⟩ := eval_witnessVars (M := M) terms sort.2 loop env'
          have holds : a.Holds M env'' := (Expr.holds_forAll M env vs a).mp all env'' fun v hv =>
            (off' v hv).trans (off v fun hv' => hv (newVars_subset loop hv'))
          exact ih (ofSort_witnessVars terms sort.2 loop) (polarized_witnessVars terms safe loop) made env'
            ((congrArg Val.Holds same).mpr holds)
        intro all
        rw [rebind]
        split
        · exact instance_ env (fun _ _ => rfl) all
        · exact (Expr.holds_forAll M env _ _).mpr fun env' off => instance_ env' (Env.off_deduplicateAndSortVars.mp off) all
      · obtain ⟨a', made, rfl⟩ := Option.map_eq_some_iff.mp run
        simp only [Expr.holds_forAll]
        exact implied_forall fun env' => implied_forall fun _ => ih sort.2 safe made env'
    | «exists» vs a =>
      rw [polarized] at safe
      rw [witnessAst] at run
      split at run
      · rename_i negative
        obtain rfl := Bool.not_eq_true' _ ▸ negative
        obtain ⟨⟨newVars, body⟩, loop, run⟩ := Option.bind_eq_some_iff.mp run
        obtain ⟨body', made, rfl⟩ := Option.map_eq_some_iff.mp run
        have instance_ : ∀ env', env.Off newVars env' → body'.Holds M env' → (Expr.exists vs a).Holds M env := by
          intro env' off holds
          obtain ⟨env'', off', same⟩ := eval_witnessVars (M := M) terms sort.2 loop env'
          have holds := ih (ofSort_witnessVars terms sort.2 loop) (polarized_witnessVars terms safe loop) made env' holds
          exact (Expr.holds_exists M env vs a).mpr ⟨env'', fun v hv => (off' v hv).trans (off v fun hv' => hv (newVars_subset loop hv')),
            (congrArg Val.Holds same).mp holds⟩
        intro holds
        rw [rebind] at holds
        split at holds
        · exact instance_ env (fun _ _ => rfl) holds
        · obtain ⟨env', off, holds⟩ := (Expr.holds_exists M env _ _).mp holds
          exact instance_ env' (Env.off_deduplicateAndSortVars.mp off) holds
      · obtain ⟨a', made, rfl⟩ := Option.map_eq_some_iff.mp run
        simp only [Expr.holds_exists]
        exact implied_exists fun env' => implied_and (implied_of_iff Iff.rfl) (ih sort.2 safe made env')
    | some | someElse => exact sort.elim

section Examples

def sortS : FSort := .uninterpreted "s"
def witnessX : Variable := ⟨"X", sortS⟩
def witnessY : Variable := ⟨"Y", sortS⟩
def constA : Expr := .const ⟨"a", .first sortS⟩

/-- The constant is the witness of both variables. -/
def constWitness (v : Variable) : Option Expr := if v = witnessX ∨ v = witnessY then some constA else none

theorem terms_constWitness : Terms constWitness := by
  intro v term h
  unfold constWitness at h
  split at h
  · rename_i same
    obtain rfl := Option.some.inj h
    refine ⟨?_, fun pos => rfl⟩
    obtain rfl | rfl := same
    · exact rfl
    · exact rfl
  · cases h

end Examples

end Soundness

end WitnessAst

end Goivy
