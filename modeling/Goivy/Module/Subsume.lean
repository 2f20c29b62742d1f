import Goivy.Logic.OfSort
import Goivy.UnitRes.Bridge
import Goivy.Util.InsMap

/-! Subsumption of clauses, and the removal of subsumed clauses. -/
namespace Goivy

section

variable {D : Domain}

def LogicLiteral.Holds (M : Structure D) (env : Env D) (lit : LogicLiteral) : Prop :=
  if lit.polarity then lit.atom.Holds M env else ¬ lit.atom.Holds M env

/-- The universal closure of the clause is true. -/
def ClauseValid (M : Structure D) (cl : List LogicLiteral) : Prop := ∀ env, ∃ lit ∈ cl, lit.Holds M env

end

namespace Subsumption

/-- `NodeArgs`. -/
def nodeArgs : Expr → List Expr
  | .var _ | .const _ => []
  | .apply _ ts | .and ts | .or ts => ts
  | .eq a b | .implies a b | .iff a b => [a, b]
  | .not a | .forAll _ a | .exists _ a => [a]
  | .ite a b c => [a, b, c]
  | .some vs a => vs.map .var ++ [a]
  | .someElse vs a b c => vs.map .var ++ [a, b, c]

/-- The name of `GetAppRep`. -/
def appRepName : Expr → Option String
  | .apply f _ => some f.name
  | .const c => some c.name
  | .eq _ _ => some "="
  | _ => none

mutual
/-- Nothing where the terms do not match: every caller then drops or restores the environment. -/
@[grind =] def termSubsume : Expr → Expr → List (String × Expr) → Option (List (String × Expr))
  | .const c, .const d, env => if c.name = d.name then some env else none
  | .const _, _, _ => none
  | .var v, term2, env => match env.lookup v.name with
    | some existing => if existing = term2 then some env else none
    | none => some ((v.name, term2) :: env)
  | .apply f ts, .apply g us, env =>
    if f.name = g.name ∧ ts.length = us.length then termsSubsume ts us env else none
  | .apply _ _, _, _ => none
  | term1, term2, env => if term1 = term2 then some env else none
@[grind =] def termsSubsume : List Expr → List Expr → List (String × Expr) → Option (List (String × Expr))
  | t :: ts, u :: us, env => (termSubsume t u env).bind (termsSubsume ts us)
  | _, _, env => some env
end

def litSubsume (lit1 lit2 : LogicLiteral) (env : List (String × Expr)) : Option (List (String × Expr)) :=
  if lit1.polarity ≠ lit2.polarity then none
  else match appRepName lit1.atom, appRepName lit2.atom with
    | some rep1, some rep2 =>
      let args1 := nodeArgs lit1.atom
      let args2 := nodeArgs lit2.atom
      if rep1 = rep2 ∧ args1.length = args2.length then termsSubsume args1 args2 env else none
    | _, _ => none

def ivyEquals : Const := ⟨"=", .function [.top "TopSort", .top "TopSort"] .boolean⟩

/-- `IvyAtom`; nothing where `MustApply` panics. -/
def ivyAtom (rel : Const) (args : List Expr) : Option Expr :=
  match args with
  | [a, b] => if rel = ivyEquals then some (.eq a b) else Expr.newApply rel [a, b]
  | [] => some (.const rel)
  | args => Expr.newApply rel args

def commuteLit (lit : LogicLiteral) : Option LogicLiteral :=
  match lit.atom with
  | .eq a b => some ⟨lit.polarity, .eq b a⟩
  | .apply rep [a, b] => (ivyAtom rep [b, a]).map fun atom => ⟨lit.polarity, atom⟩
  | _ => some lit

section Search

variable (recur : List LogicLiteral → List (String × Expr) → Option Bool) (lit : LogicLiteral) (env : List (String × Expr))

/-- Matches one literal and goes on with the remaining ones. -/
def subsumeWith (lit2 : LogicLiteral) (remaining : List LogicLiteral) : Option Bool :=
  match litSubsume lit lit2 env with
  | some env' => recur remaining env'
  | none => some false

/-- The condition under which the sides of `lit2` are also exchanged. -/
def commutes (lit2 : LogicLiteral) : Bool :=
  lit.polarity = lit2.polarity ∧ appRepName lit.atom = some "=" ∧ appRepName lit2.atom = some "=" ∧ (nodeArgs lit2.atom).length = 2

/-- The loop over `cl2`; `before` are the literals that it has passed. -/
@[grind =] def subsumeLoop : List LogicLiteral → List LogicLiteral → Option Bool
  | _, [] => some false
  | before, lit2 :: after => do
    if ← subsumeWith recur lit env lit2 (before ++ after) then return true
    if commutes lit lit2 then
      if ← subsumeWith recur lit env (← commuteLit lit2) (before ++ after) then return true
    subsumeLoop (before ++ [lit2]) after

end Search

/-- Nothing where `CommuteLit` panics. -/
@[grind =] def clauseSubsumeRecur : List LogicLiteral → List LogicLiteral → List (String × Expr) → Option Bool
  | [], _, _ => some true
  | lit :: rest, cl2, env => subsumeLoop (clauseSubsumeRecur rest) lit env [] cl2

def clauseSubsume (cl1 cl2 : List LogicLiteral) : Option Bool := clauseSubsumeRecur cl1 cl2 []

@[grind =] def subsume : List (List LogicLiteral) → List LogicLiteral → Option Bool
  | [], _ => some false
  | clp :: clauses, cl => do if ← clauseSubsume clp cl then return true else subsume clauses cl

@[grind =] def reduceClausesLoop : List (List LogicLiteral) → List (List LogicLiteral) → Option (List (List LogicLiteral))
  | used, [] => some used
  | used, cl :: unexplored => do
    if ← subsume used cl then reduceClausesLoop used unexplored
    else if ← subsume unexplored cl then reduceClausesLoop used unexplored
    else reduceClausesLoop (used ++ [cl]) unexplored

def reduceClausesFull (clauses : List (List LogicLiteral)) : Option (List (List LogicLiteral)) :=
  reduceClausesLoop [] clauses

mutual
/-- The nodes of a term that `TermSubsume` compares. -/
@[grind =] def compared : Expr → List Expr
  | .apply f ts => .apply f ts :: comparedList ts
  | e => [e]
@[grind =] def comparedList : List Expr → List Expr
  | [] => []
  | t :: ts => compared t ++ comparedList ts
end

def literalCompared (lit : LogicLiteral) : List Expr :=
  match lit.atom with
  | .eq a b => compared a ++ compared b
  | atom => compared atom

def headSymbol : Expr → Option Const
  | .const c | .apply c _ => some c
  | _ => none

/-- The nodes that `TermSubsume` compares as a whole. -/
def isCompound : Expr → Bool
  | .var _ | .const _ | .apply _ _ => false
  | _ => true

/-- The comparison of names agrees with the sorts wherever the search for a match of `cl1` in `cl2` makes it. -/
structure Unambiguous (cl1 cl2 : List LogicLiteral) : Prop where
  sorted : ∀ lit ∈ cl1 ++ cl2, lit.atom.OfSort .boolean
  symbols : ∀ lit1 ∈ cl1, ∀ lit2 ∈ cl2, ∀ t ∈ literalCompared lit1, ∀ u ∈ literalCompared lit2, ∀ f g, headSymbol t = some f → headSymbol u = some g →
    f.name = g.name → f = g
  equality : ∀ lit ∈ cl1 ++ cl2, ∀ f, headSymbol lit.atom = some f → f.name ≠ "="
  equalSorts : ∀ lit1 ∈ cl1, ∀ lit2 ∈ cl2, lit1.polarity = lit2.polarity → ∀ v w a b, lit1.atom = .eq (.var v) (.var w) →
    lit2.atom = .eq a b → a.OfSort v.sort
  compound : ∀ lit1 ∈ cl1, ∀ t ∈ literalCompared lit1, isCompound t = true → ∀ v ∈ t.freeVariables, ∀ lit ∈ cl1, ∀ w, .var w ∈ literalCompared lit →
    w.name ≠ v.name

section Bindings

variable {D : Domain} {M : Structure D} {env : Env D} {bs bs' bs'' : List (String × Expr)} {ns ns' : List Expr} {v : Variable} {t : Expr}

/-- `bs'` adds bindings to `bs`, all of variables among the compared nodes. -/
structure Grown (ns : List Expr) (bs bs' : List (String × Expr)) : Prop where
  kept : ∀ n t, bs.lookup n = some t → bs'.lookup n = some t
  added : ∀ n t, bs'.lookup n = some t → bs.lookup n = some t ∨ ∃ w, .var w ∈ ns ∧ w.name = n

theorem Grown.refl (ns : List Expr) (bs : List (String × Expr)) : Grown ns bs bs := ⟨fun _ _ h => h, fun _ _ h => .inl h⟩

theorem Grown.trans (first : Grown ns bs bs') (second : Grown ns' bs' bs'') : Grown (ns ++ ns') bs bs'' := by
  refine ⟨fun n t h => second.kept n t (first.kept n t h), fun n t h => ?_⟩
  obtain h | ⟨w, mem, name⟩ := second.added n t h
  · obtain h | ⟨w, mem, name⟩ := first.added n t h
    · exact .inl h
    · exact .inr ⟨w, List.mem_append_left _ mem, name⟩
  · exact .inr ⟨w, List.mem_append_right _ mem, name⟩

theorem Grown.mono (h : Grown ns bs bs') (sub : ns ⊆ ns') : Grown ns' bs bs' :=
  ⟨h.kept, fun n t found => (h.added n t found).imp_right fun ⟨w, mem, name⟩ => ⟨w, sub mem, name⟩⟩

/-- No variable of a node that is compared as a whole is bound. -/
def Settled (ns : List Expr) (bs : List (String × Expr)) : Prop :=
  ∀ t ∈ ns, isCompound t = true → ∀ v ∈ t.freeVariables, bs.lookup v.name = none

theorem Settled.mono (h : Settled ns' bs) (sub : ns ⊆ ns') : Settled ns bs := fun t mem => h t (sub mem)

/-- The assignment that gives each bound variable the value of its term. -/
noncomputable def instantiate (M : Structure D) (env : Env D) (bs : List (String × Expr)) : Env D := fun v =>
  match bs.lookup v.name with
  | some t => open Classical in if h : (t.eval M env).1 = v.sort then h ▸ (t.eval M env).2 else env v
  | none => env v

theorem instantiate_bound (found : bs.lookup v.name = some t) (sort : t.OfSort v.sort) :
    (⟨v.sort, instantiate M env bs v⟩ : Val D) = t.eval M env := by
  have same := sort.sort_eval M env
  unfold instantiate
  rw [found]
  simp only [dif_pos same]
  exact Sigma.ext same.symm (eqRec_heq _ _)

theorem instantiate_unbound (free : bs.lookup v.name = none) : instantiate M env bs v = env v := by
  simp only [instantiate, free]

end Bindings

section Terms

variable {D : Domain} {M : Structure D} {env : Env D} {bs bs' bs'' : List (String × Expr)} {t u : Expr} {ts us : List Expr} {s s' : FSort}

theorem grown_termsSubsume (h : termsSubsume ts us bs = some bs')
    (ih : ∀ t ∈ ts, ∀ u bs bs', termSubsume t u bs = some bs' → Grown (compared t) bs bs') : Grown (comparedList ts) bs bs' := by
  induction ts generalizing us bs with
  | nil =>
    obtain rfl := Option.some.inj h
    exact .refl _ _
  | cons t ts tail =>
    cases us with
    | nil =>
      obtain rfl := Option.some.inj h
      exact .refl _ _
    | cons u us =>
      rw [termsSubsume, Option.bind_eq_some_iff] at h
      obtain ⟨bs₁, head, rest⟩ := h
      rw [List.forall_mem_cons] at ih
      exact (ih.1 _ _ _ head).trans (tail rest ih.2)

theorem termSubsume_compound (compound : isCompound t = true) (h : termSubsume t u bs = some bs') : t = u ∧ bs = bs' := by
  cases t with
  | var | const | apply => cases compound
  | _ =>
    simp only [termSubsume] at h
    split at h
    · rename_i same
      exact ⟨same, Option.some.inj h⟩
    · contradiction

theorem termSubsume_var {v : Variable} (h : termSubsume (.var v) u bs = some bs') :
    bs.lookup v.name = some u ∧ bs' = bs ∨ bs.lookup v.name = none ∧ bs' = (v.name, u) :: bs := by
  rw [termSubsume] at h
  split at h
  · rename_i existing found
    split at h
    · rename_i same
      exact .inl ⟨same ▸ found, (Option.some.inj h).symm⟩
    · contradiction
  · rename_i free
    exact .inr ⟨free, (Option.some.inj h).symm⟩

theorem termSubsume_const {c : Const} (h : termSubsume (.const c) u bs = some bs') : ∃ d, u = .const d ∧ c.name = d.name ∧ bs' = bs := by
  cases u with
  | const d =>
    simp only [termSubsume] at h
    split at h
    · rename_i name
      exact ⟨d, rfl, name, (Option.some.inj h).symm⟩
    · contradiction
  | _ => simp [termSubsume] at h

theorem termSubsume_apply {f : Const} (h : termSubsume (.apply f ts) u bs = some bs') :
    ∃ g us, u = .apply g us ∧ f.name = g.name ∧ ts.length = us.length ∧ termsSubsume ts us bs = some bs' := by
  cases u with
  | apply g us =>
    simp only [termSubsume] at h
    split at h
    · rename_i same
      exact ⟨g, us, rfl, same.1, same.2, h⟩
    · contradiction
  | _ => simp [termSubsume] at h

theorem grown_termSubsume (h : termSubsume t u bs = some bs') : Grown (compared t) bs bs' := by
  induction t generalizing u bs bs' with
  | var v =>
    obtain ⟨-, rfl⟩ | ⟨free, rfl⟩ := termSubsume_var h
    · exact .refl _ _
    · refine ⟨fun n t found => ?_, fun n t found => ?_⟩
      · rw [InsMap.lookup_cons, if_neg (by rintro rfl; simp [free] at found)]
        exact found
      · rw [InsMap.lookup_cons] at found
        split at found
        · rename_i name
          exact .inr ⟨v, List.mem_singleton_self _, name.symm⟩
        · exact .inl found
  | const c =>
    obtain ⟨d, -, -, rfl⟩ := termSubsume_const h
    exact .refl _ _
  | apply f ts ih =>
    obtain ⟨g, us, -, -, -, h⟩ := termSubsume_apply h
    exact (grown_termsSubsume h fun t ht u bs bs' => ih t ht).mono (List.subset_cons_self _ _)
  | _ =>
    obtain ⟨-, rfl⟩ := termSubsume_compound rfl h
    exact .refl _ _

/-- Symbols of one name have one sort where the nodes `ns` are compared with `ns'`. -/
def SameSymbols (ns ns' : List Expr) : Prop :=
  ∀ t ∈ ns, ∀ u ∈ ns', ∀ f g, headSymbol t = some f → headSymbol u = some g → f.name = g.name → f = g

theorem SameSymbols.mono {ns ns' ms ms' : List Expr} (h : SameSymbols ns ns') (left : ms ⊆ ns) (right : ms' ⊆ ns') : SameSymbols ms ms' :=
  fun t ht u hu => h t (left ht) u (right hu)

theorem self_mem_compared (t : Expr) : t ∈ compared t := by
  cases t with
  | apply => exact List.mem_cons_self
  | _ => exact List.mem_singleton_self _

theorem eval_termsSubsume {ss : List FSort} (hts : OfSorts ts ss) (hus : OfSorts us ss) (symbols : SameSymbols (comparedList ts) (comparedList us))
    (h : termsSubsume ts us bs = some bs') (grown : ∀ n t, bs'.lookup n = some t → bs''.lookup n = some t)
    (settled : Settled (comparedList ts) bs'')
    (ih : ∀ t ∈ ts, ∀ u s bs bs', t.OfSort s → u.OfSort s → SameSymbols (compared t) (compared u) → termSubsume t u bs = some bs' →
      (∀ n t, bs'.lookup n = some t → bs''.lookup n = some t) → Settled (compared t) bs'' →
      t.eval M (instantiate M env bs'') = u.eval M env) :
    evalList M ts (instantiate M env bs'') = evalList M us env := by
  induction ts generalizing us ss bs with
  | nil =>
    cases us with
    | nil => rfl
    | cons u us => cases ss <;> simp [OfSorts] at hts hus
  | cons t ts tail =>
    cases ss with
    | nil => exact hts.elim
    | cons s ss =>
      cases us with
      | nil => exact hus.elim
      | cons u us =>
        rw [termsSubsume, Option.bind_eq_some_iff] at h
        obtain ⟨bs₁, head, rest⟩ := h
        rw [List.forall_mem_cons] at ih
        have later := grown_termsSubsume rest fun t _ u bs bs' => grown_termSubsume
        rw [evalList, evalList, ih.1 u s bs bs₁ hts.1 hus.1 (symbols.mono (List.subset_append_left _ _) (List.subset_append_left _ _)) head
          (fun n t found => grown n t (later.kept n t found)) (settled.mono (List.subset_append_left _ _))]
        exact congrArg _ (tail hts.2 hus.2 (symbols.mono (List.subset_append_right _ _) (List.subset_append_right _ _)) rest
          (settled.mono (List.subset_append_right _ _)) ih.2)

/-- A matched term has the value of what it is matched with, once its variables have the values of their terms. -/
theorem eval_termSubsume (ht : t.OfSort s) (hu : u.OfSort s) (symbols : SameSymbols (compared t) (compared u))
    (h : termSubsume t u bs = some bs') (grown : ∀ n t, bs'.lookup n = some t → bs''.lookup n = some t) (settled : Settled (compared t) bs'') :
    t.eval M (instantiate M env bs'') = u.eval M env := by
  induction t generalizing u s bs bs' with
  | var v =>
    obtain rfl : v.sort = s := ht
    refine instantiate_bound (grown _ _ ?_) hu
    obtain ⟨found, rfl⟩ | ⟨-, rfl⟩ := termSubsume_var h
    · exact found
    · exact List.lookup_cons_self
  | const c =>
    obtain ⟨d, rfl, name, -⟩ := termSubsume_const h
    rw [symbols _ (self_mem_compared _) _ (self_mem_compared _) c d rfl rfl name]
    rfl
  | apply f ts ih =>
    obtain ⟨g, us, rfl, name, -, matched⟩ := termSubsume_apply h
    obtain rfl := symbols _ (self_mem_compared _) _ (self_mem_compared _) f g rfl rfl name
    obtain ⟨domain, sort, hts⟩ := ht
    obtain ⟨domain', sort', hus⟩ := hu
    obtain rfl : domain = domain' := (LSort.function.inj (sort.symm.trans sort')).1
    rw [Expr.eval, Expr.eval, eval_termsSubsume hts hus (symbols.mono (List.subset_cons_self _ _) (List.subset_cons_self _ _)) matched grown
      (settled.mono (List.subset_cons_self _ _)) fun t ht u s bs bs' => ih t ht]
  | _ =>
    obtain ⟨rfl, -⟩ := termSubsume_compound rfl h
    exact Expr.eval_freeVariables M fun v hv => instantiate_unbound (settled _ (self_mem_compared _) rfl v hv)

/-- Matching compares the sorts of terms that are no variables. -/
theorem sort_termSubsume (noVar : ∀ v, t ≠ .var v) (ht : t.OfSort s) (hu : u.OfSort s') (symbols : SameSymbols (compared t) (compared u))
    (h : termSubsume t u bs = some bs') : s = s' := by
  cases t with
  | var v => exact absurd rfl (noVar v)
  | const c =>
    obtain ⟨d, rfl, name, -⟩ := termSubsume_const h
    obtain rfl := symbols _ (self_mem_compared _) _ (self_mem_compared _) c d rfl rfl name
    exact LSort.first.inj (Eq.trans (Eq.symm ht) hu)
  | apply f ts =>
    obtain ⟨g, us, rfl, name, -⟩ := termSubsume_apply h
    obtain rfl := symbols _ (self_mem_compared _) _ (self_mem_compared _) f g rfl rfl name
    obtain ⟨domain, sort, -⟩ := ht
    obtain ⟨domain', sort', -⟩ := hu
    exact (LSort.function.inj (sort.symm.trans sort')).2
  | _ =>
    obtain ⟨rfl, -⟩ := termSubsume_compound rfl h
    exact LSort.first.inj (ht.nodeSort.symm.trans hu.nodeSort)

end Terms

section Literals

variable {D : Domain} {M : Structure D} {env : Env D} {bs bs' bs'' : List (String × Expr)} {lit lit' lit1 lit2 : LogicLiteral}

/-- What `Unambiguous` says about a pair of literals. -/
structure Comparable (lit1 lit2 : LogicLiteral) : Prop where
  sorted1 : lit1.atom.OfSort .boolean
  sorted2 : lit2.atom.OfSort .boolean
  symbols : SameSymbols (literalCompared lit1) (literalCompared lit2)
  named1 : ∀ f, headSymbol lit1.atom = some f → f.name ≠ "="
  named2 : ∀ f, headSymbol lit2.atom = some f → f.name ≠ "="
  equalSorts : lit1.polarity = lit2.polarity → ∀ v w a b, lit1.atom = .eq (.var v) (.var w) → lit2.atom = .eq a b → a.OfSort v.sort

theorem Unambiguous.comparable {cl1 cl2 : List LogicLiteral} (h : Unambiguous cl1 cl2) (mem1 : lit1 ∈ cl1) (mem2 : lit2 ∈ cl2) :
    Comparable lit1 lit2 where
  sorted1 := h.sorted lit1 (List.mem_append_left _ mem1)
  sorted2 := h.sorted lit2 (List.mem_append_right _ mem2)
  symbols := h.symbols lit1 mem1 lit2 mem2
  named1 := h.equality lit1 (List.mem_append_left _ mem1)
  named2 := h.equality lit2 (List.mem_append_right _ mem2)
  equalSorts := h.equalSorts lit1 mem1 lit2 mem2

theorem eq_of_appRepName {e : Expr} (named : ∀ f, headSymbol e = some f → f.name ≠ "=") (h : appRepName e = some "=") :
    ∃ a b, e = .eq a b := by
  cases e with
  | eq a b => exact ⟨a, b, rfl⟩
  | const c | apply c => exact absurd (Option.some.inj h) (named c rfl)
  | _ => cases h

theorem commutes_spec (named : ∀ f, headSymbol lit2.atom = some f → f.name ≠ "=") (h : commutes lit lit2 = true) :
    lit.polarity = lit2.polarity ∧ ∃ a b, lit2.atom = .eq a b ∧ commuteLit lit2 = some ⟨lit2.polarity, .eq b a⟩ := by
  rw [commutes, decide_eq_true_eq] at h
  obtain ⟨a, b, atom⟩ := eq_of_appRepName named h.2.2.1
  exact ⟨h.1, a, b, atom, by simp only [commuteLit, atom]⟩

theorem ofSort_eq {a b : Expr} {s : FSort} (h : (Expr.eq a b).OfSort s) : ∃ t, a.OfSort t ∧ b.OfSort t := h.2

/-- Exchanging the sides of an equality changes nothing for the comparison. -/
theorem Comparable.commute (h : Comparable lit1 lit2) {a b : Expr} (atom : lit2.atom = .eq a b) :
    Comparable lit1 ⟨lit2.polarity, .eq b a⟩ := by
  obtain ⟨polarity, atom2⟩ := lit2
  obtain rfl : atom2 = .eq a b := atom
  obtain ⟨s, ha, hb⟩ := ofSort_eq h.sorted2
  refine ⟨h.sorted1, ⟨rfl, s, hb, ha⟩, h.symbols.mono (List.Subset.refl _) fun t ht => ?_, h.named1, (fun f hf => by cases hf), ?_⟩
  · exact List.mem_append.mpr (List.mem_append.mp ht).symm
  · rintro same v w c d eq swapped
    obtain ⟨rfl, rfl⟩ := Expr.eq.inj swapped
    have := h.equalSorts same v w a b eq rfl
    rwa [show s = v.sort from LSort.first.inj (ha.nodeSort.symm.trans this.nodeSort)] at hb

theorem litSubsume_spec (h : litSubsume lit1 lit2 bs = some bs') :
    lit1.polarity = lit2.polarity ∧ ∃ rep, appRepName lit1.atom = some rep ∧ appRepName lit2.atom = some rep ∧
      (nodeArgs lit1.atom).length = (nodeArgs lit2.atom).length ∧ termsSubsume (nodeArgs lit1.atom) (nodeArgs lit2.atom) bs = some bs' := by
  unfold litSubsume at h
  split at h
  · contradiction
  · rename_i polarity
    split at h
    · rename_i rep1 rep2 found1 found2
      simp only at h
      split at h
      · rename_i same
        exact ⟨not_not.mp polarity, rep1, found1, same.1 ▸ found2, same.2, h⟩
      · contradiction
    · contradiction

theorem comparedList_subset (h : appRepName lit.atom ≠ none) : comparedList (nodeArgs lit.atom) ⊆ literalCompared lit := by
  obtain ⟨polarity, atom⟩ := lit
  cases atom with
  | const => exact List.nil_subset _
  | apply => exact List.subset_cons_self _ _
  | eq a b => simp [nodeArgs, comparedList, literalCompared]
  | _ => exact absurd rfl h

theorem grown_litSubsume (h : litSubsume lit1 lit2 bs = some bs') : Grown (literalCompared lit1) bs bs' := by
  obtain ⟨-, rep, found, -, -, matched⟩ := litSubsume_spec h
  exact (grown_termsSubsume matched fun t _ u bs bs' => grown_termSubsume).mono (comparedList_subset (by simp [found]))

/-- The sides of two matched equalities have the same sort. -/
theorem sort_equality {a b c d : Expr} {s s' : FSort} (ha : a.OfSort s) (hb : b.OfSort s) (hc : c.OfSort s') (hd : d.OfSort s')
    (symbols : SameSymbols (compared a ++ compared b) (compared c ++ compared d))
    (equalSorts : ∀ v w, a = .var v → b = .var w → c.OfSort v.sort) (h : termsSubsume [a, b] [c, d] bs = some bs') : s = s' := by
  simp only [termsSubsume, Option.bind_eq_some_iff] at h
  obtain ⟨bs₁, first, bs₂, second, -⟩ := h
  by_cases left : ∃ v, a = .var v
  · by_cases right : ∃ w, b = .var w
    · obtain ⟨v, rfl⟩ := left
      obtain ⟨w, rfl⟩ := right
      have sort := equalSorts v w rfl rfl
      exact LSort.first.inj ((congrArg _ (Eq.symm ha)).trans (sort.nodeSort.symm.trans hc.nodeSort))
    · exact sort_termSubsume (not_exists.mp right) hb hd (symbols.mono (List.subset_append_right _ _) (List.subset_append_right _ _)) second
  · exact sort_termSubsume (not_exists.mp left) ha hc (symbols.mono (List.subset_append_left _ _) (List.subset_append_left _ _)) first

theorem eval_litSubsume (comparable : Comparable lit1 lit2) (h : litSubsume lit1 lit2 bs = some bs')
    (grown : ∀ n t, bs'.lookup n = some t → bs''.lookup n = some t) (settled : Settled (literalCompared lit1) bs'') :
    lit1.atom.eval M (instantiate M env bs'') = lit2.atom.eval M env := by
  obtain ⟨polarity, rep, found1, found2, -, matched⟩ := litSubsume_spec h
  have sub1 : comparedList (nodeArgs lit1.atom) ⊆ literalCompared lit1 := comparedList_subset (by simp [found1])
  have sub2 : comparedList (nodeArgs lit2.atom) ⊆ literalCompared lit2 := comparedList_subset (by simp [found2])
  have values : ∀ ss, OfSorts (nodeArgs lit1.atom) ss → OfSorts (nodeArgs lit2.atom) ss →
      evalList M (nodeArgs lit1.atom) (instantiate M env bs'') = evalList M (nodeArgs lit2.atom) env := fun ss h1 h2 =>
    eval_termsSubsume h1 h2 (comparable.symbols.mono sub1 sub2) matched grown (settled.mono sub1)
      fun t _ u s bs bs' ht hu symbols h grown settled => eval_termSubsume ht hu symbols h grown settled
  obtain ⟨polarity1, atom1⟩ := lit1
  obtain ⟨polarity2, atom2⟩ := lit2
  have head : ∀ f g, headSymbol atom1 = some f → headSymbol atom2 = some g → f.name = g.name → f = g := fun f g hf hg =>
    comparable.symbols atom1 (by cases atom1 <;> first | exact self_mem_compared _ | cases hf) atom2
      (by cases atom2 <;> first | exact self_mem_compared _ | cases hg) f g hf hg
  cases atom1 with
  | const c =>
    cases atom2 with
    | const d => rw [head c d rfl rfl (Option.some.inj (found1.trans found2.symm))]; rfl
    | apply g us =>
      obtain rfl := head c g rfl rfl (Option.some.inj (found1.trans found2.symm))
      obtain ⟨domain, sort, -⟩ := comparable.sorted2
      cases (comparable.sorted1 : c.sort = _).symm.trans sort
    | eq => exact absurd (Option.some.inj (found1.trans found2.symm)) (comparable.named1 c rfl)
    | _ => cases found2
  | apply f ts =>
    cases atom2 with
    | const d =>
      obtain rfl := head f d rfl rfl (Option.some.inj (found1.trans found2.symm))
      obtain ⟨domain, sort, -⟩ := comparable.sorted1
      cases (comparable.sorted2 : f.sort = _).symm.trans sort
    | apply g us =>
      obtain rfl := head f g rfl rfl (Option.some.inj (found1.trans found2.symm))
      obtain ⟨domain, sort, hts⟩ := comparable.sorted1
      obtain ⟨domain', sort', hus⟩ := comparable.sorted2
      obtain rfl : domain = domain' := (LSort.function.inj (sort.symm.trans sort')).1
      exact congrArg (M.value f) (values domain hts hus)
    | eq => exact absurd (Option.some.inj (found1.trans found2.symm)) (comparable.named1 f rfl)
    | _ => cases found2
  | eq a b =>
    cases atom2 with
    | const d | apply d => exact absurd (Option.some.inj (found2.trans found1.symm)) (comparable.named2 d rfl)
    | eq c d =>
      obtain ⟨s, ha, hb⟩ := ofSort_eq comparable.sorted1
      obtain ⟨s', hc, hd⟩ := ofSort_eq comparable.sorted2
      obtain rfl : s = s' := sort_equality ha hb hc hd comparable.symbols
        (fun v w left right => comparable.equalSorts polarity v w c d (by rw [left, right]) rfl) matched
      have sides := values [s, s] ⟨ha, hb, trivial⟩ ⟨hc, hd, trivial⟩
      simp only [nodeArgs, evalList, List.cons.injEq, and_true] at sides
      rw [Expr.eval, Expr.eval, sides.1, sides.2]
    | _ => cases found2
  | _ => cases found1

theorem holds_litSubsume (comparable : Comparable lit1 lit2) (h : litSubsume lit1 lit2 bs = some bs')
    (grown : ∀ n t, bs'.lookup n = some t → bs''.lookup n = some t) (settled : Settled (literalCompared lit1) bs'') :
    lit1.Holds M (instantiate M env bs'') ↔ lit2.Holds M env := by
  have polarity := (litSubsume_spec h).1
  have atoms := Expr.holds_congr M _ (@eval_litSubsume _ M env _ _ _ _ _ comparable h grown settled)
  rw [LogicLiteral.Holds, LogicLiteral.Holds, polarity]
  split
  · exact atoms
  · exact not_congr atoms

end Literals

section Search

variable {recur : List LogicLiteral → List (String × Expr) → Option Bool} {lit : LogicLiteral} {bs : List (String × Expr)}
  {before after cl1 cl2 : List LogicLiteral}

theorem subsumeWith_true {lit2 : LogicLiteral} {remaining : List LogicLiteral} (h : subsumeWith recur lit bs lit2 remaining = some true) :
    ∃ bs', litSubsume lit lit2 bs = some bs' ∧ recur remaining bs' = some true := by
  unfold subsumeWith at h
  split at h
  · rename_i bs' found
    exact ⟨bs', found, h⟩
  · cases h

/-- Some literal of `after` is matched, perhaps with its sides exchanged, and the rest in `pool`. -/
def Matches (recur : List LogicLiteral → List (String × Expr) → Option Bool) (lit : LogicLiteral) (bs : List (String × Expr))
    (pool after : List LogicLiteral) : Prop :=
  ∃ lit2 ∈ after, ∃ lit2', (lit2' = lit2 ∨ commutes lit lit2 = true ∧ commuteLit lit2 = some lit2') ∧
    ∃ remaining bs', remaining ⊆ pool ∧ litSubsume lit lit2' bs = some bs' ∧ recur remaining bs' = some true

theorem Matches.later {lit2 : LogicLiteral} {pool : List LogicLiteral} (h : Matches recur lit bs pool after) :
    Matches recur lit bs pool (lit2 :: after) := by
  obtain ⟨k, mem, h⟩ := h
  exact ⟨k, List.mem_cons_of_mem _ mem, h⟩

theorem append_subset_cons {α : Type} (as bs : List α) (b : α) : as ++ bs ⊆ as ++ b :: bs :=
  List.append_subset.mpr ⟨List.subset_append_left _ _, List.Subset.trans (List.subset_cons_self _ _) (List.subset_append_right _ _)⟩

theorem subsumeLoop_true (h : subsumeLoop recur lit bs before after = some true) : Matches recur lit bs (before ++ after) after := by
  induction after generalizing before with
  | nil => cases h
  | cons lit2 after ih =>
    have later (h : subsumeLoop recur lit bs (before ++ [lit2]) after = some true) :
        Matches recur lit bs (before ++ lit2 :: after) (lit2 :: after) := by
      have := ih h
      rw [List.append_assoc] at this
      exact this.later
    rw [subsumeLoop] at h
    simp only [Option.bind_eq_bind, Option.bind_eq_some_iff, Option.pure_def] at h
    obtain ⟨direct, hdirect, h⟩ := h
    cases direct with
    | true =>
      obtain ⟨bs', found, success⟩ := subsumeWith_true hdirect
      exact ⟨lit2, List.mem_cons_self, lit2, .inl rfl, before ++ after, bs', append_subset_cons _ _ _, found, success⟩
    | false =>
      simp only [Bool.false_eq_true, if_false] at h
      split at h
      · rename_i commuted
        simp only [Option.bind_eq_some_iff] at h
        obtain ⟨lit2', hcommute, exchanged, hexchanged, h⟩ := h
        cases exchanged with
        | true =>
          obtain ⟨bs', found, success⟩ := subsumeWith_true hexchanged
          exact ⟨lit2, List.mem_cons_self, lit2', .inr ⟨commuted, hcommute⟩, before ++ after, bs', append_subset_cons _ _ _, found, success⟩
        | false => exact later h
      · exact later h

theorem clauseSubsumeRecur_true (comparable : ∀ lit1 ∈ cl1, ∀ lit2 ∈ cl2, Comparable lit1 lit2)
    (h : clauseSubsumeRecur cl1 cl2 bs = some true) :
    ∃ bs', Grown (cl1.flatMap literalCompared) bs bs' ∧ ∀ {D : Domain} (M : Structure D) (env : Env D),
      Settled (cl1.flatMap literalCompared) bs' → ∀ lit1 ∈ cl1, ∃ lit2 ∈ cl2, (lit1.Holds M (instantiate M env bs') ↔ lit2.Holds M env) := by
  induction cl1 generalizing cl2 bs with
  | nil => exact ⟨bs, .refl _ _, fun _ _ _ _ h => absurd h List.not_mem_nil⟩
  | cons lit rest ih =>
    rw [clauseSubsumeRecur] at h
    obtain ⟨lit2, mem, lit2', exchanged, remaining, bs₁, sub, found, success⟩ := subsumeLoop_true h
    have sub : remaining ⊆ cl2 := sub
    rw [List.forall_mem_cons] at comparable
    obtain ⟨bs', grown, holds⟩ := ih (fun lit1 mem1 k hk => comparable.2 lit1 mem1 k (sub hk)) success
    refine ⟨bs', (grown_litSubsume found).trans grown, fun M env settled => ?_⟩
    have matched : ∃ lit2 ∈ cl2, (lit.Holds M (instantiate M env bs') ↔ lit2.Holds M env) := by
      have pair := comparable.1 lit2 mem
      have first : Settled (literalCompared lit) bs' := settled.mono (List.subset_append_left _ _)
      obtain rfl | ⟨commuted, eq⟩ := exchanged
      · exact ⟨lit2', mem, holds_litSubsume pair found grown.kept first⟩
      · obtain ⟨-, a, b, atom, eq'⟩ := commutes_spec pair.named2 commuted
        obtain rfl := Option.some.inj (eq.symm.trans eq')
        refine ⟨lit2, mem, (holds_litSubsume (pair.commute atom) found grown.kept first).trans ?_⟩
        simp only [LogicLiteral.Holds, atom, Expr.holds_eq, eq_comm]
    refine List.forall_mem_cons.mpr ⟨matched, fun lit1 mem1 => ?_⟩
    obtain ⟨k, hk, same⟩ := holds M env (settled.mono (List.subset_append_right _ _)) lit1 mem1
    exact ⟨k, sub hk, same⟩

/-- Without symbols named as the equality, the search never panics. -/
theorem clauseSubsumeRecur_isSome (named : ∀ lit ∈ cl2, ∀ f, headSymbol lit.atom = some f → f.name ≠ "=") :
    (clauseSubsumeRecur cl1 cl2 bs).isSome = true := by
  induction cl1 generalizing cl2 bs with
  | nil => rfl
  | cons lit rest ih =>
    have loop : ∀ before after, (∀ l ∈ before ++ after, ∀ f, headSymbol l.atom = some f → f.name ≠ "=") →
        (subsumeLoop (clauseSubsumeRecur rest) lit bs before after).isSome = true := by
      intro before after named
      induction after generalizing before with
      | nil => rfl
      | cons lit2 after tail =>
        have attempt : ∀ k, (subsumeWith (clauseSubsumeRecur rest) lit bs k (before ++ after)).isSome = true := by
          intro k
          unfold subsumeWith
          split
          · exact ih fun l hl => named l (by grind)
          · rfl
        have later := tail (before ++ [lit2]) fun l hl => named l (by grind)
        obtain ⟨direct, hdirect⟩ := Option.isSome_iff_exists.mp (attempt lit2)
        rw [subsumeLoop]
        simp only [Option.bind_eq_bind, hdirect, Option.bind_some, Option.pure_def]
        split
        · rfl
        · split
          · rename_i commuted
            obtain ⟨-, a, b, -, eq⟩ := commutes_spec (named lit2 (by grind)) commuted
            obtain ⟨exchanged, hexchanged⟩ := Option.isSome_iff_exists.mp (attempt ⟨lit2.polarity, .eq b a⟩)
            simp only [eq, Option.bind_some, hexchanged]
            split
            · rfl
            · exact later
          · exact later
    exact loop [] cl2 named

theorem Unambiguous.isSome (h : Unambiguous cl1 cl2) : ∃ b, clauseSubsume cl1 cl2 = some b :=
  Option.isSome_iff_exists.mp (clauseSubsumeRecur_isSome fun lit mem => h.equality lit (List.mem_append_right _ mem))

/-- Subsumption is sound where names are unambiguous. -/
theorem valid_of_clauseSubsume (unambiguous : Unambiguous cl1 cl2) (h : clauseSubsume cl1 cl2 = some true) {D : Domain} {M : Structure D}
    (valid : ClauseValid M cl1) : ClauseValid M cl2 := by
  obtain ⟨bs, grown, holds⟩ := clauseSubsumeRecur_true (fun lit1 mem1 lit2 mem2 => unambiguous.comparable mem1 mem2) h
  have settled : Settled (cl1.flatMap literalCompared) bs := by
    intro t ht compound v hv
    obtain ⟨lit1, mem1, ht⟩ := List.mem_flatMap.mp ht
    by_contra bound
    obtain ⟨u, found⟩ := Option.ne_none_iff_exists'.mp bound
    obtain missing | ⟨w, hw, name⟩ := grown.added _ _ found
    · cases missing
    · obtain ⟨lit, mem, hw⟩ := List.mem_flatMap.mp hw
      exact unambiguous.compound lit1 mem1 t ht compound v hv lit mem w hw name
  intro env
  obtain ⟨lit1, mem1, true1⟩ := valid (instantiate M env bs)
  obtain ⟨lit2, mem2, same⟩ := holds M env settled lit1 mem1
  exact ⟨lit2, mem2, same.mp true1⟩

end Search

section Reduction

variable {used unexplored clauses result : List (List LogicLiteral)} {cl : List LogicLiteral}

theorem subsume_true (h : subsume clauses cl = some true) : ∃ clp ∈ clauses, clauseSubsume clp cl = some true := by
  induction clauses with
  | nil => cases h
  | cons clp clauses ih =>
    simp only [subsume, Option.bind_eq_bind, Option.bind_eq_some_iff] at h
    obtain ⟨b, found, h⟩ := h
    cases b with
    | true => exact ⟨clp, List.mem_cons_self, found⟩
    | false =>
      obtain ⟨k, mem, found⟩ := ih h
      exact ⟨k, List.mem_cons_of_mem _ mem, found⟩

theorem subsume_false (h : subsume clauses cl = some false) : ∀ clp ∈ clauses, clauseSubsume clp cl = some false := by
  induction clauses with
  | nil => exact fun _ h => absurd h List.not_mem_nil
  | cons clp clauses ih =>
    simp only [subsume, Option.bind_eq_bind, Option.bind_eq_some_iff] at h
    obtain ⟨b, found, h⟩ := h
    cases b with
    | true => cases h
    | false => exact List.forall_mem_cons.mpr ⟨found, ih h⟩

theorem subsume_isSome (h : ∀ clp ∈ clauses, ∃ b, clauseSubsume clp cl = some b) : ∃ b, subsume clauses cl = some b := by
  induction clauses with
  | nil => exact ⟨false, rfl⟩
  | cons clp clauses ih =>
    rw [List.forall_mem_cons] at h
    obtain ⟨b, found⟩ := h.1
    cases b with
    | true => exact ⟨true, by simp [subsume, found]⟩
    | false =>
      obtain ⟨b, rest⟩ := ih h.2
      exact ⟨b, by simp [subsume, found, rest]⟩

/-- One round of the loop: the clause is subsumed by a clause that is kept or still to come, or it is kept. -/
theorem reduceClausesLoop_cons (h : reduceClausesLoop used (cl :: unexplored) = some result) :
    ((∃ clp ∈ used ++ unexplored, clauseSubsume clp cl = some true) ∧ reduceClausesLoop used unexplored = some result) ∨
      (∀ clp ∈ used ++ unexplored, clauseSubsume clp cl = some false) ∧ reduceClausesLoop (used ++ [cl]) unexplored = some result := by
  simp only [reduceClausesLoop, Option.bind_eq_bind, Option.bind_eq_some_iff] at h
  obtain ⟨b, byUsed, h⟩ := h
  cases b with
  | true =>
    obtain ⟨clp, mem, found⟩ := subsume_true byUsed
    exact .inl ⟨⟨clp, List.mem_append_left _ mem, found⟩, h⟩
  | false =>
    simp only [Bool.false_eq_true, if_false, Option.bind_eq_some_iff] at h
    obtain ⟨b, byLater, h⟩ := h
    cases b with
    | true =>
      obtain ⟨clp, mem, found⟩ := subsume_true byLater
      exact .inl ⟨⟨clp, List.mem_append_right _ mem, found⟩, h⟩
    | false =>
      refine .inr ⟨fun clp mem => ?_, h⟩
      obtain mem | mem := List.mem_append.mp mem
      · exact subsume_false byUsed clp mem
      · exact subsume_false byLater clp mem

theorem sublist_reduceClausesLoop (h : reduceClausesLoop used unexplored = some result) :
    ∃ kept, kept.Sublist unexplored ∧ result = used ++ kept := by
  induction unexplored generalizing used with
  | nil => exact ⟨[], .slnil, by simpa using (Option.some.inj h).symm⟩
  | cons cl unexplored ih =>
    obtain ⟨-, h⟩ | ⟨-, h⟩ := reduceClausesLoop_cons h
    · obtain ⟨kept, sub, eq⟩ := ih h
      exact ⟨kept, sub.cons _, eq⟩
    · obtain ⟨kept, sub, eq⟩ := ih h
      exact ⟨cl :: kept, sub.cons_cons _, by simpa using eq⟩

/-- Neither clause subsumes the other. -/
def Apart (cl1 cl2 : List LogicLiteral) : Prop := clauseSubsume cl1 cl2 = some false ∧ clauseSubsume cl2 cl1 = some false

theorem apart_reduceClausesLoop (h : reduceClausesLoop used unexplored = some result) (apart : used.Pairwise Apart)
    (later : ∀ kept ∈ used, ∀ cl ∈ unexplored, clauseSubsume cl kept = some false) : result.Pairwise Apart := by
  induction unexplored generalizing used with
  | nil => exact Option.some.inj h ▸ apart
  | cons cl unexplored ih =>
    obtain ⟨-, h⟩ | ⟨new, h⟩ := reduceClausesLoop_cons h
    · exact ih h apart fun kept mem k hk => later kept mem k (List.mem_cons_of_mem _ hk)
    · refine ih h (List.pairwise_append.mpr ⟨apart, List.pairwise_singleton _ _, fun kept mem k hk => ?_⟩) fun kept mem k hk => ?_
      · obtain rfl := List.mem_singleton.mp hk
        exact ⟨new kept (List.mem_append_left _ mem), later kept mem k List.mem_cons_self⟩
      · obtain mem | mem := List.mem_append.mp mem
        · exact later kept mem k (List.mem_cons_of_mem _ hk)
        · obtain rfl := List.mem_singleton.mp mem
          exact new k (List.mem_append_right _ hk)

theorem valid_reduceClausesLoop {D : Domain} {M : Structure D} (h : reduceClausesLoop used unexplored = some result)
    (sound : ∀ cl1 ∈ used ++ unexplored, ∀ cl2 ∈ used ++ unexplored, clauseSubsume cl1 cl2 = some true → ClauseValid M cl1 → ClauseValid M cl2)
    (valid : ∀ cl ∈ result, ClauseValid M cl) : ∀ cl ∈ used ++ unexplored, ClauseValid M cl := by
  induction unexplored generalizing used with
  | nil =>
    rw [List.append_nil]
    exact Option.some.inj h ▸ valid
  | cons cl unexplored ih =>
    obtain ⟨⟨clp, mem, found⟩, h⟩ | ⟨-, h⟩ := reduceClausesLoop_cons h
    · have sub := append_subset_cons used unexplored cl
      have others := ih h fun cl1 mem1 cl2 mem2 => sound cl1 (sub mem1) cl2 (sub mem2)
      intro k hk
      obtain hk | hk := List.mem_append.mp hk
      · exact others k (List.mem_append_left _ hk)
      · obtain rfl | hk := List.mem_cons.mp hk
        · exact sound clp (sub mem) k (by simp) found (others clp mem)
        · exact others k (List.mem_append_right _ hk)
    · have := ih h
      simp only [List.append_assoc, List.singleton_append] at this
      exact this sound

theorem reduceClausesLoop_isSome (total : ∀ cl1 ∈ used ++ unexplored, ∀ cl2 ∈ used ++ unexplored, ∃ b, clauseSubsume cl1 cl2 = some b) :
    ∃ result, reduceClausesLoop used unexplored = some result := by
  induction unexplored generalizing used with
  | nil => exact ⟨used, rfl⟩
  | cons cl unexplored ih =>
    obtain ⟨b, byUsed⟩ := subsume_isSome fun clp mem => total clp (List.mem_append_left _ mem) cl (by simp)
    obtain ⟨c, byLater⟩ := subsume_isSome fun clp mem => total clp (List.mem_append_right _ (List.mem_cons_of_mem _ mem)) cl (by simp)
    have sub := append_subset_cons used unexplored cl
    obtain ⟨dropped, hdropped⟩ := ih fun cl1 mem1 cl2 mem2 => total cl1 (sub mem1) cl2 (sub mem2)
    obtain ⟨kept, hkept⟩ := @ih (used ++ [cl]) fun cl1 mem1 cl2 mem2 => total cl1 (by simpa using mem1) cl2 (by simpa using mem2)
    simp only [reduceClausesLoop, byUsed, byLater, Option.bind_eq_bind, Option.bind_some]
    cases b with
    | true => exact ⟨dropped, hdropped⟩
    | false =>
      cases c with
      | true => exact ⟨dropped, hdropped⟩
      | false => exact ⟨kept, hkept⟩

end Reduction

section Overloading

/-- The overloaded relation holds of the elements of one sort only. -/
def overloaded (sort : String) : Structure Domain.unit := fun _ s _ =>
  El.ofBool (decide (s = .function [.uninterpreted sort] .boolean)) s.range

def relationAt (sort : String) : LogicLiteral :=
  ⟨true, .apply ⟨"p", .function [.uninterpreted sort] .boolean⟩ [.var ⟨"X", .uninterpreted sort⟩]⟩

theorem clauseValid_overloaded (sort s : String) : ClauseValid (overloaded sort) [relationAt s] ↔ s = sort := by
  have holds : ∀ env, (relationAt s).Holds (overloaded sort) env ↔ s = sort := by
    intro env
    simp only [relationAt, LogicLiteral.Holds, if_true, Expr.Holds, Expr.eval, evalList]
    rw [Structure.value_eq _ (by rfl), Val.Holds]
    simp only [overloaded, El.ofBool, LSort.range, LSort.function.injEq, List.cons.injEq, FSort.uninterpreted.injEq, and_true]
    constructor
    · intro h
      exact of_decide_eq_true (eq_of_heq (Sigma.mk.inj h).2)
    · rintro rfl
      simp
  simp only [ClauseValid, List.mem_singleton, exists_eq_left, holds]
  exact forall_const _

end Overloading

end Subsumption

end Goivy
