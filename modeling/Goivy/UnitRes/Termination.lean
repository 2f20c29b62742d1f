import Goivy.UnitRes.UnionFind
import Goivy.UnitRes.Meaning
import Mathlib.Data.Set.Card
import Mathlib.Data.Set.Finite.List

/-! The engine only makes literals over the terms and names that it is given, and never the
same unit twice, so propagation ends. -/
namespace Goivy

/-- The constants, sorts of variables and relation names of a set of clauses, and a bound on
the numbers of arguments. -/
structure ClauseVocabulary where
  consts : Finset Expr
  sorts : Finset FSort
  names : Finset String
  arity : Nat

namespace ClauseVocabulary

variable (V : ClauseVocabulary)

/-- A constant of the vocabulary, or a variable of one of its sorts. -/
def Term (t : Expr) : Prop :=
  (isVar t = false ∧ t ∈ V.consts) ∨ ∃ v : Variable, t = .var v ∧ v.sort ∈ V.sorts

structure Literal (l : UnitResLiteral) : Prop where
  name : l.atom.relName ∈ V.names
  arity : l.atom.args.length ≤ V.arity
  terms : ∀ t ∈ l.atom.args, V.Term t
  binary : l.Binary

def Clause (cl : UnitResClause) : Prop := ∀ l ∈ cl, V.Literal l

/-- What the inferences need beyond the clauses. -/
structure Complete : Prop where
  equality : "=" ∈ V.names
  arity : 2 ≤ V.arity
  tautLit : V.Literal tautLit
  consts : ∀ t ∈ V.consts, isVar t = false

variable {V}

theorem Literal.withArgs_map {l : UnitResLiteral} (h : V.Literal l) {f : Expr → Expr}
    (keeps : ∀ t ∈ l.atom.args, V.Term (f t)) : V.Literal (l.withArgs (l.atom.args.map f)) := by
  refine ⟨h.name, ?_, fun t ht => ?_, fun eq => ?_⟩
  · simpa [UnitResLiteral.withArgs] using h.arity
  · obtain ⟨u, hu, rfl⟩ := List.mem_map.mp ht
    exact keeps u hu
  · simpa [UnitResLiteral.withArgs] using h.binary eq

theorem Literal.swapArgs {l : UnitResLiteral} (h : V.Literal l) : V.Literal l.swapArgs := by
  unfold UnitResLiteral.swapArgs
  split
  · rename_i a b args
    refine ⟨h.name, ?_, fun t ht => h.terms t ?_, fun _ => rfl⟩
    · have := h.arity
      rwa [args] at this
    · rw [args]
      exact (List.Perm.swap a b []).mem_iff.mp ht
  · exact h

theorem Literal.substitute {l : UnitResLiteral} (h : V.Literal l) {σ : ResolutionEnv}
    (inside : ∀ x t, σ.lookup x = some t → V.Term t) : V.Literal (l.substitute σ) := by
  refine h.withArgs_map fun t ht => ?_
  rw [substTerm]
  split
  · cases found : σ.lookup t with
    | none => exact h.terms t ht
    | some u => exact inside t u found
  · exact h.terms t ht

theorem Literal.substituteConstants {l : UnitResLiteral} (h : V.Literal l) {a b : Expr}
    (inside : V.Term b) : V.Literal (l.substituteConstants [(a, b)]) := by
  refine h.withArgs_map fun t ht => ?_
  split
  · rw [InsMap.lookup_cons]
    split
    · exact inside
    · exact h.terms t ht
  · exact h.terms t ht

theorem Clause.unit {l : UnitResLiteral} : V.Clause [l] ↔ V.Literal l := by
  simp [Clause]

end ClauseVocabulary

theorem envFindFuel_inside {Q : Expr → Prop} {env : ResolutionEnv}
    (inside : ∀ x t, (x, t) ∈ env → Q t) (n : Nat) {t : Expr} (ht : Q t) :
    Q (envFindFuel env n t) := by
  induction n generalizing t with
  | zero => simpa [envFindFuel] using ht
  | succ n ih =>
    cases t with
    | var v =>
      cases found : env.lookup (.var v) with
      | none => simpa only [envFindFuel, found] using ht
      | some u =>
        simp only [envFindFuel, found]
        exact ih (inside _ _ (lookup_env_mem found))
    | _ => exact ht

/-- Unification builds its map and its equalities from the given terms. -/
theorem unifyTerms_inside {Q : Expr → Prop} {env env' : ResolutionEnv} {eqs eqs' : List ResolutionAtom}
    {t1 t2 : Expr} (h1 : Q t1) (h2 : Q t2) (inside : ∀ x t, (x, t) ∈ env → Q t)
    (given : ∀ a ∈ eqs, ∃ x y, a = equalityAtom x y ∧ Q x ∧ Q y)
    (h : unifyTerms env eqs t1 t2 = some (env', eqs')) :
    (∀ x t, (x, t) ∈ env' → Q t) ∧ ∀ a ∈ eqs', ∃ x y, a = equalityAtom x y ∧ Q x ∧ Q y := by
  have q1 : Q (envFind env t1) := envFindFuel_inside inside _ h1
  have q2 : Q (envFind env t2) := envFindFuel_inside inside _ h2
  have cons : ∀ {k t : Expr}, Q t → ∀ x u, (x, u) ∈ (k, t) :: env → Q u := by
    intro k t ht x u hu
    obtain h | h := List.mem_cons.mp hu
    · cases h
      exact ht
    · exact inside x u h
  unfold unifyTerms at h
  split at h
  · cases h
  · simp only at h
    split at h
    · split at h
      · cases h
        refine ⟨inside, fun a ha => ?_⟩
        split at ha
        · obtain ha | ha := List.mem_append.mp ha
          · exact given a ha
          · exact ⟨_, _, List.mem_singleton.mp ha, q1, q2⟩
        · exact given a ha
      · cases h
        exact ⟨cons q1, given⟩
    · split at h
      · cases h
        exact ⟨cons q2, given⟩
      · cases h
        exact ⟨inside, given⟩

theorem unifyLists_inside {Q : Expr → Prop} {env env' : ResolutionEnv} {eqs eqs' : List ResolutionAtom}
    {ts us : List Expr} (h1 : ∀ t ∈ ts, Q t) (h2 : ∀ u ∈ us, Q u)
    (inside : ∀ x t, (x, t) ∈ env → Q t)
    (given : ∀ a ∈ eqs, ∃ x y, a = equalityAtom x y ∧ Q x ∧ Q y)
    (h : unifyLists env eqs ts us = some (env', eqs')) :
    (∀ x t, (x, t) ∈ env' → Q t) ∧ ∀ a ∈ eqs', ∃ x y, a = equalityAtom x y ∧ Q x ∧ Q y := by
  induction ts generalizing us env eqs with
  | nil =>
    cases us with
    | nil =>
      cases h
      exact ⟨inside, given⟩
    | cons u us => cases h
  | cons t ts ih =>
    cases us with
    | nil => cases h
    | cons u us =>
      rw [List.forall_mem_cons] at h1 h2
      rw [unifyLists, Option.bind_eq_some_iff] at h
      obtain ⟨⟨env₁, eqs₁⟩, first, rest⟩ := h
      obtain ⟨inside₁, given₁⟩ := unifyTerms_inside h1.1 h2.1 inside given first
      exact ih h1.2 h2.2 inside₁ given₁ rest

theorem mguEq_inside {Q : Expr → Prop} {a b : ResolutionAtom} {subs : ResolutionEnv}
    {eqs : List ResolutionAtom} (h1 : ∀ t ∈ a.args, Q t) (h2 : ∀ t ∈ b.args, Q t)
    (h : mguEq a b = some (subs, eqs)) :
    (∀ x t, subs.lookup x = some t → Q t) ∧ ∀ e ∈ eqs, ∃ x y, e = equalityAtom x y ∧ Q x ∧ Q y := by
  unfold mguEq at h
  split at h
  · cases h
  · rw [termsMGUEq, Option.map_eq_some_iff] at h
    obtain ⟨⟨env, eqs'⟩, unified, result⟩ := h
    cases result
    obtain ⟨inside, given⟩ := unifyLists_inside h1 h2 (fun _ _ h => absurd h List.not_mem_nil)
      (fun _ h => absurd h List.not_mem_nil) unified
    refine ⟨fun x t ht => ?_, given⟩
    obtain ⟨p, hp, eq⟩ := List.mem_map.mp (lookup_env_mem ht)
    cases eq
    exact envFindFuel_inside inside _ (inside p.1 p.2 hp)

namespace ClauseVocabulary

variable {V : ClauseVocabulary}

theorem term_of_const {t : Expr} (ht : V.Term t) (const : isVar t = false) : t ∈ V.consts := by
  obtain h | ⟨v, rfl, -⟩ := ht
  · exact h.2
  · cases const

/-- Canonical variables have the names of positions and the old sorts. -/
theorem canonize_literal (base : String) {l : UnitResLiteral} (h : V.Literal l) :
    V.Literal (canonizeLiteral base l) ∧
      ∀ v, Expr.var v ∈ (canonizeLiteral base l).atom.args → ∃ j < V.arity, v.name = base ++ toString j := by
  obtain ⟨σ, names, -, bound, result⟩ := canonizeTerms_spec base 0 [] l.atom.args
    ⟨fun _ _ h => absurd h List.not_mem_nil, fun _ _ _ h => absurd h List.not_mem_nil⟩
  have renamed : canonizeLiteral base l = l.substitute σ := by
    rw [canonizeLiteral, result]
    rfl
  rw [renamed]
  constructor
  · refine h.withArgs_map fun t ht => ?_
    rw [substTerm]
    split
    · cases found : σ.lookup t with
      | none => exact h.terms t ht
      | some u =>
        obtain ⟨v, j, rfl, rfl, -⟩ := names.entries _ _ (lookup_env_mem found)
        obtain ⟨const, -⟩ | ⟨w, eq, sort⟩ := h.terms _ ht
        · cases const
        · cases eq
          exact .inr ⟨_, rfl, sort⟩
    · exact h.terms t ht
  · intro v hv
    obtain ⟨t, ht, eq⟩ := List.mem_map.mp hv
    rw [substTerm] at eq
    split at eq
    · rename_i var
      cases t with
      | var w =>
        obtain ⟨u, found⟩ := bound w ht
        rw [found] at eq
        obtain ⟨_, j, -, rfl, lt⟩ := names.entries _ _ (lookup_env_mem found)
        cases eq
        have := h.arity
        exact ⟨j, by omega, rfl⟩
      | _ => cases var
    · rename_i notVar
      rw [eq] at notVar
      exact absurd rfl notVar

/-- The unit literals that the engine can make. -/
def units (V : ClauseVocabulary) : Set UnitResLiteral :=
  {l | V.Literal l ∧ ∀ v, Expr.var v ∈ l.atom.args → ∃ j < V.arity, v.name = "V" ++ toString j}

theorem units_finite (V : ClauseVocabulary) : V.units.Finite := by
  -- the terms that can be arguments
  let terms : Set Expr := ↑V.consts ∪ (fun p : Nat × FSort => Expr.var ⟨"V" ++ toString p.1, p.2⟩) ''
    (↑(Finset.range V.arity) ×ˢ ↑V.sorts)
  have finite : terms.Finite :=
    (Finset.finite_toSet _).union (((Finset.finite_toSet _).prod (Finset.finite_toSet _)).image _)
  have : Finite terms := finite
  let make : Bool × String × List terms → UnitResLiteral := fun p =>
    ⟨p.1, ⟨p.2.1, p.2.2.map Subtype.val⟩⟩
  have domain : (Set.univ ×ˢ (↑V.names ×ˢ {ts : List terms | ts.length ≤ V.arity}) :
      Set (Bool × String × List terms)).Finite :=
    Set.finite_univ.prod ((Finset.finite_toSet _).prod (List.finite_length_le terms V.arity))
  refine (domain.image make).subset ?_
  rintro ⟨p, name, args⟩ ⟨literal, canonical⟩
  have inside : ∀ t ∈ args, t ∈ terms := by
    intro t ht
    obtain ⟨-, const⟩ | ⟨v, rfl, sort⟩ := literal.terms t ht
    · exact .inl const
    · obtain ⟨j, lt, eq⟩ := canonical v ht
      refine .inr ⟨(j, v.sort), ⟨by simpa using lt, sort⟩, ?_⟩
      simp only [← eq]
  refine ⟨(p, name, args.attach.map fun t => ⟨t.1, inside t.1 t.2⟩), ⟨trivial, literal.name, ?_⟩, ?_⟩
  · simpa using literal.arity
  · simp only [make, List.map_map, Function.comp_def, List.attach_map_subtype_val]

end ClauseVocabulary

namespace UnitRes

/-- The engine is about the vocabulary, and its units are distinct and indexed. -/
structure Bounded (V : ClauseVocabulary) (ur : UnitRes) : Prop where
  units : ∀ l ∈ ur.unitQueue, l ∈ V.units
  distinct : ur.unitQueue.Nodup
  indexed : ∀ i l, ur.unitQueue[i]? = some l → i ∈ ur.index.units l.path ∧ l.path ∈ ur.index.nodes
  clauses : ∀ cl ∈ ur.clauses, V.Clause cl
  forest : ur.equationalTheory.Forest V.consts

variable {V : ClauseVocabulary}

theorem Bounded.findTerm (complete : V.Complete) {ur : UnitRes} (bounded : ur.Bounded V) {t : Expr}
    (ht : V.Term t) (const : isVar t = false) :
    V.Term (ur.findTerm t) ∧ isVar (ur.findTerm t) = false := by
  have found : ur.findTerm t ∈ V.consts :=
    bounded.forest.find (ClauseVocabulary.term_of_const ht const)
  exact ⟨.inl ⟨complete.consts _ found, found⟩, complete.consts _ found⟩

theorem Bounded.litRep (complete : V.Complete) {ur : UnitRes} (bounded : ur.Bounded V)
    {l : UnitResLiteral} (h : V.Literal l) :
    V.Literal (ur.litRep l) ∧ ∀ v, Expr.var v ∈ (ur.litRep l).atom.args → Expr.var v ∈ l.atom.args := by
  constructor
  · refine h.withArgs_map fun t ht => ?_
    split
    · exact h.terms t ht
    · rename_i const
      exact (bounded.findTerm complete (h.terms t ht) (by simpa using const)).1
  · intro v hv
    obtain ⟨t, ht, eq⟩ := List.mem_map.mp hv
    split at eq
    · exact eq ▸ ht
    · rename_i const
      have := (bounded.findTerm complete (h.terms t ht) (by simpa using const)).2
      rw [eq] at this
      cases this

theorem rewriteOf_inside {l : UnitResLiteral} (h : V.Literal l) {v t : Expr} (found : rewriteOf l = some (v, t)) : V.Term t := by
  unfold rewriteOf at found
  split at found
  · rename_i a b _ args
    split at found
    · cases found
      exact h.terms _ (by simp [args])
    · split at found
      · cases found
        exact h.terms _ (by simp [args])
      · cases found
  · cases found

theorem simplifyClause_inside (complete : V.Complete) {cl : UnitResClause} (h : V.Clause cl) :
    V.Clause (simplifyClause cl) := by
  obtain ⟨rewritten, inside, eq⟩ := simplifyClause_cases (P := V.Clause) h (by
    intro l hl v t found cl' kept k hk
    obtain ⟨k', hk', rfl⟩ := List.mem_map.mp hk
    refine (kept k' hk').substitute fun x u hu => ?_
    rw [InsMap.lookup_cons] at hu
    split at hu
    · cases hu
      exact rewriteOf_inside (h l hl) found
    · cases hu)
  rw [eq]
  split
  · exact ClauseVocabulary.Clause.unit.mpr complete.tautLit
  · exact fun l hl => inside l (mem_removeDuplicatesAndVac.mp hl).1

theorem added_inside {cl cl' : UnitResClause} (h : V.Clause cl) (hcl' : cl' ∈ addedClauses cl) :
    V.Clause cl' := by
  have transitivity : ∀ {lhs rhs : UnitResLiteral}, V.Literal lhs → V.Literal rhs →
      ∀ c ∈ transitivityClauses lhs rhs, V.Clause c := by
    intro lhs rhs hl hr c hc
    unfold transitivityClauses at hc
    split at hc
    · rename_i a b args
      split at hc
      · obtain ⟨k, hk, rfl⟩ := List.mem_map.mp hc
        have new : V.Literal k := by
          obtain rfl | rfl := List.mem_pair.mp (List.mem_of_mem_filter hk)
          · exact hr.substituteConstants (hl.terms b (by simp [args]))
          · exact hr.substituteConstants (hl.terms a (by simp [args]))
        exact List.forall_mem_cons.mpr ⟨hl, ClauseVocabulary.Clause.unit.mpr new⟩
      · exact absurd hc List.not_mem_nil
    · exact absurd hc List.not_mem_nil
  obtain rfl | hcl' := List.mem_cons.mp hcl'
  · exact h
  · split at hcl'
    · rename_i l1 l2 _
      have h1 := h l1 List.mem_cons_self
      have h2 := h l2 (List.mem_cons_of_mem _ List.mem_cons_self)
      split at hcl'
      · obtain fwd | bwd := List.mem_append.mp hcl'
        · exact transitivity h1 h2 _ fwd
        · exact transitivity h2 h1 _ bwd
      · exact absurd hcl' List.not_mem_nil
    · exact absurd hcl' List.not_mem_nil

theorem disequalities_inside (complete : V.Complete) {eqs : List ResolutionAtom}
    (given : ∀ e ∈ eqs, ∃ x y, e = equalityAtom x y ∧ V.Term x ∧ V.Term y) :
    V.Clause (disequalities eqs) := by
  intro l hl
  obtain ⟨e, he, rfl⟩ := List.mem_map.mp hl
  obtain ⟨x, y, rfl, hx, hy⟩ := given e he
  exact ⟨complete.equality, complete.arity, by simp [equalityAtom, hx, hy], fun _ => rfl⟩

theorem litSubsume_refl (l : UnitResLiteral) : litSubsume l l = true := by
  have terms : ∀ (ts : List Expr) (env : ResolutionEnv), (∀ x y, env.lookup x = some y → y = x) →
      (termsSubsume ts ts env).isSome = true := by
    intro ts
    induction ts with
    | nil => exact fun _ _ => rfl
    | cons t ts ih =>
      intro env same
      have step : ∃ env', termSubsume t t env = some env' ∧ ∀ x y, env'.lookup x = some y → y = x := by
        unfold termSubsume
        split
        · rename_i const
          exact ⟨env, by simp [const], same⟩
        · split
          · rename_i prev found
            exact ⟨env, by rw [if_pos (same _ _ found)], same⟩
          · refine ⟨_, rfl, fun x y h => ?_⟩
            rw [InsMap.lookup_cons] at h
            split at h
            · rename_i eq
              cases h
              exact eq.symm
            · exact same x y h
      obtain ⟨env', first, same'⟩ := step
      rw [termsSubsume, first, Option.bind_some]
      exact ih env' same'
  simp [litSubsume, atomSubsume, terms l.atom.args [] (fun _ _ h => by cases h)]

theorem anySubsumes_false {ur : UnitRes} {l : UnitResLiteral} {is : List Nat}
    (h : ur.anySubsumes l is = .ok false) :
    ∀ i ∈ is, ∀ u, ur.unitQueue[i]? = some u → litSubsume (ur.litRep u) (ur.litRep l) = false := by
  induction is with
  | nil => exact fun i hi => absurd hi List.not_mem_nil
  | cons i is ih =>
    unfold anySubsumes at h
    split at h
    · cases h
    · rename_i u hu
      split at h
      · cases h
      · rename_i no
        refine List.forall_mem_cons.mpr ⟨fun w hw => ?_, ih h⟩
        rw [hu] at hw
        cases hw
        simpa using no

/-- A unit that is not subsumed is new. -/
theorem not_mem_of_unitSubsumed {order : IterationOrder} {ur : UnitRes} (bounded : ur.Bounded V)
    {l : UnitResLiteral} (h : ur.unitSubsumed order l = .ok false) : l ∉ ur.unitQueue := by
  intro mem
  obtain ⟨i, hi⟩ := List.mem_iff_getElem?.mp mem
  obtain ⟨inUnits, inNodes⟩ := bounded.indexed i l hi
  have basic : ur.unitSubsumedBasic order l = .ok false := by
    unfold unitSubsumed at h
    cases first : ur.unitSubsumedBasic order l with
    | error e =>
      rw [first] at h
      cases h
    | ok found =>
      cases found with
      | false => rfl
      | true =>
        rw [first] at h
        cases h
  have accepted : (l.atom.args.zip l.path.keys).all (fun q => ur.subsumingKey q.1 q.2) = true := by
    rw [List.all_eq_true]
    intro q hq
    have : q.2 = if isVar q.1 then none else some q.1 := by
      obtain ⟨k, hk, eq⟩ := List.mem_iff_getElem.mp hq
      rw [← eq]
      simp [UnitResLiteral.path]
    rw [subsumingKey, this]
    cases isVar q.1 <;> simp [groundMatch]
  have found : l.path ∈ ur.findSubsuming order l := by
    refine (order.perm ..).mem_iff.mpr (List.mem_filter.mpr ⟨inNodes, ?_⟩)
    simp only [Bool.and_eq_true, decide_eq_true_eq]
    exact ⟨⟨⟨rfl, rfl⟩, by simp [UnitResLiteral.path]⟩, accepted⟩
  have := anySubsumes_false basic i (List.mem_flatMap.mpr ⟨_, found, inUnits⟩) l hi
  rw [litSubsume_refl] at this
  cases this

theorem nodes_create (idx : Index) (p : IndexPath) :
    p ∈ (idx.create p).nodes ∧ ∀ q ∈ idx.nodes, q ∈ (idx.create p).nodes := by
  simp only [Index.create, List.mem_append, List.mem_filter, List.mem_map, List.mem_inits]
  refine ⟨?_, fun q hq => .inl hq⟩
  by_cases old : p ∈ idx.nodes
  · exact .inl old
  · exact .inr ⟨⟨p.keys, List.prefix_rfl, rfl⟩, by simpa using old⟩

theorem reindex_nodes (ur : UnitRes) (i : Nat) (cl : UnitResClause) :
    ∀ q ∈ ur.index.nodes, q ∈ (ur.reindex i cl).index.nodes := by
  unfold reindex
  generalize cl.zipIdx = ps
  generalize ur.index = idx
  induction ps generalizing idx with
  | nil => exact fun _ h => h
  | cons p ps ih => exact fun q hq => ih _ q ((nodes_create idx _).2 q hq)

theorem deindex_nodes (ur : UnitRes) (i : Nat) (cl : UnitResClause) :
    ∀ q ∈ ur.index.nodes, q ∈ (ur.deindex i cl).index.nodes := by
  unfold deindex
  generalize ur.index = idx
  induction cl generalizing idx with
  | nil => exact fun _ h => h
  | cons p ps ih => exact fun q hq => ih _ q ((nodes_create idx _).2 q hq)

theorem Bounded.appendUnit (complete : V.Complete) {order : IterationOrder} {ur : UnitRes}
    (bounded : ur.Bounded V) {l : UnitResLiteral} (h : V.Literal l)
    (new : ur.unitSubsumed order (ur.litRep (canonizeLiteral "V" l)) = .ok false) :
    (ur.appendUnit (ur.litRep (canonizeLiteral "V" l))).Bounded V := by
  obtain ⟨literal, canonical⟩ := ClauseVocabulary.canonize_literal "V" h
  obtain ⟨literal', sub⟩ := bounded.litRep complete literal
  have fresh := not_mem_of_unitSubsumed bounded new
  generalize ur.litRep (canonizeLiteral "V" l) = k at literal' sub fresh
  refine ⟨fun x hx => ?_, ?_, fun i x hx => ?_, bounded.clauses, bounded.forest⟩
  · obtain hx | hx := List.mem_append.mp hx
    · exact bounded.units x hx
    · rw [List.mem_singleton.mp hx]
      exact ⟨literal', fun v hv => canonical v (sub v hv)⟩
  · refine List.nodup_append.mpr ⟨bounded.distinct, List.nodup_singleton k, ?_⟩
    rintro x hx y hy rfl
    exact fresh (List.mem_singleton.mp hy ▸ hx)
  · simp only [UnitRes.appendUnit, Index.addUnit] at hx ⊢
    rw [Function.update_apply]
    obtain lt | ge := Nat.lt_or_ge i ur.unitQueue.length
    · rw [List.getElem?_append_left lt] at hx
      obtain ⟨inUnits, inNodes⟩ := bounded.indexed i x hx
      refine ⟨?_, (nodes_create _ _).2 _ inNodes⟩
      split
      · rename_i same
        exact List.mem_append_left _ (same ▸ inUnits)
      · exact inUnits
    · rw [List.getElem?_append_right ge, List.getElem?_singleton] at hx
      split at hx
      · rename_i here
        obtain rfl := Option.some.inj hx
        have last : i = ur.unitQueue.length := by omega
        rw [if_pos rfl]
        exact ⟨List.mem_append_right _ (by simp [last]), (nodes_create _ _).1⟩
      · cases hx

/-- The engine stays inside its vocabulary. -/
theorem bounded_inferences (complete : V.Complete) (order : IterationOrder) :
    Inferences order False V.Clause (Bounded V) (CongClos.room V.consts) where
  unit ur bounded l hl := ClauseVocabulary.Clause.unit.mpr (bounded.units l hl).1
  clause ur bounded := bounded.clauses
  setUnsat ur bounded _ :=
    ⟨bounded.units, bounded.distinct, bounded.indexed, bounded.clauses, bounded.forest⟩
  appendUnit ur bounded l h new :=
    bounded.appendUnit complete (ClauseVocabulary.Clause.unit.mp h) new
  appendClause ur bounded cl h := by
    refine ⟨bounded.units, bounded.distinct, fun i l hl => ?_, fun k hk => ?_, bounded.forest⟩
    · obtain ⟨inUnits, inNodes⟩ := bounded.indexed i l hl
      exact ⟨(reindex_units _ _ _ _).symm ▸ inUnits, reindex_nodes _ _ _ _ inNodes⟩
    · obtain hk | hk := List.mem_append.mp hk
      · exact bounded.clauses k hk
      · exact List.mem_singleton.mp hk ▸ h
  deindex ur bounded i cl subsumed := by
    refine ⟨bounded.units, bounded.distinct, fun j l hl => ?_, bounded.clauses, bounded.forest⟩
    obtain ⟨inUnits, inNodes⟩ := bounded.indexed j l hl
    exact ⟨(deindex_units ur i cl _).symm ▸ inUnits, deindex_nodes ur i cl _ inNodes⟩
  bookkeeping ur bounded _ _ _ :=
    ⟨bounded.units, bounded.distinct, bounded.indexed, bounded.clauses, bounded.forest⟩
  union ur bounded a b h constA constB := by
    have literal := ClauseVocabulary.Clause.unit.mp h
    have notVar : ∀ t : Expr, isConst t = true → isVar t = false := by
      intro t ht
      cases t with
      | var v => cases ht
      | _ => rfl
    have inConsts : ∀ t ∈ [a, b], isConst t = true → t ∈ V.consts := fun t ht const =>
      ClauseVocabulary.term_of_const (literal.terms t ht) (notVar t const)
    obtain ⟨forest, le, lt⟩ := bounded.forest.union (inConsts a (by simp) constA)
      (inConsts b (by simp) constB)
    exact ⟨⟨bounded.units, bounded.distinct, bounded.indexed, bounded.clauses, forest⟩, le,
      fun changed => .inr (lt changed)⟩
  binary cl h l hl := (h l hl).binary
  canonize base l h := ClauseVocabulary.Clause.unit.mpr
    (ClauseVocabulary.canonize_literal base (ClauseVocabulary.Clause.unit.mp h)).1
  litRep ur bounded l h := ClauseVocabulary.Clause.unit.mpr
    (bounded.litRep complete (ClauseVocabulary.Clause.unit.mp h)).1
  swap l h _ := ClauseVocabulary.Clause.unit.mpr (ClauseVocabulary.Clause.unit.mp h).swapArgs
  added cl h cl' hcl' := added_inside h hcl'
  rewrite a b l eq h := by
    have sides := (ClauseVocabulary.Clause.unit.mp eq).terms
    have literal := ClauseVocabulary.Clause.unit.mp h
    exact ⟨ClauseVocabulary.Clause.unit.mpr (literal.substituteConstants (sides b (by simp [equalityAtom]))),
      ClauseVocabulary.Clause.unit.mpr (literal.substituteConstants (sides a (by simp [equalityAtom])))⟩
  resolve ur bounded lit cl j l subs eqs hlit hcl hl _ unified := by
    have rep := bounded.litRep complete (hcl l (List.mem_of_getElem? hl))
    obtain ⟨inside, given⟩ := mguEq_inside (ClauseVocabulary.Clause.unit.mp hlit).terms rep.1.terms unified
    refine simplifyClause_inside complete fun k hk => ?_
    obtain hk | hk := List.mem_append.mp hk
    · obtain ⟨k', hk', rfl⟩ := List.mem_map.mp hk
      exact (hcl k' (List.mem_of_mem_eraseIdx hk')).substitute inside
    · exact disequalities_inside complete given k hk
  resolveUnits ur bounded lit l subs eqs hlit hl _ unified := by
    have rep := bounded.litRep complete (ClauseVocabulary.Clause.unit.mp hl)
    obtain ⟨-, given⟩ := mguEq_inside (ClauseVocabulary.Clause.unit.mp hlit).terms rep.1.terms unified
    exact disequalities_inside complete given

theorem Bounded.length {ur : UnitRes} (bounded : ur.Bounded V) :
    ur.unitQueue.length ≤ V.units.ncard := by
  classical
  rw [← List.toFinset_card_of_nodup bounded.distinct, ← Set.ncard_coe_finset]
  exact Set.ncard_le_ncard (fun l hl => bounded.units l (by simpa using hl)) V.units_finite

theorem empty_bounded : (empty : UnitRes).Bounded V :=
  ⟨fun _ h => absurd h List.not_mem_nil, List.nodup_nil, fun i l h => by simp [empty] at h,
    fun _ h => absurd h List.not_mem_nil, CongClos.new_forest⟩

end UnitRes

/-- All that occurs in some clauses. -/
def clauseVocabulary (clauses : List UnitResClause) : ClauseVocabulary :=
  let lits := tautLit :: clauses.flatten
  let args := lits.flatMap (fun l => l.atom.args)
  { consts := (args.filter (fun t => !isVar t)).toFinset
    sorts := (args.filterMap fun | .var v => some v.sort | _ => none).toFinset
    names := (lits.map (fun l => l.atom.relName)).toFinset
    arity := (lits.map (fun l => l.atom.args.length)).sum }

theorem clauseVocabulary_literal (clauses : List UnitResClause) (l : UnitResLiteral)
    (hl : l ∈ tautLit :: clauses.flatten) (binary : l.Binary) : (clauseVocabulary clauses).Literal l := by
  refine ⟨?_, ?_, fun t ht => ?_, binary⟩
  · exact List.mem_toFinset.mpr (List.mem_map_of_mem hl)
  · exact List.single_le_sum (fun _ _ => Nat.zero_le _) _
      (List.mem_map_of_mem (f := fun l : UnitResLiteral => l.atom.args.length) hl)
  · have arg : t ∈ (tautLit :: clauses.flatten).flatMap (fun l => l.atom.args) :=
      List.mem_flatMap.mpr ⟨l, hl, ht⟩
    cases t with
    | var v => exact .inr ⟨v, rfl, List.mem_toFinset.mpr (List.mem_filterMap.mpr ⟨_, arg, rfl⟩)⟩
    | _ => exact .inl ⟨rfl, List.mem_toFinset.mpr (List.mem_filter.mpr ⟨arg, rfl⟩)⟩

theorem clauseVocabulary_complete (clauses : List UnitResClause) :
    (clauseVocabulary clauses).Complete := by
  have taut := clauseVocabulary_literal clauses tautLit List.mem_cons_self
    (fun _ => rfl)
  refine ⟨taut.name, taut.arity, taut, fun t ht => ?_⟩
  simpa using (List.mem_filter.mp (List.mem_toFinset.mp ht)).2

namespace UnitRes

/-- With enough fuel the engine returns. -/
theorem newAndPropagate_returns (order : IterationOrder) {clauses : List UnitResClause}
    (binary : ∀ cl ∈ clauses, ∀ l ∈ cl, l.Binary) :
    ∃ enough, ∀ fuel, enough ≤ fuel → ∃ ur, newAndPropagate order fuel clauses = .ok ur := by
  have rules := bounded_inferences (clauseVocabulary_complete clauses) order
  have given : ∀ cl ∈ clauses, (clauseVocabulary clauses).Clause cl := fun cl hcl l hl =>
    clauseVocabulary_literal clauses l (List.mem_cons_of_mem _ (List.mem_flatten.mpr ⟨cl, hcl, hl⟩))
      (binary cl hcl l hl)
  have made : Outcome False _ (new order clauses) := new_next rules empty_bounded given
  have returned : ∀ {α : Type} {Q : α → Prop} {x : Except Fault α}, Outcome False Q x →
      ∃ a, x = .ok a ∧ Q a := by
    intro α Q x h
    cases x with
    | ok a => exact ⟨a, rfl, h⟩
    | error e => exact h.2.elim
  obtain ⟨start, hstart, next⟩ := returned made
  refine ⟨(clauseVocabulary clauses).units.ncard - start.usedUnits +
    start.equationalTheory.room (clauseVocabulary clauses).consts + 1, fun fuel enough => ?_⟩
  have run := propagate_next rules (fun ur bounded => .inr bounded.length) fuel next.inRange next.holds
    (.inr enough)
  obtain ⟨ur, hur, -⟩ := returned run
  refine ⟨ur, ?_⟩
  rw [newAndPropagate, hstart]
  exact hur

/-- The engine returns, and its units and clauses mean what it was given. -/
theorem newAndPropagate_preserves_meaning (order : IterationOrder) {clauses : List UnitResClause}
    (sorted : ∀ cl ∈ clauses, ∀ l ∈ cl, l.Sorted) :
    (∃ enough, ∀ fuel, enough ≤ fuel → ∃ ur, newAndPropagate order fuel clauses = .ok ur) ∧
      ∀ fuel ur, newAndPropagate order fuel clauses = .ok ur →
        ∀ {D : Domain} (M : Structure D), PreservesMeaning M clauses ur := by
  have binary : ∀ cl ∈ clauses, ∀ l ∈ cl, l.Binary := by
    intro cl hcl l hl eq
    obtain ⟨a, b, args, -⟩ := (sorted cl hcl l hl).equality eq
    rw [args]
    rfl
  exact ⟨newAndPropagate_returns order binary, fun fuel ur run D M => preservesMeaning sorted run M⟩

/-- The clauses of `p(a)` and of `p(X)` implies `X = a`. -/
theorem newAndPropagate_preserves_meaning_unit :
    ∃ enough, ∀ fuel, enough ≤ fuel → ∃ ur, newAndPropagate .insertion fuel
      [[⟨true, ⟨"p", [.const ⟨"a", .first (.uninterpreted "t")⟩]⟩⟩],
        [⟨false, ⟨"p", [.var ⟨"X", .uninterpreted "t"⟩]⟩⟩,
          ⟨true, equalityAtom (.var ⟨"X", .uninterpreted "t"⟩)
            (.const ⟨"a", .first (.uninterpreted "t")⟩)⟩]] = .ok ur := by
  refine (newAndPropagate_preserves_meaning .insertion fun cl hcl l hl => ?_).1
  have const : (Expr.const ⟨"a", .first (.uninterpreted "t")⟩).IsTerm := .const _ _
  have var : (Expr.var ⟨"X", .uninterpreted "t"⟩).IsTerm := .var _
  obtain rfl | rfl := List.mem_pair.mp hcl
  · obtain rfl := List.mem_singleton.mp hl
    exact ⟨by simpa using const, fun h => absurd h (by decide)⟩
  · obtain rfl | rfl := List.mem_pair.mp hl
    · exact ⟨by simpa using var, fun h => absurd h (by decide)⟩
    · exact ⟨by simpa [equalityAtom] using ⟨var, const⟩, fun _ => ⟨_, _, rfl, rfl⟩⟩

/-- An empty clause sets the flag and is not stored. -/
theorem empty_clause_not_stored : ¬ ∀ (order : IterationOrder) (clauses : List UnitResClause),
    (∀ cl ∈ clauses, ∀ l ∈ cl, l.Sorted) → ∀ fuel ur, newAndPropagate order fuel clauses = .ok ur →
      ∀ {D : Domain} (M : Structure D), (∀ cl ∈ clauses, cl.Valid M) ↔ ur.Meaning M := by
  intro claim
  have sorted : ∀ cl ∈ [([] : UnitResClause)], ∀ l ∈ cl, l.Sorted := by simp
  have same := claim .insertion [[]] sorted 0 empty.setUnsat rfl (Structure.indistinct Domain.unit)
  have valid := same.mpr ⟨fun l hl => absurd hl List.not_mem_nil, fun cl hcl => absurd hcl List.not_mem_nil⟩
  exact UnitResClause.not_valid_empty (valid [] (List.mem_singleton_self _))

end UnitRes

end Goivy
