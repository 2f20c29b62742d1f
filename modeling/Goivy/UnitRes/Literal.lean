import Goivy.UnitRes.Resolution
import Goivy.Logic.Vocabulary

/-! Literals of the unit resolution engine and the operations on them that do not
depend on its state. -/
namespace Goivy

/-- A polarity, `true` for positive, with an atom. -/
structure UnitResLiteral where
  polarity : Bool
  atom : ResolutionAtom
deriving DecidableEq

abbrev UnitResClause := List UnitResLiteral

namespace UnitResLiteral

/-- `Invert`. -/
def invert (l : UnitResLiteral) : UnitResLiteral := ⟨!l.polarity, l.atom⟩

/-- Literals that are equal up to the arguments of their atoms. -/
def withArgs (l : UnitResLiteral) (args : List Expr) : UnitResLiteral :=
  ⟨l.polarity, ⟨l.atom.relName, args⟩⟩

def isEqualityLit (l : UnitResLiteral) : Bool := l.polarity && l.atom.relName = "="

def isDisequalityLit (l : UnitResLiteral) : Bool := !l.polarity && l.atom.relName = "="

/-- Both arguments of a binary literal are the same. -/
def sameArgs (l : UnitResLiteral) : Bool :=
  match l.atom.args with
  | [a, b] => a = b
  | _ => false

def isTautEqualityLit (l : UnitResLiteral) : Bool := l.isEqualityLit && l.sameArgs

/-- The only argument is the empty conjunction. -/
def isTrueLit (l : UnitResLiteral) : Bool := l.polarity && l.atom.args = [Expr.tru]

def isTautLit (l : UnitResLiteral) : Bool := l.isTrueLit || l.isTautEqualityLit

/-- `isVacEqualityLit`, which is all that `isVacLit` asks. -/
def isVacLit (l : UnitResLiteral) : Bool := l.isDisequalityLit && l.sameArgs

def isGroundLit (l : UnitResLiteral) : Bool := l.atom.args.all (fun t => !isVar t)

def isGroundEqualityLit (l : UnitResLiteral) : Bool := l.isEqualityLit && l.isGroundLit

/-- `swapArgsLit`. -/
def swapArgs (l : UnitResLiteral) : UnitResLiteral :=
  match l.atom.args with
  | [a, b] => l.withArgs [b, a]
  | _ => l

/-- `SubstituteLit`. -/
def substitute (l : UnitResLiteral) (subs : ResolutionEnv) : UnitResLiteral :=
  l.withArgs (l.atom.args.map (substTerm subs))

/-- `SubstituteConstantsLit`. -/
def substituteConstants (l : UnitResLiteral) (subs : ResolutionEnv) : UnitResLiteral :=
  l.withArgs (l.atom.args.map (fun t => if isConst t then (subs.lookup t).getD t else t))

end UnitResLiteral

/-- The loop of `CanonizeLiteralVars` and `CanonizeLiteralUnique` over the arguments. -/
def canonizeTerms (base : String) : Nat → ResolutionEnv → List Expr → List Expr
  | _, _, [] => []
  | i, subs, t :: ts =>
    match t with
    | .var v =>
      match subs.lookup (.var v) with
      | some w => w :: canonizeTerms base (i + 1) subs ts
      | none =>
        let w := .var ⟨base ++ toString i, v.sort⟩
        w :: canonizeTerms base (i + 1) ((.var v, w) :: subs) ts
    | t => t :: canonizeTerms base (i + 1) subs ts

/-- `CanonizeLiteralVars` with base `V`, `CanonizeLiteralUnique` with base `W`. -/
def canonizeLiteral (base : String) (l : UnitResLiteral) : UnitResLiteral :=
  l.withArgs (canonizeTerms base 0 [] l.atom.args)

/-- The constants of `CanonizeLiteral`. -/
def isCanonicalVarConst : Expr → Bool
  | .const c => "__v".toList.isPrefixOf c.name.toList
  | _ => false

/-- `termSubsume`: the new map, unless the terms do not match. -/
def termSubsume (term1 term2 : Expr) (env : ResolutionEnv) : Option ResolutionEnv :=
  if isConst term1 then
    if isConst term2 ∧ term1 = term2 then some env else none
  else
    match env.lookup term1 with
    | some prev => if prev = term2 then some env else none
    | none => some ((term1, term2) :: env)

def termsSubsume : List Expr → List Expr → ResolutionEnv → Option ResolutionEnv
  | [], [], env => some env
  | t :: ts, u :: us, env => (termSubsume t u env).bind (termsSubsume ts us)
  | _, _, _ => none

/-- `atomSubsume`. -/
def atomSubsume (at1 at2 : ResolutionAtom) : Bool :=
  at1.relName = at2.relName && (termsSubsume at1.args at2.args []).isSome

/-- `litSubsume`, from the empty map. -/
def litSubsume (lit1 lit2 : UnitResLiteral) : Bool :=
  lit1.polarity = lit2.polarity && atomSubsume lit1.atom lit2.atom

/-- The equality that stands for a tautological clause. -/
def tautLit : UnitResLiteral :=
  ⟨true, equalityAtom (.const ⟨"__true", .first (.top "TopSort")⟩)
    (.const ⟨"__true", .first (.top "TopSort")⟩)⟩

/-- The variable of a disequality that `SimplifyClause` rewrites, and the other side. -/
def rewriteOf (l : UnitResLiteral) : Option (Expr × Expr) :=
  match l.isDisequalityLit, l.atom.args with
  | true, [a, b] => if isVar a then some (a, b) else if isVar b then some (b, a) else none
  | _, _ => none

/-- `rewriteClause`. -/
def rewriteClause (cl : UnitResClause) (v t : Expr) : UnitResClause :=
  cl.map (fun l => l.substitute [(v, t)])

/-- `removeDuplicatesAndVac`. -/
def removeDuplicatesAndVac (cl : UnitResClause) : UnitResClause :=
  cl.foldl (fun result l => if l.isVacLit ∨ l ∈ result then result else result ++ [l]) []

/-- `UnitResSimplifyClause`: the loop runs over the literals as they were given. -/
def simplifyClause (cl : UnitResClause) : UnitResClause :=
  let rewritten := cl.foldl (fun cl' l => match rewriteOf l with
    | some (v, t) => rewriteClause cl' v t
    | none => cl') cl
  if rewritten.any UnitResLiteral.isTautLit then [tautLit] else removeDuplicatesAndVac rewritten

/-- `UnitResIsTautology`. -/
def isTautology (cl : UnitResClause) : Bool :=
  cl.any (fun l => l.isTautLit || cl.any (fun l2 => l.polarity ≠ l2.polarity && l.atom = l2.atom))

/-- `keepAtom`, whose `isSkolemName` is `IsSkolem`. -/
def keepAtom (atom : ResolutionAtom) : Bool :=
  !isSkolem atom.relName && atom.args.all fun
    | .const c => !isSkolem c.name
    | _ => true

/-- `keepLit`. -/
def keepLit (l : UnitResLiteral) : Bool := keepAtom l.atom

/-- The literal is about variables and constants, and an equality has two sides of
one sort. -/
structure UnitResLiteral.Sorted (l : UnitResLiteral) : Prop where
  terms : ∀ t ∈ l.atom.args, t.IsTerm
  equality : l.atom.relName = "=" → ∃ a b, l.atom.args = [a, b] ∧ a.nodeSort = b.nodeSort

variable {D : Domain}

/-- The symbol that a relation name means at these argument sorts. -/
def relationSort : List FSort → LSort
  | [] => .first .boolean
  | dom => .function dom .boolean

/-- A relation name, with equality interpreted. -/
def Structure.relation (M : Structure D) (relName : String) (vs : List (Val D)) : Prop :=
  if relName = "=" then ∃ v, vs = [v, v]
  else (M.value ⟨relName, relationSort (vs.map Sigma.fst)⟩ vs).Holds

def UnitResLiteral.Holds (M : Structure D) (env : Env D) (l : UnitResLiteral) : Prop :=
  l.polarity = true ↔ M.relation l.atom.relName (evalList M l.atom.args env)

/-- The universal closure of a clause is true. -/
def UnitResClause.Valid (M : Structure D) (cl : UnitResClause) : Prop :=
  ∀ env : Env D, ∃ l ∈ cl, l.Holds M env

/-- Literals with the same values of the arguments have the same truth. -/
theorem holds_withArgs {M : Structure D} {env env' : Env D} {l : UnitResLiteral} {args : List Expr}
    (same : evalList M args env = evalList M l.atom.args env') :
    (l.withArgs args).Holds M env ↔ l.Holds M env' := by
  simp only [UnitResLiteral.Holds, UnitResLiteral.withArgs, same]

theorem holds_equality {M : Structure D} {env : Env D} {p : Bool} {a b : Expr} :
    (⟨p, equalityAtom a b⟩ : UnitResLiteral).Holds M env ↔
      (p = true ↔ a.eval M env = b.eval M env) := by
  have pair : (∃ v, [a.eval M env, b.eval M env] = [v, v]) ↔ a.eval M env = b.eval M env := by
    constructor
    · rintro ⟨v, h⟩
      rw [List.cons.injEq, List.cons.injEq] at h
      exact h.1.trans h.2.1.symm
    · intro h
      exact ⟨b.eval M env, by rw [h]⟩
  simp only [UnitResLiteral.Holds, equalityAtom, Structure.relation, if_true, evalList, pair]

namespace UnitResLiteral

theorem evalList_map {M : Structure D} {env env' : Env D} {f : Expr → Expr} {ts : List Expr}
    (same : ∀ t ∈ ts, (f t).eval M env = t.eval M env') :
    evalList M (ts.map f) env = evalList M ts env' := by
  simp only [evalList_eq_map, List.map_map]
  exact List.map_congr_left same

/-- A map of the arguments that keeps sorts keeps literals well sorted. -/
theorem Sorted.withArgs_map {l : UnitResLiteral} (sorted : l.Sorted) {f : Expr → Expr}
    (keeps : ∀ t, t.IsTerm → (f t).IsTerm ∧ (f t).nodeSort = t.nodeSort) :
    (l.withArgs (l.atom.args.map f)).Sorted := by
  constructor
  · intro t ht
    obtain ⟨u, hu, rfl⟩ := List.mem_map.mp ht
    exact (keeps u (sorted.terms u hu)).1
  · intro eq
    obtain ⟨a, b, args, sort⟩ := sorted.equality eq
    have ha := keeps a (sorted.terms a (by simp [args]))
    have hb := keeps b (sorted.terms b (by simp [args]))
    refine ⟨f a, f b, ?_, ha.2.trans (sort.trans hb.2.symm)⟩
    simp only [UnitResLiteral.withArgs, args, List.map_cons, List.map_nil]

theorem Sorted.substitute {l : UnitResLiteral} (sorted : l.Sorted) {σ : ResolutionEnv}
    (preserving : SortPreserving σ) : (l.substitute σ).Sorted :=
  sorted.withArgs_map fun _ term => substTerm_spec preserving term

theorem holds_substitute {M : Structure D} {env : Env D} {l : UnitResLiteral} (sorted : l.Sorted)
    {σ : ResolutionEnv} (preserving : SortPreserving σ) :
    (l.substitute σ).Holds M env ↔ l.Holds M (env.bind M σ) :=
  holds_withArgs (evalList_map fun _ ht => eval_substTerm preserving (sorted.terms _ ht) env)

/-- Equal constants can be exchanged. -/
theorem holds_substituteConstants {M : Structure D} {env : Env D} {l : UnitResLiteral} {a b : Expr}
    (same : a.eval M env = b.eval M env) :
    (l.substituteConstants [(a, b)]).Holds M env ↔ l.Holds M env := by
  refine holds_withArgs (evalList_map fun t _ => ?_)
  split
  · rw [InsMap.lookup_cons]
    split
    · rename_i eq
      rw [eq]
      exact same.symm
    · rfl
  · rfl

theorem Sorted.substituteConstants {l : UnitResLiteral} (sorted : l.Sorted) {a b : Expr}
    (term : b.IsTerm) (sort : b.nodeSort = a.nodeSort) :
    (l.substituteConstants [(a, b)]).Sorted := by
  refine sorted.withArgs_map fun t ht => ?_
  split
  · rw [InsMap.lookup_cons]
    split
    · rename_i eq
      exact ⟨term, eq ▸ sort⟩
    · exact ⟨ht, rfl⟩
  · exact ⟨ht, rfl⟩

theorem sameArgs_iff {l : UnitResLiteral} : l.sameArgs = true ↔ ∃ a, l.atom.args = [a, a] := by
  unfold sameArgs
  split
  · rename_i a b args
    rw [args, decide_eq_true_eq]
    constructor
    · rintro rfl
      exact ⟨a, rfl⟩
    · rintro ⟨c, h⟩
      cases h
      rfl
  · rename_i other
    refine iff_of_false Bool.false_ne_true fun ⟨a, args⟩ => other a a args

/-- An equality of a term with itself is true, and its negation is false. -/
theorem holds_of_sameArgs {M : Structure D} {env : Env D} {l : UnitResLiteral}
    (eq : l.atom.relName = "=") (same : l.sameArgs = true) : l.Holds M env ↔ l.polarity = true := by
  obtain ⟨a, args⟩ := sameArgs_iff.mp same
  have : M.relation l.atom.relName (evalList M l.atom.args env) := by
    rw [Structure.relation, if_pos eq, args]
    exact ⟨_, rfl⟩
  exact iff_true_right this

theorem holds_of_isTautLit {M : Structure D} {env : Env D} {l : UnitResLiteral} (sorted : l.Sorted)
    (taut : l.isTautLit = true) : l.Holds M env := by
  simp only [isTautLit, Bool.or_eq_true] at taut
  obtain taut | taut := taut
  · simp only [isTrueLit, Bool.and_eq_true, decide_eq_true_eq] at taut
    have := sorted.terms Expr.tru (by rw [taut.2]; exact List.mem_singleton_self _)
    cases this
  · simp only [isTautEqualityLit, isEqualityLit, Bool.and_eq_true, decide_eq_true_eq] at taut
    exact (holds_of_sameArgs taut.1.2 taut.2).mpr taut.1.1

theorem not_holds_of_isVacLit {M : Structure D} {env : Env D} {l : UnitResLiteral}
    (vac : l.isVacLit = true) : ¬ l.Holds M env := by
  simp only [isVacLit, isDisequalityLit, Bool.and_eq_true, decide_eq_true_eq,
    Bool.not_eq_true'] at vac
  rw [holds_of_sameArgs vac.1.2 vac.2, vac.1.1]
  exact Bool.false_ne_true

theorem tautLit_sorted : tautLit.Sorted := by
  refine ⟨fun t ht => ?_, fun _ => ⟨_, _, rfl, rfl⟩⟩
  simp only [tautLit, equalityAtom, List.mem_cons, List.not_mem_nil, or_false, or_self] at ht
  exact ht ▸ .const _ _

theorem disequality_sorted {a : ResolutionAtom} (ground : a.GroundEquality) (p : Bool) :
    (⟨p, a⟩ : UnitResLiteral).Sorted := by
  obtain ⟨n, m, s, rfl⟩ := ground
  refine ⟨fun t ht => ?_, fun _ => ⟨_, _, rfl, rfl⟩⟩
  simp only [equalityAtom, List.mem_cons, List.not_mem_nil, or_false] at ht
  obtain rfl | rfl := ht
  · exact .const n s
  · exact .const m s

end UnitResLiteral

end Goivy
