import Goivy.Mc.Interp
import Goivy.Logic.Constraint
import Goivy.Logic.Vocabulary
import Goivy.Util.InsMap

/-! Propositional abstraction: what is not propositional is replaced by abstract constants,
and the constants of two states are linked. -/
namespace Goivy

/-- What is abstracted: an expression, or a definition as a whole. -/
inductive Node where
  | expr (e : Expr)
  | definition (d : Definition)
deriving DecidableEq

namespace Node

def symbols : Node → List Const
  | .expr e => e.symbols
  | .definition d => d.symbols

def rename (ρ : Renaming) : Node → Node
  | .expr e => .expr (e.rename ρ)
  | .definition d => .definition (d.rename ρ)

def nodeSort : Node → LSort
  | .expr e => e.nodeSort
  | .definition _ => .first .boolean

def freeVariables : Node → List Variable
  | .expr e => e.freeVariables
  | .definition d => d.lhs.freeVariables ++ d.rhs.freeVariables

end Node

/-- The part of a `PropAbs` that does not change. The sort constants are keyed by the
string of their sort. -/
structure PropAbsConfig where
  stVars : List Const
  sortConstants : InsMap String (List Const)
  interp : Option Interpretation
  constructors : List String

/-- A `PropAbs`: the abstract constant of each node, the counter, the abstract constants
that are state variables, and the symbols of finite sorts. -/
structure PropAbs where
  map : InsMap Node Const
  ctr : Nat
  newStVars : List Const
  finiteSyms : List Const

def PropAbs.new : PropAbs := ⟨.empty, 0, [], []⟩

/-- `isInterpretedSymbol`. -/
def isInterpretedSymbol (c : Const) : Bool :=
  c.name ∈ ["+", "-", "*", "/", "<", "<=", ">", ">=", "="]

def absName (ctr : Nat) : String := "__abs[" ++ itoa ctr ++ "]"

namespace PropAbsConfig

variable (cfg : PropAbsConfig)

/-- `isFiniteSort` of a `PropAbs`. -/
def isFiniteSort : LSort → Bool
  | .function _ _ => false
  | .first s =>
    match cfg.interp with
    | none =>
      match s with
      | .boolean | .enumerated _ _ => true
      | _ => false
    | some interp =>
      match s with
      | .boolean | .enumerated _ _ | .range _ _ _ => true
      | _ =>
        match getSortTheory s interp with
        | .sort (.enumerated _ _) | .sort (.range _ _ _) | .sort .boolean => true
        | .theory (.bitVector _) => true
        | _ => false

def isStVar (name : String) : Bool := name ∈ cfg.stVars.map Const.name

/-- The constant is listed for its sort. -/
def isSortConstant (c : Const) : Bool :=
  ((cfg.sortConstants.get c.sort.string).getD []).any (·.name = c.name)

/-- A current symbol, in the eyes of `PrevExpr`. -/
def isCurrent (c : Const) : Bool :=
  cfg.isStVar c.name || isSkolem c.name && !cfg.isSortConstant c

/-- `PrevExpr`. -/
def prevExpr (n : Node) : Option Node :=
  let newSyms := n.symbols.filter (isNew ·.name)
  if n.symbols.any cfg.isCurrent || newSyms.isEmpty then none
  else some (n.rename (newSyms.map fun c => (c, newOf c.name)))

end PropAbsConfig

/-- The length of the names of a node. -/
def Node.nameLength (n : Node) : Nat := (n.symbols.map (·.name.length)).sum

theorem Node.symbols_rename (ρ : Renaming) (n : Node) :
    (n.rename ρ).symbols = n.symbols.map ρ.const := by
  cases n with
  | expr e => exact Expr.symbols_rename ρ e
  | definition d => exact Definition.symbols_rename ρ d

namespace PropAbsConfig

variable {cfg : PropAbsConfig} {n p : Node}

theorem prevExpr_eq_some : cfg.prevExpr n = some p ↔ (∀ c ∈ n.symbols, cfg.isCurrent c = false) ∧
    (∃ c ∈ n.symbols, isNew c.name = true) ∧
    p = n.rename ((n.symbols.filter (isNew ·.name)).map fun c => (c, newOf c.name)) := by
  simp only [prevExpr]
  split
  · rename_i none
    simp only [Bool.or_eq_true, List.any_eq_true, List.isEmpty_iff, List.filter_eq_nil_iff] at none
    grind
  · rename_i some
    simp only [Bool.or_eq_true, List.any_eq_true, List.isEmpty_iff, List.filter_eq_nil_iff] at some
    grind

theorem lookup_primes {cs : List Const} {c : Const} :
    (((cs.filter (isNew ·.name)).map fun c => (c, newOf c.name)) : Renaming).lookup c =
      if c ∈ cs ∧ isNew c.name = true then some (newOf c.name) else none := by
  induction cs with
  | nil => simp
  | cons d cs ih =>
    by_cases hd : isNew d.name = true
    · rw [List.filter_cons_of_pos (by simpa using hd), List.map_cons, InsMap.lookup_cons, ih]
      by_cases same : c = d
      · subst same
        simp [hd]
      · simp [same]
    · rw [List.filter_cons_of_neg (by simpa using hd), ih]
      by_cases same : c = d
      · subst same
        simp [hd]
      · simp [same]

/-- The symbols of the previous expression. -/
theorem name_of_prevExpr {c : Const} (hc : c ∈ n.symbols) :
    Renaming.name ((n.symbols.filter (isNew ·.name)).map fun c => (c, newOf c.name)) c = newOf c.name := by
  rw [Renaming.name, lookup_primes]
  split
  · rfl
  · rename_i notNew
    rw [newOf, if_neg fun h => notNew ⟨hc, h⟩]
    rfl

theorem length_newOf (name : String) : (newOf name).length ≤ name.length := by
  unfold newOf
  split
  · rw [String.length_ofList, List.length_drop, String.length_toList]
    exact Nat.sub_le _ _
  · exact Nat.le_refl _

theorem length_newOf_lt {name : String} (h : isNew name = true) : (newOf name).length < name.length := by
  obtain ⟨t, ht⟩ : "new_".toList <+: name.toList := by simpa [isNew] using h
  have len : name.length = 4 + t.length := by
    rw [← String.length_toList, ← ht]
    simp
    omega
  rw [newOf, if_pos h, ← ht]
  simp [len]

theorem nameLength_prevExpr (h : cfg.prevExpr n = some p) : p.nameLength < n.nameLength := by
  obtain ⟨-, ⟨c, hc, new⟩, rfl⟩ := prevExpr_eq_some.mp h
  rw [Node.nameLength, Node.symbols_rename, List.map_map]
  refine List.sum_lt_sum _ _ (fun d hd => ?_) ⟨c, hc, ?_⟩
  · simp only [Function.comp, Renaming.const, name_of_prevExpr hd]
    exact length_newOf d.name
  · simp only [Function.comp, Renaming.const, name_of_prevExpr hc]
    exact length_newOf_lt new

end PropAbsConfig

namespace PropAbs

variable (cfg : PropAbsConfig)

/-- `newProp`. The new constant of a next-state expression is the new version of the one
of the expression before. -/
def newProp (n : Node) (pa : PropAbs) : Const × PropAbs :=
  match pa.map.get n with
  | some v => (v, pa)
  | none =>
    match _h : cfg.prevExpr n with
    | some p =>
      let (prevAbs, pa) := newProp p pa
      let res := newActionConst prevAbs
      (res, { pa with newStVars := pa.newStVars ++ [prevAbs], map := pa.map.set n res })
    | none =>
      let res := ⟨absName pa.ctr, n.nodeSort⟩
      (res, { pa with ctr := pa.ctr + 1, map := pa.map.set n res })
termination_by n.nameLength
decreasing_by exact PropAbsConfig.nameLength_prevExpr _h

/-- `Children`. -/
def children : Expr → List Expr
  | .var _ | .const _ => []
  | .apply _ ts | .and ts | .or ts => ts
  | .eq a b | .implies a b | .iff a b => [a, b]
  | .not a | .forAll _ a | .exists _ a => [a]
  | .ite a b c => [a, b, c]
  | .some vs a => vs.map .var ++ [a]
  | .someElse vs a b c => vs.map .var ++ [a, b, c]

/-- The node has to be abstracted as a whole. -/
def needsAbstraction : Expr → Bool
  | .forAll _ _ | .exists _ _ => true
  | .apply f ts => !ts.isEmpty &&
    (ts.any (fun t => !cfg.isFiniteSort t.nodeSort) || !isInterpretedSymbol f)
  | e => (children e).any fun t => !cfg.isFiniteSort t.nodeSort

/-- A symbol of a finite sort is recorded, by its name. -/
def track (c : Const) (pa : PropAbs) : PropAbs :=
  if isNumeralName c.name || c.name ∈ cfg.constructors || isSkolem c.name ||
    c.name ∈ pa.finiteSyms.map Const.name then pa
  else { pa with finiteSyms := pa.finiteSyms ++ [c] }

def abstractOr (e : Expr) (pa : PropAbs) (descend : Expr × PropAbs) : Expr × PropAbs :=
  if needsAbstraction cfg e then
    let (res, pa) := newProp cfg (.expr e) pa
    (.const res, pa)
  else descend

mutual
/-- `MkPropAbs`. -/
def mkPropAbs : Expr → PropAbs → Expr × PropAbs
  | .var v, pa => (.var v, pa)
  | .const c, pa => (.const c, track cfg c pa)
  | .apply f ts, pa => abstractOr cfg (.apply f ts) pa <|
    let (ts, pa) := mkPropAbsList ts pa
    (.apply f ts, pa)
  | .eq a b, pa => abstractOr cfg (.eq a b) pa <|
    let (a, pa) := mkPropAbs a pa
    let (b, pa) := mkPropAbs b pa
    (.eq a b, pa)
  | .not a, pa => abstractOr cfg (.not a) pa <|
    let (a, pa) := mkPropAbs a pa
    (.not a, pa)
  | .and ts, pa => abstractOr cfg (.and ts) pa <|
    let (ts, pa) := mkPropAbsList ts pa
    (.and ts, pa)
  | .or ts, pa => abstractOr cfg (.or ts) pa <|
    let (ts, pa) := mkPropAbsList ts pa
    (.or ts, pa)
  | .implies a b, pa => abstractOr cfg (.implies a b) pa <|
    let (a, pa) := mkPropAbs a pa
    let (b, pa) := mkPropAbs b pa
    (.implies a b, pa)
  | .iff a b, pa => abstractOr cfg (.iff a b) pa <|
    let (a, pa) := mkPropAbs a pa
    let (b, pa) := mkPropAbs b pa
    (.iff a b, pa)
  | .ite a b c, pa => abstractOr cfg (.ite a b c) pa <|
    let (a, pa) := mkPropAbs a pa
    let (b, pa) := mkPropAbs b pa
    let (c, pa) := mkPropAbs c pa
    (.ite a b c, pa)
  | .forAll vs a, pa => abstractOr cfg (.forAll vs a) pa (.forAll vs a, pa)
  | .exists vs a, pa => abstractOr cfg (.exists vs a) pa (.exists vs a, pa)
  | .some vs a, pa => abstractOr cfg (.some vs a) pa <|
    let (a, pa) := mkPropAbs a pa
    (.some vs a, pa)
  | .someElse vs a b c, pa => abstractOr cfg (.someElse vs a b c) pa <|
    let (a, pa) := mkPropAbs a pa
    let (b, pa) := mkPropAbs b pa
    let (c, pa) := mkPropAbs c pa
    (.someElse vs a b c, pa)
def mkPropAbsList : List Expr → PropAbs → List Expr × PropAbs
  | [], pa => ([], pa)
  | t :: ts, pa =>
    let (t, pa) := mkPropAbs t pa
    let (ts, pa) := mkPropAbsList ts pa
    (t :: ts, pa)
end

/-- `MkPropAbs` of a definition. -/
def mkPropAbsDef (d : Definition) (pa : PropAbs) : Node × PropAbs :=
  if !cfg.isFiniteSort d.lhs.nodeSort || !cfg.isFiniteSort d.rhs.nodeSort then
    let (res, pa) := newProp cfg (.definition d) pa
    (.expr (.const res), pa)
  else
    let (lhs, pa) := mkPropAbs cfg d.lhs pa
    let (rhs, pa) := mkPropAbs cfg d.rhs pa
    (.definition ⟨lhs, rhs⟩, pa)

def mkPropAbsDefs : List Definition → PropAbs → List Node × PropAbs
  | [], pa => ([], pa)
  | d :: ds, pa =>
    let (d, pa) := mkPropAbsDef cfg d pa
    let (ds, pa) := mkPropAbsDefs ds pa
    (d :: ds, pa)

end PropAbs

/-- `closeFormula`. -/
def closeFormula (e : Expr) : Expr :=
  if e.freeVariables.eraseDups.isEmpty then e else .forAll e.freeVariables.eraseDups e

/-- What `ToAiger` knows besides: the symbols of the invariant and the defined symbols. -/
structure Pipeline extends PropAbsConfig where
  invarSyms : List String
  defSyms : List String

namespace Pipeline

variable (p : Pipeline)

/-- `isImmutableExpr`. -/
def isImmutableExpr (n : Node) : Bool :=
  n.symbols.all fun c =>
    !(isSkolem c.name && c.name ∉ p.invarSyms) && !(isNew c.name || p.isStVar c.name)

/-- `isExprDefined`. -/
def isExprDefined : Node → Bool
  | .expr (.apply f _) => f.name ∈ p.defSyms
  | _ => false

/-- The immutable abstract constants and symbols, which keep their values. -/
def immutable (pa : PropAbs) : List Const :=
  (pa.map.entries.filter fun e => p.isImmutableExpr e.1 && !p.isExprDefined e.1).map Prod.snd ++
    pa.finiteSyms.filter fun c => p.isImmutableExpr (.expr (.const c))

/-- The definition of the new version of a constant that keeps its value. -/
def keeps (v : Const) : Definition := ⟨.const (newActionConst v), .const v⟩

/-- The renaming of the state variables to their new versions. -/
def rnInv : Renaming := p.stVars.map fun c => (c, actionNewName c.name)

/-- What the abstraction step of `ToAiger` makes. -/
structure Result where
  defs : List Node
  fmlas : List Expr
  addDefs : List Definition
  invariant : Expr
  next : Expr
  state : PropAbs

/-- The abstraction step of `ToAiger`: definitions, closed formulas, the constants that keep
their values, the invariant and its next-state renaming. -/
def abstractSystem (defs : List Definition) (fmlas : List Expr) (invariant : Expr) : Result :=
  let (defs, pa) := PropAbs.mkPropAbsDefs p.toPropAbsConfig defs .new
  let (fmlas, pa) := PropAbs.mkPropAbsList p.toPropAbsConfig (fmlas.map closeFormula) pa
  let kept := p.immutable pa
  let pa := { pa with newStVars := pa.newStVars ++ kept }
  let (invariant, pa) := PropAbs.mkPropAbs p.toPropAbsConfig invariant pa
  let (next, pa) := PropAbs.mkPropAbs p.toPropAbsConfig (invariant.rename p.rnInv) pa
  ⟨defs, fmlas, kept.map keeps, invariant, next, pa⟩

end Pipeline

end Goivy
