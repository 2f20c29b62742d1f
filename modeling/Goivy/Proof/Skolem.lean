import Goivy.Logic.Uniquify
import Goivy.TransRel.AtomicUpdate

/-! Skolemization of a formula. -/
namespace Goivy

/-- `uniquifyVar`: the variable of a quantifier over `v` that has been made unique. -/
def uniquifyVar (vu : UniqueRenamer) (v : Variable) : Variable × UniqueRenamer :=
  match (Expr.forAll [v] (.var v)).uniquify ⟨vu, []⟩ with
  | (.forAll (u :: _) _, vu) => (u, vu.rn)
  | (_, vu) => (v, vu.rn)

@[simp] theorem uniquifyVar_eq (vu : UniqueRenamer) (v : Variable) :
    uniquifyVar vu v = (⟨(vu.rename v.name).1, v.sort⟩, (vu.rename v.name).2) := by
  simp [uniquifyVar, Expr.uniquify, VariableUniqifier.bind, VariableUniqifier.leave, deduplicateAndSortVars]

/-- `Exists` and `ForAll` of the logic utilities: no quantifier over no variables. -/
def ivyExists (vs : List Variable) (e : Expr) : Expr := if vs = [] then e else .exists (deduplicateAndSortVars vs) e

def ivyForAll (vs : List Variable) (e : Expr) : Expr := if vs = [] then e else .forAll (deduplicateAndSortVars vs) e

/-- `FuncConstSort`. -/
def skolemSort (fvs : List Variable) (v : Variable) : LSort :=
  if fvs = [] then .first v.sort else .function (fvs.map Variable.sort) v.sort

/-- The Skolem symbol, applied to the outer variables. -/
def skolemTerm (sym : Const) (fvs : List Variable) : Expr :=
  if fvs = [] then .const sym else (Expr.newApply sym (fvs.map .var)).getD (.const sym)

/-- What the closure of `SkolemizeFmla` writes to: the caller's renamer, the renamer of the variables, the Skolem symbols,
and the variables that are pulled out. -/
structure SkolemState where
  renamer : UniqueRenamer
  vu : UniqueRenamer
  skfuns : List Const
  univs : List Variable

section

/- The order in which the map of the used variables is visited, and whether quantifiers are pulled out. -/
variable (visit : Expr → List Variable → List Variable) (prenex : Bool)

/-- `outerVarsInFormula`. Bound variables count as used. -/
def outerVarsInFormula (e : Expr) (outer : List Variable) : List Variable :=
  visit e (e.allVariables.dedup.filter (· ∈ outer))

/-- The loop over the variables of a quantifier that is skolemized. A body that `Substitute` refuses stays. -/
def skolemizeVars (fvs : List Variable) : List Variable → Expr → SkolemState → Expr × SkolemState
  | [], body, st => (body, st)
  | v :: vs, body, st =>
    let (name, rn) := st.renamer.rename ("_" ++ v.name)
    let sym : Const := ⟨name, skolemSort fvs v⟩
    let body := (body.substitute [(v, skolemTerm sym fvs)]).getD body
    skolemizeVars fvs vs body { st with renamer := rn, skfuns := st.skfuns ++ [sym] }

/-- The loop over the variables of a quantifier that stays, with the new variables. -/
def universalizeVars : List Variable → Expr → SkolemState → List Variable × Expr × SkolemState
  | [], body, st => ([], body, st)
  | v :: vs, body, st =>
    let (u, vu) := uniquifyVar st.vu v
    let univs := if prenex then st.univs ++ [u] else st.univs
    let body := (body.substitute [(v, .var u)]).getD body
    let (us, body, st) := universalizeVars vs body { st with vu := vu, univs := univs }
    (u :: us, body, st)

/-- The terms of a conjunction or a disjunction in turn. -/
def traverseTerms {σ : Type} (f : Expr → σ → Expr × σ) : List Expr → σ → List Expr × σ
  | [], st => ([], st)
  | t :: ts, st => let (t, st) := f t st; let (ts, st) := traverseTerms f ts st; (t :: ts, st)

/-- The recursion of `SkolemizeFmla`. The first argument bounds the depth of connectives and quantifiers. -/
def skolemizeRec : Nat → Expr → Bool → List Variable → SkolemState → Expr × SkolemState
  | 0, e, _, _, st => (e, st)
  | n + 1, e, pos, outer, st =>
    let skolemize (vs : List Variable) (body : Expr) : Expr × SkolemState :=
      let (body, st) := skolemizeVars (outerVarsInFormula visit e outer) vs body st
      skolemizeRec n body pos outer st
    let universalize (quant : List Variable → Expr → Expr) (vs : List Variable) (body : Expr) : Expr × SkolemState :=
      let (us, body, st) := universalizeVars prenex vs body st
      let (res, st) := skolemizeRec n body pos (outer ++ us) st
      (if prenex then res else quant us res, st)
    match e with
    | .not a => let (a, st) := skolemizeRec n a (!pos) outer st; (.not a, st)
    | .implies a b =>
      let (a, st) := skolemizeRec n a (!pos) outer st; let (b, st) := skolemizeRec n b pos outer st; (.implies a b, st)
    | .and ts => let (ts, st) := traverseTerms (fun t st => skolemizeRec n t pos outer st) ts st; (.and ts, st)
    | .or ts => let (ts, st) := traverseTerms (fun t st => skolemizeRec n t pos outer st) ts st; (.or ts, st)
    | .forAll vs a => if pos then skolemize vs a else universalize ivyForAll vs a
    | .exists vs a => if pos then universalize ivyExists vs a else skolemize vs a
    | e => (e, st)

end

namespace Expr

mutual
/-- The depth of the connectives and quantifiers that `SkolemizeFmla` goes through. -/
def skolemDepth : Expr → Nat
  | .not a | .forAll _ a | .exists _ a => a.skolemDepth + 1
  | .implies a b => max a.skolemDepth b.skolemDepth + 1
  | .and ts | .or ts => skolemDepthList ts + 1
  | _ => 0
def skolemDepthList : List Expr → Nat
  | [] => 0
  | t :: ts => max t.skolemDepth (skolemDepthList ts)
end

end Expr

/-- `SkolemizeFmla`: the formula, the Skolem symbols and the renamer. -/
def skolemizeFmla (visit : Expr → List Variable → List Variable) (e : Expr) (pos : Bool) (renamer : UniqueRenamer)
    (skfuns : List Const) (prenex : Bool) : Expr × List Const × UniqueRenamer :=
  let (body, st) := skolemizeRec visit prenex e.skolemDepth e pos [] ⟨renamer, ⟨"", renamer.used⟩, skfuns, []⟩
  (if pos then ivyExists st.univs body else ivyForAll st.univs body, st.skfuns, st.renamer)

end Goivy
