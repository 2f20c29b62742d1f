import Goivy.UnitRes.Literal
import Goivy.Logic.Substitute
import Goivy.Util.OptionList

/-! Conversion of logic literals to literals of the engine and back. -/
namespace Goivy

/-- `LogicLiteral`, with `true` for the positive polarity. -/
structure LogicLiteral where
  polarity : Bool
  atom : Expr

/-- The original symbol for a relation name. -/
abbrev SymMap := String → Option Const

def SymMap.empty : SymMap := fun _ => none

/-- Records a symbol unless its name is there. -/
def SymMap.record (symMap : SymMap) (sym : Const) : SymMap :=
  if (symMap sym.name).isSome then symMap else Function.update symMap sym.name (some sym)

variable (printer : Expr → String)

def ivyLitToUnitResLit (lit : LogicLiteral) (symMap : SymMap) : UnitResLiteral × SymMap :=
  match lit.atom with
  | .apply f ts => (⟨lit.polarity, ⟨f.name, ts⟩⟩, symMap.record f)
  | .eq a b => (⟨lit.polarity, ⟨"=", [a, b]⟩⟩, symMap)
  | .const c => (⟨lit.polarity, ⟨c.name, []⟩⟩, symMap.record c)
  | e => (⟨lit.polarity, ⟨printer e, []⟩⟩, symMap)

/-- Nothing where `MustApply` panics. -/
def unitResLitToIvyLit (lit : UnitResLiteral) (symMap : SymMap) : Option LogicLiteral :=
  let sym := (symMap lit.atom.relName).getD ⟨lit.atom.relName, .first .boolean⟩
  if lit.atom.relName = "=" ∧ lit.atom.args.length = 2 then
    match lit.atom.args with
    | [a, b] => some ⟨lit.polarity, .eq a b⟩
    | _ => none
  else if lit.atom.args = [] then some ⟨lit.polarity, .const sym⟩
  else (Expr.newApply sym lit.atom.args).map (fun atom => ⟨lit.polarity, atom⟩)

/-- The inner loop of `ivyLitsToUnitResClauses`. -/
def ivyLitsToUnitResClause : List LogicLiteral → SymMap → UnitResClause × SymMap
  | [], symMap => ([], symMap)
  | lit :: clause, symMap =>
    let (urLit, symMap) := ivyLitToUnitResLit printer lit symMap
    let (urClause, symMap) := ivyLitsToUnitResClause clause symMap
    (urLit :: urClause, symMap)

def ivyLitsToUnitResClausesFrom :
    List (List LogicLiteral) → SymMap → List UnitResClause × SymMap
  | [], symMap => ([], symMap)
  | clause :: cnf, symMap =>
    let (urClause, symMap) := ivyLitsToUnitResClause printer clause symMap
    let (result, symMap) := ivyLitsToUnitResClausesFrom cnf symMap
    (urClause :: result, symMap)

def ivyLitsToUnitResClauses (cnf : List (List LogicLiteral)) : List UnitResClause × SymMap :=
  ivyLitsToUnitResClausesFrom printer cnf .empty

/-- Converts to the engine and every literal back, with the returned symbol map. -/
def roundTrip (cnf : List (List LogicLiteral)) : Option (List (List LogicLiteral)) :=
  let (result, symMap) := ivyLitsToUnitResClauses printer cnf
  result.mapM (fun clause => clause.mapM (fun lit => unitResLitToIvyLit lit symMap))

/-- The symbol of an atom. -/
def LogicLiteral.symbol (lit : LogicLiteral) : Option Const :=
  match lit.atom with
  | .apply f _ => some f
  | .const c => some c
  | _ => none

/-- The first symbol of a name in the clauses. -/
def firstSymbol (cnf : List (List LogicLiteral)) (name : String) : Option Const :=
  (cnf.flatten.filterMap LogicLiteral.symbol).find? (fun sym => sym.name = name)

/-- The atom is an equality, or its symbol is the first one of its name: a constant, or a
function that takes the arguments and cannot be read as an equality. -/
def Recoverable (cnf : List (List LogicLiteral)) (lit : LogicLiteral) : Prop :=
  match lit.atom with
  | .eq _ _ => True
  | .const c => firstSymbol cnf c.name = some c
  | .apply f ts => firstSymbol cnf f.name = some f ∧ ts ≠ [] ∧ ¬ (f.name = "=" ∧ ts.length = 2) ∧
      (Expr.newApply f ts).isSome = true
  | _ => False

/-- Recording a list of symbols keeps the first one of each name. -/
theorem record_foldl (syms : List Const) (symMap : SymMap) (name : String) :
    (syms.foldl SymMap.record symMap) name =
      (symMap name).or (syms.find? (fun sym => sym.name = name)) := by
  induction syms generalizing symMap with
  | nil => simp
  | cons sym syms ih =>
    rw [List.foldl_cons, ih, List.find?_cons, SymMap.record]
    by_cases same : sym.name = name
    · subst same
      cases found : symMap sym.name with
      | none => simp
      | some c => simp [found]
    · split
      · simp [same]
      · rw [Function.update_of_ne (Ne.symm same)]
        simp [same]

theorem clause_symMap (clause : List LogicLiteral) (symMap : SymMap) :
    ivyLitsToUnitResClause printer clause symMap =
      (clause.map (fun lit => (ivyLitToUnitResLit printer lit .empty).1),
        (clause.filterMap LogicLiteral.symbol).foldl SymMap.record symMap) := by
  induction clause generalizing symMap with
  | nil => rfl
  | cons lit clause ih =>
    have step : ivyLitToUnitResLit printer lit symMap = ((ivyLitToUnitResLit printer lit .empty).1,
        (lit.symbol.toList).foldl SymMap.record symMap) := by
      unfold ivyLitToUnitResLit LogicLiteral.symbol
      cases lit.atom <;> rfl
    rw [ivyLitsToUnitResClause, step]
    simp only [ih]
    cases found : lit.symbol with
    | none => simp [found]
    | some sym => simp [found]

theorem cnf_symMap (cnf : List (List LogicLiteral)) :
    ivyLitsToUnitResClauses printer cnf =
      (cnf.map (List.map (fun lit => (ivyLitToUnitResLit printer lit .empty).1)), firstSymbol cnf) := by
  have from_ : ∀ symMap : SymMap, ivyLitsToUnitResClausesFrom printer cnf symMap =
      (cnf.map (List.map (fun lit => (ivyLitToUnitResLit printer lit .empty).1)),
        (cnf.flatten.filterMap LogicLiteral.symbol).foldl SymMap.record symMap) := by
    induction cnf with
    | nil => exact fun _ => rfl
    | cons clause cnf ih =>
      intro symMap
      rw [ivyLitsToUnitResClausesFrom, clause_symMap]
      simp only [ih]
      simp [List.filterMap_append, List.foldl_append]
  rw [ivyLitsToUnitResClauses, from_]
  refine congrArg (Prod.mk _) (funext fun name => ?_)
  rw [record_foldl]
  rfl

theorem newApply_eq {f : Const} {ts : List Expr} {e : Expr} (h : Expr.newApply f ts = some e) :
    e = .apply f ts := by
  unfold Expr.newApply at h
  split at h
  · exact (Option.some.inj h).symm
  · cases h
  · split at h
    · exact (Option.some.inj h).symm
    · cases h

/-- A literal comes back exactly when it is recoverable. -/
theorem literal_roundTrip (cnf : List (List LogicLiteral)) {lit : LogicLiteral}
    (symbol : ∀ sym, lit.symbol = some sym → (firstSymbol cnf sym.name).isSome = true) :
    unitResLitToIvyLit (ivyLitToUnitResLit printer lit .empty).1 (firstSymbol cnf) = some lit ↔
      Recoverable cnf lit := by
  obtain ⟨p, atom⟩ := lit
  have fallback : ∀ (r : String) (e : Expr), (∀ c, e ≠ .const c) →
      unitResLitToIvyLit ⟨p, ⟨r, []⟩⟩ (firstSymbol cnf) ≠ some ⟨p, e⟩ := by
    intro r e ne h
    simp [unitResLitToIvyLit] at h
    exact ne _ h.symm
  cases atom with
  | eq a b => simp [ivyLitToUnitResLit, unitResLitToIvyLit, Recoverable]
  | const c =>
    obtain ⟨d, hd⟩ := Option.isSome_iff_exists.mp (symbol c rfl)
    simp [ivyLitToUnitResLit, unitResLitToIvyLit, Recoverable, hd]
  | apply f ts =>
    obtain ⟨g, hg⟩ := Option.isSome_iff_exists.mp (symbol f rfl)
    simp only [ivyLitToUnitResLit, unitResLitToIvyLit, Recoverable, hg, Option.getD_some]
    split
    · rename_i equality
      refine iff_of_false (fun h => ?_) fun h => h.2.2.1 equality
      split at h
      · cases h
      · cases h
    · rename_i other
      split
      · rename_i empty
        exact iff_of_false (fun h => by cases h) fun h => h.2.1 empty
      · rename_i nonempty
        constructor
        · intro h
          rw [Option.map_eq_some_iff] at h
          obtain ⟨e, he, eq⟩ := h
          obtain rfl := newApply_eq he
          cases eq
          exact ⟨rfl, nonempty, other, by rw [he]; rfl⟩
        · rintro ⟨same, -, -, accepts⟩
          obtain rfl := Option.some.inj same
          obtain ⟨e, he⟩ := Option.isSome_iff_exists.mp accepts
          rw [he, newApply_eq he]
          rfl
  | _ => exact iff_of_false (fallback _ _ fun c h => by cases h) fun h => h

/-- The conversion is lossless exactly on clauses of recoverable literals. -/
theorem roundTrip_lossless (cnf : List (List LogicLiteral)) :
    roundTrip printer cnf = some cnf ↔ ∀ clause ∈ cnf, ∀ lit ∈ clause, Recoverable cnf lit := by
  rw [roundTrip, cnf_symMap]
  simp only
  rw [mapM_eq_some_self]
  refine forall₂_congr fun clause hclause => ?_
  rw [mapM_eq_some_self]
  refine forall₂_congr fun lit hlit => literal_roundTrip printer cnf fun sym hsym => ?_
  rw [firstSymbol, List.find?_isSome]
  refine ⟨sym, List.mem_filterMap.mpr ⟨lit, List.mem_flatten.mpr ⟨clause, hclause, hlit⟩, hsym⟩, ?_⟩
  simp

/-- A relation name at two sorts. -/
theorem roundTrip_overloaded : ¬ ∀ (printer : Expr → String) (cnf : List (List LogicLiteral)),
    roundTrip printer cnf = some cnf := by
  intro claim
  let less (s : FSort) : LogicLiteral := ⟨true, .apply ⟨"<", .function [s, s] .boolean⟩
    [.var ⟨"X", s⟩, .var ⟨"Y", s⟩]⟩
  have lossless := claim (fun _ => "") [[less (.uninterpreted "s")], [less (.uninterpreted "t")]]
  have panics : roundTrip (fun _ => "") [[less (.uninterpreted "s")], [less (.uninterpreted "t")]] = none := by
    rfl
  rw [panics] at lossless
  cases lossless

end Goivy
