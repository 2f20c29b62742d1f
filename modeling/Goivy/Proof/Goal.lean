import Goivy.Module.Clauses

/-! Goals of the proof checker: labeled formulas with premises. -/
namespace Goivy

/-- What a goal concludes. A definition schema is no definition: the two are
different types in the source. -/
inductive Conclusion where
  | formula (e : Expr)
  | definition (d : Definition)
  | definitionSchema (d : Definition)

/-- A premise: a sort, the declaration of a symbol, or a goal. The compiler wraps the
symbol it declares in a node of its own. -/
inductive Premise where
  | sort (name : String)
  | constantDecl (compiled : Bool) (c : Const)
  | goal (label : Option String) (prems : List Premise) (conc : Conclusion)

/-- A goal. Without premises its formula is the conclusion itself. -/
structure LabeledFormula where
  label : Option String
  prems : List Premise
  conc : Conclusion

namespace Expr

/-- `makeBin`. -/
def makeBin (proto : List Expr → Expr) (first : Expr) : List Expr → Expr
  | [] => first
  | e :: rest => makeBin proto (proto [first, e]) rest

/-- `makeQuant`. -/
def makeQuant (proto : List Variable → Expr → Expr) : List Variable → Expr → Expr
  | [], body => body
  | v :: vars, body => proto [v] (makeQuant proto vars body)

def sortVars (vs : List Variable) : List Variable := vs.insertionSort (fun v w => v.name ≤ w.name)

mutual
/-- `NormalizeOps`: binary conjunctions and disjunctions, and quantifiers of one
variable each. -/
def normalizeOps : Expr → Expr
  | .var v => .var v
  | .const c => .const c
  | .apply f ts => .apply f (normalizeOpsList ts)
  | .eq a b => .eq a.normalizeOps b.normalizeOps
  | .not a => .not a.normalizeOps
  | .and ts =>
    match normalizeOpsList ts with
    | [] => .and []
    | first :: rest => makeBin .and first rest
  | .or ts =>
    match normalizeOpsList ts with
    | [] => .or []
    | first :: rest => makeBin .or first rest
  | .implies a b => .implies a.normalizeOps b.normalizeOps
  | .iff a b => .iff a.normalizeOps b.normalizeOps
  | .ite c a b => .ite c.normalizeOps a.normalizeOps b.normalizeOps
  | .forAll vs a => makeQuant .forAll (sortVars vs) a.normalizeOps
  | .exists vs a => makeQuant .exists (sortVars vs) a.normalizeOps
  | .some vs a => .some vs a.normalizeOps
  | .someElse vs a b c => .someElse vs a.normalizeOps b.normalizeOps c.normalizeOps
def normalizeOpsList : List Expr → List Expr
  | [] => []
  | t :: ts => t.normalizeOps :: normalizeOpsList ts
end

end Expr

def Conclusion.normalizeOps : Conclusion → Conclusion
  | .formula e => .formula e.normalizeOps
  | .definition d => .definition ⟨d.lhs.normalizeOps, d.rhs.normalizeOps⟩
  | .definitionSchema d => .definitionSchema d

def Conclusion.symbols : Conclusion → List Const
  | .formula e => e.symbols
  | .definition d | .definitionSchema d => d.symbols

namespace Premise

mutual
/-- `normalizeGoalAny`. -/
def normalize : Premise → Premise
  | .sort n => .sort n
  | .constantDecl compiled c => .constantDecl compiled c
  | .goal label prems conc => .goal label (normalizeList prems) conc.normalizeOps
def normalizeList : List Premise → List Premise
  | [] => []
  | p :: ps => p.normalize :: normalizeList ps
end

mutual
/-- The symbols that the formulas of a premise use, in nested goals too. -/
def usedSymbols : Premise → List Const
  | .sort _ | .constantDecl _ _ => []
  | .goal _ prems conc => usedSymbolsList prems ++ conc.symbols
def usedSymbolsList : List Premise → List Const
  | [] => []
  | p :: ps => p.usedSymbols ++ usedSymbolsList ps
end

mutual
/-- `collectStaleSymbols`: it does not look into the nodes of the compiler. -/
def staleSymbols : Premise → List Const
  | .sort _ => []
  | .constantDecl compiled c => if compiled then [] else [c]
  | .goal _ prems conc => staleSymbolsList prems ++ conc.symbols
def staleSymbolsList : List Premise → List Const
  | [] => []
  | p :: ps => p.staleSymbols ++ staleSymbolsList ps
end

mutual
theorem usedSymbols_subset : ∀ p : Premise, ∀ c ∈ p.usedSymbols, c ∈ p.staleSymbols
  | .sort _, _, hc => hc
  | .constantDecl _ _, _, hc => absurd hc List.not_mem_nil
  | .goal _ prems _, c, hc =>
    List.mem_append.mpr ((List.mem_append.mp hc).imp (usedSymbolsList_subset prems c) id)
theorem usedSymbolsList_subset : ∀ ps : List Premise, ∀ c ∈ usedSymbolsList ps, c ∈ staleSymbolsList ps
  | [], _, hc => hc
  | p :: ps, c, hc =>
    List.mem_append.mpr ((List.mem_append.mp hc).imp (usedSymbols_subset p c)
      (usedSymbolsList_subset ps c))
end

end Premise

namespace LabeledFormula

variable (g : LabeledFormula)

/-- `LabelName`. -/
def labelName : String := g.label.getD ""

/-- `NormalizeGoal`. -/
def normalize : LabeledFormula :=
  ⟨g.label, Premise.normalizeList g.prems, g.conc.normalizeOps⟩

/-- The goal is a definition when its formula is one, so it has no premises. -/
def definition? : Option Definition :=
  match g.prems, g.conc with
  | [], .definition d => some d
  | _, _ => none

def usedSymbols : List Const := Premise.usedSymbolsList g.prems ++ g.conc.symbols

def staleSymbols : List Const := Premise.staleSymbolsList g.prems ++ g.conc.symbols

theorem usedSymbols_subset : ∀ c ∈ g.usedSymbols, c ∈ g.staleSymbols := fun c hc =>
  List.mem_append.mpr ((List.mem_append.mp hc).imp (Premise.usedSymbolsList_subset g.prems c) id)

/-- The `Symbols` of `GoalVocab`. -/
def vocabSymbols : List Const := g.prems.filterMap fun
  | .constantDecl _ c => some c
  | _ => none

/-- The name occurs in the formulas of the goal. -/
def Uses (name : String) : Prop := name ∈ g.usedSymbols.map Const.name

/-- The goal defines the name. -/
def Defines (name : String) : Prop :=
  ∃ d c, g.definition? = some d ∧ d.defines = .const c ∧ c.name = name

end LabeledFormula

end Goivy
