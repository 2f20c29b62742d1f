import Goivy.UnitRes.CongClos
import Goivy.Util.Sexp

/-! Structural keys of the nodes of formulas, sorts and definitions. -/
namespace Goivy

structure LogicVariable where
  name : String
  sort : LSort
deriving DecidableEq

/-- The implementations of `Expr` that have their keys in one file; sorts have a type of their
own. -/
inductive LogicExpr where
  | var (v : LogicVariable)
  | const (name : String) (sort : LSort)
  | apply (func : LogicExpr) (terms : List LogicExpr)
  | eq (t1 t2 : LogicExpr)
  | not (body : LogicExpr)
  | and (terms : List LogicExpr)
  | or (terms : List LogicExpr)
  | implies (t1 t2 : LogicExpr)
  | iff (t1 t2 : LogicExpr)
  | ite (cond thenExpr elseExpr : LogicExpr)
  | globally (environ : Option String) (body : LogicExpr)
  | eventually (environ : Option String) (body : LogicExpr)
  | whenOperator (name : String) (t1 t2 : LogicExpr)
  | cond (t1 t2 : LogicExpr)
  | forAll (vars : List LogicVariable) (body : LogicExpr)
  | rawForAll (rawNames : Bool) (vars : List LogicVariable) (body : LogicExpr)
  | exists_ (vars : List LogicVariable) (body : LogicExpr)
  | lambda (vars : List LogicVariable) (body : LogicExpr)
  | namedBinder (name : String) (vars : List LogicVariable) (environ : Option String)
    (body : LogicExpr)
  | definition (lhs rhs : LogicExpr)
  | definitionSchema (lhs rhs : LogicExpr)

/-- A node's key: its tag, and each field with its label. -/
def sexpNode (tag : String) (fields : List (String × String)) : String :=
  "(" ++ tag ++ String.join (fields.map fun p => " " ++ p.1 ++ ":" ++ p.2) ++ ")"

def sexpList (parts : List String) : String := "[" ++ " ".intercalate parts ++ "]"

def LogicVariable.sexp (v : LogicVariable) : String :=
  sexpNode "Variable" [("name", v.name), ("sort", v.sort.sexp)]

/-- `VarsSexp`: the variables in the order of their keys. -/
def varsSexp (vars : List LogicVariable) : String :=
  sexpList ((vars.map LogicVariable.sexp).mergeSort fun a b => a ≤ b)

namespace LogicExpr

mutual
def sexp : LogicExpr → String
  | var v => v.sexp
  | const name sort => sexpNode "Symbol" [("name", name), ("sort", sort.sexp)]
  | apply func terms => sexpNode "Apply" [("func", func.sexp), ("terms", sexpList (sexps terms))]
  | eq t1 t2 => sexpNode "Eq" [("t1", t1.sexp), ("t2", t2.sexp)]
  | not body => sexpNode "Not" [("body", body.sexp)]
  | and terms => sexpNode "And" [("terms", sexpList (sexps terms))]
  | or terms => sexpNode "Or" [("terms", sexpList (sexps terms))]
  | implies t1 t2 => sexpNode "Implies" [("t1", t1.sexp), ("t2", t2.sexp)]
  | iff t1 t2 => sexpNode "Iff" [("t1", t1.sexp), ("t2", t2.sexp)]
  | ite c t e => sexpNode "Ite" [("cond", c.sexp), ("then", t.sexp), ("else", e.sexp)]
  | globally environ body =>
    sexpNode "Globally" [("environ", environ.getD "nil"), ("body", body.sexp)]
  | eventually environ body =>
    sexpNode "Eventually" [("environ", environ.getD "nil"), ("body", body.sexp)]
  | whenOperator name t1 t2 =>
    sexpNode "WhenOperator" [("name", name), ("t1", t1.sexp), ("t2", t2.sexp)]
  | cond t1 t2 => sexpNode "Cond" [("t1", t1.sexp), ("t2", t2.sexp)]
  | forAll vars body => sexpNode "ForAll" [("vars", varsSexp vars), ("body", body.sexp)]
  | rawForAll raw vars body => sexpNode "RawForAll"
      [("raw", if raw then "true" else "false"), ("vars", varsSexp vars), ("body", body.sexp)]
  | exists_ vars body => sexpNode "Exists" [("vars", varsSexp vars), ("body", body.sexp)]
  | lambda vars body => sexpNode "Lambda" [("vars", varsSexp vars), ("body", body.sexp)]
  | namedBinder name vars environ body => sexpNode "NamedBinder"
      [("name", name), ("environ", environ.getD "nil"), ("vars", varsSexp vars), ("body", body.sexp)]
  | definition lhs rhs => sexpNode "Def" [("lhs", lhs.sexp), ("rhs", rhs.sexp)]
  | definitionSchema lhs rhs => sexpNode "DefSchema" [("lhs", lhs.sexp), ("rhs", rhs.sexp)]

def sexps : List LogicExpr → List String
  | [] => []
  | t :: ts => t.sexp :: sexps ts
end

end LogicExpr

/-- `Key`, of nodes that are not nil. -/
def nodeKey (n : LogicExpr) : String := n.sexp

def sortVars (vars : List LogicVariable) : List LogicVariable :=
  vars.mergeSort fun v w => v.sexp ≤ w.sexp

namespace LogicExpr

mutual
/-- The expression with the variables of each `ForAll` and `Exists` in one order. With `loose`,
those of the other binders too, and with an absent environment read as the name `nil`. -/
def arrange (loose : Bool) : LogicExpr → LogicExpr
  | var v => var v
  | const name sort => const name sort
  | apply func terms => apply (func.arrange loose) (arrangeList loose terms)
  | eq t1 t2 => eq (t1.arrange loose) (t2.arrange loose)
  | not body => not (body.arrange loose)
  | and terms => and (arrangeList loose terms)
  | or terms => or (arrangeList loose terms)
  | implies t1 t2 => implies (t1.arrange loose) (t2.arrange loose)
  | iff t1 t2 => iff (t1.arrange loose) (t2.arrange loose)
  | ite c t e => ite (c.arrange loose) (t.arrange loose) (e.arrange loose)
  | globally environ body =>
    globally (if loose then some (environ.getD "nil") else environ) (body.arrange loose)
  | eventually environ body =>
    eventually (if loose then some (environ.getD "nil") else environ) (body.arrange loose)
  | whenOperator name t1 t2 => whenOperator name (t1.arrange loose) (t2.arrange loose)
  | cond t1 t2 => cond (t1.arrange loose) (t2.arrange loose)
  | forAll vars body => forAll (sortVars vars) (body.arrange loose)
  | rawForAll raw vars body =>
    rawForAll raw (if loose then sortVars vars else vars) (body.arrange loose)
  | exists_ vars body => exists_ (sortVars vars) (body.arrange loose)
  | lambda vars body => lambda (if loose then sortVars vars else vars) (body.arrange loose)
  | namedBinder name vars environ body => namedBinder name (if loose then sortVars vars else vars)
      (if loose then some (environ.getD "nil") else environ) (body.arrange loose)
  | definition lhs rhs => definition (lhs.arrange loose) (rhs.arrange loose)
  | definitionSchema lhs rhs => definitionSchema (lhs.arrange loose) (rhs.arrange loose)

def arrangeList (loose : Bool) : List LogicExpr → List LogicExpr
  | [] => []
  | t :: ts => t.arrange loose :: arrangeList loose ts
end

/-- The same expression up to the order of the bound variables of `ForAll` and `Exists`. -/
def Same (a b : LogicExpr) : Prop := a.arrange false = b.arrange false

/-- Different expressions that agree up to the order of the bound variables of every binder and
up to an absent environment. -/
def Confusable (a b : LogicExpr) : Prop := a.arrange true = b.arrange true ∧ ¬ a.Same b

end LogicExpr

/-- A text with no space or closing parenthesis outside quotes. -/
def PlainText (s : String) : Prop := Sexp.scan Sexp.space false s.toList

/-- A name: also, it does not begin with an opening parenthesis or bracket. -/
def PlainName (s : String) : Prop := Sexp.Name s.toList

/-- A name that can stand in the extension of an enumerated sort. -/
def PlainItem (s : String) : Prop := s ≠ "" ∧ PlainText s ∧
  Sexp.scan (fun c => c = ',' || c = ']') false s.toList

/-- What `scanSymbol` and `scanVariable` accept: no quote, space or parenthesis. -/
theorem plainName_word {s : String} (word : ∀ c ∈ s.toList, c ∉ ['"', ' ', '(', ')'])
    (first : s.toList.head? ≠ some '[') : PlainName s := by
  refine ⟨?_, fun bracket => ?_, first⟩
  · clear first
    generalize s.toList = cs at word
    induction cs with
    | nil => rfl
    | cons c cs ih =>
      obtain ⟨here, rest⟩ := List.forall_mem_cons.mp word
      simp only [List.mem_cons, List.not_mem_nil, or_false, not_or] at here
      rw [Sexp.scan, if_neg here.1, ih rest]
      simp [Sexp.space, here.2]
  · exact word '(' (List.mem_of_mem_head? bracket) (by decide)

/-- What `scanQuotedString` gives. -/
theorem plainName_quoted {s : String} {cs : List Char} (text : s.toList = '"' :: cs ++ ['"'])
    (inner : '"' ∉ cs) : PlainName s := by
  have scanned : ∀ cs : List Char, '"' ∉ cs → Sexp.scan Sexp.space true (cs ++ ['"']) := by
    intro cs inner
    induction cs with
    | nil => rfl
    | cons c cs ih =>
      rw [List.mem_cons, not_or] at inner
      rw [List.cons_append, Sexp.scan, if_neg (Ne.symm inner.1), ih inner.2]
      rfl
  rw [PlainName, text]
  exact ⟨scanned cs inner, by simp, by simp⟩

def FSort.Plain : FSort → Prop
  | .boolean => True
  | .uninterpreted n | .top n => PlainText n
  | .enumerated n ext => PlainText n ∧ ∀ e ∈ ext, PlainItem e
  | .range n lb ub => PlainText n ∧ PlainText lb ∧ PlainText ub

def LSort.Plain : LSort → Prop
  | .first s => s.Plain
  | .function dom r => (∀ s ∈ dom, s.Plain) ∧ r.Plain

def LogicVariable.Plain (v : LogicVariable) : Prop := PlainName v.name ∧ v.sort.Plain

namespace LogicExpr

mutual
/-- All names are as the lexer admits them. -/
def Plain : LogicExpr → Prop
  | var v => v.Plain
  | const name sort => PlainName name ∧ sort.Plain
  | apply func terms => func.Plain ∧ PlainList terms
  | not body => body.Plain
  | and terms | or terms => PlainList terms
  | ite c t e => c.Plain ∧ t.Plain ∧ e.Plain
  | globally environ body | eventually environ body => (∀ n ∈ environ, PlainName n) ∧ body.Plain
  | whenOperator name t1 t2 => PlainName name ∧ t1.Plain ∧ t2.Plain
  | forAll vars body | rawForAll _ vars body | exists_ vars body | lambda vars body =>
    (∀ v ∈ vars, v.Plain) ∧ body.Plain
  | namedBinder name vars environ body => PlainName name ∧ (∀ v ∈ vars, v.Plain) ∧
      (∀ n ∈ environ, PlainName n) ∧ body.Plain
  | eq t1 t2 | implies t1 t2 | iff t1 t2 | cond t1 t2 | definition t1 t2 | definitionSchema t1 t2 =>
    t1.Plain ∧ t2.Plain

def PlainList : List LogicExpr → Prop
  | [] => True
  | t :: ts => t.Plain ∧ PlainList ts
end

end LogicExpr

end Goivy
