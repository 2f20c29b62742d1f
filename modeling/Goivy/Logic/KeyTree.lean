import Goivy.Logic.Key

/-! Keys as printed trees. -/
namespace Goivy

def sortTags : List String :=
  ["BooleanSort", "UninterpretedSort", "EnumeratedSort", "RangeSort", "TopSort"]

def isSortTag (tag : List Char) : Bool := tag ∈ sortTags.map String.toList

def FSort.tag : FSort → String
  | .boolean => "BooleanSort"
  | .uninterpreted _ => "UninterpretedSort"
  | .enumerated _ _ => "EnumeratedSort"
  | .range _ _ _ => "RangeSort"
  | .top _ => "TopSort"

def FSort.fields : FSort → List (String × String)
  | .boolean => []
  | .uninterpreted n | .top n => [("name", n)]
  | .enumerated n ext => [("name", n), ("ext", "[" ++ ",".intercalate ext ++ "]")]
  | .range n lb ub => [("name", n), ("lb", lb), ("ub", ub)]

def FSort.tree (s : FSort) : Sexp :=
  .leaf s.tag.toList (s.fields.map fun p => (p.1.toList, p.2.toList))

/-- A node whose fields are trees. -/
def tagged (tag : String) (fields : List (String × Sexp)) : Sexp :=
  .node tag.toList (fields.map fun p => (p.1.toList, p.2))

def LSort.tree : LSort → Sexp
  | .first s => s.tree
  | .function dom r =>
    tagged "FunctionSort" [("sorts", .list ((dom ++ [r]).map FSort.tree))]

def LogicVariable.tree (v : LogicVariable) : Sexp :=
  tagged "Variable" [("name", .atom v.name.toList), ("sort", v.sort.tree)]

def varsTree (vars : List LogicVariable) : Sexp := .list ((sortVars vars).map LogicVariable.tree)

namespace LogicExpr

mutual
def tree : LogicExpr → Sexp
  | var v => v.tree
  | const name sort => tagged "Symbol" [("name", .atom name.toList), ("sort", sort.tree)]
  | apply func terms => tagged "Apply" [("func", func.tree), ("terms", .list (trees terms))]
  | eq t1 t2 => tagged "Eq" [("t1", t1.tree), ("t2", t2.tree)]
  | not body => tagged "Not" [("body", body.tree)]
  | and terms => tagged "And" [("terms", .list (trees terms))]
  | or terms => tagged "Or" [("terms", .list (trees terms))]
  | implies t1 t2 => tagged "Implies" [("t1", t1.tree), ("t2", t2.tree)]
  | iff t1 t2 => tagged "Iff" [("t1", t1.tree), ("t2", t2.tree)]
  | ite c t e => tagged "Ite" [("cond", c.tree), ("then", t.tree), ("else", e.tree)]
  | globally environ body => tagged "Globally"
      [("environ", .atom (environ.getD "nil").toList), ("body", body.tree)]
  | eventually environ body => tagged "Eventually"
      [("environ", .atom (environ.getD "nil").toList), ("body", body.tree)]
  | whenOperator name t1 t2 => tagged "WhenOperator"
      [("name", .atom name.toList), ("t1", t1.tree), ("t2", t2.tree)]
  | cond t1 t2 => tagged "Cond" [("t1", t1.tree), ("t2", t2.tree)]
  | forAll vars body => tagged "ForAll" [("vars", varsTree vars), ("body", body.tree)]
  | rawForAll raw vars body => tagged "RawForAll"
      [("raw", .atom (if raw then "true" else "false").toList), ("vars", varsTree vars),
        ("body", body.tree)]
  | exists_ vars body => tagged "Exists" [("vars", varsTree vars), ("body", body.tree)]
  | lambda vars body => tagged "Lambda" [("vars", varsTree vars), ("body", body.tree)]
  | namedBinder name vars environ body => tagged "NamedBinder"
      [("name", .atom name.toList), ("environ", .atom (environ.getD "nil").toList),
        ("vars", varsTree vars), ("body", body.tree)]
  | definition lhs rhs => tagged "Def" [("lhs", lhs.tree), ("rhs", rhs.tree)]
  | definitionSchema lhs rhs => tagged "DefSchema" [("lhs", lhs.tree), ("rhs", rhs.tree)]

def trees : List LogicExpr → List Sexp
  | [] => []
  | t :: ts => t.tree :: trees ts
end

end LogicExpr

/-! ### The keys print the trees -/

theorem print_list (items : List Sexp) : Sexp.print (.list items) =
    '[' :: ([' '].intercalate (items.map Sexp.print) ++ [']']) := by
  have tail : ∀ items : List Sexp, ∀ item, Sexp.print item ++ Sexp.printItems items =
      [' '].intercalate ((item :: items).map Sexp.print) := by
    intro items
    induction items with
    | nil => intro item; simp [Sexp.printItems]
    | cons next items ih =>
      intro item
      rw [List.map_cons, List.map_cons, List.intercalate_cons_cons, ← List.map_cons, ← ih next]
      simp [Sexp.printItems]
  cases items with
  | nil => rfl
  | cons item items => rw [Sexp.print, ← tail]; simp

theorem toList_sexpList {parts : List String} {items : List Sexp}
    (same : parts.map String.toList = items.map Sexp.print) :
    (sexpList parts).toList = (Sexp.list items).print := by
  rw [print_list, sexpList, String.toList_append, String.toList_append, String.toList_intercalate, same]
  rfl

theorem toList_sexpList_map {α : Type} {f : α → String} {g : α → Sexp}
    (same : ∀ x, (f x).toList = (g x).print) (xs : List α) :
    (sexpList (xs.map f)).toList = (Sexp.list (xs.map g)).print := by
  apply toList_sexpList
  rw [List.map_map, List.map_map]
  exact List.map_congr_left fun x _ => same x

/-- A field and what it prints. -/
def Prints (p : String × String) (q : String × Sexp) : Prop := p.1 = q.1 ∧ p.2.toList = q.2.print

theorem toList_sexpNode (tag : String) {fields : List (String × String)}
    {trees : List (String × Sexp)} (same : List.Forall₂ Prints fields trees) :
    (sexpNode tag fields).toList = (tagged tag trees).print := by
  have inner : (String.join (fields.map fun p => " " ++ p.1 ++ ":" ++ p.2)).toList =
      Sexp.printFields (trees.map fun p => (p.1.toList, p.2)) := by
    induction same with
    | nil => rfl
    | cons head _ ih =>
      rw [List.map_cons, List.map_cons, String.join_cons, String.toList_append, ih, Sexp.printFields]
      simp [head.1, head.2]
  simp only [sexpNode, tagged, Sexp.print, String.toList_append, inner]
  rfl

/-- A leaf with its texts. -/
theorem print_leaf (tag : String) (fields : List (String × String)) :
    (sexpNode tag fields).toList =
      (Sexp.leaf tag.toList (fields.map fun p => (p.1.toList, p.2.toList))).print := by
  have inner : (String.join (fields.map fun p => " " ++ p.1 ++ ":" ++ p.2)).toList =
      Sexp.printTexts (fields.map fun p => (p.1.toList, p.2.toList)) := by
    induction fields with
    | nil => rfl
    | cons head fields ih =>
      rw [List.map_cons, List.map_cons, String.join_cons, String.toList_append, ih, Sexp.printTexts]
      simp
  simp only [sexpNode, Sexp.print, String.toList_append, inner]
  rfl

theorem FSort.sexp_eq (s : FSort) : s.sexp = sexpNode s.tag s.fields := by
  cases s with
  | boolean =>
    have text : "(BooleanSort)" = "(" ++ "BooleanSort" ++ "" ++ ")" := by simp
    exact text
  | uninterpreted n =>
    have text : "(UninterpretedSort name:" = "(" ++ "UninterpretedSort" ++ (" " ++ "name" ++ ":") := by
      simp
    change "(UninterpretedSort name:" ++ n ++ ")" = _
    simp only [text, sexpNode, tag, fields, String.append_assoc, List.map_cons, List.map_nil,
      String.join_cons, String.join_nil, String.empty_append]
  | enumerated n ext =>
    have text : "(EnumeratedSort name:" = "(" ++ "EnumeratedSort" ++ (" " ++ "name" ++ ":") := by simp
    have label : " ext:[" = " " ++ "ext" ++ ":" ++ "[" := by simp
    have close : "])" = "]" ++ ")" := by simp
    change "(EnumeratedSort name:" ++ n ++ " ext:[" ++ ",".intercalate ext ++ "])" = _
    simp only [text, label, close, sexpNode, tag, fields, String.append_assoc, List.map_cons,
      List.map_nil, String.join_cons, String.join_nil, String.empty_append]
  | range n lb ub =>
    have text : "(RangeSort name:" = "(" ++ "RangeSort" ++ (" " ++ "name" ++ ":") := by simp
    have label : " lb:" = " " ++ "lb" ++ ":" := by simp
    have label' : " ub:" = " " ++ "ub" ++ ":" := by simp
    change "(RangeSort name:" ++ n ++ " lb:" ++ lb ++ " ub:" ++ ub ++ ")" = _
    simp only [text, label, label', sexpNode, tag, fields, String.append_assoc, List.map_cons,
      List.map_nil, String.join_cons, String.join_nil, String.empty_append]
  | top n =>
    have text : "(TopSort name:" = "(" ++ "TopSort" ++ (" " ++ "name" ++ ":") := by simp
    change "(TopSort name:" ++ n ++ ")" = _
    simp only [text, sexpNode, tag, fields, String.append_assoc, List.map_cons, List.map_nil,
      String.join_cons, String.join_nil, String.empty_append]

theorem FSort.toList_sexp (s : FSort) : s.sexp.toList = s.tree.print := by
  rw [s.sexp_eq]
  exact print_leaf _ _

theorem LSort.toList_sexp (s : LSort) : s.sexp.toList = s.tree.print := by
  cases s with
  | first s => exact s.toList_sexp
  | function dom r =>
    have field : sexpNode "FunctionSort" [("sorts", sexpList ((dom ++ [r]).map FSort.sexp))] =
        (LSort.function dom r).sexp := by
      have text : "(FunctionSort sorts:[" = "(" ++ "FunctionSort" ++ (" " ++ "sorts" ++ ":") ++ "[" := by
        simp
      have close : "])" = "]" ++ ")" := by simp
      change _ = "(FunctionSort sorts:[" ++ " ".intercalate ((dom ++ [r]).map FSort.sexp) ++ "])"
      simp only [text, close, sexpNode, sexpList, String.append_assoc, List.map_cons, List.map_nil,
        String.join_cons, String.join_nil, String.empty_append]
    rw [← field]
    exact toList_sexpNode _ (.cons ⟨rfl, toList_sexpList_map FSort.toList_sexp _⟩ .nil)

theorem LogicVariable.toList_sexp (v : LogicVariable) : v.sexp.toList = v.tree.print :=
  toList_sexpNode _ (.cons ⟨rfl, rfl⟩ (.cons ⟨rfl, v.sort.toList_sexp⟩ .nil))

theorem toList_varsSexp (vars : List LogicVariable) :
    (varsSexp vars).toList = (varsTree vars).print := by
  have order : (sortVars vars).map LogicVariable.sexp =
      (vars.map LogicVariable.sexp).mergeSort (fun a b => a ≤ b) :=
    List.map_mergeSort fun _ _ _ _ => rfl
  rw [varsTree, ← toList_sexpList_map LogicVariable.toList_sexp,
    varsSexp, order]

namespace LogicExpr

mutual
theorem toList_sexp : ∀ e : LogicExpr, e.sexp.toList = e.tree.print
  | var v => v.toList_sexp
  | const _ sort => toList_sexpNode _ (.cons ⟨rfl, rfl⟩ (.cons ⟨rfl, sort.toList_sexp⟩ .nil))
  | apply func terms =>
    toList_sexpNode _ (.cons ⟨rfl, func.toList_sexp⟩ (.cons ⟨rfl, toList_sexpList (toList_sexps terms)⟩ .nil))
  | not body => toList_sexpNode _ (.cons ⟨rfl, body.toList_sexp⟩ .nil)
  | and terms | or terms => toList_sexpNode _ (.cons ⟨rfl, toList_sexpList (toList_sexps terms)⟩ .nil)
  | eq t1 t2 | implies t1 t2 | iff t1 t2 | cond t1 t2 | definition t1 t2 | definitionSchema t1 t2 =>
    toList_sexpNode _ (.cons ⟨rfl, t1.toList_sexp⟩ (.cons ⟨rfl, t2.toList_sexp⟩ .nil))
  | ite c t e => toList_sexpNode _
      (.cons ⟨rfl, c.toList_sexp⟩ (.cons ⟨rfl, t.toList_sexp⟩ (.cons ⟨rfl, e.toList_sexp⟩ .nil)))
  | globally _ body | eventually _ body =>
    toList_sexpNode _ (.cons ⟨rfl, rfl⟩ (.cons ⟨rfl, body.toList_sexp⟩ .nil))
  | whenOperator _ t1 t2 => toList_sexpNode _
      (.cons ⟨rfl, rfl⟩ (.cons ⟨rfl, t1.toList_sexp⟩ (.cons ⟨rfl, t2.toList_sexp⟩ .nil)))
  | forAll vars body | exists_ vars body | lambda vars body =>
    toList_sexpNode _ (.cons ⟨rfl, toList_varsSexp vars⟩ (.cons ⟨rfl, body.toList_sexp⟩ .nil))
  | rawForAll _ vars body => toList_sexpNode _
      (.cons ⟨rfl, rfl⟩ (.cons ⟨rfl, toList_varsSexp vars⟩ (.cons ⟨rfl, body.toList_sexp⟩ .nil)))
  | namedBinder _ vars _ body => toList_sexpNode _ (.cons ⟨rfl, rfl⟩ (.cons ⟨rfl, rfl⟩
      (.cons ⟨rfl, toList_varsSexp vars⟩ (.cons ⟨rfl, body.toList_sexp⟩ .nil))))

theorem toList_sexps : ∀ ts : List LogicExpr,
    (sexps ts).map String.toList = (trees ts).map Sexp.print
  | [] => rfl
  | t :: ts => by rw [sexps, trees, List.map_cons, List.map_cons, toList_sexp t, toList_sexps ts]
end

end LogicExpr

end Goivy
