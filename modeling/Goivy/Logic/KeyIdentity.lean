import Goivy.Logic.KeyTree

/-! What the keys of two expressions with plain names say when they are equal. -/
namespace Goivy

theorem map_inj_on {α β : Type} {f : α → β} {xs ys : List α}
    (inj : ∀ x ∈ xs, ∀ y ∈ ys, f x = f y → x = y) (same : xs.map f = ys.map f) : xs = ys := by
  induction xs generalizing ys with
  | nil =>
    cases ys with
    | nil => rfl
    | cons => cases same
  | cons x xs ih =>
    cases ys with
    | nil => cases same
    | cons y ys =>
      obtain ⟨head, tail⟩ := List.cons.inj same
      have rest := ih (fun x hx y hy => inj x (List.mem_cons_of_mem _ hx) y (List.mem_cons_of_mem _ hy)) tail
      rw [inj x List.mem_cons_self y List.mem_cons_self head, rest]

/-! ### The trees are proper -/

/-- A tag of a node with its labels, which are written without delimiters. -/
def plainTag (tag : String) (labels : List String) : Bool :=
  Sexp.scan Sexp.space false tag.toList && !isSortTag tag.toList &&
    labels.all fun l => Sexp.scan Sexp.colon false l.toList

def AllProper : List (String × Sexp) → Prop
  | [] => True
  | (_, value) :: fields => value.Proper isSortTag ∧ AllProper fields

theorem proper_tagged (tag : String) (labels : List String) {fields : List (String × Sexp)}
    (plain : plainTag tag labels) (labelled : fields.map Prod.fst = labels) (h : AllProper fields) :
    (tagged tag fields).Proper isSortTag := by
  rw [plainTag, Bool.and_eq_true, Bool.and_eq_true, Bool.not_eq_true', List.all_eq_true] at plain
  obtain ⟨⟨tagPlain, node⟩, labelsPlain⟩ := plain
  refine ⟨tagPlain, node, ?_⟩
  subst labelled
  clear tagPlain node
  induction fields with
  | nil => trivial
  | cons field fields ih =>
    obtain ⟨here, rest⟩ := List.forall_mem_cons.mp labelsPlain
    exact ⟨here, h.1, ih h.2 rest⟩

theorem plainText_ext {ext : List String} (plain : ∀ e ∈ ext, PlainItem e) :
    PlainText ("[" ++ ",".intercalate ext ++ "]") := by
  have items : Sexp.scan Sexp.space false ([','].intercalate (ext.map String.toList)) := by
    induction ext with
    | nil => rfl
    | cons e ext ih =>
      obtain ⟨here, rest⟩ := List.forall_mem_cons.mp plain
      cases ext with
      | nil => simpa [PlainText] using here.2.1
      | cons e' ext =>
        rw [List.map_cons, List.map_cons, List.intercalate_cons_cons, List.append_assoc,
          Sexp.scan_append here.2.1]
        exact ih rest
  rw [PlainText, String.toList_append, String.toList_append, String.toList_intercalate]
  exact (Sexp.scan_append (a := '[' :: _) items).trans rfl

theorem FSort.tag_mem (s : FSort) : s.tag ∈ sortTags := by
  cases s <;> simp [tag, sortTags]

theorem FSort.label_mem (s : FSort) : ∀ p ∈ s.fields, p.1 ∈ ["name", "ext", "lb", "ub"] := by
  cases s <;> simp [fields]

theorem FSort.plainText {s : FSort} (plain : s.Plain) : ∀ p ∈ s.fields, PlainText p.2 := by
  cases s with
  | boolean => exact fun _ mem => absurd mem List.not_mem_nil
  | uninterpreted n | top n => simpa [fields, Plain] using plain
  | enumerated n ext => simpa [fields] using ⟨plain.1, plainText_ext plain.2⟩
  | range n lb ub => simpa [fields, Plain] using plain

theorem FSort.proper {s : FSort} (plain : s.Plain) : s.tree.Proper isSortTag := by
  have tags : ∀ t ∈ sortTags, Sexp.scan Sexp.space false t.toList ∧ isSortTag t.toList := by decide
  have labels : ∀ l ∈ ["name", "ext", "lb", "ub"], Sexp.scan Sexp.colon false l.toList := by decide
  obtain ⟨text, leaf⟩ := tags s.tag s.tag_mem
  refine ⟨text, leaf, fun p mem => ?_⟩
  obtain ⟨q, field, rfl⟩ := List.mem_map.mp mem
  exact ⟨labels q.1 (s.label_mem q field), FSort.plainText plain q field⟩

theorem FSort.isNode (s : FSort) : s.tree.IsNode := trivial

theorem properItems_map {α : Type} {f : α → Sexp} {xs : List α}
    (h : ∀ x ∈ xs, (f x).IsNode ∧ (f x).Proper isSortTag) : Sexp.ProperItems isSortTag (xs.map f) := by
  induction xs with
  | nil => trivial
  | cons x xs ih =>
    obtain ⟨here, rest⟩ := List.forall_mem_cons.mp h
    exact ⟨here.1, here.2, ih rest⟩

theorem LSort.isNode (s : LSort) : s.tree.IsNode := by
  cases s <;> trivial

theorem LSort.proper {s : LSort} (plain : s.Plain) : s.tree.Proper isSortTag := by
  cases s with
  | first s => exact FSort.proper plain
  | function dom r =>
    have items : ∀ s ∈ dom ++ [r], s.tree.IsNode ∧ s.tree.Proper isSortTag := by
      intro s mem
      refine ⟨s.isNode, FSort.proper ?_⟩
      obtain mem | mem := List.mem_append.mp mem
      · exact plain.1 s mem
      · rw [List.mem_singleton.mp mem]; exact plain.2
    exact proper_tagged "FunctionSort" ["sorts"] (by decide) rfl ⟨properItems_map items, trivial⟩

theorem LogicVariable.proper {v : LogicVariable} (plain : v.Plain) : v.tree.Proper isSortTag :=
  proper_tagged "Variable" ["name", "sort"] (by decide) rfl ⟨plain.1, LSort.proper plain.2, trivial⟩

theorem mem_sortVars {vars : List LogicVariable} {v : LogicVariable} : v ∈ sortVars vars ↔ v ∈ vars :=
  List.mem_mergeSort

theorem varsTree_proper {vars : List LogicVariable} (plain : ∀ v ∈ vars, v.Plain) :
    (varsTree vars).Proper isSortTag :=
  properItems_map fun v mem => ⟨trivial, LogicVariable.proper (plain v (mem_sortVars.mp mem))⟩

theorem plainName_getD {environ : Option String} (plain : ∀ n ∈ environ, PlainName n) :
    PlainName (environ.getD "nil") := by
  cases environ with
  | none => exact ⟨by decide, by decide, by decide⟩
  | some n => exact plain n rfl

theorem plainName_raw (raw : Bool) : PlainName (if raw then "true" else "false") := by
  cases raw <;> exact ⟨by decide, by decide, by decide⟩

namespace LogicExpr

theorem isNode (e : LogicExpr) : e.tree.IsNode := by
  cases e <;> trivial

mutual
theorem proper : ∀ {e : LogicExpr}, e.Plain → e.tree.Proper isSortTag
  | var _, h => LogicVariable.proper h
  | const _ _, h =>
    proper_tagged "Symbol" ["name", "sort"] (by decide) rfl ⟨h.1, LSort.proper h.2, trivial⟩
  | apply _ _, h =>
    proper_tagged "Apply" ["func", "terms"] (by decide) rfl ⟨proper h.1, proper_trees h.2, trivial⟩
  | not _, h => proper_tagged "Not" ["body"] (by decide) rfl ⟨proper h, trivial⟩
  | and _, h => proper_tagged "And" ["terms"] (by decide) rfl ⟨proper_trees h, trivial⟩
  | or _, h => proper_tagged "Or" ["terms"] (by decide) rfl ⟨proper_trees h, trivial⟩
  | eq _ _, h => proper_tagged "Eq" ["t1", "t2"] (by decide) rfl ⟨proper h.1, proper h.2, trivial⟩
  | implies _ _, h =>
    proper_tagged "Implies" ["t1", "t2"] (by decide) rfl ⟨proper h.1, proper h.2, trivial⟩
  | iff _ _, h => proper_tagged "Iff" ["t1", "t2"] (by decide) rfl ⟨proper h.1, proper h.2, trivial⟩
  | cond _ _, h => proper_tagged "Cond" ["t1", "t2"] (by decide) rfl ⟨proper h.1, proper h.2, trivial⟩
  | definition _ _, h =>
    proper_tagged "Def" ["lhs", "rhs"] (by decide) rfl ⟨proper h.1, proper h.2, trivial⟩
  | definitionSchema _ _, h =>
    proper_tagged "DefSchema" ["lhs", "rhs"] (by decide) rfl ⟨proper h.1, proper h.2, trivial⟩
  | ite _ _ _, h => proper_tagged "Ite" ["cond", "then", "else"] (by decide) rfl
      ⟨proper h.1, proper h.2.1, proper h.2.2, trivial⟩
  | globally _ _, h => proper_tagged "Globally" ["environ", "body"] (by decide) rfl
      ⟨plainName_getD h.1, proper h.2, trivial⟩
  | eventually _ _, h => proper_tagged "Eventually" ["environ", "body"] (by decide) rfl
      ⟨plainName_getD h.1, proper h.2, trivial⟩
  | whenOperator _ _ _, h => proper_tagged "WhenOperator" ["name", "t1", "t2"] (by decide) rfl
      ⟨h.1, proper h.2.1, proper h.2.2, trivial⟩
  | forAll _ _, h =>
    proper_tagged "ForAll" ["vars", "body"] (by decide) rfl ⟨varsTree_proper h.1, proper h.2, trivial⟩
  | exists_ _ _, h =>
    proper_tagged "Exists" ["vars", "body"] (by decide) rfl ⟨varsTree_proper h.1, proper h.2, trivial⟩
  | lambda _ _, h =>
    proper_tagged "Lambda" ["vars", "body"] (by decide) rfl ⟨varsTree_proper h.1, proper h.2, trivial⟩
  | rawForAll raw _ _, h => proper_tagged "RawForAll" ["raw", "vars", "body"] (by decide) rfl
      ⟨plainName_raw raw, varsTree_proper h.1, proper h.2, trivial⟩
  | namedBinder _ _ _ _, h => proper_tagged "NamedBinder" ["name", "environ", "vars", "body"]
      (by decide) rfl ⟨h.1, plainName_getD h.2.2.1, varsTree_proper h.2.1, proper h.2.2.2, trivial⟩

theorem proper_trees : ∀ {ts : List LogicExpr}, PlainList ts → Sexp.ProperItems isSortTag (trees ts)
  | [], _ => trivial
  | t :: _, h => ⟨t.isNode, proper h.1, proper_trees h.2⟩
end

end LogicExpr

/-! ### The trees tell the nodes apart -/

theorem tagged_inj {tag tag' : String} {fields fields' : List (String × Sexp)}
    (same : tagged tag fields = tagged tag' fields') : tag = tag' ∧ fields = fields' := by
  obtain ⟨tags, same⟩ := Sexp.node.inj same
  refine ⟨String.toList_inj.mp tags, map_inj_on (fun p _ q _ eq => ?_) same⟩
  exact Prod.ext (String.toList_inj.mp (Prod.ext_iff.mp eq).1) (Prod.ext_iff.mp eq).2

theorem FSort.tree_inj {s s' : FSort} (plain : s.Plain) (plain' : s'.Plain) (same : s.tree = s'.tree) :
    s = s' := by
  obtain ⟨tags, same⟩ := Sexp.leaf.inj same
  have tags := String.toList_inj.mp tags
  have fields : s.fields = s'.fields := map_inj_on (fun p _ q _ eq => Prod.ext
    (String.toList_inj.mp (Prod.ext_iff.mp eq).1) (String.toList_inj.mp (Prod.ext_iff.mp eq).2)) same
  cases s with
  | boolean => cases s' <;> simp [tag] at tags; rfl
  | uninterpreted n => cases s' <;> simp_all [tag, FSort.fields]
  | top n => cases s' <;> simp_all [tag, FSort.fields]
  | range n lb ub => cases s' <;> simp_all [tag, FSort.fields]
  | enumerated n ext =>
    cases s' with
    | enumerated n' ext' =>
      simp only [FSort.fields, List.cons.injEq, Prod.mk.injEq, true_and, and_true] at fields
      obtain ⟨rfl, exts⟩ := fields
      have texts := congrArg String.toList exts
      simp only [String.toList_append, String.toList_intercalate] at texts
      have items : ∀ (ext : List String), (∀ e ∈ ext, PlainItem e) → ∀ x ∈ ext.map String.toList,
          x ≠ [] ∧ Sexp.scan (fun c => c = ',' || c = ']') false x := by
        intro ext plain x listed
        obtain ⟨e, mem, rfl⟩ := List.mem_map.mp listed
        exact ⟨fun nil => (plain e mem).1 (by simpa using nil), (plain e mem).2.2⟩
      have parts := Sexp.intercalate_inj rfl ',' ']' (by decide) rfl rfl
        (items ext plain.2) (items ext' plain'.2) (List.cons.inj texts).2
      rw [map_inj_on (fun _ _ _ _ => String.toList_inj.mp) parts]
    | _ => simp [tag] at tags

theorem LSort.tree_inj {s s' : LSort} (plain : s.Plain) (plain' : s'.Plain) (same : s.tree = s'.tree) :
    s = s' := by
  cases s with
  | first s =>
    cases s' with
    | first s' => rw [FSort.tree_inj plain plain' same]
    | function => cases same
  | function dom r =>
    cases s' with
    | first => cases same
    | function dom' r' =>
      obtain ⟨_, fields⟩ := tagged_inj same
      simp only [List.cons.injEq, Prod.mk.injEq, true_and, and_true, Sexp.list.injEq] at fields
      have sorts : dom ++ [r] = dom' ++ [r'] := by
        refine map_inj_on (fun s hs s' hs' => FSort.tree_inj ?_ ?_) fields
        · obtain mem | mem := List.mem_append.mp hs
          · exact plain.1 s mem
          · rw [List.mem_singleton.mp mem]; exact plain.2
        · obtain mem | mem := List.mem_append.mp hs'
          · exact plain'.1 s' mem
          · rw [List.mem_singleton.mp mem]; exact plain'.2
      obtain ⟨rfl, last⟩ := List.append_inj' sorts rfl
      rw [List.singleton_inj.mp last]

theorem LogicVariable.tree_inj {v w : LogicVariable} (plain : v.Plain) (plain' : w.Plain)
    (same : v.tree = w.tree) : v = w := by
  obtain ⟨_, fields⟩ := tagged_inj same
  simp only [List.cons.injEq, Prod.mk.injEq, true_and, and_true, Sexp.atom.injEq] at fields
  cases v
  cases w
  rw [LogicVariable.mk.injEq]
  exact ⟨String.toList_inj.mp fields.1, LSort.tree_inj plain.2 plain'.2 fields.2⟩

theorem varsTree_inj {vars vars' : List LogicVariable} (plain : ∀ v ∈ vars, v.Plain)
    (plain' : ∀ v ∈ vars', v.Plain) (same : varsTree vars = varsTree vars') :
    sortVars vars = sortVars vars' :=
  map_inj_on (fun v hv w hw => LogicVariable.tree_inj (plain v (mem_sortVars.mp hv))
    (plain' w (mem_sortVars.mp hw))) (Sexp.list.inj same)

section Fields

variable {tag k l m n : String} {x y z w x' y' z' w' : Sexp}

theorem tagged_one (same : tagged tag [(k, x)] = tagged tag [(k, x')]) : x = x' := by
  simpa using (tagged_inj same).2

theorem tagged_two (same : tagged tag [(k, x), (l, y)] = tagged tag [(k, x'), (l, y')]) :
    x = x' ∧ y = y' := by
  simpa using (tagged_inj same).2

theorem tagged_three (same : tagged tag [(k, x), (l, y), (m, z)] =
    tagged tag [(k, x'), (l, y'), (m, z')]) : x = x' ∧ y = y' ∧ z = z' := by
  simpa using (tagged_inj same).2

theorem tagged_four (same : tagged tag [(k, x), (l, y), (m, z), (n, w)] =
    tagged tag [(k, x'), (l, y'), (m, z'), (n, w')]) : x = x' ∧ y = y' ∧ z = z' ∧ w = w' := by
  simpa using (tagged_inj same).2

end Fields

theorem atom_inj {name name' : String} (same : Sexp.atom name.toList = .atom name'.toList) : name = name' :=
  String.toList_inj.mp (Sexp.atom.inj same)

namespace LogicExpr

mutual
theorem tree_inj : ∀ {a b : LogicExpr}, a.Plain → b.Plain → a.tree = b.tree →
    a.arrange true = b.arrange true
  | var v, b, ha, hb, same => by
    cases b with
    | var w => rw [LogicVariable.tree_inj ha hb same]
    | _ => exact absurd (tagged_inj same).1 (by decide)
  | const name sort, b, ha, hb, same => by
    cases b with
    | const name' sort' =>
      obtain ⟨e1, e2⟩ := tagged_two same
      rw [atom_inj e1, LSort.tree_inj ha.2 hb.2 e2]
    | _ => exact absurd (tagged_inj same).1 (by decide)
  | apply func terms, b, ha, hb, same => by
    cases b with
    | apply func' terms' =>
      obtain ⟨e1, e2⟩ := tagged_two same
      rw [arrange, arrange, tree_inj ha.1 hb.1 e1, trees_inj ha.2 hb.2 (Sexp.list.inj e2)]
    | _ => exact absurd (tagged_inj same).1 (by decide)
  | eq t1 t2, b, ha, hb, same => by
    cases b with
    | eq t1' t2' =>
      obtain ⟨e1, e2⟩ := tagged_two same
      rw [arrange, arrange, tree_inj ha.1 hb.1 e1, tree_inj ha.2 hb.2 e2]
    | _ => exact absurd (tagged_inj same).1 (by decide)
  | implies t1 t2, b, ha, hb, same => by
    cases b with
    | implies t1' t2' =>
      obtain ⟨e1, e2⟩ := tagged_two same
      rw [arrange, arrange, tree_inj ha.1 hb.1 e1, tree_inj ha.2 hb.2 e2]
    | _ => exact absurd (tagged_inj same).1 (by decide)
  | iff t1 t2, b, ha, hb, same => by
    cases b with
    | iff t1' t2' =>
      obtain ⟨e1, e2⟩ := tagged_two same
      rw [arrange, arrange, tree_inj ha.1 hb.1 e1, tree_inj ha.2 hb.2 e2]
    | _ => exact absurd (tagged_inj same).1 (by decide)
  | cond t1 t2, b, ha, hb, same => by
    cases b with
    | cond t1' t2' =>
      obtain ⟨e1, e2⟩ := tagged_two same
      rw [arrange, arrange, tree_inj ha.1 hb.1 e1, tree_inj ha.2 hb.2 e2]
    | _ => exact absurd (tagged_inj same).1 (by decide)
  | definition t1 t2, b, ha, hb, same => by
    cases b with
    | definition t1' t2' =>
      obtain ⟨e1, e2⟩ := tagged_two same
      rw [arrange, arrange, tree_inj ha.1 hb.1 e1, tree_inj ha.2 hb.2 e2]
    | _ => exact absurd (tagged_inj same).1 (by decide)
  | definitionSchema t1 t2, b, ha, hb, same => by
    cases b with
    | definitionSchema t1' t2' =>
      obtain ⟨e1, e2⟩ := tagged_two same
      rw [arrange, arrange, tree_inj ha.1 hb.1 e1, tree_inj ha.2 hb.2 e2]
    | _ => exact absurd (tagged_inj same).1 (by decide)
  | not body, b, ha, hb, same => by
    cases b with
    | not body' =>
      have e1 := tagged_one same
      rw [arrange, arrange, tree_inj (a := body) (b := body') ha hb e1]
    | _ => exact absurd (tagged_inj same).1 (by decide)
  | and terms, b, ha, hb, same => by
    cases b with
    | and terms' =>
      have e1 := tagged_one same
      rw [arrange, arrange, trees_inj ha hb (Sexp.list.inj e1)]
    | _ => exact absurd (tagged_inj same).1 (by decide)
  | or terms, b, ha, hb, same => by
    cases b with
    | or terms' =>
      have e1 := tagged_one same
      rw [arrange, arrange, trees_inj ha hb (Sexp.list.inj e1)]
    | _ => exact absurd (tagged_inj same).1 (by decide)
  | ite c t e, b, ha, hb, same => by
    cases b with
    | ite c' t' e' =>
      obtain ⟨e1, e2, e3⟩ := tagged_three same
      rw [arrange, arrange, tree_inj ha.1 hb.1 e1, tree_inj ha.2.1 hb.2.1 e2, tree_inj ha.2.2 hb.2.2 e3]
    | _ => exact absurd (tagged_inj same).1 (by decide)
  | globally environ body, b, ha, hb, same => by
    cases b with
    | globally environ' body' =>
      obtain ⟨e1, e2⟩ := tagged_two same
      rw [arrange, arrange, if_pos rfl, if_pos rfl, atom_inj e1, tree_inj ha.2 hb.2 e2]
    | _ => exact absurd (tagged_inj same).1 (by decide)
  | eventually environ body, b, ha, hb, same => by
    cases b with
    | eventually environ' body' =>
      obtain ⟨e1, e2⟩ := tagged_two same
      rw [arrange, arrange, if_pos rfl, if_pos rfl, atom_inj e1, tree_inj ha.2 hb.2 e2]
    | _ => exact absurd (tagged_inj same).1 (by decide)
  | whenOperator name t1 t2, b, ha, hb, same => by
    cases b with
    | whenOperator name' t1' t2' =>
      obtain ⟨e1, e2, e3⟩ := tagged_three same
      rw [arrange, arrange, atom_inj e1, tree_inj ha.2.1 hb.2.1 e2, tree_inj ha.2.2 hb.2.2 e3]
    | _ => exact absurd (tagged_inj same).1 (by decide)
  | forAll vars body, b, ha, hb, same => by
    cases b with
    | forAll vars' body' =>
      obtain ⟨e1, e2⟩ := tagged_two same
      rw [arrange, arrange, varsTree_inj ha.1 hb.1 e1, tree_inj ha.2 hb.2 e2]
    | _ => exact absurd (tagged_inj same).1 (by decide)
  | exists_ vars body, b, ha, hb, same => by
    cases b with
    | exists_ vars' body' =>
      obtain ⟨e1, e2⟩ := tagged_two same
      rw [arrange, arrange, varsTree_inj ha.1 hb.1 e1, tree_inj ha.2 hb.2 e2]
    | _ => exact absurd (tagged_inj same).1 (by decide)
  | lambda vars body, b, ha, hb, same => by
    cases b with
    | lambda vars' body' =>
      obtain ⟨e1, e2⟩ := tagged_two same
      rw [arrange, arrange, if_pos rfl, if_pos rfl, varsTree_inj ha.1 hb.1 e1, tree_inj ha.2 hb.2 e2]
    | _ => exact absurd (tagged_inj same).1 (by decide)
  | rawForAll raw vars body, b, ha, hb, same => by
    cases b with
    | rawForAll raw' vars' body' =>
      obtain ⟨e1, e2, e3⟩ := tagged_three same
      have raws : raw = raw' := by
        have names := atom_inj e1
        cases raw <;> cases raw' <;> first | rfl | exact absurd names (by decide)
      rw [arrange, arrange, raws, if_pos rfl, if_pos rfl, varsTree_inj ha.1 hb.1 e2, tree_inj ha.2 hb.2 e3]
    | _ => exact absurd (tagged_inj same).1 (by decide)
  | namedBinder name vars environ body, b, ha, hb, same => by
    cases b with
    | namedBinder name' vars' environ' body' =>
      obtain ⟨e1, e2, e3, e4⟩ := tagged_four same
      rw [arrange, arrange, atom_inj e1, if_pos rfl, if_pos rfl, if_pos rfl, if_pos rfl, atom_inj e2,
        varsTree_inj ha.2.1 hb.2.1 e3, tree_inj ha.2.2.2 hb.2.2.2 e4]
    | _ => exact absurd (tagged_inj same).1 (by decide)

theorem trees_inj : ∀ {ts us : List LogicExpr}, PlainList ts → PlainList us → trees ts = trees us →
    arrangeList true ts = arrangeList true us
  | [], [], _, _, _ => rfl
  | [], _ :: _, _, _, same => by cases same
  | _ :: _, [], _, _, same => by cases same
  | t :: ts, u :: us, ht, hu, same => by
    obtain ⟨head, tail⟩ := List.cons.inj same
    rw [arrangeList, arrangeList, tree_inj ht.1 hu.1 head, trees_inj ht.2 hu.2 tail]
end

end LogicExpr

end Goivy
