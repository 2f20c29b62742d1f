import Mathlib.Data.List.Basic

/-! Printed trees can be told apart when their names have no delimiter outside quotes. -/
namespace Goivy

/-- A name, a tagged node with labelled texts or labelled trees, or a list of nodes. -/
inductive Sexp where
  | atom (name : List Char)
  | leaf (tag : List Char) (fields : List (List Char × List Char))
  | node (tag : List Char) (fields : List (List Char × Sexp))
  | list (items : List Sexp)

namespace Sexp

/-- Quotes come in pairs, and no stop is outside of them. -/
def scan (stop : Char → Bool) : Bool → List Char → Bool
  | quoted, [] => !quoted
  | quoted, c :: cs =>
    if c = '"' then scan stop (!quoted) cs else (quoted || !stop c) && scan stop quoted cs

def space : Char → Bool := fun c => c = ' ' || c = ')'

def colon : Char → Bool := fun c => c = ':'

/-- A name ends at the first space or closing parenthesis, and does not begin like a node or a
list. -/
def Name (s : List Char) : Prop := scan space false s ∧ s.head? ≠ some '(' ∧ s.head? ≠ some '['

def printTexts : List (List Char × List Char) → List Char
  | [] => []
  | (label, text) :: fields => ' ' :: label ++ ':' :: text ++ printTexts fields

mutual
def print : Sexp → List Char
  | atom name => name
  | leaf tag fields => '(' :: tag ++ printTexts fields ++ [')']
  | node tag fields => '(' :: tag ++ printFields fields ++ [')']
  | list [] => ['[', ']']
  | list (item :: items) => '[' :: print item ++ printItems items ++ [']']

def printFields : List (List Char × Sexp) → List Char
  | [] => []
  | (label, value) :: fields => ' ' :: label ++ ':' :: print value ++ printFields fields

def printItems : List Sexp → List Char
  | [] => []
  | item :: items => ' ' :: print item ++ printItems items
end

/-- A tree that begins with a parenthesis. -/
def IsNode : Sexp → Prop
  | leaf _ _ | node _ _ => True
  | _ => False

mutual
/-- Names, tags, labels and texts can be read back, the tags tell leaves from nodes, and the items
of lists begin with a parenthesis. -/
def Proper (isLeaf : List Char → Bool) : Sexp → Prop
  | atom name => Name name
  | leaf tag fields => scan space false tag ∧ isLeaf tag ∧
      ∀ p ∈ fields, scan colon false p.1 ∧ scan space false p.2
  | node tag fields => scan space false tag ∧ isLeaf tag = false ∧ ProperFields isLeaf fields
  | list items => ProperItems isLeaf items

def ProperFields (isLeaf : List Char → Bool) : List (List Char × Sexp) → Prop
  | [] => True
  | (label, value) :: fields =>
    scan colon false label ∧ Proper isLeaf value ∧ ProperFields isLeaf fields

def ProperItems (isLeaf : List Char → Bool) : List Sexp → Prop
  | [] => True
  | item :: items => IsNode item ∧ Proper isLeaf item ∧ ProperItems isLeaf items
end

/-- What follows begins with a stop, if anything follows. -/
def Ends (stop : Char → Bool) (rest : List Char) : Prop := ∀ c ∈ rest.head?, stop c = true

theorem ends_cons {stop : Char → Bool} {c : Char} {rest : List Char} (h : stop c) :
    Ends stop (c :: rest) := by
  intro d mem
  rw [List.head?_cons, Option.mem_some_iff] at mem
  exact mem ▸ h

section Scan

variable {stop : Char → Bool} (quote : stop '"' = false)
include quote

theorem scan_not_stop {quoted : Bool} {c : Char} {cs : List Char} (done : scan stop quoted [])
    (more : scan stop quoted (c :: cs)) : stop c = false := by
  rw [scan] at more
  split at more
  · rename_i isQuote
    rw [isQuote, quote]
  · simp_all [scan]

/-- A scanned name is what comes before the first stop outside quotes. -/
theorem scan_append_inj {a b r r' : List Char} {quoted : Bool} (ha : scan stop quoted a)
    (hb : scan stop quoted b) (hr : Ends stop r) (hr' : Ends stop r') (same : a ++ r = b ++ r') :
    a = b ∧ r = r' := by
  induction a generalizing b quoted with
  | nil =>
    cases b with
    | nil => exact ⟨rfl, same⟩
    | cons c cs =>
      have more := scan_not_stop quote ha hb
      rw [hr c (by rw [List.nil_append] at same; simp [same])] at more
      cases more
  | cons c a ih =>
    cases b with
    | nil =>
      have more := scan_not_stop quote hb ha
      rw [hr' c (by rw [List.nil_append] at same; simp [← same])] at more
      cases more
    | cons d b =>
      obtain ⟨rfl, tail⟩ := List.cons.inj same
      rw [scan] at ha hb
      split at ha
      · rename_i isQuote
        rw [if_pos isQuote] at hb
        obtain ⟨rfl, rest⟩ := ih ha hb tail
        exact ⟨rfl, rest⟩
      · rename_i notQuote
        rw [if_neg notQuote] at hb
        rw [Bool.and_eq_true] at ha hb
        obtain ⟨rfl, rest⟩ := ih ha.2 hb.2 tail
        exact ⟨rfl, rest⟩

/-- Texts joined by a stop, and closed by another one. -/
theorem intercalate_inj (sep close : Char) (differ : sep ≠ close) (hsep : stop sep)
    (hclose : stop close) {xs ys : List (List Char)} {r r' : List Char}
    (hx : ∀ x ∈ xs, x ≠ [] ∧ scan stop false x) (hy : ∀ y ∈ ys, y ≠ [] ∧ scan stop false y)
    (same : [sep].intercalate xs ++ close :: r = [sep].intercalate ys ++ close :: r') : xs = ys := by
  have tail : ∀ (x : List Char) (xs : List (List Char)) (r : List Char), ∃ more,
      [sep].intercalate (x :: xs) ++ close :: r = x ++ more ∧ Ends stop more ∧
        more = if xs = [] then close :: r else sep :: ([sep].intercalate xs ++ close :: r) := by
    intro x xs r
    cases xs with
    | nil => exact ⟨_, by simp, ends_cons hclose, rfl⟩
    | cons x' xs =>
      exact ⟨_, by rw [List.intercalate_cons_cons]; simp, ends_cons hsep, rfl⟩
  have first : ∀ (y : List Char) (ys : List (List Char)) (r r' : List Char), y ≠ [] ∧ scan stop false y →
      close :: r ≠ [sep].intercalate (y :: ys) ++ close :: r' := by
    intro y ys r r' plain same
    obtain ⟨more, eq, ends, _⟩ := tail y ys r'
    rw [eq] at same
    have nothing : scan stop false [] := rfl
    exact plain.1 (scan_append_inj quote nothing plain.2 (ends_cons hclose) ends same).1.symm
  induction xs generalizing ys with
  | nil =>
    cases ys with
    | nil => rfl
    | cons y ys => exact absurd same (first y ys r r' (hy y List.mem_cons_self))
  | cons x xs ih =>
    cases ys with
    | nil => exact absurd same.symm (first x xs r' r (hx x List.mem_cons_self))
    | cons y ys =>
      obtain ⟨hereX, restX⟩ := List.forall_mem_cons.mp hx
      obtain ⟨hereY, restY⟩ := List.forall_mem_cons.mp hy
      obtain ⟨more, eq, ends, shape⟩ := tail x xs r
      obtain ⟨more', eq', ends', shape'⟩ := tail y ys r'
      rw [eq, eq'] at same
      obtain ⟨rfl, rest⟩ := scan_append_inj quote hereX.2 hereY.2 ends ends' same
      rw [shape, shape'] at rest
      cases xs with
      | nil =>
        cases ys with
        | nil => rfl
        | cons => exact absurd (List.cons.inj rest).1.symm differ
      | cons x' xs =>
        cases ys with
        | nil => exact absurd (List.cons.inj rest).1 differ
        | cons y' ys => rw [ih restX restY (List.cons.inj rest).2]

end Scan

theorem scan_append {stop : Char → Bool} {quoted : Bool} {a b : List Char} (ha : scan stop quoted a) :
    scan stop quoted (a ++ b) = scan stop false b := by
  induction a generalizing quoted with
  | nil =>
    have closed : quoted = false := by simpa [scan] using ha
    rw [List.nil_append, closed]
  | cons c a ih =>
    rw [scan] at ha
    rw [List.cons_append, scan]
    split at ha
    · rename_i isQuote
      rw [if_pos isQuote, ih ha]
    · rename_i notQuote
      rw [Bool.and_eq_true] at ha
      rw [if_neg notQuote, ha.1, Bool.true_and, ih ha.2]

theorem ends_printFields (fields : List (List Char × Sexp)) (r : List Char) :
    Ends space (printFields fields ++ ')' :: r) := by
  cases fields with
  | nil => exact ends_cons rfl
  | cons => rw [printFields]; exact ends_cons rfl

theorem ends_printTexts (fields : List (List Char × List Char)) (r : List Char) :
    Ends space (printTexts fields ++ ')' :: r) := by
  cases fields with
  | nil => exact ends_cons rfl
  | cons => rw [printTexts]; exact ends_cons rfl

theorem printTexts_inj {a b : List (List Char × List Char)} {r r' : List Char}
    (ha : ∀ p ∈ a, scan colon false p.1 ∧ scan space false p.2)
    (hb : ∀ p ∈ b, scan colon false p.1 ∧ scan space false p.2)
    (same : printTexts a ++ ')' :: r = printTexts b ++ ')' :: r') : a = b ∧ r = r' := by
  induction a generalizing b with
  | nil =>
    cases b with
    | nil => simpa [printTexts] using same
    | cons => simp [printTexts] at same
  | cons p a ih =>
    cases b with
    | nil => simp [printTexts] at same
    | cons q b =>
      obtain ⟨⟨label, text⟩, ha⟩ := List.forall_mem_cons.mp ha
      obtain ⟨⟨label', text'⟩, hb⟩ := List.forall_mem_cons.mp hb
      simp only [printTexts, List.cons_append, List.append_assoc, List.cons.injEq, true_and] at same
      obtain ⟨labels, same⟩ := scan_append_inj rfl label label' (ends_cons rfl) (ends_cons rfl) same
      obtain ⟨texts, same⟩ := scan_append_inj rfl text text' (ends_printTexts a r) (ends_printTexts b r')
        (List.cons.inj same).2
      obtain ⟨rfl, rest⟩ := ih ha hb same
      exact ⟨by rw [Prod.ext labels texts], rest⟩

/-- The first character of a tree that is not a name. -/
theorem head_print_node {a : Sexp} (node : IsNode a) : ∃ rest, print a = '(' :: rest := by
  cases a with
  | leaf tag fields => exact ⟨_, rfl⟩
  | node tag fields => exact ⟨_, rfl⟩
  | atom | list => exact node.elim

theorem head_print_list (items : List Sexp) : ∃ rest, print (list items) = '[' :: rest := by
  cases items with
  | nil => exact ⟨_, rfl⟩
  | cons => exact ⟨_, rfl⟩

theorem head_atom_append {name r : List Char} {c : Char} {rest : List Char} (h : Name name)
    (hr : Ends space r) (same : name ++ r = c :: rest) : c ≠ '(' ∧ c ≠ '[' := by
  cases name with
  | nil =>
    have stop := hr c (by rw [List.nil_append] at same; simp [same])
    constructor <;> rintro rfl <;> simp [space] at stop
  | cons d name =>
    obtain ⟨rfl, _⟩ := List.cons.inj same
    exact ⟨fun eq => h.2.1 (by simp [eq]), fun eq => h.2.2 (by simp [eq])⟩

variable {isLeaf : List Char → Bool}

mutual
theorem print_inj : ∀ (a b : Sexp) {r r' : List Char}, Proper isLeaf a → Proper isLeaf b →
    (¬ IsNode a → Ends space r) → (¬ IsNode b → Ends space r') →
    print a ++ r = print b ++ r' → a = b ∧ r = r'
  | atom name, atom name', r, r', ha, hb, hr, hr', same => by
    obtain ⟨rfl, rest⟩ := scan_append_inj rfl ha.1 hb.1 (hr fun h => h) (hr' fun h => h) same
    exact ⟨rfl, rest⟩
  | leaf tag fields, leaf tag' fields', r, r', ha, hb, _, _, same => by
    simp only [print, List.cons_append, List.append_assoc, List.nil_append, List.cons.injEq,
      true_and] at same
    obtain ⟨rfl, tail⟩ := scan_append_inj rfl ha.1 hb.1 (ends_printTexts fields _)
      (ends_printTexts fields' _) same
    obtain ⟨rfl, rest⟩ := printTexts_inj ha.2.2 hb.2.2 tail
    exact ⟨rfl, rest⟩
  | leaf tag fields, node tag' fields', r, r', ha, hb, _, _, same => by
    simp only [print, List.cons_append, List.append_assoc, List.nil_append, List.cons.injEq,
      true_and] at same
    obtain ⟨rfl, _⟩ := scan_append_inj rfl ha.1 hb.1 (ends_printTexts fields _)
      (ends_printFields fields' _) same
    have differ := ha.2.1
    rw [hb.2.1] at differ
    cases differ
  | node tag fields, leaf tag' fields', r, r', ha, hb, _, _, same => by
    simp only [print, List.cons_append, List.append_assoc, List.nil_append, List.cons.injEq,
      true_and] at same
    obtain ⟨rfl, _⟩ := scan_append_inj rfl ha.1 hb.1 (ends_printFields fields _)
      (ends_printTexts fields' _) same
    have differ := hb.2.1
    rw [ha.2.1] at differ
    cases differ
  | node tag fields, node tag' fields', r, r', ha, hb, _, _, same => by
    simp only [print, List.cons_append, List.append_assoc, List.nil_append, List.cons.injEq,
      true_and] at same
    obtain ⟨rfl, tail⟩ := scan_append_inj rfl ha.1 hb.1 (ends_printFields fields _)
      (ends_printFields fields' _) same
    obtain ⟨rfl, rest⟩ := printFields_inj fields fields' ha.2.2 hb.2.2 tail
    exact ⟨rfl, rest⟩
  | list [], list [], r, r', _, _, _, _, same => by
    exact ⟨rfl, by simpa [print] using same⟩
  | list [], list (item :: items), r, r', _, hb, _, _, same => by
    obtain ⟨rest, eq⟩ := head_print_node hb.1
    simp [print, eq] at same
  | list (item :: items), list [], r, r', ha, _, _, _, same => by
    obtain ⟨rest, eq⟩ := head_print_node ha.1
    simp [print, eq] at same
  | list (item :: items), list (item' :: items'), r, r', ha, hb, _, _, same => by
    simp only [print, List.cons_append, List.append_assoc, List.nil_append, List.cons.injEq,
      true_and] at same
    obtain ⟨rfl, tail⟩ := print_inj item item' ha.2.1 hb.2.1 (fun h => absurd ha.1 h)
      (fun h => absurd hb.1 h) same
    obtain ⟨rfl, rest⟩ := printItems_inj items items' ha.2.2 hb.2.2 tail
    exact ⟨rfl, rest⟩
  | atom name, leaf tag fields, r, r', ha, _, hr, _, same => by
    exact absurd rfl (head_atom_append ha (hr fun h => h) same).1
  | atom name, node tag fields, r, r', ha, _, hr, _, same => by
    exact absurd rfl (head_atom_append ha (hr fun h => h) same).1
  | atom name, list items, r, r', ha, _, hr, _, same => by
    obtain ⟨rest, eq⟩ := head_print_list items
    rw [eq] at same
    exact absurd rfl (head_atom_append ha (hr fun h => h) same).2
  | leaf tag fields, atom name, r, r', _, hb, _, hr', same => by
    exact absurd rfl (head_atom_append hb (hr' fun h => h) same.symm).1
  | node tag fields, atom name, r, r', _, hb, _, hr', same => by
    exact absurd rfl (head_atom_append hb (hr' fun h => h) same.symm).1
  | list items, atom name, r, r', _, hb, _, hr', same => by
    obtain ⟨rest, eq⟩ := head_print_list items
    rw [eq] at same
    exact absurd rfl (head_atom_append hb (hr' fun h => h) same.symm).2
  | leaf tag fields, list items, r, r', _, _, _, _, same => by
    obtain ⟨rest, eq⟩ := head_print_list items
    simp [print, eq] at same
  | node tag fields, list items, r, r', _, _, _, _, same => by
    obtain ⟨rest, eq⟩ := head_print_list items
    simp [print, eq] at same
  | list items, leaf tag fields, r, r', _, _, _, _, same => by
    obtain ⟨rest, eq⟩ := head_print_list items
    simp [print, eq] at same
  | list items, node tag fields, r, r', _, _, _, _, same => by
    obtain ⟨rest, eq⟩ := head_print_list items
    simp [print, eq] at same

theorem printFields_inj : ∀ (a b : List (List Char × Sexp)) {r r' : List Char},
    ProperFields isLeaf a → ProperFields isLeaf b →
    printFields a ++ ')' :: r = printFields b ++ ')' :: r' → a = b ∧ r = r'
  | [], [], _, _, _, _, same => by simpa [printFields] using same
  | [], _ :: _, _, _, _, _, same => by simp [printFields] at same
  | _ :: _, [], _, _, _, _, same => by simp [printFields] at same
  | (label, value) :: a, (label', value') :: b, r, r', ha, hb, same => by
    simp only [printFields, List.cons_append, List.append_assoc, List.cons.injEq, true_and] at same
    obtain ⟨rfl, tail⟩ := scan_append_inj rfl ha.1 hb.1 (ends_cons rfl) (ends_cons rfl) same
    obtain ⟨rfl, tail'⟩ := print_inj value value' ha.2.1 hb.2.1 (fun _ => ends_printFields a r)
      (fun _ => ends_printFields b r') (List.cons.inj tail).2
    obtain ⟨rfl, rest⟩ := printFields_inj a b ha.2.2 hb.2.2 tail'
    exact ⟨rfl, rest⟩

theorem printItems_inj : ∀ (a b : List Sexp) {r r' : List Char},
    ProperItems isLeaf a → ProperItems isLeaf b →
    printItems a ++ ']' :: r = printItems b ++ ']' :: r' → a = b ∧ r = r'
  | [], [], _, _, _, _, same => by simpa [printItems] using same
  | [], _ :: _, _, _, _, _, same => by simp [printItems] at same
  | _ :: _, [], _, _, _, _, same => by simp [printItems] at same
  | item :: a, item' :: b, r, r', ha, hb, same => by
    simp only [printItems, List.cons_append, List.append_assoc, List.cons.injEq, true_and] at same
    obtain ⟨rfl, tail⟩ := print_inj item item' ha.2.1 hb.2.1 (fun h => absurd ha.1 h)
      (fun h => absurd hb.1 h) same
    obtain ⟨rfl, rest⟩ := printItems_inj a b ha.2.2 hb.2.2 tail
    exact ⟨rfl, rest⟩
end

end Sexp

end Goivy
