import Goivy.LogicUtil.Syntax

/-! Equality of expressions modulo the names of bound variables. Variables are objects here. -/
namespace Goivy.LogicUtil.AlphaEquality

/-- The address of a variable object. -/
abbrev Pointer := Nat

/-- An expression whose variables are objects. -/
inductive Node
  | var (p : Pointer)
  | const (c : Const)
  | apply (func : Node) (terms : List Node)
  | node (op : Connective) (args : List Node)
  | bind (b : Binder) (vs : List Pointer) (parts : List Node)

namespace Node

/-- Structural induction, with one hypothesis for all members of a list. -/
@[elab_as_elim, induction_eliminator]
theorem induct {motive : Node → Prop} (var : ∀ p, motive (.var p)) (const : ∀ c, motive (.const c))
    (apply : ∀ f ts, motive f → (∀ t ∈ ts, motive t) → motive (.apply f ts))
    (node : ∀ op ts, (∀ t ∈ ts, motive t) → motive (.node op ts))
    (bind : ∀ b vs ts, (∀ t ∈ ts, motive t) → motive (.bind b vs ts)) (e : Node) : motive e :=
  Node.rec (motive_1 := motive) (motive_2 := fun ts => ∀ t ∈ ts, motive t)
    var const apply node bind
    (fun _ h => absurd h List.not_mem_nil)
    (fun _ _ head tail _ h => (List.mem_cons.mp h).elim (fun e => e ▸ head) (tail _)) e

end Node

section Labels

/-- A connective without its label, as the type of the node says it. -/
def connectiveType : Connective → Connective
  | .globally _ => .globally none
  | .eventually _ => .eventually none
  | .whenOperator _ => .whenOperator ""
  | op => op

/-- A binder without the labels that the comparison does not look at. -/
def binderType : Binder → Binder
  | .rawForAll _ => .rawForAll false
  | .namedBinder name _ => .namedBinder name none
  | .some _ _ => .some false false
  | b => b

/-- The binders with a case of their own. -/
def isScope : Binder → Bool
  | .forAll | .exists | .lambda | .namedBinder _ _ => true
  | .rawForAll _ | .some _ _ => false

end Labels

section Comparison

variable (heap : Pointer → LogicVariable)

/-- The levels of the bound variable objects, as the maps with push and pop have them. -/
abbrev PushableMap := Pointer → Option Nat

/-- Pushes the variables of a binder, from level `n` on. -/
def pushAll : List Pointer → PushableMap → Nat → PushableMap
  | [], m, _ => m
  | p :: ps, m, n => pushAll ps (Function.update m p (some n)) (n + 1)

def sameVariable (m1 m2 : PushableMap) (p q : Pointer) : Bool :=
  match m1 p, m2 q with
  | some i, some j => i = j
  | none, none => heap p = heap q
  | _, _ => false

/-- Compares the parameters of a description with the first children of another one. -/
def sameParams (m1 m2 : PushableMap) : List Pointer → List Node → Option (List Node)
  | [], us => some us
  | p :: ps, .var q :: us => if sameVariable heap m1 m2 p q then sameParams m1 m2 ps us else none
  | _, _ => none

mutual
/-- `equalModAlphaRec`. What is popped after a scope is what was pushed before it, so the maps are passed down only. -/
def equalModAlphaRec : Node → Node → PushableMap → PushableMap → Nat → Bool
  | .var p, .var q, m1, m2, _ => sameVariable heap m1 m2 p q
  | .const c, .const d, _, _, _ => c = d
  | .apply f ts, .apply g us, m1, m2, n => equalModAlphaRec f g m1 m2 n && equalModAlphaList ts us m1 m2 n
  | .node op ts, .node op' us, m1, m2, n => connectiveType op = connectiveType op' && equalModAlphaList ts us m1 m2 n
  | .bind b vs ts, .bind c ws us, m1, m2, n =>
    if isScope b then
      binderType b = binderType c && vs.length = ws.length &&
        equalModAlphaList ts us (pushAll vs m1 n) (pushAll ws m2 n) (n + vs.length)
    else match b, c with
      | .some _ _, .some _ _ => match sameParams heap m1 m2 vs (ws.map .var ++ us) with
        | some rest => equalModAlphaList ts rest m1 m2 n
        | none => false
      | .rawForAll _, .rawForAll _ => equalModAlphaList ts us m1 m2 n
      | _, _ => false
  | _, _, _, _, _ => false
def equalModAlphaList : List Node → List Node → PushableMap → PushableMap → Nat → Bool
  | [], [], _, _, _ => true
  | t :: ts, u :: us, m1, m2, n => equalModAlphaRec t u m1 m2 n && equalModAlphaList ts us m1 m2 n
  | _, _, _, _, _ => false
end

def equalModAlpha (t u : Node) : Bool := equalModAlphaRec heap t u (fun _ => none) (fun _ => none) 0

end Comparison

section Meaning

variable (heap : Pointer → LogicVariable)

/-- Two variables are bound by the binders of one pair, or free and the same. The newest pair is the first one. -/
def Corresponds : List (LogicVariable × LogicVariable) → LogicVariable → LogicVariable → Prop
  | [], v, w => v = w
  | (a, b) :: ctx, v, w => v = a ∧ w = b ∨ v ≠ a ∧ w ≠ b ∧ Corresponds ctx v w

/-- The variables of two binders, paired. -/
def pairs (vs ws : List Pointer) : List (LogicVariable × LogicVariable) := ((vs.map heap).zip (ws.map heap)).reverse

variable (strict : Bool)

mutual
/-- Equality up to the names of bound variables; unless it is strict, also up to their sorts and to labels. -/
def AlphaEq : List (LogicVariable × LogicVariable) → Node → Node → Prop
  | ctx, .var p, .var q => Corresponds ctx (heap p) (heap q)
  | _, .const c, .const d => c = d
  | ctx, .apply f ts, .apply g us => AlphaEq ctx f g ∧ AlphaEqList ctx ts us
  | ctx, .node op ts, .node op' us => connectiveType op = connectiveType op' ∧ (strict = true → op = op') ∧ AlphaEqList ctx ts us
  | ctx, .bind b vs ts, .bind c ws us =>
    binderType b = binderType c ∧ (strict = true → b = c) ∧ vs.length = ws.length ∧
      (strict = true → vs.map (fun p => (heap p).sort) = ws.map fun p => (heap p).sort) ∧ AlphaEqList (pairs heap vs ws ++ ctx) ts us
  | _, _, _ => False
def AlphaEqList : List (LogicVariable × LogicVariable) → List Node → List Node → Prop
  | _, [], [] => True
  | ctx, t :: ts, u :: us => AlphaEq ctx t u ∧ AlphaEqList ctx ts us
  | _, _, _ => False
end

end Meaning

section Conditions

variable (heap : Pointer → LogicVariable)

mutual
/-- Every bound occurrence of a variable is the object of its innermost binder, and only the binders with a case of their own occur. -/
def Shared : List Pointer → Node → Prop
  | bound, .var p => ∀ o, bound.find? (fun q => heap q = heap p) = some o → o = p
  | _, .const _ => True
  | bound, .apply f ts => Shared bound f ∧ SharedList bound ts
  | bound, .node _ ts => SharedList bound ts
  | bound, .bind b vs ts => isScope b = true ∧ SharedList (vs.reverse ++ bound) ts
def SharedList : List Pointer → List Node → Prop
  | _, [] => True
  | bound, t :: ts => Shared bound t ∧ SharedList bound ts
end

mutual
/-- Operators and binders of one type at the same place have the same labels, and binders bind variables of the same sorts. -/
def Agree : Node → Node → Prop
  | .apply f ts, .apply g us => Agree f g ∧ AgreeList ts us
  | .node op ts, .node op' us => (connectiveType op = connectiveType op' → op = op') ∧ AgreeList ts us
  | .bind b vs ts, .bind c ws us =>
    (binderType b = binderType c → b = c) ∧
      (vs.length = ws.length → vs.map (fun p => (heap p).sort) = ws.map fun p => (heap p).sort) ∧ AgreeList ts us
  | _, _ => True
def AgreeList : List Node → List Node → Prop
  | t :: ts, u :: us => Agree t u ∧ AgreeList ts us
  | _, _ => True
end

end Conditions

variable {heap : Pointer → LogicVariable}

section Levels

/-- The map after the given variables were pushed; the newest is the first one. -/
def levels : List Pointer → PushableMap
  | [] => fun _ => none
  | p :: bound => Function.update (levels bound) p (some bound.length)

theorem pushAll_levels (vs bound : List Pointer) : pushAll vs (levels bound) bound.length = levels (vs.reverse ++ bound) := by
  induction vs generalizing bound with
  | nil => rfl
  | cons p ps ih =>
    rw [pushAll, List.reverse_cons, List.append_assoc, List.singleton_append, ← ih (p :: bound), levels, List.length_cons]

theorem levels_lt {bound : List Pointer} {p : Pointer} {i : Nat} (h : levels bound p = some i) : i < bound.length := by
  induction bound with
  | nil => cases h
  | cons q bound ih =>
    rw [levels, Function.update_apply] at h
    split at h
    · cases h
      exact Nat.lt_succ_self _
    · exact Nat.lt_succ_of_lt (ih h)

/-- Where the bound occurrences are the objects of their binders, the levels are the places of the binders. -/
theorem sameVariable_iff {ctx : List (Pointer × Pointer)} {p q : Pointer} (left : Shared heap (ctx.map Prod.fst) (.var p))
    (right : Shared heap (ctx.map Prod.snd) (.var q)) :
    sameVariable heap (levels (ctx.map Prod.fst)) (levels (ctx.map Prod.snd)) p q = true ↔
      Corresponds (ctx.map (Prod.map heap heap)) (heap p) (heap q) := by
  induction ctx with
  | nil => simp [sameVariable, levels, Corresponds]
  | cons pair ctx ih =>
    obtain ⟨a, b⟩ := pair
    simp only [Shared, List.map_cons, List.find?_cons] at left right
    simp only [List.map_cons, Prod.map, Corresponds, levels, sameVariable, Function.update_apply, List.length_map]
    by_cases hp : heap p = heap a
    · rw [hp, decide_eq_true rfl] at left
      obtain rfl : a = p := left a rfl
      by_cases hq : heap q = heap b
      · rw [hq, decide_eq_true rfl] at right
        obtain rfl : b = q := right b rfl
        simp
      · have other : q ≠ b := fun same => hq (congrArg heap same)
        simp only [if_true, if_neg other, ne_eq, not_true_eq_false, false_and, or_false, true_and, hq, iff_false]
        cases found : levels (ctx.map Prod.snd) q with
        | none => simp
        | some j =>
          have below := levels_lt found
          rw [List.length_map] at below
          simp only [decide_eq_true_eq]
          omega
    · have other : p ≠ a := fun same => hp (congrArg heap same)
      rw [decide_eq_false fun same => hp same.symm] at left
      by_cases hq : heap q = heap b
      · rw [hq, decide_eq_true rfl] at right
        obtain rfl : b = q := right b rfl
        simp only [if_true, if_neg other, ne_eq, not_true_eq_false, false_and, and_false, or_false, hp, iff_false]
        cases found : levels (ctx.map Prod.fst) p with
        | none => simp
        | some j =>
          have below := levels_lt found
          rw [List.length_map] at below
          simp only [decide_eq_true_eq]
          omega
      · have other' : q ≠ b := fun same => hq (congrArg heap same)
        rw [decide_eq_false fun same => hq same.symm] at right
        have inner := ih left right
        rw [sameVariable] at inner
        simp only [if_neg other, if_neg other', ne_eq, hp, hq, not_false_eq_true, true_and, false_and, false_or]
        exact inner

end Levels

section Correctness

variable {t u : Node} {ts us : List Node}

theorem sharedList_iff {bound : List Pointer} : SharedList heap bound ts ↔ ∀ t ∈ ts, Shared heap bound t := by
  induction ts with
  | nil => simp [SharedList]
  | cons t ts ih => simp [SharedList, ih]

theorem equalModAlphaList_iff {m1 m2 : PushableMap} {n : Nat} {ctx : List (LogicVariable × LogicVariable)}
    (each : ∀ t ∈ ts, ∀ u ∈ us, equalModAlphaRec heap t u m1 m2 n = true ↔ AlphaEq heap false ctx t u) :
    equalModAlphaList heap ts us m1 m2 n = true ↔ AlphaEqList heap false ctx ts us := by
  induction ts generalizing us with
  | nil => cases us <;> simp [equalModAlphaList, AlphaEqList]
  | cons t ts ih =>
    cases us with
    | nil => simp [equalModAlphaList, AlphaEqList]
    | cons u us =>
      rw [equalModAlphaList, AlphaEqList, Bool.and_eq_true, each t List.mem_cons_self u List.mem_cons_self,
        ih fun t ht u hu => each t (List.mem_cons_of_mem _ ht) u (List.mem_cons_of_mem _ hu)]

theorem map_zip_reverse {vs ws : List Pointer} : ((vs.zip ws).reverse).map (Prod.map heap heap) = pairs heap vs ws := by
  rw [pairs, List.map_reverse, List.zip_map]

theorem fst_zip_reverse {vs ws : List Pointer} (length : vs.length = ws.length) : ((vs.zip ws).reverse).map Prod.fst = vs.reverse := by
  rw [List.map_reverse, List.map_fst_zip length.le]

theorem snd_zip_reverse {vs ws : List Pointer} (length : vs.length = ws.length) : ((vs.zip ws).reverse).map Prod.snd = ws.reverse := by
  rw [List.map_reverse, List.map_snd_zip length.ge]

/-- The comparison decides equality up to the names and sorts of bound variables and up to labels. -/
theorem equalModAlphaRec_iff {ctx : List (Pointer × Pointer)} (left : Shared heap (ctx.map Prod.fst) t) (right : Shared heap (ctx.map Prod.snd) u) :
    equalModAlphaRec heap t u (levels (ctx.map Prod.fst)) (levels (ctx.map Prod.snd)) ctx.length = true ↔
      AlphaEq heap false (ctx.map (Prod.map heap heap)) t u := by
  induction t generalizing u ctx with
  | var p =>
    cases u with
    | var q =>
      rw [equalModAlphaRec, AlphaEq]
      exact sameVariable_iff left right
    | _ => simp [equalModAlphaRec, AlphaEq]
  | const c => cases u <;> simp [equalModAlphaRec, AlphaEq]
  | apply f ts hf ih =>
    cases u with
    | apply g us =>
      simp only [Shared, sharedList_iff] at left right
      rw [equalModAlphaRec, AlphaEq, Bool.and_eq_true, hf left.1 right.1,
        equalModAlphaList_iff fun t ht u hu => ih t ht (left.2 t ht) (right.2 u hu)]
    | _ => simp [equalModAlphaRec, AlphaEq]
  | node op ts ih =>
    cases u with
    | node op' us =>
      simp only [Shared, sharedList_iff] at left right
      rw [equalModAlphaRec, AlphaEq, Bool.and_eq_true, decide_eq_true_eq, equalModAlphaList_iff fun t ht u hu => ih t ht (left t ht) (right u hu)]
      simp
    | _ => simp [equalModAlphaRec, AlphaEq]
  | bind b vs ts ih =>
    cases u with
    | bind c ws us =>
      simp only [Shared, sharedList_iff] at left right
      simp only [equalModAlphaRec, AlphaEq, left.1, if_true, Bool.and_eq_true, decide_eq_true_eq, Bool.false_eq_true, false_implies, true_and, and_assoc]
      refine and_congr_right fun _ => and_congr_right fun length => ?_
      -- the context in which both bodies are compared
      let inner := (vs.zip ws).reverse ++ ctx
      have first : inner.map Prod.fst = vs.reverse ++ ctx.map Prod.fst := by rw [List.map_append, fst_zip_reverse length]
      have second : inner.map Prod.snd = ws.reverse ++ ctx.map Prod.snd := by rw [List.map_append, snd_zip_reverse length]
      have both : inner.map (Prod.map heap heap) = pairs heap vs ws ++ ctx.map (Prod.map heap heap) := by rw [List.map_append, map_zip_reverse]
      have size : inner.length = ctx.length + vs.length := by
        simp only [inner, List.length_append, List.length_reverse, List.length_zip, length, Nat.min_self]
        omega
      have pushed1 := pushAll_levels vs (ctx.map Prod.fst)
      have pushed2 := pushAll_levels ws (ctx.map Prod.snd)
      rw [List.length_map] at pushed1 pushed2
      rw [pushed1, pushed2, ← first, ← second, ← size, ← both]
      exact equalModAlphaList_iff fun t ht u hu => ih t ht (by rw [first]; exact left.2 t ht) (by rw [second]; exact right.2 u hu)
    | _ => simp [equalModAlphaRec, AlphaEq]

theorem alphaEqList_strict {ctx : List (LogicVariable × LogicVariable)}
    (each : ∀ t ∈ ts, ∀ u ∈ us, AlphaEq heap true ctx t u ↔ AlphaEq heap false ctx t u ∧ Agree heap t u) :
    AlphaEqList heap true ctx ts us ↔ AlphaEqList heap false ctx ts us ∧ AgreeList heap ts us := by
  induction ts generalizing us with
  | nil => cases us <;> simp [AlphaEqList, AgreeList]
  | cons t ts ih =>
    cases us with
    | nil => simp [AlphaEqList]
    | cons u us =>
      rw [AlphaEqList, AlphaEqList, AgreeList, each t List.mem_cons_self u List.mem_cons_self,
        ih fun t ht u hu => each t (List.mem_cons_of_mem _ ht) u (List.mem_cons_of_mem _ hu), and_and_and_comm]

/-- Strict equality is the loose one where labels and sorts agree. -/
theorem alphaEq_strict {ctx : List (LogicVariable × LogicVariable)} :
    AlphaEq heap true ctx t u ↔ AlphaEq heap false ctx t u ∧ Agree heap t u := by
  induction t generalizing u ctx with
  | var p => cases u <;> simp [AlphaEq, Agree]
  | const c => cases u <;> simp [AlphaEq, Agree]
  | apply f ts hf ih =>
    cases u with
    | apply g us =>
      rw [AlphaEq, AlphaEq, Agree, hf, alphaEqList_strict fun t ht u _ => ih t ht, and_and_and_comm]
    | _ => simp [AlphaEq]
  | node op ts ih =>
    cases u with
    | node op' us =>
      rw [AlphaEq, AlphaEq, Agree, alphaEqList_strict fun t ht u _ => ih t ht]
      simp only [Bool.false_eq_true, forall_const, false_implies, true_and]
      tauto
    | _ => simp [AlphaEq]
  | bind b vs ts ih =>
    cases u with
    | bind c ws us =>
      rw [AlphaEq, AlphaEq, Agree, alphaEqList_strict fun t ht u _ => ih t ht]
      simp only [Bool.false_eq_true, forall_const, false_implies, true_and]
      tauto
    | _ => simp [AlphaEq]

end Correctness

section Examples

/-- Two objects of the variable X, two of Y, and objects of Z. -/
def objects : Pointer → LogicVariable
  | 0 | 1 => ⟨"X", .first (.uninterpreted "s")⟩
  | 2 | 3 => ⟨"Y", .first (.uninterpreted "s")⟩
  | _ => ⟨"Z", .first (.uninterpreted "s")⟩

def unary (p : Pointer) : Node := .apply (.const ⟨"p", .function [.uninterpreted "s"] .boolean⟩) [.var p]

/-- A quantifier below another one, with the variable `q` below the variable `p`. -/
def nested (p q : Pointer) : Node := .bind .forAll [p] [.node .and [unary p, .bind .exists [q] [unary q]]]

end Examples

end Goivy.LogicUtil.AlphaEquality
