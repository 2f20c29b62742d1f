import Goivy.Mc.Qelim
import Goivy.Logic.Sorting

/-! Nodes that are rebuilt from new children. -/
namespace Goivy

namespace Expr

/-- `CloneNode`. -/
def cloneNode : Expr → List Expr → Expr
  | .eq _ _, [x, y] => .eq x y
  | .apply f _, t :: ts => .apply f (t :: ts)
  | .not _, [a] => .not a
  | .and _, ts => .and ts
  | .or _, ts => .or ts
  | .implies _ _, [a, b] => .implies a b
  | .iff _ _, [a, b] => .iff a b
  | .ite _ _ _, [c, a, b] => .ite c a b
  | .forAll vs _, [a] => .forAll vs a
  | .exists vs _, [a] => .exists vs a
  | .some vs a, ts =>
    match ts.drop vs.length with
    | [a] => .some vs a
    | _ => .some vs a
  | .someElse vs a b c, ts =>
    match ts.drop vs.length with
    | [a, b, c] => .someElse vs a b c
    | _ => .someElse vs a b c
  | e, _ => e

mutual
/-- A measure that is greater than that of the children together. -/
def weight : Expr → Nat
  | .var _ | .const _ => 1
  | .apply _ ts | .and ts | .or ts => weightList ts + 1
  | .eq a b | .implies a b | .iff a b => a.weight + b.weight + 3
  | .not a | .forAll _ a | .exists _ a => a.weight + 2
  | .ite c a b => c.weight + a.weight + b.weight + 4
  | .some vs a => 2 * vs.length + a.weight + 2
  | .someElse vs a b c => 2 * vs.length + a.weight + b.weight + c.weight + 4
def weightList : List Expr → Nat
  | [] => 0
  | t :: ts => t.weight + weightList ts + 1
end

theorem weightList_append (ts us : List Expr) : weightList (ts ++ us) = weightList ts + weightList us := by
  induction ts with
  | nil => simp [weightList]
  | cons t ts ih => simp only [List.cons_append, weightList, ih]; omega

theorem weightList_vars (vs : List Variable) : weightList (vs.map .var) = 2 * vs.length := by
  induction vs with
  | nil => rfl
  | cons v vs ih => simp only [List.map_cons, weightList, weight, ih, List.length_cons]; omega

theorem weight_pos (e : Expr) : 0 < e.weight := by
  cases e <;> simp [weight]

theorem weightList_children (e : Expr) : weightList e.children < e.weight := by
  cases e <;> simp only [children, weight, weightList, weightList_append, weightList_vars] <;> omega

end Expr

/-- The node binds variables. -/
def Expr.isBinder : Expr → Bool
  | .forAll _ _ | .exists _ _ | .some _ _ | .someElse _ _ _ _ => true
  | _ => false

mutual
/-- Without quantifiers and descriptions. -/
def Expr.isQuantifierFree : Expr → Bool
  | .var _ | .const _ => true
  | .apply _ ts | .and ts | .or ts => allQuantifierFree ts
  | .not a => a.isQuantifierFree
  | .eq a b | .implies a b | .iff a b => a.isQuantifierFree && b.isQuantifierFree
  | .ite c a b => c.isQuantifierFree && a.isQuantifierFree && b.isQuantifierFree
  | .forAll _ _ | .exists _ _ | .some _ _ | .someElse _ _ _ _ => false
def allQuantifierFree : List Expr → Bool
  | [] => true
  | t :: ts => t.isQuantifierFree && allQuantifierFree ts
end

theorem allQuantifierFree_iff {ts : List Expr} : allQuantifierFree ts = true ↔ ∀ t ∈ ts, t.isQuantifierFree = true := by
  induction ts with
  | nil => simp [allQuantifierFree]
  | cons t ts ih => simp [allQuantifierFree, ih]

namespace Expr

variable {e : Expr} {bound : List Variable} {s : FSort} {D : Domain}

theorem hasSort_children (h : e.HasSort bound s) : ∀ t ∈ e.children, ∃ bound s, t.HasSort bound s := by
  cases e with
  | var v | const c => simp [children]
  | apply f ts =>
    obtain ⟨domain, -, sorts⟩ := h
    exact fun t ht => ⟨bound, sorts.exists_sort t ht⟩
  | and ts | or ts => exact fun t ht => ⟨bound, _, hasSorts_map.mp h.2 t ht⟩
  | not a => exact List.forall_mem_singleton.mpr ⟨bound, _, h.2⟩
  | forAll vs a | «exists» vs a => exact List.forall_mem_singleton.mpr ⟨vs ++ bound, _, h.2.2⟩
  | eq a b =>
    obtain ⟨-, t, sortA, sortB⟩ := h
    exact List.forall_mem_cons.mpr ⟨⟨bound, t, sortA⟩, List.forall_mem_singleton.mpr ⟨bound, t, sortB⟩⟩
  | implies a b | iff a b =>
    exact List.forall_mem_cons.mpr ⟨⟨bound, _, h.2.1⟩, List.forall_mem_singleton.mpr ⟨bound, _, h.2.2⟩⟩
  | ite c a b =>
    simp only [children, List.forall_mem_cons]
    exact ⟨⟨bound, _, h.1⟩, ⟨bound, _, h.2.1⟩, ⟨bound, _, h.2.2⟩, by simp⟩
  | some | someElse => exact h.elim

theorem isBinder_of_isQuantifierFree (h : e.isQuantifierFree = true) : e.isBinder = false := by
  cases e with
  | forAll | «exists» | some | someElse => contradiction
  | _ => rfl

theorem isQuantifierFree_children (h : e.isQuantifierFree = true) : ∀ t ∈ e.children, t.isQuantifierFree = true := by
  cases e with
  | apply | and | or => exact allQuantifierFree_iff.mp h
  | forAll | «exists» | some | someElse => contradiction
  | _ => simp_all [isQuantifierFree, children]

theorem symbols_children {t : Expr} (h : t ∈ e.children) : t.symbols ⊆ e.symbols := by
  have list : ∀ {ts : List Expr}, t ∈ ts → t.symbols ⊆ symbolsList ts := fun {ts} ht c hc => by
    rw [symbolsList_eq_flatMap]
    exact List.mem_flatMap.mpr ⟨t, ht, hc⟩
  cases e with
  | var | const => cases h
  | apply f ts => exact List.subset_cons_of_subset _ (list h)
  | and ts | or ts => exact list h
  | some vs a | someElse vs a b c =>
    simp only [children, List.mem_append, List.mem_map, List.mem_cons, List.not_mem_nil, or_false] at h
    rcases h with ⟨v, -, rfl⟩ | h
    · exact List.nil_subset _
    · intro c hc
      simp only [symbols]
      grind
  | _ =>
    simp only [children, List.mem_cons, List.not_mem_nil, or_false] at h
    intro c hc
    simp only [symbols]
    grind

/-- A node that binds no variables keeps its value when its children do. -/
theorem eval_cloneNode_at {N : Structure D} {env : Env D} {us : List Expr} (plain : e.isBinder = false)
    (same : us.map (·.eval N env) = e.children.map (·.eval N env)) : (e.cloneNode us).eval N env = e.eval N env := by
  cases e with
  | var v | const c => rfl
  | apply f ts =>
    cases us with
    | nil =>
      obtain rfl := List.map_eq_nil_iff.mp same.symm
      rfl
    | cons u us =>
      simp only [cloneNode, eval, evalList_eq_map]
      exact congrArg _ same
  | and ts | or ts =>
    simp only [cloneNode, eval, evalList_eq_map]
    rw [show us.map (·.eval N env) = ts.map (·.eval N env) from same]
  | not a =>
    obtain ⟨u, rfl⟩ := List.length_eq_one_iff.mp (by simpa [children] using congrArg List.length same)
    have body : u.eval N env = a.eval N env := (List.cons.inj same).1
    simp only [cloneNode, eval, body]
  | eq a b | implies a b | iff a b =>
    obtain ⟨u, v, rfl⟩ := List.length_eq_two.mp (by simpa [children] using congrArg List.length same)
    obtain ⟨left, rest⟩ := List.cons.inj same
    have right : v.eval N env = b.eval N env := (List.cons.inj rest).1
    simp only [cloneNode, eval, left, right]
  | ite c a b =>
    obtain ⟨u, v, w, rfl⟩ := List.length_eq_three.mp (by simpa [children] using congrArg List.length same)
    obtain ⟨cond, rest⟩ := List.cons.inj same
    obtain ⟨left, rest⟩ := List.cons.inj rest
    have right : w.eval N env = b.eval N env := (List.cons.inj rest).1
    simp only [cloneNode, eval, cond, left, right]
  | forAll | «exists» | some | someElse => contradiction

/-- A node keeps its value when its children do under all assignments. -/
theorem eval_cloneNode {N : Structure D} {us : List Expr} (h : e.HasSort bound s)
    (same : us.map (·.eval N) = e.children.map (·.eval N)) : (e.cloneNode us).eval N = e.eval N := by
  have point : ∀ env, us.map (·.eval N env) = e.children.map (·.eval N env) := fun env => by
    have values := congrArg (List.map fun value => value env) same
    simpa only [List.map_map, Function.comp_def] using values
  cases e with
  | forAll vs a | «exists» vs a =>
    obtain ⟨u, rfl⟩ := List.length_eq_one_iff.mp (by simpa [children] using congrArg List.length same)
    have body : u.eval N = a.eval N := (List.cons.inj same).1
    funext env
    simp only [cloneNode, eval, body]
  | some | someElse => exact h.elim
  | _ => exact funext fun env => eval_cloneNode_at rfl (point env)

/-- A list of expressions with at least the sorts of another one. -/
def KeepsSorts (ts us : List Expr) : Prop :=
  List.Forall₂ (fun t u => ∀ bound s, Expr.HasSort bound t s → Expr.HasSort bound u s) ts us

theorem KeepsSorts.hasSorts {ts us : List Expr} (kept : KeepsSorts ts us) {ss : List FSort} (h : HasSorts bound ts ss) :
    HasSorts bound us ss := by
  induction kept generalizing ss with
  | nil => exact h
  | cons head _ ih =>
    cases ss with
    | nil => exact h.elim
    | cons s ss => exact ⟨head bound s h.1, ih h.2⟩

theorem hasSort_cloneNode {us : List Expr} (plain : e.isQuantifierFree = true) (h : e.HasSort bound s)
    (kept : KeepsSorts e.children us) : (e.cloneNode us).HasSort bound s := by
  cases e with
  | var v | const c => exact h
  | apply f ts =>
    obtain ⟨domain, sort, sorts⟩ := h
    cases us with
    | nil => exact ⟨domain, sort, sorts⟩
    | cons u us => exact ⟨domain, sort, kept.hasSorts sorts⟩
  | and ts | or ts =>
    have sorts := kept.hasSorts h.2
    have length : us.length = ts.length := kept.length_eq.symm
    refine ⟨h.1, ?_⟩
    rwa [List.map_const', length, ← List.map_const']
  | not a =>
    obtain ⟨u, rfl⟩ := List.length_eq_one_iff.mp (by simpa [children] using kept.length_eq.symm)
    exact ⟨h.1, (List.forall₂_cons.mp kept).1 _ _ h.2⟩
  | eq a b =>
    obtain ⟨u, v, rfl⟩ := List.length_eq_two.mp (by simpa [children] using kept.length_eq.symm)
    obtain ⟨left, rest⟩ := List.forall₂_cons.mp kept
    obtain ⟨boolean, t, sortA, sortB⟩ := h
    exact ⟨boolean, t, left _ _ sortA, (List.forall₂_cons.mp rest).1 _ _ sortB⟩
  | implies a b | iff a b =>
    obtain ⟨u, v, rfl⟩ := List.length_eq_two.mp (by simpa [children] using kept.length_eq.symm)
    obtain ⟨left, rest⟩ := List.forall₂_cons.mp kept
    exact ⟨h.1, left _ _ h.2.1, (List.forall₂_cons.mp rest).1 _ _ h.2.2⟩
  | ite c a b =>
    obtain ⟨u, v, w, rfl⟩ := List.length_eq_three.mp (by simpa [children] using kept.length_eq.symm)
    obtain ⟨cond, rest⟩ := List.forall₂_cons.mp kept
    obtain ⟨left, rest⟩ := List.forall₂_cons.mp rest
    exact ⟨cond _ _ h.1, left _ _ h.2.1, (List.forall₂_cons.mp rest).1 _ _ h.2.2⟩
  | forAll | «exists» | some | someElse => contradiction

end Expr

end Goivy
