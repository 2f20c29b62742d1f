import Goivy.Util.PointerForest
import Mathlib.Data.List.Induction
import Mathlib.Logic.Relation

/-! The union-find nodes of the fragment checker. A node is known by its number, which no other node has.
Nodes that were never created are roots of their own. -/
namespace Goivy

/-- A root points to itself. -/
def parentPtr (parent : Nat → Nat) (x : Nat) : Option Nat :=
  if parent x = x then none else some (parent x)

/-- The ranks increase along the pointers to the parents. -/
structure UFNodes where
  parent : Nat → Nat
  rank : Nat → Nat
  ranked : ∀ x, parent x ≠ x → rank x < rank (parent x)
  bounded : ∃ top, ∀ x, rank x ≤ top

namespace UFNodes

open PointerForest

variable {u : UFNodes} {x y r : Nat}

/-- `NewUFNode`: every node starts alone. -/
def empty : UFNodes := ⟨id, fun _ => 0, fun _ other => absurd rfl other, 0, fun _ => Nat.le_refl _⟩

/-- What is left between the rank of a node and the highest one. -/
noncomputable def height (u : UFNodes) (x : Nat) : Nat := u.bounded.choose - u.rank x

theorem height_parent (other : u.parent x ≠ x) : u.height (u.parent x) < u.height x := by
  have above := u.ranked x other
  have top := u.bounded.choose_spec (u.parent x)
  unfold height
  omega

def ptr (u : UFNodes) : Nat → Option Nat := parentPtr u.parent

theorem ptr_root (root : u.parent x = x) : u.ptr x = none := if_pos root

theorem ptr_parent (other : u.parent x ≠ x) : u.ptr x = some (u.parent x) := if_neg other

theorem ptr_ranked (u : UFNodes) : Ranked u.ptr u.height := by
  intro i j edge
  unfold ptr parentPtr at edge
  split at edge
  · cases edge
  · rename_i other
    cases edge
    exact height_parent other

/-- The first loop of `UFFind`. -/
def root (u : UFNodes) (x : Nat) : Nat :=
  if u.parent x = x then x else u.root (u.parent x)
termination_by u.height x
decreasing_by exact height_parent ‹_›

theorem rootOf_root (u : UFNodes) (x : Nat) : RootOf u.ptr x (u.root x) := by
  induction x using root.induct u with
  | case1 x isRoot =>
    rw [root, if_pos isRoot]
    exact .self (ptr_root isRoot)
  | case2 x other ih =>
    rw [root, if_neg other]
    exact .step (ptr_parent other) ih

theorem root_eq (h : RootOf u.ptr x r) : u.root x = r := (rootOf_root u x).unique h

theorem parent_of_ptr (h : u.ptr x = none) : u.parent x = x := by
  by_contra other
  rw [ptr_parent other] at h
  cases h

theorem parent_root (u : UFNodes) (x : Nat) : u.parent (u.root x) = u.root x :=
  parent_of_ptr (rootOf_root u x).root

theorem root_root (u : UFNodes) (x : Nat) : u.root (u.root x) = u.root x := by
  rw [root, if_pos (parent_root u x)]

theorem parent_of_root (same : u.root x = x) : u.parent x = x := same ▸ parent_root u x

theorem rank_lt_root (other : x ≠ u.root x) : u.rank x < u.rank (u.root x) := by
  have less := (rootOf_root u x).rank_lt u.ptr_ranked other
  unfold height at less
  omega

/-- One step of the second loop of `UFFind`. -/
def setParent (u : UFNodes) (x r : Nat) (above : u.rank x < u.rank r) : UFNodes where
  parent := Function.update u.parent x r
  rank := u.rank
  ranked := by
    intro y other
    by_cases here : y = x
    · subst here
      rwa [Function.update_self]
    · rw [Function.update_of_ne here] at other ⊢
      exact u.ranked y other
  bounded := u.bounded

theorem ptr_setParent (above : u.rank x < u.rank r) :
    (u.setParent x r above).ptr = Function.update u.ptr x (some r) := by
  funext y
  by_cases here : y = x
  · subst here
    have other : r ≠ y := fun same => Nat.ne_of_lt above (congrArg u.rank same).symm
    simp [ptr, parentPtr, setParent, other]
  · simp [ptr, parentPtr, setParent, here]

/-- Compressing a path keeps all roots. -/
theorem root_setParent (above : u.rank x < u.rank (u.root x)) (y : Nat) :
    (u.setParent x (u.root x) above).root y = u.root y := by
  have other : x ≠ u.root x := fun same => Nat.ne_of_lt above (congrArg u.rank same)
  refine root_eq ?_
  rw [ptr_setParent]
  exact rootOf_compress_of (rootOf_root u x) other (rootOf_root u y)

theorem root_parent (u : UFNodes) (x : Nat) : u.root (u.parent x) = u.root x := by
  by_cases isRoot : u.parent x = x
  · rw [isRoot]
  · have next : u.root x = u.root (u.parent x) := by rw [root, if_neg isRoot]
    exact next.symm

/-- The second loop of `UFFind`: the nodes on the path point to the root. -/
def compress (u : UFNodes) (x r : Nat) (isRoot : u.root x = r) : UFNodes :=
  if last : u.parent x = r then u
  else
    have other : x ≠ u.root x := fun same => last (((parent_of_root same.symm).trans same).trans isRoot)
    (u.setParent x (u.root x) (rank_lt_root other)).compress (u.parent x) r (by
      rw [root_setParent, root_parent, isRoot])
termination_by u.height x
decreasing_by
  have inner : u.parent x ≠ x := fun same => last (by rw [← isRoot, root, if_pos same, same])
  exact height_parent inner

theorem root_compress (u : UFNodes) (x r : Nat) (isRoot : u.root x = r) (y : Nat) :
    (u.compress x r isRoot).root y = u.root y := by
  induction u, x, isRoot using compress.induct r with
  | case1 u x isRoot last => rw [compress, dif_pos last]
  | case2 u x isRoot last other ih => rw [compress, dif_neg last, ih, root_setParent]

/-- `UFFind`. -/
def find (u : UFNodes) (x : Nat) : Nat × UFNodes := (u.root x, u.compress x (u.root x) rfl)

/-- A search changes no root. -/
theorem root_find (u : UFNodes) (x y : Nat) : (u.find x).2.root y = u.root y := root_compress u x _ rfl y

/-- The pointer from `y` to `x` of `UFUnify`, and the new rank of `x`. -/
def link (u : UFNodes) (x y : Nat) (isRoot : u.parent x = x) (le : u.rank y ≤ u.rank x) : UFNodes where
  parent := Function.update u.parent y x
  rank := if u.rank x = u.rank y then Function.update u.rank x (u.rank x + 1) else u.rank
  ranked := by
    intro z other
    by_cases here : z = y
    · subst here
      rw [Function.update_self] at other ⊢
      split
      · rw [Function.update_self, Function.update_of_ne other.symm]
        omega
      · omega
    · rw [Function.update_of_ne here] at other ⊢
      have less := u.ranked z other
      split
      · have notRoot : z ≠ x := fun same => other (same ▸ isRoot)
        rw [Function.update_of_ne notRoot]
        by_cases up : u.parent z = x
        · rw [up, Function.update_self]
          rw [up] at less
          omega
        · rwa [Function.update_of_ne up]
      · exact less
  bounded := by
    obtain ⟨top, bound⟩ := u.bounded
    refine ⟨top + 1, fun z => ?_⟩
    split
    · by_cases same : z = x
      · rw [same, Function.update_self]
        exact Nat.succ_le_succ (bound x)
      · rw [Function.update_of_ne same]
        exact Nat.le_succ_of_le (bound z)
    · exact Nat.le_succ_of_le (bound z)

theorem root_link {isRoot : u.parent x = x} {le : u.rank y ≤ u.rank x} (isRoot' : u.parent y = y) (z : Nat) :
    (u.link x y isRoot le).root z = if u.root z = y then x else u.root z := by
  by_cases same : x = y
  · subst same
    have unchanged : (u.link x x isRoot le).ptr = u.ptr := by
      have parent : Function.update u.parent x x = u.parent := Function.update_eq_self_iff.mpr isRoot.symm
      simp [ptr, link, parent]
    refine root_eq ?_
    rw [unchanged]
    split
    · rename_i here
      exact here ▸ rootOf_root u z
    · exact rootOf_root u z
  · have linked : (u.link x y isRoot le).ptr = Function.update u.ptr y (some x) := by
      funext w
      by_cases here : w = y
      · subst here
        simp [ptr, parentPtr, link, same]
      · simp [ptr, parentPtr, link, here]
    refine root_eq ?_
    rw [linked]
    exact rootOf_link_of (ptr_root isRoot') (ptr_root isRoot) (Ne.symm same) (rootOf_root u z)

/-- `UFUnify`: also the union of a node with itself raises the rank. -/
def unify (u : UFNodes) (x y : Nat) : UFNodes :=
  let u₁ := (u.find x).2
  let u₂ := (u₁.find y).2
  let rx := (u.find x).1
  let ry := (u₁.find y).1
  have isRoot : u₂.parent rx = rx := by
    refine parent_of_root ?_
    rw [root_find, root_find]
    exact root_root u x
  have isRoot' : u₂.parent ry = ry := by
    refine parent_of_root ?_
    rw [root_find]
    exact root_root u₁ y
  if less : u₂.rank rx < u₂.rank ry then u₂.link ry rx isRoot' (Nat.le_of_lt less)
  else u₂.link rx ry isRoot (Nat.le_of_not_lt less)

/-- Two nodes are in one class afterwards if they were before, or if the union joins their classes. -/
theorem root_unify (u : UFNodes) (x y z w : Nat) : (u.unify x y).root z = (u.unify x y).root w ↔
    u.root z = u.root w ∨ u.root z = u.root x ∧ u.root w = u.root y ∨ u.root z = u.root y ∧ u.root w = u.root x := by
  have rx : ((u.find x).2.find y).2.root = u.root := by
    funext z
    rw [root_find, root_find]
  have ry : ((u.find x).2.find y).1 = u.root y := root_find u x y
  have joined : (∀ z, (u.unify x y).root z = if u.root z = u.root x then u.root y else u.root z) ∨
      ∀ z, (u.unify x y).root z = if u.root z = u.root y then u.root x else u.root z := by
    unfold unify
    simp only
    split
    · refine .inl fun z => ?_
      rw [root_link, rx, ry]
      · rfl
      · refine parent_of_root ?_
        rw [rx]
        exact root_root u x
    · refine .inr fun z => ?_
      rw [root_link, rx, ry]
      · rfl
      · refine parent_of_root ?_
        rw [rx, ry]
        exact root_root u y
  rcases joined with joined | joined
  · rw [joined, joined]
    grind
  · rw [joined, joined]
    grind

end UFNodes

/-- What the fragment checker does with the nodes. -/
inductive UFOp where
  | find (x : Nat)
  | unify (x y : Nat)

def UFOp.apply (u : UFNodes) : UFOp → UFNodes
  | .find x => (u.find x).2
  | .unify x y => u.unify x y

def UFNodes.run (ops : List UFOp) : UFNodes := ops.foldl UFOp.apply .empty

/-- The classes: the nodes that a run has unified, directly or not. -/
def SameClass (ops : List UFOp) : Nat → Nat → Prop := Relation.EqvGen fun x y => .unify x y ∈ ops

theorem SameClass.mono {ops ops' : List UFOp} (more : ∀ op ∈ ops, op ∈ ops') {x y : Nat} (same : SameClass ops x y) :
    SameClass ops' x y := Relation.EqvGen.mono (fun _ _ mem => more _ mem) _ _ same

theorem UFNodes.root_empty (x : Nat) : UFNodes.empty.root x = x := by
  rw [UFNodes.root]
  exact if_pos rfl

/-- After any run, the nodes with one root are those of one class. -/
theorem UFNodes.root_run (ops : List UFOp) (x y : Nat) : (run ops).root x = (run ops).root y ↔ SameClass ops x y := by
  induction ops using List.reverseRecOn generalizing x y with
  | nil =>
    rw [run, List.foldl_nil, root_empty, root_empty]
    constructor
    · rintro rfl
      exact .refl x
    · intro same
      induction same with
      | rel _ _ mem => cases mem
      | refl => rfl
      | symm _ _ _ ih => exact ih.symm
      | trans _ _ _ _ _ ih ih' => exact ih.trans ih'
  | append_singleton ops op ih =>
    have last : run (ops ++ [op]) = op.apply (run ops) := by rw [run, List.foldl_append]; rfl
    have more : ∀ op' ∈ ops, op' ∈ ops ++ [op] := fun _ mem => List.mem_append_left _ mem
    rw [last]
    constructor
    · intro same
      cases op with
      | find a =>
        rw [UFOp.apply, root_find, root_find] at same
        exact ((ih x y).mp same).mono more
      | unify a b =>
        have joined : SameClass (ops ++ [.unify a b]) a b := .rel a b (by simp)
        rcases (root_unify (run ops) a b x y).mp same with same | ⟨left, right⟩ | ⟨left, right⟩
        · exact ((ih x y).mp same).mono more
        · exact .trans _ _ _ (((ih x a).mp left).mono more) (.trans _ _ _ joined (((ih b y).mp right.symm).mono more))
        · exact .trans _ _ _ (((ih x b).mp left).mono more)
            (.trans _ _ _ (.symm _ _ joined) (((ih a y).mp right.symm).mono more))
    · intro same
      have keeps : ∀ z w, (run ops).root z = (run ops).root w → (op.apply (run ops)).root z = (op.apply (run ops)).root w := by
        intro z w equal
        cases op with
        | find a => rwa [UFOp.apply, root_find, root_find]
        | unify a b => exact (root_unify (run ops) a b z w).mpr (.inl equal)
      induction same with
      | rel z w mem =>
        rcases List.mem_append.mp mem with old | new
        · exact keeps z w ((ih z w).mpr (.rel z w old))
        · rw [List.mem_singleton] at new
          subst new
          exact (root_unify (run ops) z w z w).mpr (.inr (.inl ⟨rfl, rfl⟩))
      | refl => rfl
      | symm _ _ _ ih => exact ih.symm
      | trans _ _ _ _ _ ih ih' => exact ih.trans ih'

end Goivy
