import Mathlib.Logic.Function.Basic

/-! Pointers that lead from nodes to roots: compressing a path keeps the roots, and linking a
root to another one joins what they are the roots of. -/
namespace Goivy.PointerForest

variable {α : Type}

inductive RootOf (ptr : α → Option α) : α → α → Prop
  | self {r : α} (root : ptr r = none) : RootOf ptr r r
  | step {i j r : α} (edge : ptr i = some j) (rest : RootOf ptr j r) : RootOf ptr i r

/-- A measure that every pointer decreases. -/
def Ranked (ptr : α → Option α) (rank : α → Nat) : Prop := ∀ i j, ptr i = some j → rank j < rank i

variable {ptr : α → Option α} {rank : α → Nat} {i j r s : α}

theorem RootOf.root (h : RootOf ptr i r) : ptr r = none := by
  induction h with
  | self root => exact root
  | step _ _ ih => exact ih

theorem RootOf.eq_of_root (h : RootOf ptr i r) (root : ptr i = none) : r = i := by
  cases h with
  | self _ => rfl
  | step edge _ => rw [root] at edge; cases edge

theorem RootOf.unique (h : RootOf ptr i r) (h' : RootOf ptr i s) : r = s := by
  induction h with
  | self root => exact (h'.eq_of_root root).symm
  | step edge _ ih =>
    cases h' with
    | self root => rw [root] at edge; cases edge
    | step edge' rest => rw [edge] at edge'; cases edge'; exact ih rest

/-- What every pointer preserves, the root has. -/
theorem RootOf.closed (h : RootOf ptr i r) {P : α → Prop} (closed : ∀ i j, ptr i = some j → P i → P j)
    (start : P i) : P r := by
  induction h with
  | self _ => exact start
  | step edge _ ih => exact ih (closed _ _ edge start)

theorem RootOf.rank_lt (h : RootOf ptr i r) (ranked : Ranked ptr rank) (ne : i ≠ r) :
    rank r < rank i := by
  induction h with
  | self _ => exact absurd rfl ne
  | @step i j r edge rest ih =>
    have first := ranked i j edge
    by_cases last : j = r
    · exact last ▸ first
    · exact Nat.lt_trans (ih last) first

theorem exists_root (ranked : Ranked ptr rank) (i : α) : ∃ r, RootOf ptr i r := by
  induction size : rank i using Nat.strongRecOn generalizing i with
  | _ n ih =>
    cases edge : ptr i with
    | none => exact ⟨i, .self edge⟩
    | some j =>
      obtain ⟨r, rest⟩ := ih (rank j) (size ▸ ranked i j edge) j rfl
      exact ⟨r, .step edge rest⟩

variable [DecidableEq α]

section Compress

variable (path : RootOf ptr i r) (ne : i ≠ r)
include path ne

theorem compress_ranked (ranked : Ranked ptr rank) :
    Ranked (Function.update ptr i (some r)) rank := by
  intro k l edge
  by_cases here : k = i
  · rw [here, Function.update_self] at edge
    cases edge
    exact here ▸ path.rank_lt ranked ne
  · rw [Function.update_of_ne here] at edge
    exact ranked k l edge

theorem rootOf_compress_of {k : α} (h : RootOf ptr k s) :
    RootOf (Function.update ptr i (some r)) k s := by
  have root : Function.update ptr i (some r) r = none := by
    rw [Function.update_of_ne ne.symm, path.root]
  induction h with
  | @self t free =>
    have other : t ≠ i := fun same => ne (path.eq_of_root (same ▸ free)).symm
    exact .self (by rw [Function.update_of_ne other, free])
  | @step k l s edge rest ih =>
    by_cases here : k = i
    · subst here
      obtain rfl := path.unique (.step edge rest)
      exact .step (Function.update_self ..) (.self root)
    · exact .step (by rw [Function.update_of_ne here, edge]) ih

theorem rootOf_compress (ranked : Ranked ptr rank) {k : α} :
    RootOf (Function.update ptr i (some r)) k s ↔ RootOf ptr k s := by
  refine ⟨fun h => ?_, rootOf_compress_of path ne⟩
  obtain ⟨t, old⟩ := exists_root ranked k
  rwa [h.unique (rootOf_compress_of path ne old)]

end Compress

section Link

variable (rootI : ptr i = none) (rootJ : ptr j = none) (ne : i ≠ j)
include rootI rootJ ne

omit rootI in
theorem link_ranked (ranked : Ranked ptr rank) :
    ∃ rank', Ranked (Function.update ptr i (some j)) rank' := by
  refine ⟨fun k => if k = j then 0 else rank k + 1, fun k l edge => ?_⟩
  by_cases here : k = i
  · rw [here, Function.update_self] at edge
    cases edge
    simp [here, ne]
  · rw [Function.update_of_ne here] at edge
    have notRoot : k ≠ j := by
      rintro rfl
      rw [rootJ] at edge
      cases edge
    have less := ranked k l edge
    simp only [if_neg notRoot]
    split
    · omega
    · omega

theorem rootOf_link_of {k : α} (h : RootOf ptr k s) :
    RootOf (Function.update ptr i (some j)) k (if s = i then j else s) := by
  have root : Function.update ptr i (some j) j = none := by
    rw [Function.update_of_ne ne.symm, rootJ]
  induction h with
  | @self t free =>
    by_cases here : t = i
    · rw [if_pos here, here]
      exact .step (Function.update_self ..) (.self root)
    · rw [if_neg here]
      exact .self (by rw [Function.update_of_ne here, free])
  | @step k l s edge rest ih =>
    have notRoot : k ≠ i := by
      rintro rfl
      rw [rootI] at edge
      cases edge
    exact .step (by rw [Function.update_of_ne notRoot, edge]) ih

end Link

end Goivy.PointerForest
