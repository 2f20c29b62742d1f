import Mathlib

/-! Bindings of terms to terms, made one after another between terms that are not bound yet. -/
namespace Goivy.Bindings

variable {α β : Type} [DecidableEq α] {env : List (α × α)} {v t x y : α}

/-- The end of the chain of a term, where the newest binding comes first. -/
def resolve : List (α × α) → α → α
  | [], x => x
  | (v, t) :: env, x => if resolve env x = v then t else resolve env x

def depth : List (α × α) → α → Nat
  | [], _ => 0
  | (v, _) :: env, x => depth env x + if resolve env x = v then 1 else 0

/-- Each binding was made between two different ends. -/
inductive Triangular : List (α × α) → Prop
  | nil : Triangular []
  | cons {env : List (α × α)} {v t : α} : Triangular env → resolve env v = v → resolve env t = t → t ≠ v → Triangular ((v, t) :: env)

theorem depth_le (env : List (α × α)) (x : α) : depth env x ≤ env.length := by
  induction env with
  | nil => exact Nat.le_refl 0
  | cons p env ih =>
    rw [depth, List.length_cons]
    split <;> omega

theorem resolve_cons_of_eq (h : resolve env x = v) : resolve ((v, t) :: env) x = t := if_pos h

theorem resolve_cons_of_ne (h : resolve env x ≠ v) : resolve ((v, t) :: env) x = resolve env x := if_neg h

/-- A new binding keeps terms equal that were equal. -/
theorem resolve_cons_congr (p : α × α) (h : resolve env x = resolve env y) : resolve (p :: env) x = resolve (p :: env) y := by
  rw [resolve, resolve, h]

/-- A chain ends where it begins, or at a term that is bound to. -/
theorem resolve_mem (env : List (α × α)) (x : α) : resolve env x = x ∨ ∃ p ∈ env, resolve env x = p.2 := by
  induction env with
  | nil => exact .inl rfl
  | cons p env ih =>
    rw [resolve]
    split
    · exact .inr ⟨p, List.mem_cons_self, rfl⟩
    · rcases ih with same | ⟨q, mem, found⟩
      · exact .inl same
      · exact .inr ⟨q, List.mem_cons_of_mem _ mem, found⟩

namespace Triangular

theorem ne (h : Triangular ((v, t) :: env)) : t ≠ v := by
  cases h with
  | cons _ _ _ ne => exact ne

theorem resolve_resolve (h : Triangular env) (x : α) : resolve env (resolve env x) = resolve env x := by
  induction h generalizing x with
  | nil => rfl
  | @cons env v t _ _ ht ne ih =>
    by_cases bound : resolve env x = v
    · rw [resolve_cons_of_eq bound, resolve_cons_of_ne (by rwa [ht]), ht]
    · rw [resolve_cons_of_ne bound, resolve_cons_of_ne (by rwa [ih]), ih]

/-- The two sides of a binding have one end. -/
theorem resolve_eq (h : Triangular env) (mem : (v, t) ∈ env) : resolve env v = resolve env t := by
  induction h with
  | nil => contradiction
  | cons _ hv ht ne ih =>
    rcases List.mem_cons.mp mem with new | old
    · obtain ⟨rfl, rfl⟩ := Prod.mk.inj new
      rw [resolve_cons_of_eq hv, resolve_cons_of_ne (by rwa [ht]), ht]
    · exact resolve_cons_congr _ (ih old)

theorem depth_end (h : Triangular env) (end_ : resolve env x = x) : depth env x = 0 := by
  induction h with
  | nil => rfl
  | @cons env v t _ _ ht ne ih =>
    by_cases bound : resolve env x = v
    · obtain rfl : t = x := (resolve_cons_of_eq bound).symm.trans end_
      exact absurd (ht.symm.trans bound) ne
    · rw [resolve_cons_of_ne bound] at end_
      rw [depth, if_neg bound, ih end_]

/-- The chain of a bound term goes on from the term that it is bound to. -/
theorem lookup_some (h : Triangular env) (found : env.lookup x = some y) :
    resolve env x = resolve env y ∧ depth env x = depth env y + 1 := by
  induction h with
  | nil => contradiction
  | cons tri hv ht ne ih =>
    rw [List.lookup_cons] at found
    split at found
    · rename_i here
      obtain rfl := Option.some.inj found
      obtain rfl := eq_of_beq here
      rw [resolve_cons_of_eq hv, resolve_cons_of_ne (by rwa [ht]), ht, depth, depth, if_pos hv, if_neg (by rwa [ht]),
        tri.depth_end hv, tri.depth_end ht]
      exact ⟨rfl, rfl⟩
    · obtain ⟨same, step⟩ := ih found
      rw [depth, depth, step, same]
      exact ⟨resolve_cons_congr _ same, by omega⟩

theorem lookup_none (h : Triangular env) (found : env.lookup x = none) : resolve env x = x := by
  induction h with
  | nil => rfl
  | cons _ _ _ _ ih =>
    rw [List.lookup_cons] at found
    split at found
    · contradiction
    · rename_i other
      have same := ih found
      rw [resolve_cons_of_ne (by rw [same]; exact ne_of_beq_false other), same]

end Triangular

/-- What makes the two sides of each binding equal does not tell a term from its end. -/
theorem apply_resolve {f : α → β} (agree : ∀ p ∈ env, f p.1 = f p.2) (x : α) : f (resolve env x) = f x := by
  induction env with
  | nil => rfl
  | cons p env ih =>
    rw [List.forall_mem_cons] at agree
    have rest := ih agree.2
    rw [resolve]
    split
    · rename_i bound
      rw [← rest, bound, agree.1]
    · exact rest

end Goivy.Bindings
