import Mathlib

/-! Lists of results that may be missing. -/
namespace Goivy

section MapM

variable {α β : Type} {f : α → Option β} {as : List α} {bs : List β}

/-- A list of results, element by element. -/
theorem mapM_eq_some_iff : as.mapM f = some bs ↔ List.Forall₂ (fun a b => f a = some b) as bs := by
  induction as generalizing bs with
  | nil => simp [eq_comm]
  | cons a as ih =>
    simp only [List.mapM_cons, Option.pure_def, Option.bind_eq_bind, Option.bind_eq_some_iff, ih]
    constructor
    · rintro ⟨b, here, rest, later, same⟩
      cases same
      exact .cons here later
    · rintro (_ | ⟨here, later⟩)
      exact ⟨_, here, _, later, rfl⟩

theorem mapM_isSome_iff : (as.mapM f).isSome ↔ ∀ a ∈ as, (f a).isSome := by
  induction as with
  | nil => simp
  | cons a as ih =>
    rw [List.forall_mem_cons, ← ih]
    cases here : f a <;> cases rest : as.mapM f <;> simp [here, rest]

theorem exists_of_mapM (h : as.mapM f = some bs) : ∀ a ∈ as, ∃ b ∈ bs, f a = some b := by
  have each := mapM_eq_some_iff.mp h
  clear h
  induction each with
  | nil => simp
  | cons first _ ih =>
    rw [List.forall_mem_cons]
    exact ⟨⟨_, List.mem_cons_self, first⟩, fun c mem => (ih c mem).imp fun d ⟨there, eq⟩ => ⟨List.mem_cons_of_mem _ there, eq⟩⟩

theorem mem_of_mapM (h : as.mapM f = some bs) : ∀ b ∈ bs, ∃ a ∈ as, f a = some b := by
  have each := mapM_eq_some_iff.mp h
  clear h
  induction each with
  | nil => simp
  | cons first _ ih =>
    rw [List.forall_mem_cons]
    exact ⟨⟨_, List.mem_cons_self, first⟩, fun c mem => (ih c mem).imp fun d ⟨there, eq⟩ => ⟨List.mem_cons_of_mem _ there, eq⟩⟩

theorem mapM_eq_none {a : α} (mem : a ∈ as) (missing : f a = none) : as.mapM f = none := by
  cases made : as.mapM f with
  | none => rfl
  | some bs =>
    obtain ⟨b, -, found⟩ := exists_of_mapM made a mem
    rw [missing] at found
    contradiction

theorem mapM_congr_some {f' : α → Option β} (same : ∀ a ∈ as, f a = f' a) : as.mapM f = as.mapM f' := by
  induction as with
  | nil => rfl
  | cons a as ih =>
    rw [List.mapM_cons, List.mapM_cons, same a List.mem_cons_self, ih fun x hx => same x (List.mem_cons_of_mem _ hx)]

theorem mapM_eq_map {g : α → β} (h : ∀ a ∈ as, f a = some (g a)) : as.mapM f = some (as.map g) := by
  rw [mapM_congr_some h]
  exact List.mapM_pure

theorem mapM_eq_some_self {g : β → α} {xs : List β} : (xs.map g).mapM f = some xs ↔ ∀ x ∈ xs, f (g x) = some x := by
  rw [mapM_eq_some_iff, List.forall₂_map_left_iff, List.forall₂_same]

end MapM

end Goivy
