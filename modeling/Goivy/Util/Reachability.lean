import Mathlib.Data.List.Induction
import Mathlib.Data.Set.Lattice

/-! Sets of states under labelled relations between states: images, the states after a word
of labels, and those reached by any word. -/
namespace Goivy.Reachability

variable {σ α : Type*}

/-- The states that `R` leads to from those of `S`. -/
def image (R : σ → σ → Prop) (S : Set σ) : Set σ := {t | ∃ s ∈ S, R s t}

variable {R : σ → σ → Prop} {S T : Set σ} {s t : σ}

theorem mem_image : t ∈ image R S ↔ ∃ s ∈ S, R s t := Iff.rfl

theorem image_mono (sub : S ⊆ T) : image R S ⊆ image R T := by
  rintro t ⟨s, hs, step⟩
  exact ⟨s, sub hs, step⟩

/-- Images are below a set exactly when its states are the only successors. -/
theorem image_subset_iff : image R S ⊆ T ↔ ∀ s ∈ S, ∀ t, R s t → t ∈ T := by
  constructor
  · intro sub s hs t step
    exact sub ⟨s, hs, step⟩
  · rintro closed t ⟨s, hs, step⟩
    exact closed s hs t step

theorem image_nonempty_iff : (image R S).Nonempty ↔ ∃ s ∈ S, ∃ t, R s t := by
  constructor
  · rintro ⟨t, s, hs, step⟩
    exact ⟨s, hs, t, step⟩
  · rintro ⟨s, hs, t, step⟩
    exact ⟨t, s, hs, step⟩

variable (step : α → σ → σ → Prop)

/-- The states after the labels of a word. -/
def after (S : Set σ) (word : List α) : Set σ := word.foldl (fun S a => image (step a) S) S

/-- The states that some word leads to. -/
def reached (S : Set σ) : Set σ := ⋃ word, after step S word

/-- A walk along the labels of a word. -/
inductive Walk : σ → List α → σ → Prop
  | start {s : σ} : Walk s [] s
  | snoc {s t u : σ} {word : List α} {a : α} : Walk s word t → step a t u → Walk s (word ++ [a]) u

variable {step} {word : List α} {a : α}

@[simp] theorem after_nil : after step S [] = S := rfl

theorem after_snoc : after step S (word ++ [a]) = image (step a) (after step S word) :=
  by
  rw [after, List.foldl_append]
  rfl

theorem after_append (more : List α) :
    after step S (word ++ more) = after step (after step S word) more := List.foldl_append

theorem after_cons : after step S (a :: word) = after step (image (step a) S) word := rfl

theorem after_map {β : Type*} (f : β → α) (word : List β) :
    after step S (word.map f) = after (fun b => step (f b)) S word := List.foldl_map

theorem after_mono (sub : S ⊆ T) (word : List α) : after step S word ⊆ after step T word := by
  induction word using List.reverseRecOn with
  | nil => exact sub
  | append_singleton word a ih =>
    rw [after_snoc, after_snoc]
    exact image_mono ih

/-- States that the steps cannot tell apart are reached together. -/
theorem after_congr {E : σ → σ → Prop} (start : ∀ s ∈ S, ∀ t, E s t → t ∈ S)
    (back : ∀ a ∈ word, ∀ s s' t', step a s s' → E s' t' → ∃ t, E s t ∧ step a t t')
    (hs : s ∈ after step S word) (same : E s t) : t ∈ after step S word := by
  induction word using List.reverseRecOn generalizing s t with
  | nil => exact start s hs t same
  | append_singleton word a ih =>
    rw [after_snoc] at hs ⊢
    obtain ⟨r, hr, last⟩ := hs
    obtain ⟨q, earlier, next⟩ := back a (by simp) r s t last same
    exact ⟨q, ih (fun b hb => back b (List.mem_append_left _ hb)) hr earlier, next⟩

theorem walk_nil : Walk step s [] t ↔ s = t := by
  constructor
  · intro walk
    generalize hw : ([] : List α) = w at walk
    cases walk with
    | start => rfl
    | snoc _ _ => simp at hw
  · rintro rfl
    exact .start

theorem walk_snoc : Walk step s (word ++ [a]) t ↔ ∃ u, Walk step s word u ∧ step a u t := by
  constructor
  · intro walk
    generalize hw : word ++ [a] = w at walk
    cases walk with
    | start => simp at hw
    | snoc earlier last =>
      obtain ⟨rfl, rfl⟩ := List.append_singleton_inj.mp hw
      exact ⟨_, earlier, last⟩
  · rintro ⟨u, earlier, last⟩
    exact earlier.snoc last

/-- The states after a word are the ends of its walks. -/
theorem mem_after : t ∈ after step S word ↔ ∃ s ∈ S, Walk step s word t := by
  induction word using List.reverseRecOn generalizing t with
  | nil => simp [walk_nil]
  | append_singleton word a ih =>
    simp only [after_snoc, mem_image, ih, walk_snoc]
    constructor
    · rintro ⟨u, ⟨s, hs, walk⟩, last⟩
      exact ⟨s, hs, u, walk, last⟩
    · rintro ⟨s, hs, u, walk, last⟩
      exact ⟨u, ⟨s, hs, walk⟩, last⟩

theorem mem_reached : t ∈ reached step S ↔ ∃ word, t ∈ after step S word := Set.mem_iUnion

theorem subset_reached : S ⊆ reached step S := fun _ hs => mem_reached.mpr ⟨[], hs⟩

theorem reached_step (hs : s ∈ reached step S) (next : step a s t) : t ∈ reached step S := by
  obtain ⟨word, hw⟩ := mem_reached.mp hs
  exact mem_reached.mpr ⟨word ++ [a], by rw [after_snoc]; exact ⟨s, hw, next⟩⟩

/-- The invariant rule: a set with the initial states that every step stays in has all
reached states. -/
theorem reached_subset {I : Set σ} (initially : S ⊆ I)
    (preserved : ∀ a s t, s ∈ I → step a s t → t ∈ I) : reached step S ⊆ I := by
  intro t ht
  obtain ⟨word, hw⟩ := mem_reached.mp ht
  clear ht
  induction word using List.reverseRecOn generalizing t with
  | nil => exact initially hw
  | append_singleton word a ih =>
    rw [after_snoc] at hw
    obtain ⟨s, hs, last⟩ := hw
    exact preserved a s t (ih hs) last

end Goivy.Reachability
