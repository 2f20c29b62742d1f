import Goivy.UnitRes.CongClos
import Mathlib.Data.Finset.Card

/-! The store as a forest: representatives are roots, and each union that changes it uses
one of them up. -/
namespace Goivy

namespace CongClos

def keys (cc : CongClos) : List Expr := cc.tab.map Prod.fst

theorem pointer_none_of_not_key {cc : CongClos} {x : Expr} (h : x ∉ cc.keys) :
    cc.tab.lookup x = none := by
  rw [List.lookup_eq_none_iff]
  intro p hp
  simp only [bne_iff_ne, ne_eq]
  rintro rfl
  exact h (List.mem_map_of_mem hp)

theorem key_of_pointer {cc : CongClos} {x r : Expr} (h : cc.pointer x = some r) : x ∈ cc.keys := by
  by_contra absent
  rw [pointer, pointer_none_of_not_key absent] at h
  cases h

theorem keys_assign (cc : CongClos) (n : Expr) (o : Option Expr) : (cc.assign n o).keys = cc.keys := by
  simp only [keys, assign, List.map_map]
  refine List.map_congr_left fun p _ => ?_
  simp only [Function.comp]
  split
  · rename_i same
    exact same.symm
  · rfl

theorem pointer_assign_key {cc : CongClos} {n : Expr} (key : n ∈ cc.keys) (o : Option Expr) (x : Expr) :
    (cc.assign n o).pointer x = if x = n then o else cc.pointer x := by
  unfold keys at key
  unfold pointer assign
  generalize cc.tab = tab at key
  induction tab with
  | nil => exact absurd key List.not_mem_nil
  | cons p tab ih =>
    obtain ⟨k, q⟩ := p
    rw [List.map_cons]
    by_cases here : k = n
    · subst here
      rw [if_pos rfl, InsMap.lookup_cons, InsMap.lookup_cons]
      by_cases same : x = k
      · rw [if_pos same, if_pos same]
        rfl
      · rw [if_neg same, if_neg same, if_neg same]
        by_cases later : k ∈ tab.map Prod.fst
        · rw [ih later, if_neg same]
        · -- no other entry has the key
          have unchanged : tab.map (fun p => if p.1 = k then (k, o) else p) = tab := by
            refine (List.map_congr_left fun p hp => if_neg fun same => later ?_).trans (List.map_id _)
            exact same ▸ List.mem_map_of_mem hp
          rw [unchanged]
    · have later : n ∈ tab.map Prod.fst := by
        obtain h | h := List.mem_cons.mp key
        · exact absurd h.symm here
        · exact h
      rw [if_neg here, InsMap.lookup_cons, InsMap.lookup_cons]
      by_cases same : x = k
      · have ne : x ≠ n := same ▸ here
        rw [if_pos same, if_pos same, if_neg ne]
      · rw [if_neg same, if_neg same]
        exact ih later

/-- The pointers lead to registered terms of smaller rank. -/
structure Ranked (rank : Expr → Nat) (cc : CongClos) : Prop where
  smaller : ∀ n r, cc.pointer n = some r → rank r < rank n
  registered : ∀ n r, cc.pointer n = some r → r ∈ cc.keys

/-- A store with the same terms and the same roots, that leads to no other terms. -/
structure Compresses (cc cc' : CongClos) : Prop where
  keys : cc'.keys = cc.keys
  roots : ∀ x, cc'.pointer x = none ↔ cc.pointer x = none
  targets : ∀ Q : Expr → Prop, (∀ n r, cc.pointer n = some r → Q r) →
    ∀ n r, cc'.pointer n = some r → Q r

theorem Compresses.refl (cc : CongClos) : cc.Compresses cc :=
  ⟨rfl, fun _ => .rfl, fun _ h => h⟩

theorem Compresses.trans {a b c : CongClos} (h : a.Compresses b) (h' : b.Compresses c) :
    a.Compresses c :=
  ⟨h'.keys.trans h.keys, fun x => (h'.roots x).trans (h.roots x), fun Q q => h'.targets Q (h.targets Q q)⟩

theorem pointer_setRep {cc : CongClos} {n : Expr} (key : n ∈ cc.keys) (rep x : Expr) :
    (cc.setRep n rep).pointer x = if x = n then some rep else cc.pointer x := by
  unfold setRep
  split
  · rename_i same
    split
    · rename_i eq
      rw [eq, same]
    · rfl
  · exact pointer_assign_key key (some rep) x

theorem keys_setRep (cc : CongClos) (n rep : Expr) : (cc.setRep n rep).keys = cc.keys := by
  unfold setRep
  split
  · rfl
  · exact keys_assign cc n (some rep)

variable {rank : Expr → Nat}

/-- The representative is registered, has no larger rank and satisfies what pointers lead to. -/
theorem getRepRec_ranked {cc : CongClos} (ranked : cc.Ranked rank) (fuel : Nat) {n : Expr}
    (key : n ∈ cc.keys) :
    (getRepRec fuel cc n).2.Ranked rank ∧ cc.Compresses (getRepRec fuel cc n).2 ∧
      rank (getRepRec fuel cc n).1 ≤ rank n ∧ (getRepRec fuel cc n).1 ∈ cc.keys ∧
      ∀ Q : Expr → Prop, (∀ n r, cc.pointer n = some r → Q r) → Q n → Q (getRepRec fuel cc n).1 := by
  induction fuel generalizing n with
  | zero => exact ⟨ranked, .refl cc, le_rfl, key, fun _ _ h => h⟩
  | succ fuel ih =>
    cases found : cc.pointer n with
    | none =>
      simp only [getRepRec, found]
      exact ⟨ranked, .refl cc, le_rfl, key, fun _ _ h => h⟩
    | some next =>
      obtain ⟨ranked', compresses, le, repKey, rep⟩ := ih (ranked.registered n next found)
      have lt := ranked.smaller n next found
      simp only [getRepRec, found]
      generalize getRepRec fuel cc next = result at ranked' compresses le repKey rep
      obtain ⟨r, cc'⟩ := result
      have key' : n ∈ cc'.keys := compresses.keys ▸ key
      have pointer := pointer_setRep key' r
      refine ⟨⟨fun x y h => ?_, fun x y h => ?_⟩, ⟨?_, fun x => ?_, fun Q q x y h => ?_⟩,
        le.trans lt.le, repKey, fun Q q _ => rep Q q (q n next found)⟩
      · rw [pointer] at h
        split at h
        · rename_i same
          cases h
          exact same ▸ le.trans_lt lt
        · exact ranked'.smaller x y h
      · rw [pointer] at h
        rw [keys_setRep]
        split at h
        · cases h
          exact compresses.keys ▸ repKey
        · exact ranked'.registered x y h
      · rw [keys_setRep, compresses.keys]
      · rw [pointer]
        split
        · rename_i same
          simp [same, found]
        · exact compresses.roots x
      · rw [pointer] at h
        split at h
        · cases h
          exact rep Q q (q n next found)
        · exact compresses.targets Q q x y h

/-- The chain visits no term twice, so the fuel leads to its end. -/
theorem getRepRec_root {cc : CongClos} (ranked : cc.Ranked rank) (fuel : Nat) (n : Expr)
    (visited : List Expr) (nodup : visited.Nodup) (visitedKeys : ∀ x ∈ visited, x ∈ cc.keys)
    (above : ∀ x ∈ visited, rank n < rank x) (enough : cc.keys.length ≤ fuel + visited.length) :
    cc.pointer (getRepRec fuel cc n).1 = none := by
  have extend : ∀ next, cc.pointer n = some next → (n :: visited).Nodup ∧
      ∀ x ∈ n :: visited, x ∈ cc.keys := fun next found =>
    ⟨List.nodup_cons.mpr ⟨fun h => lt_irrefl _ (above n h), nodup⟩,
      List.forall_mem_cons.mpr ⟨key_of_pointer found, visitedKeys⟩⟩
  induction fuel generalizing n visited with
  | zero =>
    cases found : cc.pointer n with
    | none => exact found
    | some next =>
      obtain ⟨nodup', keys'⟩ := extend next found
      have := (List.subperm_of_subset nodup' keys').length_le
      simp only [List.length_cons] at this
      omega
  | succ fuel ih =>
    cases found : cc.pointer n with
    | none => rwa [getRepRec, found]
    | some next =>
      obtain ⟨nodup', keys'⟩ := extend next found
      have lt := ranked.smaller n next found
      have above' : ∀ x ∈ n :: visited, rank next < rank x :=
        List.forall_mem_cons.mpr ⟨lt, fun x hx => lt.trans (above x hx)⟩
      have := ih next (n :: visited) nodup' keys' above' (by simp only [List.length_cons]; omega)
        fun next' found' => ⟨List.nodup_cons.mpr
          ⟨fun h => lt_irrefl _ (above' next h), nodup'⟩,
          List.forall_mem_cons.mpr ⟨key_of_pointer found', keys'⟩⟩
      simpa only [getRepRec, found] using this

theorem getRepNode_ranked {cc : CongClos} (ranked : cc.Ranked rank) (t : Expr) :
    (cc.getRepNode t).2.Ranked rank ∧ (∀ x, x ∈ (cc.getRepNode t).2.keys ↔ x ∈ cc.keys ∨ x = t) ∧
      (∀ x, (cc.getRepNode t).2.pointer x = none ↔ cc.pointer x = none) ∧
      (cc.getRepNode t).1 ∈ (cc.getRepNode t).2.keys ∧
      (cc.getRepNode t).2.pointer (cc.getRepNode t).1 = none ∧
      ∀ Q : Expr → Prop, (∀ n r, cc.pointer n = some r → Q r) →
        (∀ n r, (cc.getRepNode t).2.pointer n = some r → Q r) ∧ (Q t → Q (cc.getRepNode t).1) := by
  -- the store with the term registered
  obtain ⟨cc', eq, keys', pointer'⟩ : ∃ cc' : CongClos, cc.getRepNode t = getRepRec cc'.tab.length cc' t ∧
      (∀ x, x ∈ cc'.keys ↔ x ∈ cc.keys ∨ x = t) ∧ ∀ x, cc'.pointer x = cc.pointer x := by
    unfold getRepNode
    split
    · rename_i registered
      refine ⟨cc, rfl, fun x => ⟨.inl, ?_⟩, fun _ => rfl⟩
      rintro (h | rfl)
      · exact h
      · by_contra absent
        rw [pointer_none_of_not_key absent] at registered
        cases registered
    · rename_i absent
      refine ⟨_, rfl, fun x => by simp [keys], fun x => ?_⟩
      rw [pointer, pointer, List.lookup_append, InsMap.lookup_cons]
      cases found : cc.tab.lookup x with
      | some o => rfl
      | none =>
        rw [Option.none_or]
        split
        · rfl
        · rfl
  have ranked' : cc'.Ranked rank :=
    ⟨fun n r h => ranked.smaller n r (pointer' n ▸ h), fun n r h =>
      (keys' r).mpr (.inl (ranked.registered n r (pointer' n ▸ h)))⟩
  have key : t ∈ cc'.keys := (keys' t).mpr (.inr rfl)
  obtain ⟨rankedR, compresses, -, repKey, rep⟩ := getRepRec_ranked ranked' cc'.tab.length key
  have root := getRepRec_root ranked' cc'.tab.length t [] List.nodup_nil (by simp) (by simp)
    (by simp [keys])
  rw [eq]
  refine ⟨rankedR, fun x => by rw [compresses.keys, keys'], fun x => ?_, compresses.keys ▸ repKey,
    (compresses.roots _).mpr root, fun Q q => ?_⟩
  · rw [compresses.roots, pointer']
  · have q' : ∀ n r, cc'.pointer n = some r → Q r := fun n r h => q n r (pointer' n ▸ h)
    exact ⟨compresses.targets Q q', rep Q q'⟩

/-- The terms that are their own representatives. -/
def roots (consts : Finset Expr) (cc : CongClos) : Finset Expr :=
  consts.filter (fun n => cc.pointer n = none)

/-- How many unions can still change the store. -/
def room (consts : Finset Expr) (cc : CongClos) : Nat := (cc.roots consts).card

/-- A forest over some terms. -/
structure Forest (consts : Finset Expr) (cc : CongClos) : Prop where
  ranked : ∃ rank, cc.Ranked rank
  inside : ∀ n r, cc.pointer n = some r → r ∈ consts

variable {consts : Finset Expr}

theorem new_forest : (new : CongClos).Forest consts :=
  ⟨⟨fun _ => 0, fun _ _ h => (by cases h), fun _ _ h => (by cases h)⟩, fun _ _ h => (by cases h)⟩

theorem Forest.find {cc : CongClos} (forest : cc.Forest consts) {t : Expr} (ht : t ∈ consts) :
    cc.find t ∈ consts := by
  obtain ⟨rank, ranked⟩ := forest.ranked
  obtain ⟨-, -, -, -, -, closed⟩ := getRepNode_ranked ranked t
  exact (closed (· ∈ consts) forest.inside).2 ht

/-- Links a root to another one. -/
theorem Forest.link {cc : CongClos} (forest : cc.Forest consts) {r1 r2 : Expr} (h1 : r1 ∈ consts)
    (h2 : r2 ∈ consts) (key1 : r1 ∈ cc.keys) (key2 : r2 ∈ cc.keys) (root1 : cc.pointer r1 = none)
    (root2 : cc.pointer r2 = none) (ne : r1 ≠ r2) :
    (cc.setRep r1 r2).Forest consts ∧ (cc.setRep r1 r2).room consts < cc.room consts := by
  obtain ⟨rank, ranked⟩ := forest.ranked
  have pointer := pointer_setRep key1 r2
  refine ⟨⟨⟨fun x => if x = r2 then 0 else rank x + 1, fun x y h => ?_, fun x y h => ?_⟩,
    fun x y h => ?_⟩, ?_⟩
  · rw [pointer] at h
    split at h
    · rename_i same
      cases h
      have : x ≠ r2 := same ▸ ne
      simp [this]
    · have notRoot : x ≠ r2 := by
        rintro rfl
        rw [root2] at h
        cases h
      have := ranked.smaller x y h
      simp only [if_neg notRoot]
      split
      · omega
      · omega
  · rw [pointer] at h
    rw [keys_setRep]
    split at h
    · cases h
      exact key2
    · exact ranked.registered x y h
  · rw [pointer] at h
    split at h
    · cases h
      exact h2
    · exact forest.inside x y h
  · refine Finset.card_lt_card (Finset.ssubset_iff_of_subset (fun x hx => ?_) |>.mpr ⟨r1, ?_, ?_⟩)
    · simp only [roots, Finset.mem_filter, pointer] at hx ⊢
      refine ⟨hx.1, ?_⟩
      have free := hx.2
      split at free
      · cases free
      · exact free
    · simp [roots, h1, root1]
    · simp [roots, pointer]

theorem Forest.union {cc : CongClos} (forest : cc.Forest consts) {t1 t2 : Expr} (h1 : t1 ∈ consts)
    (h2 : t2 ∈ consts) :
    (cc.union t1 t2).1.Forest consts ∧ (cc.union t1 t2).1.room consts ≤ cc.room consts ∧
      ((cc.union t1 t2).2 = true → (cc.union t1 t2).1.room consts < cc.room consts) := by
  obtain ⟨rank, ranked⟩ := forest.ranked
  obtain ⟨ranked1, keys1, roots1, key1, root1, closed1⟩ := getRepNode_ranked ranked t1
  obtain ⟨inside1, rep1⟩ := closed1 (· ∈ consts) forest.inside
  obtain ⟨ranked2, keys2, roots2, key2, root2, closed2⟩ := getRepNode_ranked ranked1 t2
  obtain ⟨inside2, rep2⟩ := closed2 (· ∈ consts) inside1
  have forest2 : ((cc.getRepNode t1).2.getRepNode t2).2.Forest consts := ⟨⟨rank, ranked2⟩, inside2⟩
  have same : ((cc.getRepNode t1).2.getRepNode t2).2.room consts = cc.room consts := by
    simp only [room, roots, roots2, roots1]
  have key1' := (keys2 _).mpr (.inl key1)
  have root1' := (roots2 _).mpr root1
  unfold CongClos.union
  simp only
  split
  · exact ⟨forest2, same.le, fun h => nomatch h⟩
  · rename_i ne
    split
    · obtain ⟨linked, lt⟩ := forest2.link (rep2 h2) (rep1 h1) key2 key1' root2 root1' (Ne.symm ne)
      exact ⟨linked, (lt.trans_eq same).le, fun _ => lt.trans_eq same⟩
    · obtain ⟨linked, lt⟩ := forest2.link (rep1 h1) (rep2 h2) key1' key2 root1' root2 ne
      exact ⟨linked, (lt.trans_eq same).le, fun _ => lt.trans_eq same⟩

end CongClos

end Goivy
