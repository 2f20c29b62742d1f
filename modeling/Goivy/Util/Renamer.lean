import Goivy.Logic.Rename

/-! Fresh names. -/
namespace Goivy

/-- The names of `ConstantNameGenerator` in the order they come: a to z, then a0 to z0,
a1 to z1 and so on. -/
def constantName (n : Nat) : String :=
  let c := String.singleton (Char.ofNat ('a'.toNat + n % 26))
  if n < 26 then c else c ++ toString (n / 26 - 1)

/-- The loop of `UnusedNameWithBase` from the `n`th suffix on. -/
def unusedNameFrom (base : String) (used : List String) : Nat → Nat → String
  | 0, n => base ++ "_" ++ constantName n
  | fuel + 1, n =>
    let name := base ++ "_" ++ constantName n
    if name ∈ used then unusedNameFrom base used fuel (n + 1) else name

/-- One suffix more than there are used names is enough. -/
def unusedNameWithBase (base : String) (used : List String) : String :=
  unusedNameFrom base used used.length 0

structure UniqueRenamer where
  namePrefix : String
  used : List String

/-- A unique name based on the given one. -/
def UniqueRenamer.rename (rn : UniqueRenamer) (name : String) : String × UniqueRenamer :=
  let thing := rn.namePrefix ++ name
  let res := if name ≠ "" ∧ thing ∉ rn.used then thing else unusedNameWithBase thing rn.used
  (res, { rn with used := res :: rn.used })

/-- One call of `Rename` for each symbol, in order. -/
def UniqueRenamer.renameSymbols (rn : UniqueRenamer) : List Const → Renaming × UniqueRenamer
  | [] => ([], rn)
  | c :: cs =>
    let (name, rn) := rn.rename c.name
    let (ρ, rn) := rn.renameSymbols cs
    (ρ ++ [(c, name)], rn)

theorem char_ofNat_inj {m n : Nat} (hm : m < 26) (hn : n < 26)
    (h : Char.ofNat (97 + m) = Char.ofNat (97 + n)) : m = n := by
  have h' := congrArg Char.toNat h
  rw [Char.toNat_ofNat, Char.toNat_ofNat, if_pos (by left; omega), if_pos (by left; omega)] at h'
  omega

theorem constantName_injective : Function.Injective constantName := by
  intro m n h
  have h' := congrArg String.toList h
  have letter := @char_ofNat_inj (m % 26) (n % 26) (Nat.mod_lt _ (by decide))
    (Nat.mod_lt _ (by decide))
  have number : ∀ k : Nat, (toString k).toList ≠ [] := by
    intro k hk
    have := Nat.length_toDigits_pos (b := 10) (n := k)
    simp_all [Nat.repr]
  simp only [constantName] at h'
  split at h' <;> split at h' <;>
    simp only [String.toList_append, String.toList_singleton, List.cons_append, List.nil_append,
      List.cons.injEq] at h'
  · have := letter h'.1
    omega
  · exact absurd h'.2.symm (number _)
  · exact absurd h'.2 (number _)
  · have hq : m / 26 - 1 = n / 26 - 1 :=
      Nat.repr_injective (String.toList_inj.mp h'.2)
    have := letter h'.1
    omega

theorem suffix_injective (base : String) :
    Function.Injective (fun n => base ++ "_" ++ constantName n) := fun _ _ h =>
  constantName_injective ((String.append_right_inj _).mp h)

/-- A name that the loop returns while it is used has used up all the fuel. -/
theorem mem_of_unusedNameFrom_mem {base : String} {used : List String} {fuel n : Nat}
    (h : unusedNameFrom base used fuel n ∈ used) :
    ∀ i ≤ fuel, base ++ "_" ++ constantName (n + i) ∈ used := by
  induction fuel generalizing n with
  | zero =>
    intro i hi
    simpa [Nat.le_zero.mp hi, unusedNameFrom] using h
  | succ fuel ih =>
    rw [unusedNameFrom] at h
    split at h
    · rename_i here
      intro i hi
      cases i with
      | zero => exact here
      | succ i =>
        have := ih h i (Nat.le_of_succ_le_succ hi)
        rwa [Nat.add_assoc, Nat.add_comm 1] at this
    · contradiction

/-- Of more names than are used, one is not used. -/
theorem exists_unused {name : Nat → String} (inj : Function.Injective name) (used : List String) : ∃ i ≤ used.length, name i ∉ used := by
  by_contra all
  push Not at all
  have more : (List.range (used.length + 1)).map name ⊆ used := by
    intro n hn
    obtain ⟨i, hi, rfl⟩ := List.mem_map.mp hn
    exact all i (Nat.le_of_lt_succ (List.mem_range.mp hi))
  have length := ((List.nodup_range.map inj).subperm more).length_le
  rw [List.length_map, List.length_range] at length
  exact Nat.not_succ_le_self _ length

theorem unusedNameWithBase_not_mem (base : String) (used : List String) :
    unusedNameWithBase base used ∉ used := by
  intro h
  have all := mem_of_unusedNameFrom_mem h
  obtain ⟨i, hi, new⟩ := exists_unused (suffix_injective base) used
  refine new ?_
  have taken := all i hi
  rwa [Nat.zero_add] at taken

theorem unusedNameFrom_shape (base : String) (used : List String) (fuel n : Nat) :
    ∃ t, unusedNameFrom base used fuel n = base ++ "_" ++ t := by
  induction fuel generalizing n with
  | zero => exact ⟨_, rfl⟩
  | succ fuel ih =>
    rw [unusedNameFrom]
    split
    · exact ih (n + 1)
    · exact ⟨_, rfl⟩

/-- A fresh name is the name asked for, or that name with a suffix. -/
def BasedOn (base name : String) : Prop := name = base ∨ ∃ t, name = base ++ "_" ++ t

namespace UniqueRenamer

variable (rn : UniqueRenamer)

theorem rename_not_mem (name : String) : (rn.rename name).1 ∉ rn.used := by
  simp only [rename]
  split
  · rename_i h
    exact h.2
  · exact unusedNameWithBase_not_mem _ _

theorem rename_ne_empty (name : String) : (rn.rename name).1 ≠ "" := by
  simp only [rename]
  split
  · rename_i h
    exact fun empty => h.1 (String.append_eq_empty_iff.mp empty).2
  · obtain ⟨t, ht⟩ := unusedNameFrom_shape (rn.namePrefix ++ name) rn.used rn.used.length 0
    intro empty
    rw [unusedNameWithBase, ht] at empty
    have := congrArg String.length empty
    simp at this

theorem rename_basedOn (name : String) : BasedOn (rn.namePrefix ++ name) (rn.rename name).1 := by
  simp only [rename]
  split
  · exact .inl rfl
  · exact .inr (unusedNameFrom_shape _ _ _ _)

@[simp] theorem rename_used (name : String) :
    (rn.rename name).2.used = (rn.rename name).1 :: rn.used := rfl

@[simp] theorem rename_namePrefix (name : String) :
    (rn.rename name).2.namePrefix = rn.namePrefix := rfl

end UniqueRenamer

/-- What a renaming of some symbols by a renamer is good for. -/
structure FreshRenaming (namePrefix : String) (used : List String) (syms : List Const)
    (ρ : Renaming) : Prop where
  off : ∀ c ∉ syms, ρ.name c = c.name
  fresh : ∀ c ∈ syms, ρ.name c ∉ used
  distinct : ∀ c ∈ syms, ∀ d ∈ syms, ρ.name c = ρ.name d → c = d
  basedOn : ∀ c ∈ syms, BasedOn (namePrefix ++ c.name) (ρ.name c)

theorem Renaming.name_append (ρ : Renaming) (c d : Const) (n : String) :
    Renaming.name (ρ ++ [(c, n)]) d =
      if (ρ.lookup d).isSome then ρ.name d else if d = c then n else d.name := by
  simp only [Renaming.name, List.lookup_append]
  cases ρ.lookup d with
  | some m => rfl
  | none =>
    by_cases h : d = c
    · simp [List.lookup, h]
    · simp [List.lookup, beq_false_of_ne h, h]

theorem Renaming.lookup_eq_none {ρ : Renaming} {d : Const} :
    ρ.lookup d = none ↔ d ∉ ρ.map Prod.fst := by
  induction ρ with
  | nil => simp
  | cons p ρ ih =>
    cases h : d == p.1 with
    | true => simp [List.lookup, eq_of_beq h]
    | false => simp [List.lookup, h, ih, ne_of_beq_false h]

namespace UniqueRenamer

theorem renameSymbols_keys (rn : UniqueRenamer) (cs : List Const) :
    (rn.renameSymbols cs).1.map Prod.fst = cs.reverse := by
  induction cs generalizing rn with
  | nil => rfl
  | cons c cs ih => simp [renameSymbols, ih]

theorem renameSymbols_used (rn : UniqueRenamer) (cs : List Const) :
    rn.used ⊆ (rn.renameSymbols cs).2.used ∧
      (rn.renameSymbols cs).2.namePrefix = rn.namePrefix ∧
      ∀ c ∈ cs, (rn.renameSymbols cs).1.name c ∈ (rn.renameSymbols cs).2.used := by
  induction cs generalizing rn with
  | nil => simp [renameSymbols]
  | cons c cs ih =>
    obtain ⟨sub, pre, mem⟩ := ih (rn.rename c.name).2
    have sub' := List.subset_of_cons_subset sub
    refine ⟨sub', pre, fun d hd => ?_⟩
    simp only [renameSymbols, Renaming.name_append]
    split
    · rename_i key
      refine mem d ?_
      have keys := renameSymbols_keys (rn.rename c.name).2 cs
      rw [Option.isSome_iff_ne_none, ne_eq, Renaming.lookup_eq_none, not_not, keys] at key
      exact List.mem_reverse.mp key
    · rename_i key
      have keys := renameSymbols_keys (rn.rename c.name).2 cs
      rw [Option.isSome_iff_ne_none, ne_eq, Renaming.lookup_eq_none, not_not, keys,
        List.mem_reverse] at key
      rw [if_pos ((List.mem_cons.mp hd).resolve_right key)]
      exact sub List.mem_cons_self

theorem renameSymbols_fresh (rn : UniqueRenamer) (cs : List Const) :
    FreshRenaming rn.namePrefix rn.used cs (rn.renameSymbols cs).1 := by
  induction cs generalizing rn with
  | nil => exact ⟨fun _ _ => rfl, by simp, by simp, by simp⟩
  | cons c cs ih =>
    have rest := ih (rn.rename c.name).2
    have keys := renameSymbols_keys (rn.rename c.name).2 cs
    have name : ∀ d, (rn.renameSymbols (c :: cs)).1.name d =
        if d ∈ cs then ((rn.rename c.name).2.renameSymbols cs).1.name d
        else if d = c then (rn.rename c.name).1 else d.name := by
      intro d
      have key : (((rn.rename c.name).2.renameSymbols cs).1.lookup d).isSome ↔ d ∈ cs := by
        rw [Option.isSome_iff_ne_none, ne_eq, Renaming.lookup_eq_none, not_not, keys,
          List.mem_reverse]
      simp only [renameSymbols, Renaming.name_append, key]
    have later : ∀ d ∈ cs, (rn.renameSymbols (c :: cs)).1.name d ≠ (rn.rename c.name).1 ∧
        (rn.renameSymbols (c :: cs)).1.name d ∉ rn.used := by
      intro d hd
      have := rest.fresh d hd
      rw [name, if_pos hd]
      simpa [rename_used] using this
    constructor
    · intro d hd
      rw [List.mem_cons, not_or] at hd
      rw [name, if_neg hd.2, if_neg hd.1]
    · intro d hd
      by_cases h : d ∈ cs
      · exact (later d h).2
      · rw [name, if_neg h, if_pos ((List.mem_cons.mp hd).resolve_right h)]
        exact rn.rename_not_mem _
    · intro d hd e he same
      by_cases h : d ∈ cs <;> by_cases h' : e ∈ cs
      · rw [name, name, if_pos h, if_pos h'] at same
        exact rest.distinct d h e h' same
      · have : e = c := (List.mem_cons.mp he).resolve_right h'
        rw [name e, if_neg h', if_pos this] at same
        exact absurd same (later d h).1
      · have : d = c := (List.mem_cons.mp hd).resolve_right h
        rw [name d, if_neg h, if_pos this] at same
        exact absurd same.symm (later e h').1
      · rw [(List.mem_cons.mp hd).resolve_right h, (List.mem_cons.mp he).resolve_right h']
    · intro d hd
      by_cases h : d ∈ cs
      · rw [name, if_pos h]
        exact rest.basedOn d h
      · have : d = c := (List.mem_cons.mp hd).resolve_right h
        rw [name, if_neg h, if_pos this, this]
        exact rn.rename_basedOn _

end UniqueRenamer

end Goivy
