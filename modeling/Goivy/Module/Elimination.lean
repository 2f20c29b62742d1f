import Goivy.Module.Clauses
import Goivy.Logic.Vocabulary

/-! The definitions that only some of several clause sets have. A skolem symbol is
renamed apart, any other definition becomes a constraint. -/
namespace Goivy

namespace Clauses

/-- `elimDefinitions`. -/
def elimDefinitions (dead : List Expr) (cl : Clauses) : Clauses :=
  new (cl.fmlas ++ (dead.filterMap cl.lookup).map Definition.toConstraint)
    (cl.defs.filter (fun d => d.defines ∉ dead))

/-- The symbols that are defined somewhere but not everywhere. -/
def captured (args : List Clauses) : List Expr :=
  ((args.flatMap defs).map Definition.defines).eraseDups.filter
    (fun key => args.any (fun a => (a.lookup key).isNone))

/-- `moduleIsSkolem` on what a definition defines. -/
def skolemConst : Expr → Option Const
  | .const c => if isSkolem c.name then some c else none
  | _ => none

def toRename (args : List Clauses) : List Const := (captured args).filterMap skolemConst

def dead (args : List Clauses) : List Expr :=
  (captured args).filter (fun key => (skolemConst key).isNone)

/-- The renaming of the captured skolems for each argument: the renamer goes on
from one argument to the next, so no two arguments share a name. -/
def renamings (syms : List Const) : Nat → UniqueRenamer → List Renaming × UniqueRenamer
  | 0, rn => ([], rn)
  | n + 1, rn =>
    let (ρ, rn) := rn.renameSymbols syms
    let (ρs, rn) := renamings syms n rn
    (ρ :: ρs, rn)

/-- One argument after its share of `elimDeadDefinitions`. -/
def elimBranch (syms : List Const) (dead : List Expr) (a : Clauses) (ρ : Renaming) : Clauses :=
  (if syms.isEmpty then a else a.rename ρ).elimDefinitions dead

/-- `elimDeadDefinitions`. -/
def elimDeadDefinitions (rn : UniqueRenamer) (args : List Clauses) :
    List Clauses × UniqueRenamer :=
  let (ρs, rn) := renamings (toRename args) args.length rn
  (List.zipWith (elimBranch (toRename args) (dead args)) args ρs, rn)

theorem mem_captured {args : List Clauses} {key : Expr} :
    key ∈ captured args ↔
      (∃ a ∈ args, ∃ d ∈ a.defs, d.defines = key) ∧ ∃ a ∈ args, ∀ d ∈ a.defs, d.defines ≠ key := by
  simp only [captured, lookup, List.mem_filter, List.mem_eraseDups, List.mem_map, List.mem_flatMap,
    List.any_eq_true, Option.isNone_iff_eq_none, List.find?_eq_none, List.mem_reverse,
    decide_eq_true_eq]
  grind

theorem mem_toRename {args : List Clauses} {c : Const} :
    c ∈ toRename args ↔ .const c ∈ captured args ∧ isSkolem c.name = true := by
  simp only [toRename, List.mem_filterMap]
  constructor
  · rintro ⟨key, hkey, hc⟩
    unfold skolemConst at hc
    split at hc
    · split at hc
      · cases hc
        exact ⟨hkey, by assumption⟩
      · contradiction
    · contradiction
  · rintro ⟨hkey, hs⟩
    exact ⟨_, hkey, by simp [skolemConst, hs]⟩

theorem mem_dead {args : List Clauses} {c : Const} :
    .const c ∈ dead args ↔ .const c ∈ captured args ∧ isSkolem c.name = false := by
  simp [dead, skolemConst]

/-- Where no symbol has two definitions, turning some into constraints changes nothing. -/
theorem sat_elimDefinitions {D : Domain} {M : Structure D} {cl : Clauses} (dead : List Expr)
    (once : (cl.defs.map Definition.defines).Nodup) :
    (cl.elimDefinitions dead).Sat M ↔ cl.Sat M := by
  have last : ∀ d ∈ cl.defs, cl.lookup d.defines = some d := by
    intro d hd
    have some : (cl.lookup d.defines).isSome := by
      simpa [lookup, List.find?_isSome] using ⟨d, hd, rfl⟩
    obtain ⟨e, he⟩ := Option.isSome_iff_exists.mp some
    have mem : e ∈ cl.defs := List.mem_reverse.mp (List.mem_of_find?_eq_some he)
    have same : e.defines = d.defines := by simpa using List.find?_some he
    rw [he, List.inj_on_of_nodup_map once mem hd same]
  have mem : ∀ key d, cl.lookup key = some d → d ∈ cl.defs := fun key d h =>
    List.mem_reverse.mp (List.mem_of_find?_eq_some h)
  rw [elimDefinitions, sat_new]
  simp only [List.mem_append, List.mem_map, List.mem_filterMap, List.mem_filter,
    decide_eq_true_eq, Sat]
  constructor
  · intro h
    refine ⟨fun f hf => h.1 f (.inl hf), fun d hd => ?_⟩
    by_cases hdead : d.defines ∈ dead
    · exact h.1 _ (.inr ⟨d, ⟨_, hdead, last d hd⟩, rfl⟩)
    · exact h.2 d ⟨hd, hdead⟩
  · intro h
    refine ⟨?_, fun d hd => h.2 d hd.1⟩
    rintro f (hf | ⟨d, ⟨key, -, hd⟩, rfl⟩)
    · exact h.1 f hf
    · exact h.2 d (mem key d hd)

end Clauses

/-- The definition of a symbol under its new name. -/
theorem Definition.defines_rename (ρ : Renaming) {d : Definition} {c : Const}
    (h : d.defines = .const c) : (d.rename ρ).defines = .const (ρ.const c) := by
  obtain ⟨lhs, rhs⟩ := d
  cases lhs <;> simp_all [defines, rename, Expr.rename]

theorem Renaming.const_eq_self {ρ : Renaming} {c : Const} (h : ρ.name c = c.name) :
    ρ.const c = c := by
  rw [const, h]

theorem Expr.rename_eq_self {ρ : Renaming} {e : Expr}
    (h : ∀ c ∈ e.symbols, ρ.name c = c.name) : e.rename ρ = e := by
  induction e with
  | apply f ts ih =>
    have terms : renameList ρ ts = ts := by
      rw [renameList_eq_map, List.map_congr_left (g := id) fun t ht => ih t ht fun c hc => h c (by
        simp only [symbols, symbolsList_eq_flatMap]; grind), List.map_id]
    rw [rename, terms, Renaming.const_eq_self (h f (by simp [symbols]))]
  | and ts ih | or ts ih =>
    have terms : renameList ρ ts = ts := by
      rw [renameList_eq_map, List.map_congr_left (g := id) fun t ht => ih t ht fun c hc => h c (by
        simp only [symbols, symbolsList_eq_flatMap]; grind), List.map_id]
    rw [rename, terms]
  | const c => rw [rename, Renaming.const_eq_self (h c (by simp [symbols]))]
  | var v => rfl
  | _ => simp_all [rename, symbols]

theorem Expr.rename_nil (e : Expr) : e.rename [] = e := rename_eq_self fun _ _ => rfl

theorem Definition.rename_nil (d : Definition) : d.rename [] = d := by
  simp [rename, Expr.rename_nil]

theorem FreshRenaming.mono {pre : String} {used used' : List String} {syms : List Const}
    {ρ : Renaming} (h : FreshRenaming pre used' syms ρ) (sub : used ⊆ used') :
    FreshRenaming pre used syms ρ :=
  { h with fresh := fun c hc mem => h.fresh c hc (sub mem) }

namespace Clauses

section Renamings

variable (syms : List Const)

theorem renamings_length (n : Nat) (rn : UniqueRenamer) :
    (renamings syms n rn).1.length = n := by
  induction n generalizing rn with
  | zero => rfl
  | succ n ih => simp [renamings, ih]

theorem renamings_used (n : Nat) (rn : UniqueRenamer) :
    rn.used ⊆ (renamings syms n rn).2.used ∧
      (renamings syms n rn).2.namePrefix = rn.namePrefix ∧
      ∀ ρ ∈ (renamings syms n rn).1, ∀ c ∈ syms, ρ.name c ∈ (renamings syms n rn).2.used := by
  induction n generalizing rn with
  | zero => simp [renamings]
  | succ n ih =>
    obtain ⟨sub, pre, mem⟩ := rn.renameSymbols_used syms
    obtain ⟨sub', pre', mem'⟩ := ih (rn.renameSymbols syms).2
    refine ⟨List.Subset.trans sub sub', pre'.trans pre, fun ρ hρ c hc => ?_⟩
    obtain rfl | hρ := List.mem_cons.mp hρ
    · exact sub' (mem c hc)
    · exact mem' ρ hρ c hc

theorem renamings_fresh (n : Nat) (rn : UniqueRenamer) :
    (∀ ρ ∈ (renamings syms n rn).1, FreshRenaming rn.namePrefix rn.used syms ρ) ∧
      (renamings syms n rn).1.Pairwise
        (fun ρ ρ' => ∀ c ∈ syms, ∀ c' ∈ syms, ρ.name c ≠ ρ'.name c') := by
  induction n generalizing rn with
  | zero => simp [renamings]
  | succ n ih =>
    obtain ⟨sub, pre, mem⟩ := rn.renameSymbols_used syms
    obtain ⟨fresh, apart⟩ := ih (rn.renameSymbols syms).2
    constructor
    · intro ρ hρ
      obtain rfl | hρ := List.mem_cons.mp hρ
      · exact rn.renameSymbols_fresh syms
      · exact pre ▸ (fresh ρ hρ).mono sub
    · refine List.pairwise_cons.mpr ⟨fun ρ hρ c hc c' hc' same => ?_, apart⟩
      exact (fresh ρ hρ).fresh c' hc' (same ▸ mem c hc)

variable {syms} {D : Domain}

/-- Any meanings of the renamed symbols, one structure for each argument, fit into
one structure under the new names. -/
theorem exists_extension {args : List Clauses} {rn : UniqueRenamer}
    (pre : isSkolem rn.namePrefix = true)
    (used : ∀ a ∈ args, ∀ c ∈ a.symbols, c.name ∈ rn.used) (base : Structure D)
    (X : Clauses × Renaming → Structure D)
    (same : ∀ p ∈ args.zip (renamings syms args.length rn).1, ∀ c ∈ p.1.symbols, c ∉ syms →
      SameAt base (X p) c) :
    ∃ N : Structure D, (∀ c, c.name ∈ rn.used ∨ isSkolem c.name = false → SameAt N base c) ∧
      ∀ p ∈ args.zip (renamings syms args.length rn).1, ∀ c ∈ p.1.symbols,
        SameAt (N.comap p.2) (X p) c := by
  induction args generalizing rn base with
  | nil => exact ⟨base, fun _ _ => rfl, by simp⟩
  | cons a args ih =>
    obtain ⟨sub, pre', mem⟩ := rn.renameSymbols_used syms
    have fresh := rn.renameSymbols_fresh syms
    generalize hρ : (rn.renameSymbols syms).1 = ρ at *
    generalize hrn : (rn.renameSymbols syms).2 = rn' at *
    have zip : (a :: args).zip (renamings syms (a :: args).length rn).1 =
        (a, ρ) :: args.zip (renamings syms args.length rn').1 := by
      simp [renamings, hρ, hrn]
    rw [zip] at same ⊢
    let here := Structure.push ρ {c | c ∈ syms} (X (a, ρ)) base
    have off : ∀ c : Const, c.name ∈ rn.used ∨ isSkolem c.name = false → SameAt here base c := by
      intro c hc
      refine Structure.push_off fun d hd image => ?_
      have eq : ρ.name d = c.name := congrArg Const.name image
      obtain hc | hc := hc
      · exact fresh.fresh d hd (eq ▸ hc)
      · have := (fresh.basedOn d hd).isSkolem (isSkolem_append_right pre d.name)
        rw [eq, hc] at this
        contradiction
    obtain ⟨N, keep, rest⟩ := ih (show isSkolem rn'.namePrefix = true from pre' ▸ pre)
      (fun b hb c hc => sub (used b (List.mem_cons_of_mem _ hb) c hc)) here
      (fun p hp c hc hs =>
        have := used p.1 (List.mem_cons_of_mem _ (List.of_mem_zip hp).1) c hc
        (off c (.inl this)).trans (same p (List.mem_cons_of_mem _ hp) c hc hs))
    refine ⟨N, fun c hc => (keep c (hc.imp_left (sub ·))).trans (off c hc), ?_⟩
    intro p hp c hc
    obtain rfl | hp := List.mem_cons.mp hp
    · by_cases hs : c ∈ syms
      · have image : SameAt (here.comap ρ) (X (a, ρ)) c :=
          Structure.push_image
          (fun d hd eq => fresh.distinct c hs d hd (congrArg Const.name eq)) hs
        have later : SameAt (N.comap ρ) (here.comap ρ) c :=
          keep ⟨ρ.name c, c.sort⟩ (.inl (mem c hs))
        exact later.trans image
      · have hu := used a List.mem_cons_self c hc
        have name := fresh.off c hs
        have : SameAt N base c := (keep c (.inl (sub hu))).trans (off c (.inl hu))
        refine SameAt.trans ?_ (this.trans (same (a, ρ) List.mem_cons_self c hc hs))
        show N (ρ.name c) c.sort = N c.name c.sort
        rw [name]
    · exact rest p hp c hc

end Renamings

section Branch

variable {syms : List Const} {dead : List Expr} {a : Clauses} {ρ : Renaming}

theorem elimBranch_defs (nil : syms = [] → ρ = []) :
    (elimBranch syms dead a ρ).defs =
      (a.defs.map (Definition.rename ρ)).filter (fun d => d.defines ∉ dead) := by
  unfold elimBranch
  split
  · rename_i h
    have : a.defs.map (Definition.rename []) = a.defs := by
      rw [List.map_congr_left fun d _ => d.rename_nil, List.map_id']
    rw [nil (List.isEmpty_iff.mp h), this]
    rfl
  · rfl

theorem sat_elimBranch {D : Domain} {M : Structure D} (nil : syms = [] → ρ = [])
    (once : (a.defs.map (fun d => (d.rename ρ).defines)).Nodup) :
    (elimBranch syms dead a ρ).Sat M ↔ a.Sat (M.comap ρ) := by
  unfold elimBranch
  split
  · rename_i h
    have hρ := nil (List.isEmpty_iff.mp h)
    subst hρ
    rw [sat_elimDefinitions dead (by simpa [Definition.rename_nil] using once)]
    exact sat_congr fun _ _ => rfl
  · rw [sat_elimDefinitions dead (by simpa [rename, new, List.map_map, Function.comp_def] using once),
      sat_rename]

end Branch

/-! ### The branches of a merge -/

/-- The arguments with their renamings. -/
def renamed (rn : UniqueRenamer) (args : List Clauses) : List (Clauses × Renaming) :=
  args.zip (renamings (toRename args) args.length rn).1

/-- An argument after the elimination of dead definitions. -/
def eliminated (args : List Clauses) (p : Clauses × Renaming) : Clauses :=
  elimBranch (toRename args) (dead args) p.1 p.2

theorem elimDeadDefinitions_fst (rn : UniqueRenamer) (args : List Clauses) :
    (elimDeadDefinitions rn args).1 = (renamed rn args).map (eliminated args) := by
  rw [renamed, List.map_zip_eq_zipWith]
  rfl

section Branches

variable {args : List Clauses} {rn : UniqueRenamer} {p : Clauses × Renaming} {d : Definition}

theorem map_fst_renamed : (renamed rn args).map Prod.fst = args :=
  List.map_fst_zip (by rw [renamings_length])

theorem renamed_apart : (renamed rn args).Pairwise (fun p q =>
    ∀ c ∈ toRename args, ∀ c' ∈ toRename args, p.2.name c ≠ q.2.name c') := by
  have := (renamings_fresh (toRename args) args.length rn).2
  have snd : (renamed rn args).map Prod.snd = (renamings (toRename args) args.length rn).1 :=
    List.map_snd_zip (by rw [renamings_length])
  rwa [← snd, List.pairwise_map] at this

theorem renamed_fresh (hp : p ∈ renamed rn args) :
    FreshRenaming rn.namePrefix rn.used (toRename args) p.2 :=
  (renamings_fresh (toRename args) args.length rn).1 _ (List.of_mem_zip hp).2

theorem renamed_nil (hp : p ∈ renamed rn args) (h : toRename args = []) : p.2 = [] := by
  have all : ∀ n rn, ∀ ρ ∈ (renamings [] n rn).1, ρ = [] := by
    intro n
    induction n with
    | zero => simp [renamings]
    | succ n ih =>
      intro rn ρ hρ
      obtain rfl | hρ := List.mem_cons.mp hρ
      · rfl
      · exact ih _ ρ hρ
  have := (List.of_mem_zip hp).2
  rw [h] at this
  exact all _ _ _ this

/-- The symbol that a definition defines occurs in it. -/
theorem mem_symbols_of_defines {c : Const} (h : d.defines = .const c) : c ∈ d.symbols := by
  obtain ⟨lhs, rhs⟩ := d
  cases lhs <;> simp_all [Definition.defines, Definition.symbols, Expr.symbols]

theorem mem_symbols_of_mem_defs {a : Clauses} (hd : d ∈ a.defs) {c : Const}
    (h : d.defines = .const c) : c ∈ a.symbols :=
  List.mem_append_right _ (List.mem_flatMap.mpr ⟨d, hd, mem_symbols_of_defines h⟩)

variable (used : ∀ a ∈ args, ∀ c ∈ a.symbols, c.name ∈ rn.used)
  (defines : ∀ a ∈ args, ∀ d ∈ a.defs, ∃ c, d.defines = .const c)

include used in
theorem used_of_captured {c : Const} (h : .const c ∈ captured args) : c.name ∈ rn.used := by
  obtain ⟨⟨a, ha, d, hd, key⟩, -⟩ := mem_captured.mp h
  exact used a ha c (mem_symbols_of_mem_defs hd key)

include defines in
/-- A definition that is not dead keeps its symbol, or defines a renamed skolem. -/
theorem defines_cases (hp : p ∈ renamed rn args) (hd : d ∈ p.1.defs) :
    d.defines ∈ dead args ∧ (d.rename p.2).defines = d.defines ∨
      (d.defines ∉ captured args ∧ (d.rename p.2).defines = d.defines) ∨
      ∃ c ∈ toRename args, d.defines = .const c ∧
        (d.rename p.2).defines = .const (p.2.const c) ∧ p.2.name c ∉ rn.used := by
  have ha := (List.of_mem_zip hp).1
  have fresh := renamed_fresh hp
  obtain ⟨c, hc⟩ := defines _ ha d hd
  have key := Definition.defines_rename p.2 hc
  by_cases hs : c ∈ toRename args
  · exact .inr (.inr ⟨c, hs, hc, key, fresh.fresh c hs⟩)
  · rw [Renaming.const_eq_self (fresh.off c hs), ← hc] at key
    by_cases hcap : d.defines ∈ captured args
    · refine .inl ⟨?_, key⟩
      rw [hc] at hcap ⊢
      rw [mem_toRename] at hs
      exact mem_dead.mpr ⟨hcap, by simpa using fun h => hs ⟨hcap, h⟩⟩
    · exact .inr (.inl ⟨hcap, key⟩)

include used defines in
theorem mem_defs_eliminated (hp : p ∈ renamed rn args) {d' : Definition} :
    d' ∈ (eliminated args p).defs ↔
      ∃ d ∈ p.1.defs, d.defines ∉ dead args ∧ d' = d.rename p.2 := by
  rw [eliminated, elimBranch_defs (renamed_nil hp)]
  simp only [List.mem_filter, List.mem_map, decide_eq_true_eq]
  have same : ∀ d ∈ p.1.defs, (d.rename p.2).defines ∈ dead args ↔ d.defines ∈ dead args := by
    intro d hd
    obtain ⟨-, h⟩ | ⟨-, h⟩ | ⟨c, hs, hc, key, unused⟩ := defines_cases defines hp hd
    · rw [h]
    · rw [h]
    · rw [key, hc, mem_dead, mem_dead]
      have skolem := (mem_toRename.mp hs).2
      refine iff_of_false (fun h => unused (used_of_captured used h.1)) (by simp [skolem])
  constructor
  · rintro ⟨⟨d, hd, rfl⟩, hdead⟩
    exact ⟨d, hd, fun h => hdead ((same d hd).mpr h), rfl⟩
  · rintro ⟨d, hd, hdead, rfl⟩
    exact ⟨⟨d, hd, rfl⟩, fun h => hdead ((same d hd).mp h)⟩

include used defines in
/-- No definition of a branch has the fresh name that another branch gave a skolem. -/
theorem defines_ne_fresh (hp : p ∈ renamed rn args) {name : String} (unused : name ∉ rn.used)
    (apart : ∀ c ∈ toRename args, p.2.name c ≠ name) {d' : Definition}
    (hd' : d' ∈ (eliminated args p).defs) {c : Const} (hc : c.name = name) :
    d'.defines ≠ .const c := by
  obtain ⟨d, hd, alive, rfl⟩ := (mem_defs_eliminated used defines hp).mp hd'
  intro same
  obtain ⟨h, -⟩ | ⟨-, h⟩ | ⟨c', hs, hc', key, -⟩ := defines_cases defines hp hd
  · exact alive h
  · exact unused (hc ▸ used _ (List.of_mem_zip hp).1 _
      (mem_symbols_of_mem_defs hd (h.symm.trans same)))
  · rw [key, Expr.const.injEq] at same
    exact apart c' hs ((congrArg Const.name same).trans hc)

include used defines in
theorem renamed_once (hp : p ∈ renamed rn args) (once : (p.1.defs.map Definition.defines).Nodup) :
    (p.1.defs.map (fun d => (d.rename p.2).defines)).Nodup := by
  refine List.Nodup.map_on (fun d hd e he same => ?_) (List.Nodup.of_map _ once)
  have ha := (List.of_mem_zip hp).1
  have fresh := renamed_fresh hp
  refine List.inj_on_of_nodup_map once hd he ?_
  have usedAt : ∀ d ∈ p.1.defs, ∀ c, d.defines = .const c → c.name ∈ rn.used :=
    fun d hd c hc => used _ ha c (mem_symbols_of_mem_defs hd hc)
  obtain ⟨c, hc⟩ := defines _ ha d hd
  obtain ⟨c', hc'⟩ := defines _ ha e he
  rw [Definition.defines_rename _ hc, Definition.defines_rename _ hc', Expr.const.injEq] at same
  rw [hc, hc']
  have names : p.2.name c = p.2.name c' := congrArg Const.name same
  have sorts : (p.2.const c).sort = (p.2.const c').sort := by rw [same]
  by_cases h : c ∈ toRename args <;> by_cases h' : c' ∈ toRename args
  · rw [fresh.distinct c h c' h' names]
  · rw [fresh.off c' h'] at names
    exact absurd (names ▸ usedAt e he c' hc') (fresh.fresh c h)
  · rw [fresh.off c h] at names
    exact absurd (names ▸ usedAt d hd c hc) (fresh.fresh c' h')
  · rw [fresh.off c h, fresh.off c' h'] at names
    exact congrArg Expr.const (congrArg₂ Const.mk names sorts)

include used defines in
theorem eliminated_once (hp : p ∈ renamed rn args)
    (once : (p.1.defs.map Definition.defines).Nodup) :
    ((eliminated args p).defs.map Definition.defines).Nodup := by
  rw [eliminated, elimBranch_defs (renamed_nil hp)]
  refine List.Nodup.sublist (List.filter_sublist.map _) ?_
  simpa [List.map_map, Function.comp_def] using renamed_once used defines hp once

include used defines in
theorem sat_eliminated {D : Domain} {M : Structure D} (hp : p ∈ renamed rn args)
    (once : (p.1.defs.map Definition.defines).Nodup) :
    (eliminated args p).Sat M ↔ p.1.Sat (M.comap p.2) :=
  sat_elimBranch (renamed_nil hp) (renamed_once used defines hp once)

end Branches

end Clauses

end Goivy
