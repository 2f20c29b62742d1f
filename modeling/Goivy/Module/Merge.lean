import Goivy.Module.Elimination
import Goivy.Util.InsMap

/-! The definitions of several clause sets merged under selector symbols. -/
namespace Goivy

/-- The constraint of a definition that is no indefinite description. -/
def constraintOf (lhs rhs : Expr) : Expr :=
  if lhs.isIndividual then .eq lhs rhs else .iff lhs rhs

namespace Clauses

/-- One round of the merging loop of `orClausesIntWithVs`. -/
def mergeDefinition (m : InsMap Expr Definition) (p : Const × Definition) :
    InsMap Expr Definition :=
  match m.get p.2.defines with
  | none => m.set p.2.defines p.2
  | some existing => m.set p.2.defines ⟨p.2.lhs, .ite (.const p.1) p.2.rhs existing.rhs⟩

def selected (branches : List (Const × Clauses)) : List (Const × Definition) :=
  branches.flatMap (fun b => b.2.defs.map (fun d => (b.1, d)))

def mergeDefinitions (branches : List (Const × Clauses)) : InsMap Expr Definition :=
  (selected branches).foldl mergeDefinition .empty

theorem mem_selected {branches : List (Const × Clauses)} {v : Const} {d : Definition} :
    (v, d) ∈ selected branches ↔ ∃ b ∈ branches, b.1 = v ∧ d ∈ b.2.defs := by
  simp only [selected, List.mem_flatMap, List.mem_map, Prod.mk.injEq]
  grind

theorem selected_append (bs cs : List (Const × Clauses)) :
    selected (bs ++ cs) = selected bs ++ selected cs := List.flatMap_append

section Loop

variable {D : Domain} {M : Structure D} {m : InsMap Expr Definition}
  {ps : List (Const × Definition)} {k : Expr}

theorem get_mergeDefinition_other {p : Const × Definition} (h : p.2.defines ≠ k) :
    (mergeDefinition m p).get k = m.get k := by
  unfold mergeDefinition
  split <;> simp [InsMap.get_set, Ne.symm h]

theorem get_mergeDefinition_new {p : Const × Definition} (h : m.get p.2.defines = none) :
    (mergeDefinition m p).get p.2.defines = some p.2 := by
  simp [mergeDefinition, h, InsMap.get_set]

theorem get_mergeDefinition_old {p : Const × Definition} {e : Definition}
    (h : m.get p.2.defines = some e) : (mergeDefinition m p).get p.2.defines =
      some ⟨p.2.lhs, .ite (.const p.1) p.2.rhs e.rhs⟩ := by
  simp [mergeDefinition, h, InsMap.get_set]

theorem get_foldl_other (h : ∀ p ∈ ps, p.2.defines ≠ k) :
    (ps.foldl mergeDefinition m).get k = m.get k := by
  induction ps generalizing m with
  | nil => rfl
  | cons p ps ih =>
    rw [List.foldl_cons, ih fun q hq => h q (List.mem_cons_of_mem _ hq)]
    exact get_mergeDefinition_other (h p List.mem_cons_self)

theorem exists_of_get_foldl {e : Definition} (h : (ps.foldl mergeDefinition m).get k = some e) :
    (∃ p ∈ ps, p.2.defines = k) ∨ m.get k = some e := by
  by_cases hk : ∃ p ∈ ps, p.2.defines = k
  · exact .inl hk
  · right
    rwa [get_foldl_other (by simpa using hk)] at h

/-- A merged definition keeps its value while no selector of a later one is true. -/
theorem get_foldl_keep {e : Definition} (he : m.get k = some e)
    (off : ∀ p ∈ ps, p.2.defines = k → ∀ env, ¬ (Expr.const p.1).Holds M env) :
    ∃ e', (ps.foldl mergeDefinition m).get k = some e' ∧ e'.rhs.eval M = e.rhs.eval M := by
  induction ps generalizing m e with
  | nil => exact ⟨e, he, rfl⟩
  | cons p ps ih =>
    have off' := fun q hq => off q (List.mem_cons_of_mem _ hq)
    by_cases hk : p.2.defines = k
    · subst hk
      obtain ⟨e', he', hr⟩ := ih (get_mergeDefinition_old he) off'
      refine ⟨e', he', hr.trans (funext fun env => ?_)⟩
      exact Expr.eval_ite_neg M env _ _ (off p List.mem_cons_self rfl env)
    · exact ih ((get_mergeDefinition_other hk).trans he) off'

/-- The last definition whose selector is true is the one that counts. -/
theorem get_foldl_hit {pre post : List (Const × Definition)} {v : Const} {d : Definition}
    (on : ∀ env, (Expr.const v).Holds M env)
    (off : ∀ p ∈ post, p.2.defines = d.defines → ∀ env, ¬ (Expr.const p.1).Holds M env) :
    ∃ e, ((pre ++ (v, d) :: post).foldl mergeDefinition m).get d.defines = some e ∧
      e.rhs.eval M = d.rhs.eval M := by
  rw [List.foldl_append, List.foldl_cons]
  generalize pre.foldl mergeDefinition m = m'
  cases h : m'.get d.defines with
  | none => exact get_foldl_keep (get_mergeDefinition_new (p := (v, d)) h) off
  | some e =>
    obtain ⟨e', he', hr⟩ := get_foldl_keep (get_mergeDefinition_old (p := (v, d)) h) off
    refine ⟨e', he', hr.trans (funext fun env => ?_)⟩
    exact Expr.eval_ite_pos M env _ _ (on env)

/-- After a second definition of a symbol its right-hand side is a conditional, and
its left-hand side is one of the later definitions'. -/
theorem get_foldl_again {e : Definition} (he : m.get k = some e)
    (again : ∃ p ∈ ps, p.2.defines = k) :
    ∃ p ∈ ps, p.2.defines = k ∧ ∃ c a b,
      (ps.foldl mergeDefinition m).get k = some ⟨p.2.lhs, .ite c a b⟩ := by
  induction ps generalizing m e with
  | nil => simp at again
  | cons p ps ih =>
    by_cases hk : p.2.defines = k
    · subst hk
      by_cases later : ∃ q ∈ ps, q.2.defines = p.2.defines
      · obtain ⟨q, hq, rest⟩ := ih (get_mergeDefinition_old he) later
        exact ⟨q, List.mem_cons_of_mem _ hq, rest⟩
      · refine ⟨p, List.mem_cons_self, rfl, .const p.1, p.2.rhs, e.rhs, ?_⟩
        rw [List.foldl_cons, get_foldl_other (by simpa using later)]
        exact get_mergeDefinition_old he
    · have later : ∃ q ∈ ps, q.2.defines = k := by
        obtain ⟨q, hq, h⟩ := again
        obtain rfl | hq := List.mem_cons.mp hq
        · exact absurd h hk
        · exact ⟨q, hq, h⟩
      obtain ⟨q, hq, rest⟩ := ih ((get_mergeDefinition_other hk).trans he) later
      exact ⟨q, List.mem_cons_of_mem _ hq, rest⟩

/-- The only definition of a symbol is kept as it is. -/
theorem get_foldl_only {pre post : List (Const × Definition)} {v : Const} {d : Definition}
    (hpre : ∀ p ∈ pre, p.2.defines ≠ d.defines) (hpost : ∀ p ∈ post, p.2.defines ≠ d.defines) :
    ((pre ++ (v, d) :: post).foldl mergeDefinition .empty).get d.defines = some d := by
  rw [List.foldl_append, List.foldl_cons, get_foldl_other hpost]
  exact get_mergeDefinition_new (p := (v, d)) (by rw [get_foldl_other hpre, InsMap.get_empty])

end Loop

/-- What the renaming and the elimination of definitions rely on. -/
structure Separable (args : List Clauses) : Prop where
  /-- Every definition defines a symbol. -/
  defines : ∀ a ∈ args, ∀ d ∈ a.defs, ∃ c, d.defines = .const c
  /-- No argument defines a symbol twice. -/
  once : ∀ a ∈ args, (a.defs.map Definition.defines).Nodup
  /-- No captured skolem occurs on the left-hand side of a symbol that all arguments define. -/
  apart : ∀ last ∈ args.getLast?, ∀ e ∈ last.defs, e.defines ∉ captured args →
    ∀ c ∈ e.lhs.symbols, c ∉ toRename args
  /-- The captured skolems can always be chosen as an argument defines them. -/
  solvable : ∀ a ∈ args, ∀ (D : Domain) (M : Structure D), ∃ N : Structure D,
    (∀ c, c ∉ toRename args → SameAt M N c) ∧
      ∀ d ∈ a.defs, (∃ c ∈ toRename args, d.defines = .const c) → d.toConstraint.Valid N

/-- What the merging of definitions relies on. -/
structure Mergeable (args : List Clauses) : Prop extends Separable args where
  /-- The definitions of a symbol that all arguments define mean the same with the
  left-hand side of the last one. -/
  shared : ∀ last ∈ args.getLast?, ∀ e ∈ last.defs, e.defines ∉ captured args →
    ∀ a ∈ args, ∀ d ∈ a.defs, d.defines = e.defines → ∀ (D : Domain) (M : Structure D),
      (constraintOf e.lhs d.rhs).Valid M ↔ d.toConstraint.Valid M

/-- Definitions of the same left-hand sides can be merged, where no skolem is captured. -/
theorem separable_of_none {args : List Clauses}
    (defines : ∀ a ∈ args, ∀ d ∈ a.defs, d.defines = .const (d.lhs.symbols.headD default))
    (once : ∀ a ∈ args, (a.defs.map Definition.defines).Nodup) (none : toRename args = []) :
    Separable args where
  defines a ha d hd := ⟨_, defines a ha d hd⟩
  once := once
  apart := by simp [none]
  solvable a _ D M := ⟨M, fun _ _ => rfl, by simp [none]⟩

theorem toConstraint_ite (lhs c a b : Expr) :
    (⟨lhs, .ite c a b⟩ : Definition).toConstraint = constraintOf lhs (.ite c a b) := rfl

theorem constraintOf_rename (ρ : Renaming) (lhs rhs : Expr) :
    constraintOf (lhs.rename ρ) (rhs.rename ρ) = (constraintOf lhs rhs).rename ρ := by
  unfold constraintOf
  rw [Expr.isIndividual_rename]
  split <;> rfl

theorem constraintOf_congr {D : Domain} {M : Structure D} {lhs rhs rhs' : Expr}
    (h : rhs.eval M = rhs'.eval M) :
    (constraintOf lhs rhs).Valid M ↔ (constraintOf lhs rhs').Valid M := by
  unfold constraintOf Expr.Valid
  split
  · simp only [Expr.holds_eq, h]
  · simp only [Expr.holds_iff]
    simp only [Expr.Holds, h]

/-! ### The merged definitions of the branches -/

theorem get_foldl_isSome {m : InsMap Expr Definition} {ps : List (Const × Definition)} {k : Expr}
    (h : (∃ p ∈ ps, p.2.defines = k) ∨ (m.get k).isSome) :
    ((ps.foldl mergeDefinition m).get k).isSome := by
  induction ps generalizing m with
  | nil => simpa using h
  | cons p ps ih =>
    refine ih ?_
    by_cases hk : p.2.defines = k
    · right
      subst hk
      cases hm : m.get p.2.defines with
      | none => rw [get_mergeDefinition_new hm]; rfl
      | some e => rw [get_mergeDefinition_old hm]; rfl
    · obtain ⟨q, hq, h⟩ | h := h
      · obtain rfl | hq := List.mem_cons.mp hq
        · exact absurd h hk
        · exact .inl ⟨q, hq, h⟩
      · exact .inr (by rwa [get_mergeDefinition_other hk])

theorem selected_split (pre post : List (Const × Clauses)) {v : Const} {cl : Clauses}
    {d : Definition} (hd : d ∈ cl.defs) (once : (cl.defs.map Definition.defines).Nodup) :
    ∃ pre' post', selected (pre ++ (v, cl) :: post) = pre' ++ (v, d) :: post' ∧
      (∀ q ∈ pre', q.2.defines = d.defines → q ∈ selected pre) ∧
      ∀ q ∈ post', q.2.defines = d.defines → q ∈ selected post := by
  obtain ⟨front, back, hdefs⟩ := List.append_of_mem hd
  rw [hdefs] at once
  simp only [List.map_append, List.map_cons, List.nodup_append, List.nodup_cons, List.mem_map,
    List.mem_cons, not_exists, not_and] at once
  refine ⟨selected pre ++ front.map (fun d => (v, d)), back.map (fun d => (v, d)) ++ selected post,
    by simp [selected, hdefs], ?_, ?_⟩
  · intro q hq same
    obtain hq | hq := List.mem_append.mp hq
    · exact hq
    · obtain ⟨e, he, rfl⟩ := List.mem_map.mp hq
      exact absurd same (once.2.2 _ ⟨e, he, rfl⟩ _ (.inl rfl))
  · intro q hq same
    obtain hq | hq := List.mem_append.mp hq
    · obtain ⟨e, he, rfl⟩ := List.mem_map.mp hq
      exact absurd same (once.2.1.1 e he)
    · exact hq

/-- The selectors with the arguments they stand for. -/
def branches (args : List Clauses) (bs : List (Const × Clauses × Renaming)) :
    List (Const × Clauses) :=
  bs.map (fun b => (b.1, eliminated args b.2))

section Merging

variable {args : List Clauses} {rn : UniqueRenamer} {vs : List Const}

/-- All arguments define a symbol that is not captured. -/
theorem shared_mem (sep : Separable args) {k : Expr}
    (free : k ∉ captured args) (some : ∃ a ∈ args, ∃ d ∈ a.defs, d.defines = k)
    (used : ∀ a ∈ args, ∀ c ∈ a.symbols, c.name ∈ rn.used) {p : Clauses × Renaming}
    (hp : p ∈ renamed rn args) :
    ∃ d ∈ p.1.defs, d.defines = k ∧ d.rename p.2 ∈ (eliminated args p).defs ∧
      (d.rename p.2).defines = k := by
  have ha := (List.of_mem_zip hp).1
  have all : ∀ a ∈ args, ∃ d ∈ a.defs, d.defines = k := by
    simpa [mem_captured, some] using free
  obtain ⟨d, hd, rfl⟩ := all _ ha
  have alive : d.defines ∉ dead args := fun h => free (List.mem_of_mem_filter h)
  refine ⟨d, hd, rfl, (mem_defs_eliminated used sep.defines hp).mpr ⟨d, hd, alive, rfl⟩, ?_⟩
  obtain ⟨-, h⟩ | ⟨-, h⟩ | ⟨c, hs, hc, -, -⟩ := defines_cases sep.defines hp hd
  · exact h
  · exact h
  · exact absurd (hc ▸ (mem_toRename.mp hs).1) free

variable (merge : Mergeable args) (used : ∀ a ∈ args, ∀ c ∈ a.symbols, c.name ∈ rn.used)

include merge used in
/-- The last definition of a shared symbol is one of the last argument. -/
theorem selected_last {v : Const} {p : Clauses × Renaming} (hp : p ∈ renamed rn args)
    {q : Const × Definition} (hq : q ∈ selected [(v, eliminated args p)])
    (free : q.2.defines ∉ captured args) (hused : ∀ c, q.2.defines = .const c → c.name ∈ rn.used) :
    ∃ e ∈ p.1.defs, q.2 = e.rename p.2 ∧ e.defines = q.2.defines := by
  obtain ⟨w, d'⟩ := q
  simp only [mem_selected, List.mem_singleton, exists_eq_left] at hq
  obtain ⟨e, he, alive, same⟩ := (mem_defs_eliminated used merge.defines hp).mp hq.2
  refine ⟨e, he, same, ?_⟩
  simp only [same] at free hused ⊢
  obtain ⟨h, -⟩ | ⟨-, h⟩ | ⟨c, hs, hc, key, unused⟩ := defines_cases merge.defines hp he
  · exact absurd h alive
  · exact h.symm
  · exact absurd (hused _ key) unused

include merge used in
/-- The merged definition of a symbol that all arguments define holds exactly when
the definition of the branch whose selector is the last true one does. -/
theorem merged_shared {D : Domain} {M : Structure D} (two : 2 ≤ args.length)
    {bs : List (Const × Clauses × Renaming)} (hbs : bs.map Prod.snd = renamed rn args)
    {pre post : List (Const × Clauses × Renaming)} {v : Const} {p : Clauses × Renaming}
    (split : bs = pre ++ (v, p) :: post) (on : ∀ env, (Expr.const v).Holds M env)
    (off : ∀ b ∈ post, ∀ env, ¬ (Expr.const b.1).Holds M env)
    {d : Definition} (hd : d ∈ p.1.defs) (free : d.defines ∉ captured args) :
    ∃ m, (mergeDefinitions (branches args bs)).get d.defines = some m ∧
      (m.toConstraint.Valid M ↔ d.toConstraint.Valid (M.comap p.2)) := by
  have mem : ∀ b ∈ bs, b.2 ∈ renamed rn args := fun b hb => hbs ▸ List.mem_map_of_mem hb
  have hp : p ∈ renamed rn args := mem (v, p) (by simp [split])
  have ha := (List.of_mem_zip hp).1
  have some : ∃ a ∈ args, ∃ e ∈ a.defs, e.defines = d.defines := ⟨_, ha, d, hd, rfl⟩
  have alive : d.defines ∉ dead args := fun h => free (List.mem_of_mem_filter h)
  have key : (d.rename p.2).defines = d.defines := by
    obtain ⟨h, -⟩ | ⟨-, h⟩ | ⟨c, hs, hc, -, -⟩ := defines_cases merge.defines hp hd
    · exact absurd h alive
    · exact h
    · exact absurd (hc ▸ (mem_toRename.mp hs).1) free
  have keyUsed : ∀ c, d.defines = .const c → c.name ∈ rn.used :=
    fun c hc => used _ ha c (mem_symbols_of_mem_defs hd hc)
  have hd' : d.rename p.2 ∈ (eliminated args p).defs :=
    (mem_defs_eliminated used merge.defines hp).mpr ⟨d, hd, alive, rfl⟩
  -- the right-hand side is the one of the branch
  have hit : ∃ e, (mergeDefinitions (branches args bs)).get d.defines = Option.some e ∧
      e.rhs.eval M = (d.rhs.rename p.2).eval M := by
    obtain ⟨pre', post', hsel, -, hpost⟩ := selected_split
      (branches args pre) (branches args post) (v := v) hd'
      (eliminated_once used merge.defines hp (merge.once _ ha))
    have whole : branches args bs =
        branches args pre ++ (v, eliminated args p) :: branches args post := by
      simp [branches, split]
    rw [mergeDefinitions, whole, hsel, ← key]
    refine get_foldl_hit on fun q hq same => ?_
    obtain ⟨b, hb, hv, -⟩ := mem_selected.mp (hpost q hq same)
    obtain ⟨b', hb', rfl⟩ := List.mem_map.mp hb
    exact hv ▸ off b' hb'
  -- the left-hand side is the one of the last argument
  have again : ∃ e, (∃ last ∈ args.getLast?, e ∈ last.defs) ∧ e.defines = d.defines ∧ ∃ c a b,
      (mergeDefinitions (branches args bs)).get d.defines =
        Option.some ⟨e.lhs, .ite c a b⟩ := by
    have len : bs.length = args.length := by
      rw [← List.length_map (f := Prod.snd), hbs, renamed, List.length_zip, renamings_length,
        Nat.min_self]
    have ne : bs ≠ [] := by
      rintro rfl
      simp only [List.length_nil] at len
      omega
    have hlast : (bs.getLast ne).2 ∈ renamed rn args := mem _ (List.getLast_mem ne)
    have front : bs.dropLast ≠ [] := by
      intro h
      have := congrArg List.length h
      rw [List.length_dropLast, List.length_nil] at this
      omega
    obtain ⟨b₀, hb₀⟩ := List.exists_mem_of_ne_nil _ front
    have whole : branches args bs =
        branches args bs.dropLast ++ [((bs.getLast ne).1, eliminated args (bs.getLast ne).2)] := by
      conv_lhs => rw [← List.dropLast_append_getLast ne]
      simp [branches]
    rw [mergeDefinitions, whole, selected_append, List.foldl_append]
    have first : ((selected (branches args bs.dropLast)).foldl mergeDefinition .empty).get
        d.defines |>.isSome := by
      refine get_foldl_isSome (.inl ?_)
      obtain ⟨e, -, -, he, hk⟩ :=
        shared_mem merge.toSeparable free some used (mem b₀ (List.mem_of_mem_dropLast hb₀))
      exact ⟨(b₀.1, _), mem_selected.mpr ⟨_, List.mem_map_of_mem hb₀, rfl, he⟩, hk⟩
    obtain ⟨e₀, he₀⟩ := Option.isSome_iff_exists.mp first
    obtain ⟨e₁, -, -, he₁, hk₁⟩ := shared_mem merge.toSeparable free some used hlast
    have second : ∃ q ∈ selected [((bs.getLast ne).1, eliminated args (bs.getLast ne).2)],
        q.2.defines = d.defines :=
      ⟨((bs.getLast ne).1, e₁.rename (bs.getLast ne).2.2),
        mem_selected.mpr ⟨_, List.mem_singleton_self _, rfl, he₁⟩, hk₁⟩
    obtain ⟨q, hq, hk, c, a, b, hget⟩ := get_foldl_again he₀ second
    obtain ⟨e, he, hqe, hke⟩ := selected_last merge used hlast hq (hk ▸ free)
      (fun c hc => keyUsed c (hk ▸ hc))
    have lastArg : args.getLast? = Option.some (bs.getLast ne).2.1 := by
      conv_lhs => rw [← show (renamed rn args).map Prod.fst = args from map_fst_renamed, ← hbs]
      rw [List.map_map, List.getLast?_map, List.getLast?_eq_some_getLast ne]
      rfl
    refine ⟨e, ⟨_, lastArg, he⟩, hke.trans hk, c, a, b, ?_⟩
    have unrenamed := merge.apart _ lastArg e he (by rw [hke, hk]; exact free)
    have : q.2.lhs = e.lhs := by
      rw [hqe]
      exact Expr.rename_eq_self fun c hc => (renamed_fresh hlast).off c (unrenamed c hc)
    rw [hget, this]
  obtain ⟨e', hget, hrhs⟩ := hit
  obtain ⟨e, ⟨last, hlast, he⟩, hke, c, a, b, hget'⟩ := again
  rw [hget, Option.some.injEq] at hget'
  subst hget'
  have apart := merge.apart last hlast e he (hke ▸ free)
  have meaning := merge.shared last hlast e he (hke ▸ free)
  have lhs : e.lhs.rename p.2 = e.lhs :=
    Expr.rename_eq_self fun c hc => (renamed_fresh hp).off c (apart c hc)
  refine ⟨_, hget, ?_⟩
  rw [toConstraint_ite, constraintOf_congr hrhs, ← meaning _ ha d hd hke.symm, ← valid_rename,
    ← constraintOf_rename, lhs]

include merge used in
/-- A captured skolem keeps its definition, under its new name. -/
theorem merged_captured {bs : List (Const × Clauses × Renaming)}
    (hbs : bs.map Prod.snd = renamed rn args) {b : Const × Clauses × Renaming} (hb : b ∈ bs)
    {d : Definition} (hd : d ∈ b.2.1.defs) {c : Const} (hc : c ∈ toRename args)
    (key : d.defines = .const c) :
    (mergeDefinitions (branches args bs)).get (.const (b.2.2.const c)) =
      some (d.rename b.2.2) := by
  have mem : ∀ b ∈ bs, b.2 ∈ renamed rn args := fun b hb => hbs ▸ List.mem_map_of_mem hb
  obtain ⟨v, p⟩ := b
  obtain ⟨pre, post, split⟩ := List.append_of_mem hb
  have hp := mem _ hb
  have ha := (List.of_mem_zip hp).1
  have fresh := renamed_fresh hp
  have key' := Definition.defines_rename p.2 key
  have alive : d.defines ∉ dead args := by
    rw [key, mem_dead]
    simp [(mem_toRename.mp hc).2]
  have hd' : d.rename p.2 ∈ (eliminated args p).defs :=
    (mem_defs_eliminated used merge.defines hp).mpr ⟨d, hd, alive, rfl⟩
  have apart : bs.Pairwise (fun b b' => ∀ c ∈ toRename args, ∀ c' ∈ toRename args,
      b.2.2.name c ≠ b'.2.2.name c') := by
    have : (renamed rn args).Pairwise _ := renamed_apart
    rwa [← hbs, List.pairwise_map] at this
  rw [split, List.pairwise_append, List.pairwise_cons] at apart
  -- no other branch has a definition under this name
  have other : ∀ cs : List (Const × Clauses × Renaming), (∀ b ∈ cs, b ∈ bs ∧ ∀ c' ∈ toRename args,
      b.2.2.name c' ≠ p.2.name c) → ∀ q ∈ selected (branches args cs),
      q.2.defines ≠ .const (p.2.const c) := by
    intro cs hcs q hq
    obtain ⟨w, d'⟩ := q
    obtain ⟨x, hx, rfl, hmem⟩ := mem_selected.mp hq
    obtain ⟨b, hb, rfl⟩ := List.mem_map.mp hx
    have hb' := mem b (hcs b hb).1
    exact defines_ne_fresh used merge.defines hb' (fresh.fresh c hc) (hcs b hb).2 hmem rfl
  have whole : branches args bs =
      branches args pre ++ (v, eliminated args p) :: branches args post := by
    simp [branches, split]
  obtain ⟨pre', post', hsel, hpre, hpost⟩ := selected_split
    (branches args pre) (branches args post) (v := v) hd'
    (eliminated_once used merge.defines hp (merge.once _ ha))
  rw [mergeDefinitions, whole, hsel, ← key']
  refine get_foldl_only (fun q hq same => ?_) fun q hq same => ?_
  · refine other pre (fun b hb => ⟨by simp [split, hb], fun c' hc' => ?_⟩) q (hpre q hq same)
      (same.trans key')
    exact apart.2.2 b hb (v, p) List.mem_cons_self c' hc' c hc
  · refine other post (fun b hb => ⟨by simp [split, hb], fun c' hc' => ?_⟩) q (hpost q hq same)
      (same.trans key')
    exact (apart.2.1.1 b hb c hc c' hc').symm

include merge used in
/-- Every merged definition is of one of these two kinds. -/
theorem merged_cases {bs : List (Const × Clauses × Renaming)}
    (hbs : bs.map Prod.snd = renamed rn args) {m : Definition}
    (hm : m ∈ (mergeDefinitions (branches args bs)).values) :
    (∃ k, k ∉ captured args ∧ (∃ a ∈ args, ∃ d ∈ a.defs, d.defines = k) ∧
        (mergeDefinitions (branches args bs)).get k = some m) ∨
      ∃ b ∈ bs, ∃ d ∈ b.2.1.defs, (∃ c ∈ toRename args, d.defines = .const c) ∧
        m = d.rename b.2.2 := by
  obtain ⟨k, hk⟩ := InsMap.mem_values.mp hm
  obtain ⟨q, hq, key⟩ | h := exists_of_get_foldl hk
  · obtain ⟨w, d'⟩ := q
    obtain ⟨x, hx, rfl, hmem⟩ := mem_selected.mp hq
    obtain ⟨b, hb, rfl⟩ := List.mem_map.mp hx
    have hb' : b.2 ∈ renamed rn args := hbs ▸ List.mem_map_of_mem hb
    obtain ⟨d, hd, alive, rfl⟩ := (mem_defs_eliminated used merge.defines hb').mp hmem
    obtain ⟨h, -⟩ | ⟨free, h⟩ | ⟨c, hs, hc, key', -⟩ := defines_cases merge.defines hb' hd
    · exact absurd h alive
    · have key' : d.defines = k := h.symm.trans key
      exact .inl ⟨k, key' ▸ free, ⟨_, (List.of_mem_zip hb').1, d, hd, key'⟩, hk⟩
    · have only := merged_captured merge used hbs hb hd hs hc
      rw [← key', key, hk, Option.some.injEq] at only
      exact .inr ⟨b, hb, d, hd, ⟨c, hs, hc⟩, only⟩
  · rw [InsMap.get_empty] at h
    contradiction

end Merging

end Clauses

end Goivy
