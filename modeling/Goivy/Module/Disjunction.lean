import Goivy.Module.Merge

/-! `OrClauses`: one selector symbol for each argument guards its formulas and picks
its definitions. -/
namespace Goivy

namespace Clauses

/-- One Boolean constant for each of `n` arguments. -/
def selectors : Nat → UniqueRenamer → List Const × UniqueRenamer
  | 0, rn => ([], rn)
  | n + 1, rn =>
    let (name, rn) := rn.rename ""
    let (vs, rn) := selectors n rn
    (⟨name, .first .boolean⟩ :: vs, rn)

/-- The formulas of an argument, where its selector is true. -/
def guarded (v : Const) (cl : Clauses) : List Expr :=
  cl.fmlas.map (fun f => .or [.not (.const v), f])

/-- `orClausesIntWithVs`. -/
def orClausesInt (rn : UniqueRenamer) (args : List Clauses) : Clauses :=
  let (args, rn) := elimDeadDefinitions rn args
  let (vs, _) := selectors args.length rn
  let branches := vs.zip args
  new (.or (vs.map .const) :: branches.flatMap (fun b => guarded b.1 b.2))
    (mergeDefinitions branches).values

def nonFalse (args : List Clauses) : List Clauses := args.filter (fun a => !a.isFalse)

/-- `OrClausesTyped`, with the second `NewClauses` of `fixOrAnnot`. -/
def or (args : List Clauses) : Clauses :=
  match nonFalse args with
  | [] => fls
  | [a] => new a.fmlas a.defs
  | as =>
    let res := orClausesInt ⟨"__ts0", as.flatMap usedSymbolNames⟩ as
    new res.fmlas res.defs

variable {D : Domain}

/-- Some values of the skolem symbols make the clauses true. -/
def SatSkolem (M : Structure D) (cl : Clauses) : Prop :=
  ∃ N, AgreeOff Const.Skolem M N ∧ cl.Sat N

theorem selectors_fresh (n : Nat) (rn : UniqueRenamer) :
    (selectors n rn).1.length = n ∧ (selectors n rn).1.Nodup ∧
      ∀ v ∈ (selectors n rn).1, v.name ∉ rn.used ∧ v.sort = .first .boolean ∧
        BasedOn rn.namePrefix v.name := by
  induction n generalizing rn with
  | zero => simp [selectors]
  | succ n ih =>
    obtain ⟨len, nodup, each⟩ := ih (rn.rename "").2
    refine ⟨by simp [selectors, len], List.nodup_cons.mpr ⟨fun mem => ?_, nodup⟩, fun v hv => ?_⟩
    · exact (each _ mem).1 List.mem_cons_self
    · obtain rfl | hv := List.mem_cons.mp hv
      · have based := rn.rename_basedOn ""
        rw [String.append_empty] at based
        exact ⟨rn.rename_not_mem "", rfl, based⟩
      · obtain ⟨unused, sort, based⟩ := each v hv
        exact ⟨fun mem => unused (List.mem_cons_of_mem _ mem), sort, based⟩

/-- The last element of a list that has some property. -/
theorem exists_last {α : Type} {P : α → Prop} {l : List α} (h : ∃ a ∈ l, P a) :
    ∃ pre a post, l = pre ++ a :: post ∧ P a ∧ ∀ b ∈ post, ¬ P b := by
  induction l with
  | nil => simp at h
  | cons a l ih =>
    by_cases later : ∃ b ∈ l, P b
    · obtain ⟨pre, b, post, rfl, hb, rest⟩ := ih later
      exact ⟨a :: pre, b, post, rfl, hb, rest⟩
    · obtain ⟨b, hb, hP⟩ := h
      obtain rfl | hb := List.mem_cons.mp hb
      · exact ⟨[], b, l, rfl, hP, by simpa using later⟩
      · exact absurd ⟨b, hb, hP⟩ later

/-- The structure in which the Boolean constants are as given. -/
def booleans (on : String → Bool) (M : Structure D) : Structure D := fun n s =>
  match s with
  | .first .boolean => fun _ => on n
  | s => M n s

/-- The structure in which the selectors are as given. -/
noncomputable def select (vs : List Const) (on : String → Bool) (M : Structure D) : Structure D :=
  Structure.patch {c | c ∈ vs} (booleans on M) M

theorem select_off {vs : List Const} {on : String → Bool} {c : Const} {M : Structure D}
    (h : c ∉ vs) : SameAt (select vs on M) M c := Structure.patch_not_mem h

theorem holds_select {vs : List Const} {on : String → Bool} {v : Const} {M : Structure D}
    {env : Env D} (hv : v ∈ vs) (sort : v.sort = .first .boolean) :
    (Expr.const v).Holds (select vs on M) env ↔ on v.name = true := by
  obtain ⟨n, s⟩ := v
  subst sort
  have same : SameAt (select vs on M) (booleans on M) ⟨n, .first .boolean⟩ :=
    Structure.patch_mem hv
  have meaning := congrFun same ⟨[], rfl⟩
  rw [Expr.holds_boolean, meaning]
  exact Iff.rfl

section Int

variable {args : List Clauses} {rn : UniqueRenamer}

/-- The selectors of the arguments. -/
def selectorsOf (rn : UniqueRenamer) (args : List Clauses) : List Const :=
  (selectors args.length (renamings (toRename args) args.length rn).2).1

def selecting (rn : UniqueRenamer) (args : List Clauses) : List (Const × Clauses × Renaming) :=
  (selectorsOf rn args).zip (renamed rn args)

theorem renamed_length : (renamed rn args).length = args.length := by
  rw [renamed, List.length_zip, renamings_length, Nat.min_self]

theorem selectorsOf_length : (selectorsOf rn args).length = args.length :=
  (selectors_fresh _ _).1

theorem map_snd_selecting : (selecting rn args).map Prod.snd = renamed rn args :=
  List.map_snd_zip (by rw [selectorsOf_length, renamed_length])

theorem map_fst_selecting : (selecting rn args).map Prod.fst = selectorsOf rn args :=
  List.map_fst_zip (by rw [selectorsOf_length, renamed_length])

theorem orClausesInt_eq : orClausesInt rn args =
    new (.or ((selectorsOf rn args).map .const) ::
        (branches args (selecting rn args)).flatMap (fun b => guarded b.1 b.2))
      (mergeDefinitions (branches args (selecting rn args))).values := by
  have zip : (selectorsOf rn args).zip ((renamed rn args).map (eliminated args)) =
      branches args (selecting rn args) := by
    rw [branches, selecting, List.zip_map_right]
    rfl
  simp only [orClausesInt, elimDeadDefinitions_fst, List.length_map, renamed_length]
  rw [← zip]
  rfl

variable {M : Structure D}

/-- The formulas of the encoding: some selector is true, and every argument whose
selector is true has its formulas. -/
theorem guards_valid {vs : List Const} {bs : List (Const × Clauses)} :
    (∀ f ∈ Expr.or (vs.map .const) :: bs.flatMap (fun b => guarded b.1 b.2), f.Valid M) ↔
      (∃ v ∈ vs, ∀ env, (Expr.const v).Holds M env) ∧
        ∀ b ∈ bs, (∀ env, (Expr.const b.1).Holds M env) → ∀ f ∈ b.2.fmlas, f.Valid M := by
  rw [List.forall_mem_cons]
  refine and_congr ?_ ?_
  · constructor
    · intro h
      obtain ⟨t, ht, holds⟩ := (Expr.holds_or M (Classical.arbitrary _) _).mp (h _)
      obtain ⟨v, hv, rfl⟩ := List.mem_map.mp ht
      exact ⟨v, hv, fun env => holds⟩
    · rintro ⟨v, hv, holds⟩ env
      exact (Expr.holds_or M env _).mpr ⟨_, List.mem_map_of_mem hv, holds env⟩
  · simp only [List.mem_flatMap, guarded, List.mem_map]
    constructor
    · intro h b hb on f hf env
      have := h _ ⟨b, hb, f, hf, rfl⟩ env
      simpa [on env] using this
    · rintro h _ ⟨b, hb, f, hf, rfl⟩ env
      by_cases on : (Expr.const b.1).Holds M env
      · have := h b hb (fun _ => on) f hf env
        simp [this]
      · simp [on]

variable (merge : Mergeable args) (used : ∀ a ∈ args, ∀ c ∈ a.symbols, c.name ∈ rn.used)
  (pre : isSkolem rn.namePrefix = true) (two : 2 ≤ args.length)

include merge used two in
/-- A structure of the encoding makes the last argument true whose selector is. -/
theorem orClausesInt_sound (sat : (orClausesInt rn args).Sat M) :
    ∃ p ∈ renamed rn args, p.1.Sat (M.comap p.2) := by
  rw [orClausesInt_eq, sat_new, guards_valid] at sat
  obtain ⟨⟨⟨v, hv, on⟩, guards⟩, defs⟩ := sat
  have some : ∃ b ∈ selecting rn args, ∀ env, (Expr.const b.1).Holds M env := by
    rw [← map_fst_selecting] at hv
    obtain ⟨b, hb, rfl⟩ := List.mem_map.mp hv
    exact ⟨b, hb, on⟩
  obtain ⟨front, ⟨v, p⟩, post, split, on, off⟩ := exists_last some
  have hp : p ∈ renamed rn args := by
    rw [← map_snd_selecting, split]
    simp
  refine ⟨p, hp, (sat_eliminated used merge.defines hp (merge.once _ (List.of_mem_zip hp).1)).mp
    ⟨guards (v, eliminated args p) ?_ on, fun d' hd' => ?_⟩⟩
  · exact List.mem_map.mpr ⟨(v, p), by simp [split], rfl⟩
  · obtain ⟨d, hd, alive, rfl⟩ := (mem_defs_eliminated used merge.defines hp).mp hd'
    obtain ⟨h, -⟩ | ⟨free, -⟩ | ⟨c, hs, hc, -, -⟩ := defines_cases merge.defines hp hd
    · exact absurd h alive
    · obtain ⟨m, hget, meaning⟩ := merged_shared merge used two map_snd_selecting split on
        (fun b hb env holds => off b hb fun _ => holds) hd free
      rw [Definition.toConstraint_rename, valid_rename]
      exact meaning.mp (defs m (InsMap.mem_values.mpr ⟨_, hget⟩))
    · have hget := merged_captured merge used map_snd_selecting (b := (v, p)) (by simp [split])
        hd hs hc
      exact defs _ (InsMap.mem_values.mpr ⟨_, hget⟩)

include merge used pre two in
/-- A structure that makes one argument true extends to one of the encoding. -/
theorem orClausesInt_complete {a : Clauses} (ha : a ∈ args) (sat : a.Sat M) :
    ∃ N, AgreeOff Const.Skolem M N ∧ (orClausesInt rn args).Sat N := by
  classical
  obtain ⟨active, hactive, hfst⟩ : ∃ b ∈ selecting rn args, b.2.1 = a := by
    have : a ∈ ((selecting rn args).map Prod.snd).map Prod.fst := by
      rw [map_snd_selecting, map_fst_renamed]
      exact ha
    simpa using this
  -- the active argument keeps its skolems, in the others they are chosen as defined
  have choice : ∀ p : Clauses × Renaming, ∃ X : Structure D, p ∈ renamed rn args →
      (∀ c, c ∉ toRename args → SameAt M X c) ∧
        (∀ d ∈ p.1.defs, (∃ c ∈ toRename args, d.defines = .const c) → d.toConstraint.Valid X) ∧
        (p = active.2 → X = M) := by
    intro p
    by_cases h : p = active.2
    · exact ⟨M, fun _ => ⟨fun _ _ => rfl, fun d hd _ => sat.2 d (by rwa [h, hfst] at hd),
        fun _ => rfl⟩⟩
    · by_cases hp : p ∈ renamed rn args
      · obtain ⟨X, same, valid⟩ := merge.solvable _ (List.of_mem_zip hp).1 D M
        exact ⟨X, fun _ => ⟨same, valid, fun h' => absurd h' h⟩⟩
      · exact ⟨M, fun h' => absurd h' hp⟩
  choose X hX using choice
  obtain ⟨N₁, off₁, ext⟩ := exists_extension pre used M X
    fun p hp c _ (hc : c ∉ toRename args) => (hX p hp).1 c hc
  have fresh := selectors_fresh args.length (renamings (toRename args) args.length rn).2
  obtain ⟨sub, pre', imageUsed⟩ := renamings_used (toRename args) args.length rn
  let N := select (selectorsOf rn args) (fun n => n = active.1.name) N₁
  have offSelector : ∀ c : Const, c.name ∈ (renamings (toRename args) args.length rn).2.used →
      SameAt N N₁ c := fun c hc => select_off fun mem => (fresh.2.2 c mem).1 hc
  have inBranch : ∀ p ∈ renamed rn args, ∀ c ∈ p.1.symbols, SameAt (N.comap p.2) (X p) c := by
    intro p hp c hc
    refine SameAt.trans ?_ (ext p hp c hc)
    refine offSelector ⟨p.2.name c, c.sort⟩ ?_
    by_cases hs : c ∈ toRename args
    · exact imageUsed _ (List.of_mem_zip hp).2 c hs
    · show p.2.name c ∈ _
      rw [(renamed_fresh hp).off c hs]
      exact sub (used _ (List.of_mem_zip hp).1 c hc)
  have isActive : ∀ b ∈ selecting rn args, ∀ env, (Expr.const b.1).Holds N env ↔
      b.1.name = active.1.name := by
    intro b hb env
    have hv : b.1 ∈ selectorsOf rn args := (List.of_mem_zip hb).1
    exact (holds_select hv (fresh.2.2 b.1 hv).2.1).trans decide_eq_true_iff
  have hp : active.2 ∈ renamed rn args := (List.of_mem_zip hactive).2
  have satActive : active.2.1.Sat (N.comap active.2.2) := by
    refine (sat_congr (inBranch _ hp)).mpr ?_
    rw [(hX _ hp).2.2 rfl, hfst]
    exact sat
  have unique : ∀ b ∈ selecting rn args, b.1.name = active.1.name → b = active := by
    intro b hb same
    have nodup : ((selecting rn args).map Prod.fst).Nodup := map_fst_selecting ▸ fresh.2.1
    refine List.inj_on_of_nodup_map nodup hb hactive ?_
    have sort := (fresh.2.2 b.1 (List.of_mem_zip hb).1).2.1
    have sort' := (fresh.2.2 active.1 (List.of_mem_zip hactive).1).2.1
    exact congrArg₂ Const.mk same (sort.trans sort'.symm)
  refine ⟨N, fun c hc => ?_, ?_⟩
  · have skolem : c ∉ selectorsOf rn args := by
      intro mem
      obtain ⟨-, -, based⟩ := fresh.2.2 c mem
      exact hc (based.isSkolem (pre' ▸ pre))
    exact ((select_off skolem).trans (off₁ c (.inr (by simpa [Const.Skolem] using hc)))).symm
  · have satEliminated := (sat_eliminated used merge.defines hp
      (merge.once _ (List.of_mem_zip hp).1)).mpr satActive
    rw [orClausesInt_eq, sat_new, guards_valid]
    refine ⟨⟨⟨active.1, (List.of_mem_zip hactive).1,
      fun env => (isActive _ hactive env).mpr rfl⟩, ?_⟩, ?_⟩
    · intro b hb on
      obtain ⟨b', hb', rfl⟩ := List.mem_map.mp hb
      have := unique b' hb' ((isActive b' hb' (Classical.arbitrary _)).mp (on _))
      exact this ▸ satEliminated.1
    · intro m hm
      obtain ⟨k, free, ⟨a', ha', d', hd', hk'⟩, hget⟩ | ⟨b, hb, d, hd, hc, rfl⟩ :=
        merged_cases merge used map_snd_selecting hm
      · obtain ⟨d, hd, hk, -, -⟩ := shared_mem merge.toSeparable free ⟨a', ha', d', hd', hk'⟩ used hp
        obtain ⟨front, post, split⟩ := List.append_of_mem hactive
        have off : ∀ b ∈ post, ∀ env, ¬ (Expr.const b.1).Holds N env := by
          intro b hb env holds
          have hb' : b ∈ selecting rn args := by simp [split, hb]
          have same := unique b hb' ((isActive b hb' env).mp holds)
          have nodup : ((selecting rn args).map Prod.fst).Nodup := map_fst_selecting ▸ fresh.2.1
          rw [split, List.map_append, List.map_cons] at nodup
          have := (List.nodup_cons.mp (List.nodup_append.mp nodup).2.1).1
          exact this (same ▸ List.mem_map_of_mem hb)
        obtain ⟨m', hget', meaning⟩ := merged_shared merge used two map_snd_selecting split
          (fun env => (isActive _ hactive env).mpr rfl) off hd (hk ▸ free)
        rw [hk, hget, Option.some.injEq] at hget'
        rw [hget']
        exact meaning.mpr (satActive.2 d hd)
      · have hb' : b.2 ∈ renamed rn args := (List.of_mem_zip hb).2
        rw [Definition.toConstraint_rename, valid_rename]
        refine (valid_congr fun c hc => inBranch _ hb' c ?_).mpr ((hX _ hb').2.1 d hd hc)
        exact List.mem_append_right _ (List.mem_flatMap.mpr ⟨d, hd, d.symbols_toConstraint c hc⟩)

end Int

/-- The renamings of an argument only touch skolem symbols. -/
theorem agreeOff_comap {args : List Clauses} {rn : UniqueRenamer} {p : Clauses × Renaming}
    (hp : p ∈ renamed rn args) (M : Structure D) :
    AgreeOff Const.Skolem M (M.comap p.2) := by
  intro c hc
  have off := (renamed_fresh hp).off c fun h => hc (mem_toRename.mp h).2
  show M c.name c.sort = M (p.2.name c) c.sort
  rw [off]

theorem sat_of_mem_nonFalse {M : Structure D} {args : List Clauses} {a : Clauses} (ha : a ∈ args)
    (sat : a.SatSkolem M) : a ∈ nonFalse args := by
  obtain ⟨N, -, sat⟩ := sat
  refine List.mem_filter.mpr ⟨ha, ?_⟩
  cases h : a.isFalse with
  | false => rfl
  | true => exact absurd sat (not_sat_of_isFalse h)

theorem sat_renew {M : Structure D} (cl : Clauses) : (new cl.fmlas cl.defs).Sat M ↔ cl.Sat M :=
  sat_new

theorem satSkolem_orClausesInt {args : List Clauses} {rn : UniqueRenamer}
    (merge : Mergeable args) (used : ∀ a ∈ args, ∀ c ∈ a.symbols, c.name ∈ rn.used)
    (pre : isSkolem rn.namePrefix = true) (two : 2 ≤ args.length) (M : Structure D) :
    (orClausesInt rn args).SatSkolem M ↔ ∃ a ∈ args, a.SatSkolem M := by
  constructor
  · rintro ⟨N, agree, sat⟩
    obtain ⟨p, hp, sat⟩ := orClausesInt_sound merge used two sat
    exact ⟨p.1, (List.of_mem_zip hp).1, _, agree.trans (agreeOff_comap hp N), sat⟩
  · rintro ⟨a, ha, N, agree, sat⟩
    obtain ⟨N', agree', sat⟩ := orClausesInt_complete merge used pre two ha sat
    exact ⟨N', agree.trans agree', sat⟩

/-- The disjunction is true for some skolem values exactly when one argument is,
where at most one argument is not false or the definitions can be merged. -/
theorem satSkolem_or {args : List Clauses}
    (merge : 2 ≤ (nonFalse args).length → Mergeable (nonFalse args)) (M : Structure D) :
    (or args).SatSkolem M ↔ ∃ a ∈ args, a.SatSkolem M := by
  have some : (∃ a ∈ args, a.SatSkolem M) ↔ ∃ a ∈ nonFalse args, a.SatSkolem M :=
    ⟨fun ⟨a, ha, sat⟩ => ⟨a, sat_of_mem_nonFalse ha sat, sat⟩,
      fun ⟨a, ha, sat⟩ => ⟨a, List.mem_of_mem_filter ha, sat⟩⟩
  rw [some, or]
  generalize nonFalse args = as at merge
  match as, merge with
  | [], _ => simp [SatSkolem]
  | [a], _ => simp [SatSkolem, sat_renew]
  | a₁ :: a₂ :: rest, merge =>
    have used : ∀ a ∈ a₁ :: a₂ :: rest, ∀ c ∈ a.symbols,
        c.name ∈ (a₁ :: a₂ :: rest).flatMap usedSymbolNames :=
      fun a ha c hc => List.mem_flatMap.mpr ⟨a, ha, List.mem_map_of_mem hc⟩
    have two : 2 ≤ (a₁ :: a₂ :: rest).length := by simp
    have pre : isSkolem "__ts0" = true := by decide
    have encoding : (orClausesInt ⟨"__ts0", (a₁ :: a₂ :: rest).flatMap usedSymbolNames⟩
        (a₁ :: a₂ :: rest)).SatSkolem M ↔ _ := satSkolem_orClausesInt (merge two) used pre two M
    simpa only [SatSkolem, sat_renew] using encoding

/-- `OrClausesTyped` denotes disjunction, in every structure over the other symbols. -/
theorem or_denotes_disjunction {args : List Clauses}
    (merge : 2 ≤ (nonFalse args).length → Mergeable (nonFalse args)) (D : Domain)
    (M : Structure D) : (or args).SatSkolem M ↔ ∃ a ∈ args, a.SatSkolem M :=
  satSkolem_or merge M

/-- Two arguments that define the same symbol. -/
def bothDefine : List Clauses :=
  [new [.const (boolConst "p")] [boolDef "c" "a"], new [.const (boolConst "q")] [boolDef "c" "b"]]

theorem or_denotes_disjunction_bothDefine : (or bothDefine).SatSkolem (.ofNames ["q", "c", "b"]) ↔
    ∃ a ∈ bothDefine, a.SatSkolem (.ofNames ["q", "c", "b"]) := by
  refine or_denotes_disjunction (fun _ => ?_) Domain.unit _
  rw [show nonFalse bothDefine = bothDefine by decide]
  exact ⟨separable_of_none (by decide) (by decide) (by decide), by
    simp [bothDefine, new, boolDef, Definition.defines, constraintOf, Definition.toConstraint]⟩

/-- One argument that defines a symbol twice, and one that does not define it. -/
def definesTwice : List Clauses :=
  [and [new [] [boolDef "c" "a"], new [] [boolDef "c" "b"]], new [.const (boolConst "p")] []]

/-- Only the last definition of a symbol is kept. -/
theorem or_drops_definition : ¬ ((or definesTwice).SatSkolem (.ofNames ["b", "c"]) ↔
    ∃ a ∈ definesTwice, a.SatSkolem (.ofNames ["b", "c"])) := by
  have encoding : or definesTwice = ⟨[.or [.const (boolConst "__ts0_a"),
      .const (boolConst "__ts0_b")], .or [.not (.const (boolConst "__ts0_a")),
      .iff (.const (boolConst "c")) (.const (boolConst "b"))],
      .or [.not (.const (boolConst "__ts0_b")), .const (boolConst "p")]], []⟩ := by decide
  have args : definesTwice = [⟨[], [boolDef "c" "a", boolDef "c" "b"]⟩,
      ⟨[.const (boolConst "p")], []⟩] := by decide
  intro same
  have left : (or definesTwice).SatSkolem (.ofNames ["b", "c"]) := by
    refine ⟨.ofNames ["b", "c", "__ts0_a"], fun c hc => ?_, ?_⟩
    · have : c.name ≠ "__ts0_a" := by
        intro h
        refine hc ?_
        rw [Const.Skolem, h]
        decide
      funext vs
      simp [Structure.ofNames, this]
    · rw [encoding]
      simp [Sat, Expr.Valid, Expr.holds_ofNames]
  obtain ⟨a, ha, N, agree, sat⟩ := same.mp left
  have atName : ∀ n env, isSkolem n = false →
      ((Expr.const (boolConst n)).Holds N env ↔ n ∈ ["b", "c"]) := by
    intro n env hn
    rw [← Expr.holds_ofNames ["b", "c"] n env]
    exact ((agree ⟨n, .first .boolean⟩ (by simp [Const.Skolem, hn])).holds_const env).symm
  rw [args] at ha
  simp only [List.mem_cons, List.not_mem_nil, or_false] at ha
  obtain rfl | rfl := ha
  · have := sat.2 (boolDef "c" "a") (by simp) (Classical.arbitrary _)
    rw [show (boolDef "c" "a").toConstraint =
      .iff (.const (boolConst "c")) (.const (boolConst "a")) by decide, Expr.holds_iff,
      atName "c" _ (by decide), atName "a" _ (by decide)] at this
    simp at this
  · have := sat.1 (.const (boolConst "p")) (by simp) (Classical.arbitrary _)
    rw [atName "p" _ (by decide)] at this
    simp at this

end Clauses

end Goivy
