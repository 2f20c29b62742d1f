import Goivy.Module.Disjunction
import Goivy.Logic.Simplify
import Goivy.Logic.Closed

/-! `IteClauses`: one selector symbol, defined by the condition, guards the formulas of
the two branches and picks between their definitions. -/
namespace Goivy

namespace Clauses

/-- A definition of the second branch, merged with the one that the first has. -/
def mergeBranch (v : Const) (d : Definition) : Option Definition → Definition
  | none => d
  | some existing => ⟨d.lhs, .simpIte (.const v) existing.rhs d.rhs⟩

/-- The two merging loops of `iteClausesInt`. -/
def iteDefinitions (v : Const) (t e : Clauses) : InsMap Expr Definition :=
  let first := t.defs.foldl (fun m d => m.update d.defines (fun _ => d)) .empty
  e.defs.foldl (fun m d => m.update d.defines (mergeBranch v d)) first

def iteEncoding (v : Const) (cond : Expr) (t e : Clauses) : Clauses :=
  new (t.fmlas.map (fun f => .or [.not (.const v), f]) ++ e.fmlas.map (fun f => .or [.const v, f]))
    ((iteDefinitions v t e).values ++ [⟨.const v, cond⟩])

/-- `iteClausesInt`. -/
def iteClausesInt (rn : UniqueRenamer) (cond : Expr) (t e : Clauses) : Clauses :=
  let (args, rn) := elimDeadDefinitions rn [t, e]
  iteEncoding ⟨(rn.rename "").1, .first .boolean⟩ cond (args.getD 0 t) (args.getD 1 e)

/-- `IteClauses`: a false branch gets the definitions of the other one. -/
def ite (cond : Expr) (t e : Clauses) : Clauses :=
  if t.isFalse && e.isFalse then t
  else
    let t' := if t.isFalse then new t.fmlas e.defs else t
    let e' := if !t.isFalse && e.isFalse then new e.fmlas t.defs else e
    let used := t'.usedSymbolNames ++ e'.usedSymbolNames ++ cond.symbols.map Const.name
    iteClausesInt ⟨"__ts0", used⟩ cond t' e'

/-- What the merging of two branches relies on. -/
structure IteMergeable (t e : Clauses) : Prop extends Separable [t, e] where
  /-- A symbol that both branches define has the same definition in both, without captured
  skolems, or its definitions mean the same with the left-hand side of the second one. -/
  shared : ∀ d ∈ t.defs, ∀ f ∈ e.defs, d.defines = f.defines →
    (d = f ∧ ∀ c ∈ d.symbols, c ∉ toRename [t, e]) ∨
      (f.lhs.isIndividual = true → d.rhs.isConstant = false ∧ f.rhs.isConstant = false) ∧
      ∀ (D : Domain) (M : Structure D),
        ((constraintOf f.lhs d.rhs).Valid M ↔ d.toConstraint.Valid M) ∧
          ((constraintOf f.lhs f.rhs).Valid M ↔ f.toConstraint.Valid M)

section Definitions

variable {v : Const} {t e : Clauses} (onceT : (t.defs.map Definition.defines).Nodup)
  (onceE : (e.defs.map Definition.defines).Nodup)

include onceT onceE in
theorem get_iteDefinitions_both {d f : Definition} (hd : d ∈ t.defs) (hf : f ∈ e.defs)
    (same : d.defines = f.defines) : (iteDefinitions v t e).get f.defines =
      some ⟨f.lhs, .simpIte (.const v) d.rhs f.rhs⟩ := by
  have first := InsMap.get_foldl_update Definition.defines (fun d _ => d) (m := .empty) onceT hd
  simp only [iteDefinitions]
  rw [InsMap.get_foldl_update Definition.defines (mergeBranch v) onceE hf, ← same, first]
  rfl

include onceT in
theorem get_iteDefinitions_first {d : Definition} (hd : d ∈ t.defs)
    (only : ∀ f ∈ e.defs, f.defines ≠ d.defines) :
    (iteDefinitions v t e).get d.defines = some d := by
  simp only [iteDefinitions]
  rw [InsMap.get_foldl_update_other Definition.defines (mergeBranch v) only]
  exact InsMap.get_foldl_update Definition.defines (fun d _ => d) onceT hd

include onceE in
theorem get_iteDefinitions_second {f : Definition} (hf : f ∈ e.defs)
    (only : ∀ d ∈ t.defs, d.defines ≠ f.defines) :
    (iteDefinitions v t e).get f.defines = some f := by
  have first := InsMap.get_foldl_update_other Definition.defines (fun d _ => d) (m := .empty) only
  simp only [iteDefinitions]
  rw [InsMap.get_foldl_update Definition.defines (mergeBranch v) onceE hf, first]
  rfl

theorem defines_of_get_iteDefinitions {k : Expr} {m : Definition}
    (h : (iteDefinitions v t e).get k = some m) :
    (∃ d ∈ t.defs, d.defines = k) ∨ ∃ f ∈ e.defs, f.defines = k := by
  by_contra none
  simp only [not_or, not_exists, not_and] at none
  simp only [iteDefinitions] at h
  rw [InsMap.get_foldl_update_other Definition.defines (mergeBranch v) none.2,
    InsMap.get_foldl_update_other Definition.defines (fun d _ => d) none.1] at h
  simp at h

end Definitions

variable {D : Domain} {N : Structure D}

theorem toConstraint_of_not_description {lhs rhs : Expr} (h : rhs.isDescription = false) :
    (⟨lhs, rhs⟩ : Definition).toConstraint = constraintOf lhs rhs := by
  cases rhs <;> first | rfl | simp [Expr.isDescription] at h

/-- A conditional right-hand side constrains as the branch that the selector picks. -/
theorem constraintOf_simpIte {v : Const} {lhs x y : Expr}
    (sorted : lhs.isIndividual = true → x.isConstant = false ∧ y.isConstant = false) :
    ((∀ env, (Expr.const v).Holds N env) → ((constraintOf lhs (.simpIte (.const v) x y)).Valid N ↔
        (constraintOf lhs x).Valid N)) ∧
      ((∀ env, ¬ (Expr.const v).Holds N env) →
        ((constraintOf lhs (.simpIte (.const v) x y)).Valid N ↔ (constraintOf lhs y).Valid N)) := by
  unfold constraintOf Expr.Valid
  cases h : lhs.isIndividual with
  | true =>
    obtain ⟨hx, hy⟩ := sorted h
    simp only [if_true, Expr.holds_eq, Expr.eval_simpIte (i := .const v) rfl hx hy]
    constructor
    · intro on
      exact forall_congr' fun env => by
        rw [Val.ite, if_pos (show ((Expr.const v).eval N env).Holds from on env)]
    · intro off
      exact forall_congr' fun env => by
        rw [Val.ite, if_neg (show ¬ ((Expr.const v).eval N env).Holds from off env)]
  | false =>
    simp only [Bool.false_eq_true, if_false, Expr.holds_iff, Expr.holds_simpIte]
    constructor
    · intro on
      exact forall_congr' fun env => by simp [on env]
    · intro off
      exact forall_congr' fun env => by simp [off env]

section Branches

variable {t e : Clauses} {rn : UniqueRenamer} {p q : Clauses × Renaming} {v : Const}

/-- The two branches with their renamings. -/
theorem exists_renamed (rn : UniqueRenamer) (t e : Clauses) :
    ∃ p q, renamed rn [t, e] = [p, q] ∧ p.1 = t ∧ q.1 = e :=
  ⟨_, _, rfl, rfl, rfl⟩

variable (merge : IteMergeable t e) (used : ∀ a ∈ [t, e], ∀ c ∈ a.symbols, c.name ∈ rn.used)
  (branches : renamed rn [t, e] = [p, q]) (hp : p.1 = t) (hq : q.1 = e)

include merge branches hp hq used in
/-- The merged definition of a symbol that both branches define holds exactly when the
definition of the branch that the selector picks does. -/
theorem iteDefinitions_shared {d f : Definition} (hd : d ∈ t.defs) (hf : f ∈ e.defs)
    (same : d.defines = f.defines) :
    ∃ m, (iteDefinitions v (eliminated [t, e] p) (eliminated [t, e] q)).get f.defines = some m ∧
      ((∀ env, (Expr.const v).Holds N env) →
        (m.toConstraint.Valid N ↔ d.toConstraint.Valid (N.comap p.2))) ∧
      ((∀ env, ¬ (Expr.const v).Holds N env) →
        (m.toConstraint.Valid N ↔ f.toConstraint.Valid (N.comap q.2))) := by
  have memP : p ∈ renamed rn [t, e] := by simp [branches]
  have memQ : q ∈ renamed rn [t, e] := by simp [branches]
  subst hp hq
  have free : f.defines ∉ captured [p.1, q.1] := by
    rw [mem_captured]
    rintro ⟨-, a, ha, none⟩
    simp only [List.mem_cons, List.not_mem_nil, or_false] at ha
    obtain rfl | rfl := ha
    · exact none d hd same
    · exact none f hf rfl
  have alive : f.defines ∉ dead [p.1, q.1] := fun h => free (List.mem_of_mem_filter h)
  have unrenamed : ∀ r ∈ renamed rn [p.1, q.1], ∀ g ∈ r.1.defs, g.defines = f.defines →
      (g.rename r.2).defines = f.defines := by
    intro r hr g hg key
    obtain ⟨h, -⟩ | ⟨-, h⟩ | ⟨c, hs, hc, -, -⟩ := defines_cases merge.defines hr hg
    · exact absurd (key ▸ h) alive
    · exact h.trans key
    · exact absurd (key ▸ hc ▸ (mem_toRename.mp hs).1) free
  have hd' : d.rename p.2 ∈ (eliminated [p.1, q.1] p).defs :=
    (mem_defs_eliminated used merge.defines memP).mpr ⟨d, hd, same ▸ alive, rfl⟩
  have hf' : f.rename q.2 ∈ (eliminated [p.1, q.1] q).defs :=
    (mem_defs_eliminated used merge.defines memQ).mpr ⟨f, hf, alive, rfl⟩
  have keyP := unrenamed p memP d hd same
  have keyQ := unrenamed q memQ f hf rfl
  have hget := get_iteDefinitions_both (v := v)
    (eliminated_once used merge.defines memP (merge.once _ (by simp)))
    (eliminated_once used merge.defines memQ (merge.once _ (by simp))) hd' hf'
    (keyP.trans keyQ.symm)
  rw [keyQ] at hget
  refine ⟨_, hget, ?_⟩
  have lhs : ∀ r ∈ renamed rn [p.1, q.1], f.lhs.rename r.2 = f.lhs := fun r hr =>
    Expr.rename_eq_self fun c hc =>
      (renamed_fresh hr).off c (merge.apart q.1 rfl f hf free c hc)
  obtain ⟨rfl, plain⟩ | ⟨sorted, meaning⟩ := merge.shared d hd f hf same
  · -- the same definition in both branches
    have kept : ∀ r ∈ renamed rn [p.1, q.1], d.rename r.2 = d := fun r hr =>
      congrArg₂ Definition.mk
        (Expr.rename_eq_self fun c hc => (renamed_fresh hr).off c
          (plain c (List.mem_append_left _ hc)))
        (Expr.rename_eq_self fun c hc => (renamed_fresh hr).off c
          (plain c (List.mem_append_right _ hc)))
    have merged : (⟨(d.rename q.2).lhs, .simpIte (.const v) (d.rename p.2).rhs
        (d.rename q.2).rhs⟩ : Definition) = d := by
      rw [kept p memP, kept q memQ, Expr.simpIte, if_pos rfl]
    have valid : ∀ r ∈ renamed rn [p.1, q.1],
        (d.toConstraint.Valid N ↔ d.toConstraint.Valid (N.comap r.2)) := by
      intro r hr
      rw [← valid_rename, ← Definition.toConstraint_rename, kept r hr]
    rw [merged]
    exact ⟨fun _ => valid p memP, fun _ => valid q memQ⟩
  · have first : (constraintOf f.lhs (d.rename p.2).rhs).Valid N ↔
        d.toConstraint.Valid (N.comap p.2) := by
      rw [← (meaning D (N.comap p.2)).1, ← valid_rename, ← constraintOf_rename, lhs p memP]
      rfl
    have second : (constraintOf f.lhs (f.rename q.2).rhs).Valid N ↔
        f.toConstraint.Valid (N.comap q.2) := by
      rw [← (meaning D (N.comap q.2)).2, ← valid_rename, ← constraintOf_rename, lhs q memQ]
      rfl
    have hlhs : (f.rename q.2).lhs = f.lhs := lhs q memQ
    by_cases eq : (d.rename p.2).rhs = (f.rename q.2).rhs
    · have merged : (⟨(f.rename q.2).lhs, .simpIte (.const v) (d.rename p.2).rhs
          (f.rename q.2).rhs⟩ : Definition) = f.rename q.2 := by
        rw [eq, Expr.simpIte, if_pos rfl]
      rw [merged, Definition.toConstraint_rename, valid_rename, ← second]
      exact ⟨fun _ => by rw [← first, eq], fun _ => Iff.rfl⟩
    · rw [toConstraint_of_not_description (Expr.isDescription_simpIte eq), hlhs, ← first, ← second]
      refine constraintOf_simpIte fun individual => ?_
      have constant : ∀ (ρ : Renaming) (x : Expr), (x.rename ρ).isConstant = x.isConstant := by
        intro ρ x
        cases x with
        | and ts | or ts => cases ts <;> rfl
        | _ => rfl
      have := sorted individual
      exact ⟨(constant _ _).trans this.1, (constant _ _).trans this.2⟩

include merge branches hp hq used in
/-- All merged definitions hold when the shared ones hold in the branch that the selector
picks, and the ones of captured skolems in both. -/
theorem iteDefinitions_valid :
    (∀ m ∈ (iteDefinitions v (eliminated [t, e] p) (eliminated [t, e] q)).values,
        m.toConstraint.Valid N) ↔
      (∀ d ∈ t.defs, ∀ f ∈ e.defs, d.defines = f.defines →
        ((∀ env, (Expr.const v).Holds N env) → d.toConstraint.Valid (N.comap p.2)) ∧
          ((∀ env, ¬ (Expr.const v).Holds N env) → f.toConstraint.Valid (N.comap q.2))) ∧
        (∀ d ∈ t.defs, (∃ c ∈ toRename [t, e], d.defines = .const c) →
          d.toConstraint.Valid (N.comap p.2)) ∧
        ∀ f ∈ e.defs, (∃ c ∈ toRename [t, e], f.defines = .const c) →
          f.toConstraint.Valid (N.comap q.2) := by
  have memP : p ∈ renamed rn [t, e] := by simp [branches]
  have memQ : q ∈ renamed rn [t, e] := by simp [branches]
  have apart : ∀ c ∈ toRename [t, e], ∀ c' ∈ toRename [t, e], p.2.name c ≠ q.2.name c' := by
    have : (renamed rn [t, e]).Pairwise _ := renamed_apart
    rw [branches, List.pairwise_cons] at this
    exact this.1 q List.mem_cons_self
  have onceP := eliminated_once used merge.defines memP (merge.once _ (by simp [hp]))
  have onceQ := eliminated_once used merge.defines memQ (merge.once _ (by simp [hq]))
  have alive : ∀ c ∈ toRename [t, e], .const c ∉ dead [t, e] := by
    intro c hc
    rw [mem_dead]
    simp [(mem_toRename.mp hc).2]
  have first : ∀ d ∈ t.defs, ∀ c ∈ toRename [t, e], d.defines = .const c →
      (iteDefinitions v (eliminated [t, e] p) (eliminated [t, e] q)).get
        (.const (p.2.const c)) = some (d.rename p.2) := by
    intro d hd c hc key
    have hd' : d.rename p.2 ∈ (eliminated [t, e] p).defs :=
      (mem_defs_eliminated used merge.defines memP).mpr ⟨d, hp ▸ hd, key ▸ alive c hc, rfl⟩
    rw [← Definition.defines_rename p.2 key]
    refine get_iteDefinitions_first onceP hd' fun f hf => ?_
    rw [Definition.defines_rename p.2 key]
    exact defines_ne_fresh used merge.defines memQ ((renamed_fresh memP).fresh c hc)
      (fun c' hc' same => apart c hc c' hc' same.symm) hf rfl
  have second : ∀ f ∈ e.defs, ∀ c ∈ toRename [t, e], f.defines = .const c →
      (iteDefinitions v (eliminated [t, e] p) (eliminated [t, e] q)).get
        (.const (q.2.const c)) = some (f.rename q.2) := by
    intro f hf c hc key
    have hf' : f.rename q.2 ∈ (eliminated [t, e] q).defs :=
      (mem_defs_eliminated used merge.defines memQ).mpr ⟨f, hq ▸ hf, key ▸ alive c hc, rfl⟩
    rw [← Definition.defines_rename q.2 key]
    refine get_iteDefinitions_second onceQ hf' fun d hd => ?_
    rw [Definition.defines_rename q.2 key]
    exact defines_ne_fresh used merge.defines memP ((renamed_fresh memQ).fresh c hc)
      (fun c' hc' => apart c' hc' c hc) hd rfl
  constructor
  · intro valid
    have ofGet : ∀ {k m}, (iteDefinitions v (eliminated [t, e] p) (eliminated [t, e] q)).get k =
        some m → m.toConstraint.Valid N := fun h => valid _ (InsMap.mem_values.mpr ⟨_, h⟩)
    refine ⟨fun d hd f hf same => ?_, ?_, ?_⟩
    · obtain ⟨m, hget, on, off⟩ :=
        iteDefinitions_shared (v := v) (N := N) merge used branches hp hq hd hf same
      exact ⟨fun h => (on h).mp (ofGet hget), fun h => (off h).mp (ofGet hget)⟩
    · rintro d hd ⟨c, hc, key⟩
      rw [← valid_rename, ← Definition.toConstraint_rename]
      exact ofGet (first d hd c hc key)
    · rintro f hf ⟨c, hc, key⟩
      rw [← valid_rename, ← Definition.toConstraint_rename]
      exact ofGet (second f hf c hc key)
  · rintro ⟨shared, firsts, seconds⟩ m hm
    obtain ⟨k, hk⟩ := InsMap.mem_values.mp hm
    have ofShared : ∀ d ∈ t.defs, ∀ f ∈ e.defs, d.defines = f.defines → f.defines = k →
        m.toConstraint.Valid N := by
      intro d hd f hf same key
      obtain ⟨m', hget, on, off⟩ :=
        iteDefinitions_shared (v := v) (N := N) merge used branches hp hq hd hf same
      rw [key, hk, Option.some.injEq] at hget
      subst hget
      by_cases hv : (Expr.const v).Holds N (Classical.arbitrary _)
      · exact (on fun _ => hv).mpr ((shared d hd f hf same).1 fun _ => hv)
      · exact (off fun _ => hv).mpr ((shared d hd f hf same).2 fun _ => hv)
    have both : k ∉ captured [t, e] → (∃ a ∈ [t, e], ∃ d ∈ a.defs, d.defines = k) →
        m.toConstraint.Valid N := by
      intro free some
      have all : ∀ a ∈ [t, e], ∃ d ∈ a.defs, d.defines = k := fun a ha => by
        by_contra none
        exact free (mem_captured.mpr ⟨some, a, ha, fun d hd key => none ⟨d, hd, key⟩⟩)
      obtain ⟨d, hd, hdk⟩ := all t (by simp)
      obtain ⟨f, hf, hfk⟩ := all e (by simp)
      exact ofShared d hd f hf (hdk.trans hfk.symm) hfk
    obtain ⟨d', hd', key⟩ | ⟨f', hf', key⟩ := defines_of_get_iteDefinitions hk
    · obtain ⟨d, hd, hdead, rfl⟩ := (mem_defs_eliminated used merge.defines memP).mp hd'
      obtain ⟨h, -⟩ | ⟨free, h⟩ | ⟨c, hc, hdc, h, -⟩ := defines_cases merge.defines memP hd
      · exact absurd h hdead
      · rw [h] at key
        exact both (key ▸ free) ⟨p.1, by simp [hp], d, hd, key⟩
      · have := first d (hp ▸ hd) c hc hdc
        rw [← h, key, hk, Option.some.injEq] at this
        rw [this, Definition.toConstraint_rename, valid_rename]
        exact firsts d (hp ▸ hd) ⟨c, hc, hdc⟩
    · obtain ⟨f, hf, hdead, rfl⟩ := (mem_defs_eliminated used merge.defines memQ).mp hf'
      obtain ⟨h, -⟩ | ⟨free, h⟩ | ⟨c, hc, hfc, h, -⟩ := defines_cases merge.defines memQ hf
      · exact absurd h hdead
      · rw [h] at key
        exact both (key ▸ free) ⟨q.1, by simp [hq], f, hf, key⟩
      · have := second f (hq ▸ hf) c hc hfc
        rw [← h, key, hk, Option.some.injEq] at this
        rw [this, Definition.toConstraint_rename, valid_rename]
        exact seconds f (hq ▸ hf) ⟨c, hc, hfc⟩

end Branches

/-- The encoding: the selector is the condition, guards the formulas of the branches and
picks between their definitions. -/
theorem sat_iteEncoding {v : Const} {cond : Expr} {T E : Clauses}
    (sort : v.sort = .first .boolean) (formula : cond.isDescription = false) :
    (iteEncoding v cond T E).Sat N ↔
      (∀ env, (Expr.const v).Holds N env ↔ cond.Holds N env) ∧
        ((∀ env, (Expr.const v).Holds N env) → ∀ f ∈ T.fmlas, f.Valid N) ∧
        ((∀ env, ¬ (Expr.const v).Holds N env) → ∀ f ∈ E.fmlas, f.Valid N) ∧
        ∀ m ∈ (iteDefinitions v T E).values, m.toConstraint.Valid N := by
  have selector : (⟨.const v, cond⟩ : Definition).toConstraint.Valid N ↔
      ∀ env, (Expr.const v).Holds N env ↔ cond.Holds N env := by
    rw [toConstraint_of_not_description formula, constraintOf,
      if_neg (by simp [Expr.isIndividual, Expr.nodeSort, sort])]
    simp only [Expr.Valid, Expr.holds_iff]
  have guards : (∀ f ∈ T.fmlas.map (fun f => Expr.or [.not (.const v), f]) ++
      E.fmlas.map (fun f => Expr.or [.const v, f]), f.Valid N) ↔
      ((∀ env, (Expr.const v).Holds N env) → ∀ f ∈ T.fmlas, f.Valid N) ∧
        ((∀ env, ¬ (Expr.const v).Holds N env) → ∀ f ∈ E.fmlas, f.Valid N) := by
    simp only [List.forall_mem_append, List.forall_mem_map, Expr.Valid, Expr.holds_or,
      List.mem_cons, List.not_mem_nil, or_false, exists_eq_or_imp, exists_eq_left, Expr.holds_not]
    by_cases hv : (Expr.const v).Holds N (Classical.arbitrary _)
    · have on : ∀ env, (Expr.const v).Holds N env := fun _ => hv
      simp [on]
    · have off : ∀ env, ¬ (Expr.const v).Holds N env := fun _ => hv
      simp [off]
  rw [iteEncoding, sat_new, guards, List.forall_mem_append, List.forall_mem_singleton, selector]
  tauto

theorem iteClausesInt_eq {t e : Clauses} {rn : UniqueRenamer} {cond : Expr}
    {p q : Clauses × Renaming} (branches : renamed rn [t, e] = [p, q]) :
    iteClausesInt rn cond t e =
      iteEncoding ⟨((elimDeadDefinitions rn [t, e]).2.rename "").1, .first .boolean⟩ cond
        (eliminated [t, e] p) (eliminated [t, e] q) := by
  simp only [iteClausesInt, elimDeadDefinitions_fst, branches]
  rfl

theorem satSkolem_iteClausesInt {t e : Clauses} (rn : UniqueRenamer) {cond : Expr}
    (merge : IteMergeable t e) (used : ∀ a ∈ [t, e], ∀ c ∈ a.symbols, c.name ∈ rn.used)
    (pre : isSkolem rn.namePrefix = true)
    (formula : cond.isDescription = false) (closed : cond.freeVariables = [])
    (plain : ∀ c ∈ cond.symbols, isSkolem c.name = false) (M : Structure D) :
    (iteClausesInt rn cond t e).SatSkolem M ↔
      (cond.Valid M ∧ t.SatSkolem M) ∨ (¬ cond.Valid M ∧ e.SatSkolem M) := by
  classical
  obtain ⟨p, q, branches, hp, hq⟩ := exists_renamed rn t e
  have memP : p ∈ renamed rn [t, e] := by simp [branches]
  have memQ : q ∈ renamed rn [t, e] := by simp [branches]
  have onceT := merge.once t (by simp)
  have onceE := merge.once e (by simp)
  rw [iteClausesInt_eq branches]
  generalize hv : (⟨((elimDeadDefinitions rn [t, e]).2.rename "").1, .first .boolean⟩ : Const) = v
  have sort : v.sort = .first .boolean := hv ▸ rfl
  have condSame : ∀ N : Structure D, AgreeOff Const.Skolem M N → (cond.Valid M ↔ cond.Valid N) :=
    fun N agree => valid_congr fun c hc => agree c (by simp [Const.Skolem, plain c hc])
  constructor
  · rintro ⟨N, agree, sat⟩
    obtain ⟨selector, onT, onE, defs⟩ := (sat_iteEncoding sort formula).mp sat
    obtain ⟨shared, firsts, seconds⟩ := (iteDefinitions_valid merge used branches hp hq).mp defs
    have cases : ∀ r ∈ renamed rn [t, e], ∀ d ∈ r.1.defs, d.defines ∉ dead [t, e] →
        (∃ f ∈ t.defs, f.defines = d.defines) ∧ (∃ f ∈ e.defs, f.defines = d.defines) ∨
          ∃ c ∈ toRename [t, e], d.defines = .const c := by
      intro r hr d hd alive
      obtain ⟨h, -⟩ | ⟨free, -⟩ | ⟨c, hc, hdc, -, -⟩ := defines_cases merge.defines hr hd
      · exact absurd h alive
      · have all : ∀ a ∈ [t, e], ∃ f ∈ a.defs, f.defines = d.defines := by
          intro a ha
          by_contra none
          exact free (mem_captured.mpr ⟨⟨r.1, (List.of_mem_zip hr).1, d, hd, rfl⟩, a, ha,
            fun f hf same => none ⟨f, hf, same⟩⟩)
        exact .inl ⟨all t (by simp), all e (by simp)⟩
      · exact .inr ⟨c, hc, hdc⟩
    by_cases on : (Expr.const v).Holds N (Classical.arbitrary _)
    · have on : ∀ env, (Expr.const v).Holds N env := fun _ => on
      refine .inl ⟨(condSame N agree).mpr fun env => (selector env).mp (on env),
        N.comap p.2, agree.trans (agreeOff_comap memP N), ?_⟩
      rw [← hp, ← sat_eliminated used merge.defines memP (hp ▸ onceT)]
      refine ⟨onT on, fun d' hd' => ?_⟩
      obtain ⟨d, hd, alive, rfl⟩ := (mem_defs_eliminated used merge.defines memP).mp hd'
      rw [Definition.toConstraint_rename, valid_rename]
      obtain ⟨-, f, hf, same⟩ | captured := cases p memP d hd alive
      · exact (shared d (hp ▸ hd) f hf same.symm).1 on
      · exact firsts d (hp ▸ hd) captured
    · have off : ∀ env, ¬ (Expr.const v).Holds N env := fun _ => on
      refine .inr ⟨fun h => on ((selector _).mpr ((condSame N agree).mp h _)),
        N.comap q.2, agree.trans (agreeOff_comap memQ N), ?_⟩
      rw [← hq, ← sat_eliminated used merge.defines memQ (hq ▸ onceE)]
      refine ⟨onE off, fun d' hd' => ?_⟩
      obtain ⟨f, hf, alive, rfl⟩ := (mem_defs_eliminated used merge.defines memQ).mp hd'
      rw [Definition.toConstraint_rename, valid_rename]
      obtain ⟨⟨d, hd, same⟩, -⟩ | captured := cases q memQ f hf alive
      · exact (shared d hd f (hq ▸ hf) same).2 off
      · exact seconds f (hq ▸ hf) captured
  · intro h
    -- the branch that is taken keeps its skolems, in the other one they are chosen as defined
    obtain ⟨M', agree, active⟩ : ∃ M', AgreeOff Const.Skolem M M' ∧
        ((cond.Valid M ∧ t.Sat M') ∨ (¬ cond.Valid M ∧ e.Sat M')) := by
      obtain ⟨hc, M', agree, sat⟩ | ⟨hc, M', agree, sat⟩ := h
      · exact ⟨M', agree, .inl ⟨hc, sat⟩⟩
      · exact ⟨M', agree, .inr ⟨hc, sat⟩⟩
    have choice : ∀ r : Clauses × Renaming, ∃ X : Structure D, r ∈ renamed rn [t, e] →
        (∀ c, c ∉ toRename [t, e] → SameAt M' X c) ∧
          (∀ d ∈ r.1.defs, (∃ c ∈ toRename [t, e], d.defines = .const c) →
            d.toConstraint.Valid X) ∧ (r.1.Sat M' → r.1.Sat X) := by
      intro r
      by_cases sat : r.1.Sat M'
      · exact ⟨M', fun _ => ⟨fun _ _ => rfl, fun d hd _ => sat.2 d hd, fun h => h⟩⟩
      · by_cases hr : r ∈ renamed rn [t, e]
        · obtain ⟨X, same, valid⟩ := merge.solvable _ (List.of_mem_zip hr).1 D M'
          exact ⟨X, fun _ => ⟨same, valid, fun h => absurd h sat⟩⟩
        · exact ⟨M', fun h => absurd h hr⟩
    choose X hX using choice
    obtain ⟨N₁, off₁, ext⟩ := exists_extension pre used M' X
      fun r hr c _ (hc : c ∉ toRename [t, e]) => (hX r hr).1 c hc
    obtain ⟨sub, pre', imageUsed⟩ := renamings_used (toRename [t, e]) 2 rn
    have unused : v.name ∉ (elimDeadDefinitions rn [t, e]).2.used := by
      rw [← hv]
      exact UniqueRenamer.rename_not_mem _ ""
    have vSkolem : isSkolem v.name = true := by
      have based := (elimDeadDefinitions rn [t, e]).2.rename_basedOn ""
      rw [String.append_empty, show (elimDeadDefinitions rn [t, e]).2.namePrefix = rn.namePrefix
        from pre'] at based
      exact hv ▸ based.isSkolem pre
    let N := select [v] (fun _ => cond.Valid M) N₁
    have offSelector : ∀ c : Const, c.name ∈ (elimDeadDefinitions rn [t, e]).2.used →
        SameAt N N₁ c := fun c hc => select_off (by
      rw [List.mem_singleton]
      rintro rfl
      exact unused hc)
    have inBranch : ∀ r ∈ renamed rn [t, e], ∀ c ∈ r.1.symbols,
        SameAt (N.comap r.2) (X r) c := by
      intro r hr c hc
      refine SameAt.trans ?_ (ext r hr c hc)
      refine offSelector ⟨r.2.name c, c.sort⟩ ?_
      by_cases hs : c ∈ toRename [t, e]
      · exact imageUsed _ (List.of_mem_zip hr).2 c hs
      · show r.2.name c ∈ _
        rw [(renamed_fresh hr).off c hs]
        exact sub (used _ (List.of_mem_zip hr).1 c hc)
    have agreeN : AgreeOff Const.Skolem M N := by
      intro c hc
      have notV : c ∉ [v] := by
        rw [List.mem_singleton]
        rintro rfl
        exact hc vSkolem
      refine (agree c hc).trans ((select_off notV).trans (off₁ c (.inr ?_))).symm
      simpa [Const.Skolem] using hc
    have selected : ∀ env, (Expr.const v).Holds N env ↔ cond.Valid M := fun env =>
      (holds_select (List.mem_singleton_self v) sort).trans decide_eq_true_iff
    have branchSat : ∀ r ∈ renamed rn [t, e], r.1.Sat M' → r.1.Sat (N.comap r.2) :=
      fun r hr sat => (sat_congr (inBranch r hr)).mpr ((hX r hr).2.2 sat)
    have capturedValid : ∀ r ∈ renamed rn [t, e], ∀ d ∈ r.1.defs,
        (∃ c ∈ toRename [t, e], d.defines = .const c) → d.toConstraint.Valid (N.comap r.2) := by
      intro r hr d hd hc
      refine (valid_congr fun c hcs => inBranch r hr c ?_).mpr ((hX r hr).2.1 d hd hc)
      exact List.mem_append_right _ (List.mem_flatMap.mpr ⟨d, hd, d.symbols_toConstraint c hcs⟩)
    have satT : cond.Valid M → t.Sat (N.comap p.2) := by
      intro hc
      obtain ⟨-, sat⟩ | ⟨hc', -⟩ := active
      · exact hp ▸ branchSat p memP (hp ▸ sat)
      · exact absurd hc hc'
    have satE : ¬ cond.Valid M → e.Sat (N.comap q.2) := by
      intro hc
      obtain ⟨hc', -⟩ | ⟨-, sat⟩ := active
      · exact absurd hc' hc
      · exact hq ▸ branchSat q memQ (hq ▸ sat)
    refine ⟨N, agreeN, (sat_iteEncoding sort formula).mpr ⟨fun env => ?_, fun on => ?_,
      fun off => ?_, (iteDefinitions_valid merge used branches hp hq).mpr
        ⟨fun d hd f hf _ => ⟨fun on => ?_, fun off => ?_⟩, ?_, ?_⟩⟩⟩
    · rw [selected, condSame N agreeN]
      exact ⟨fun h => h env, Expr.valid_of_holds closed⟩
    · have sat := hp ▸ satT ((selected (Classical.arbitrary _)).mp (on _))
      exact ((sat_eliminated used merge.defines memP (hp ▸ onceT)).mpr sat).1
    · have sat := hq ▸ satE fun h => off (Classical.arbitrary _) ((selected _).mpr h)
      exact ((sat_eliminated used merge.defines memQ (hq ▸ onceE)).mpr sat).1
    · exact (satT ((selected (Classical.arbitrary _)).mp (on _))).2 d hd
    · exact (satE fun h => off (Classical.arbitrary _) ((selected _).mpr h)).2 f hf
    · exact hp ▸ capturedValid p memP
    · exact hq ▸ capturedValid q memQ

/-- The branches that `IteClauses` merges: a false one has the definitions of the other. -/
def iteBranches (t e : Clauses) : Clauses × Clauses :=
  (if t.isFalse then new t.fmlas e.defs else t,
    if !t.isFalse && e.isFalse then new e.fmlas t.defs else e)

theorem isFalse_new {fmlas : List Expr} (defs : List Definition)
    (h : fmlas.any Expr.isFalse = true) : (new fmlas defs).isFalse = true := by
  obtain ⟨f, hf, hfalse⟩ := List.any_eq_true.mp h
  refine List.any_eq_true.mpr ⟨.fls, ?_, rfl⟩
  rw [Expr.isFalse_eq hfalse] at hf
  simp only [new, Expr.collectAndList_eq_flatMap, List.mem_flatMap, List.mem_map]
  exact ⟨.fls, ⟨.fls, hf, rfl⟩, by simp [Expr.fls, Expr.conjuncts]⟩

/-- The conditional is true for some skolem values exactly when the branch is that the
condition picks, where the definitions of the two branches can be merged. -/
theorem satSkolem_ite {cond : Expr} {t e : Clauses}
    (merge : t.isFalse = false ∨ e.isFalse = false →
      IteMergeable (iteBranches t e).1 (iteBranches t e).2)
    (formula : cond.isDescription = false) (closed : cond.freeVariables = [])
    (plain : ∀ c ∈ cond.symbols, isSkolem c.name = false) (M : Structure D) :
    (ite cond t e).SatSkolem M ↔
      (cond.Valid M ∧ t.SatSkolem M) ∨ (¬ cond.Valid M ∧ e.SatSkolem M) := by
  have never : ∀ a : Clauses, a.isFalse = true → ¬ a.SatSkolem M := fun a h ⟨_, _, sat⟩ =>
    not_sat_of_isFalse h sat
  unfold ite
  split
  · rename_i h
    rw [Bool.and_eq_true] at h
    simp [never t h.1, never e h.2]
  · rename_i h
    have some : t.isFalse = false ∨ e.isFalse = false := by simpa [Decidable.or_iff_not_imp_left] using h
    have encoding := satSkolem_iteClausesInt ⟨"__ts0", (iteBranches t e).1.usedSymbolNames ++
        (iteBranches t e).2.usedSymbolNames ++ cond.symbols.map Const.name⟩ (merge some)
      (by
        simp only [List.forall_mem_cons, List.not_mem_nil, false_imp_iff, implies_true, and_true]
        exact ⟨fun c hc => List.mem_append_left _ (List.mem_append_left _ (List.mem_map_of_mem hc)),
          fun c hc => List.mem_append_left _ (List.mem_append_right _ (List.mem_map_of_mem hc))⟩)
      (show isSkolem "__ts0" = true by decide) formula closed plain M
    have first : (iteBranches t e).1.SatSkolem M ↔ t.SatSkolem M := by
      simp only [iteBranches]
      split
      · rename_i ht
        exact iff_of_false (never _ (isFalse_new _ ht)) (never t ht)
      · exact Iff.rfl
    have second : (iteBranches t e).2.SatSkolem M ↔ e.SatSkolem M := by
      simp only [iteBranches]
      split
      · rename_i he
        rw [Bool.and_eq_true] at he
        exact iff_of_false (never _ (isFalse_new _ he.2)) (never e he.2)
      · exact Iff.rfl
    rw [first, second] at encoding
    exact encoding

end Clauses

end Goivy
