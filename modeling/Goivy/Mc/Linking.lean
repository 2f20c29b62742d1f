import Goivy.Logic.Closed
import Goivy.Mc.PropAbs

/-! What propositional abstraction keeps: every abstract constant stands for closed nodes,
and a linked constant for the next-state version of the node it is linked to. -/
namespace Goivy

/-- The names of abstract constants and of their new versions. -/
def IsAbs (name : String) : Prop := ∃ i, name = absName i ∨ name = actionNewName (absName i)

theorem isSkolem_absName (i : Nat) : isSkolem (absName i) = true :=
  isSkolem_append_right (isSkolem_append_right (by decide) _) _

theorem isNew_absName (i : Nat) : isNew (absName i) = false := by
  simp [isNew, absName, String.toList_append]

theorem absName_injective : Function.Injective absName := by
  intro i j same
  have same := (String.append_right_inj _).mp ((String.append_left_inj _).mp same)
  exact Nat.repr_injective same

theorem absName_ne_new (i j : Nat) : absName i ≠ actionNewName (absName j) := by
  intro same
  have := congrArg isNew same
  rw [isNew_absName, isNew_actionNewName] at this
  contradiction

theorem not_isAbs {name : String} (h : isSkolem name = false) :
    ¬ IsAbs name ∧ ¬ IsAbs (actionNewName name) := by
  constructor
  · rintro ⟨i, rfl | rfl⟩
    · simp [isSkolem_absName] at h
    · simp [actionNewName, isSkolem_append_left (isSkolem_absName i)] at h
  · rintro ⟨i, eq | eq⟩
    · have := congrArg isNew eq
      rw [isNew_absName, isNew_actionNewName] at this
      contradiction
    · simp [actionNewName_injective eq, isSkolem_absName] at h

mutual
/-- A symbol that stands alone is no function, the two branches of a conditional have one sort,
and no description has an `else`. A quantified formula is Boolean whatever is in it. -/
@[grind =] def Expr.wellSorted : Expr → Bool
  | .var _ | .forAll _ _ | .exists _ _ => true
  | .const c => c.sort.domain = []
  | .apply _ ts | .and ts | .or ts => wellSortedList ts
  | .eq a b | .implies a b | .iff a b => a.wellSorted && b.wellSorted
  | .not a | .some _ a => a.wellSorted
  | .ite c a b => c.wellSorted && a.wellSorted && b.wellSorted &&
    a.nodeSort = b.nodeSort
  | .someElse _ _ _ _ => false
@[grind =] def wellSortedList : List Expr → Bool
  | [] => true
  | t :: ts => t.wellSorted && wellSortedList ts
end

theorem wellSortedList_iff {ts : List Expr} :
    wellSortedList ts = true ↔ ∀ t ∈ ts, t.wellSorted = true := by
  induction ts with
  | nil => simp [wellSortedList]
  | cons t ts ih => simp [wellSortedList, ih]

theorem Expr.sort_eval_of_wellSorted {e : Expr} (sorted : e.wellSorted = true) {D : Domain}
    (M : Structure D) (env : Env D) : (e.eval M env).1 = e.nodeSort.range := by
  induction e with
  | ite c a b hc ha hb =>
    simp only [wellSorted, Bool.and_eq_true, decide_eq_true_eq] at sorted
    simp only [eval, Val.ite, nodeSort]
    split
    · exact ha sorted.1.1.2
    · exact (hb sorted.1.2).trans (congrArg LSort.range sorted.2.symm)
  | some vs a ha =>
    cases vs with
    | nil => rfl
    | cons x vs =>
      simp only [eval, Val.pick]
      split <;> rfl
  | someElse => simp [wellSorted] at sorted
  | _ => rfl

theorem Expr.domain_of_wellSorted {e : Expr} (sorted : e.wellSorted = true) : e.nodeSort.domain = [] := by
  induction e with
  | const c => simpa [wellSorted, nodeSort] using sorted
  | ite c a b hc ha hb =>
    simp only [wellSorted, Bool.and_eq_true] at sorted
    exact ha sorted.1.1.2
  | some vs a => cases vs <;> rfl
  | someElse => simp [wellSorted] at sorted
  | _ => rfl

theorem Expr.wellSorted_rename (ρ : Renaming) (e : Expr) :
    (e.rename ρ).wellSorted = e.wellSorted := by
  have list : ∀ ts : List Expr, (∀ t ∈ ts, (t.rename ρ).wellSorted = t.wellSorted) →
      wellSortedList (renameList ρ ts) = wellSortedList ts := by
    intro ts h
    induction ts with
    | nil => rfl
    | cons t ts ih =>
      rw [renameList, wellSortedList, wellSortedList, h t List.mem_cons_self,
        ih fun u hu => h u (List.mem_cons_of_mem _ hu)]
  induction e with
  | apply f ts ih | and ts ih | or ts ih => exact list ts ih
  | const c => rfl
  | _ => simp_all [rename, wellSorted]

namespace Node

@[grind =] def wellSorted : Node → Bool
  | .expr e => e.wellSorted
  | .definition d => d.lhs.wellSorted && d.rhs.wellSorted

/-- The value of a node. A definition has the truth value of its equation. -/
@[grind =] noncomputable def eval {D : Domain} (M : Structure D) : Node → Env D → Val D
  | .expr e, env => e.eval M env
  | .definition d, env => .ofProp (d.lhs.eval M env = d.rhs.eval M env)

/-- What is abstracted: closed nodes without abstract constants, one step ahead at most. -/
structure Input (n : Node) : Prop where
  closed : n.freeVariables = []
  sorted : n.wellSorted = true
  concrete : ∀ c ∈ n.symbols, ¬ IsAbs c.name
  once : ∀ c ∈ n.symbols, isNew c.name = true → isNew (newOf c.name) = false

variable {n : Node} {D : Domain}

theorem eval_rename (M : Structure D) (ρ : Renaming) (n : Node) :
    (n.rename ρ).eval M = n.eval (M.comap ρ) := by
  cases n with
  | expr e => exact Expr.eval_rename M ρ e
  | definition d =>
    funext env
    simp only [rename, Definition.rename, eval, Expr.eval_rename]

theorem eval_congr {M N : Structure D} (same : ∀ c ∈ n.symbols, SameAt M N c) :
    n.eval M = n.eval N := by
  cases n with
  | expr e => exact Expr.eval_congr same
  | definition d =>
    simp only [symbols, Definition.symbols, List.mem_append] at same
    have left : d.lhs.eval M = d.lhs.eval N := Expr.eval_congr fun c h => same c (.inl h)
    have right : d.rhs.eval M = d.rhs.eval N := Expr.eval_congr fun c h => same c (.inr h)
    funext env
    simp only [eval, left, right]

theorem nodeSort_rename (ρ : Renaming) (n : Node) : (n.rename ρ).nodeSort = n.nodeSort := by
  cases n with
  | expr e => exact Expr.nodeSort_rename ρ e
  | definition d => rfl

namespace Input

theorem sort_eval (h : n.Input) (M : Structure D) (env : Env D) :
    (n.eval M env).1 = n.nodeSort.range := by
  cases n with
  | expr e => exact Expr.sort_eval_of_wellSorted h.sorted M env
  | definition d => rfl

theorem domain (h : n.Input) : n.nodeSort.domain = [] := by
  cases n with
  | expr e => exact Expr.domain_of_wellSorted h.sorted
  | definition d => rfl

theorem eval_env (h : n.Input) (M : Structure D) (env env' : Env D) : n.eval M env = n.eval M env' := by
  have closed := h.closed
  cases n with
  | expr e => exact Expr.eval_freeVariables M fun v hv => by simp_all [freeVariables]
  | definition d =>
    rw [freeVariables, List.append_eq_nil_iff] at closed
    have left : d.lhs.eval M env = d.lhs.eval M env' :=
      Expr.eval_freeVariables M fun v hv => by simp_all
    have right : d.rhs.eval M env = d.rhs.eval M env' :=
      Expr.eval_freeVariables M fun v hv => by simp_all
    simp only [eval, left, right]

end Input

end Node

variable {cfg : PropAbsConfig} {n p : Node}

/-- The expression before the next-state version: it is again an input, and no next-state
version itself. -/
theorem Node.Input.prevExpr (h : n.Input) (hp : cfg.prevExpr n = some p) :
    p.Input ∧ cfg.prevExpr p = none ∧ p.nodeSort = n.nodeSort := by
  obtain ⟨current, ⟨c, hc, new⟩, rfl⟩ := PropAbsConfig.prevExpr_eq_some.mp hp
  have names : ∀ d ∈ (n.rename ((n.symbols.filter (isNew ·.name)).map
      fun c => (c, newOf c.name))).symbols, ∃ c ∈ n.symbols, d.name = newOf c.name := by
    intro d hd
    rw [Node.symbols_rename] at hd
    obtain ⟨c, hc, rfl⟩ := List.mem_map.mp hd
    exact ⟨c, hc, PropAbsConfig.name_of_prevExpr hc⟩
  have old : ∀ c ∈ n.symbols, isNew (newOf c.name) = false := by
    intro c hc
    cases new : isNew c.name with
    | true => exact h.once c hc new
    | false => simp [newOf, new]
  refine ⟨⟨?_, ?_, ?_, ?_⟩, ?_, Node.nodeSort_rename _ n⟩
  · have closed := h.closed
    cases n with
    | expr e => simpa [Node.rename, Node.freeVariables] using closed
    | definition d => simpa [Node.rename, Node.freeVariables, Definition.rename] using closed
  · have sorted := h.sorted
    cases n with
    | expr e => simpa [Node.rename, Node.wellSorted, Expr.wellSorted_rename] using sorted
    | definition d =>
      simpa [Node.rename, Node.wellSorted, Definition.rename, Expr.wellSorted_rename] using sorted
  · intro d hd abs
    obtain ⟨c, hc, name⟩ := names d hd
    obtain ⟨i, hi | hi⟩ := abs
    · refine h.concrete c hc ⟨i, ?_⟩
      cases new : isNew c.name with
      | true => exact .inr (by rw [← hi, name, actionNewName_newOf new])
      | false => exact .inl (by rw [← hi, name, newOf, if_neg (by simp [new])])
    · have new := old c hc
      rw [← name, hi, isNew_actionNewName] at new
      contradiction
  · intro d hd new
    obtain ⟨c, hc, name⟩ := names d hd
    rw [name, old c hc] at new
    contradiction
  · by_contra some
    obtain ⟨q, hq⟩ := Option.ne_none_iff_exists'.mp some
    obtain ⟨-, ⟨d, hd, new⟩, -⟩ := PropAbsConfig.prevExpr_eq_some.mp hq
    obtain ⟨c, hc, name⟩ := names d hd
    rw [name, old c hc] at new
    contradiction

/-- What the map of abstract constants is at any time: constants with an index stand for one
node each, the others are new versions of these. A recorded constant is linked or kept. -/
structure Linked (cfg : PropAbsConfig) (kept : List Const) (pa : PropAbs) : Prop where
  input : ∀ n v, pa.map.get n = some v → n.Input
  origin : ∀ n v, pa.map.get n = some v →
    (cfg.prevExpr n = none ∧ ∃ i < pa.ctr, v = ⟨absName i, n.nodeSort⟩) ∨
      ∃ p w, cfg.prevExpr n = some p ∧ pa.map.get p = some w ∧ v = newActionConst w
  distinct : ∀ n m v, pa.map.get n = some v → pa.map.get m = some v →
    cfg.prevExpr n = none → cfg.prevExpr m = none → n = m
  recorded : ∀ v ∈ pa.newStVars, v ∈ kept ∨
    ∃ n p, cfg.prevExpr n = some p ∧ pa.map.get p = some v ∧ pa.map.get n = some (newActionConst v)
  finite : ∀ c ∈ pa.finiteSyms, isSkolem c.name = false

def PropAbs.Extends (pa pa' : PropAbs) : Prop :=
  ∀ n v, pa.map.get n = some v → pa'.map.get n = some v

variable {kept : List Const} {pa : PropAbs} {v w : Const}

theorem linked_new (cfg : PropAbsConfig) (kept : List Const) : Linked cfg kept .new where
  input := by simp [PropAbs.new]
  origin := by simp [PropAbs.new]
  distinct := by simp [PropAbs.new]
  recorded := by simp [PropAbs.new]
  finite := by simp [PropAbs.new]

theorem Linked.base (h : Linked cfg kept pa) (hn : pa.map.get n = some v)
    (first : cfg.prevExpr n = none) : ∃ i < pa.ctr, v = ⟨absName i, n.nodeSort⟩ := by
  obtain ⟨-, known⟩ | ⟨p, w, hp, -⟩ := h.origin n v hn
  · exact known
  · simp [first] at hp

theorem Linked.next (h : Linked cfg kept pa) (hn : pa.map.get n = some v)
    (hp : cfg.prevExpr n = some p) : ∃ i < pa.ctr, pa.map.get p = some ⟨absName i, p.nodeSort⟩ ∧
      v = ⟨actionNewName (absName i), n.nodeSort⟩ := by
  obtain ⟨first, -⟩ | ⟨q, w, hq, hw, rfl⟩ := h.origin n v hn
  · simp [first] at hp
  · rw [hp, Option.some.injEq] at hq
    subst hq
    obtain ⟨-, last, sort⟩ := (h.input n _ hn).prevExpr hp
    obtain ⟨i, hi, rfl⟩ := h.base hw last
    exact ⟨i, hi, hw, by rw [newActionConst, sort]⟩

/-- A constant of a node that is no next-state version stands for this node only. -/
theorem Linked.unique (h : Linked cfg kept pa) {m : Node} (hn : pa.map.get n = some v)
    (first : cfg.prevExpr n = none) (hm : pa.map.get m = some v) : m = n := by
  cases hp : cfg.prevExpr m with
  | none => exact h.distinct m n v hm hn hp first
  | some p =>
    obtain ⟨i, -, rfl⟩ := h.base hn first
    obtain ⟨j, -, -, same⟩ := h.next hm hp
    exact absurd (Const.mk.inj same).1 (absName_ne_new i j)

/-- The nodes of a linked constant are next-state versions of one node. -/
theorem Linked.next_unique (h : Linked cfg kept pa) {m : Node} (hn : pa.map.get n = some v)
    (hp : cfg.prevExpr n = some p) (hm : pa.map.get m = some v) : cfg.prevExpr m = some p := by
  cases hq : cfg.prevExpr m with
  | none =>
    rw [h.unique hm hq hn, hq] at hp
    contradiction
  | some q =>
    obtain ⟨i, -, hi, rfl⟩ := h.next hn hp
    obtain ⟨j, -, hj, same⟩ := h.next hm hq
    obtain ⟨-, firstP, sortP⟩ := (h.input n _ hn).prevExpr hp
    obtain ⟨-, -, sortQ⟩ := (h.input m _ hm).prevExpr hq
    have index := absName_injective (actionNewName_injective (Const.mk.inj same).1)
    have sort := (Const.mk.inj same).2
    rw [← index, sortQ, ← sort, ← sortP] at hj
    rw [h.unique hi firstP hj]

theorem Linked.sort (h : Linked cfg kept pa) (hn : pa.map.get n = some v) : v.sort = n.nodeSort := by
  cases hp : cfg.prevExpr n with
  | none =>
    obtain ⟨i, -, rfl⟩ := h.base hn hp
    rfl
  | some p =>
    obtain ⟨i, -, -, rfl⟩ := h.next hn hp
    rfl

theorem Linked.isAbs (h : Linked cfg kept pa) (hn : pa.map.get n = some v) : IsAbs v.name := by
  cases hp : cfg.prevExpr n with
  | none =>
    obtain ⟨i, -, rfl⟩ := h.base hn hp
    exact ⟨i, .inl rfl⟩
  | some p =>
    obtain ⟨i, -, -, rfl⟩ := h.next hn hp
    exact ⟨i, .inr rfl⟩

/-- A node that is no next-state version gets a constant of its own. -/
theorem Linked.fresh (h : Linked cfg kept pa) (input : n.Input) (unknown : pa.map.get n = none)
    (first : cfg.prevExpr n = none) : Linked cfg kept
      { pa with ctr := pa.ctr + 1, map := pa.map.set n ⟨absName pa.ctr, n.nodeSort⟩ } where
  input := by
    intro m v hm
    rw [InsMap.get_set] at hm
    split at hm
    · rename_i same
      exact same ▸ input
    · exact h.input m v hm
  origin := by
    intro m v hm
    rw [InsMap.get_set] at hm
    split at hm
    · rename_i same
      subst same
      cases hm
      exact .inl ⟨first, pa.ctr, Nat.lt_succ_self _, rfl⟩
    · obtain ⟨last, i, hi, rfl⟩ | ⟨p, w, hp, hw, rfl⟩ := h.origin m v hm
      · exact .inl ⟨last, i, Nat.lt_succ_of_lt hi, rfl⟩
      · refine .inr ⟨p, w, hp, ?_, rfl⟩
        rw [InsMap.get_set, if_neg]
        · exact hw
        · rintro rfl
          simp [unknown] at hw
  distinct := by
    have new : ∀ m, pa.map.get m = some ⟨absName pa.ctr, n.nodeSort⟩ → cfg.prevExpr m = none → False := by
      intro m hm last
      obtain ⟨i, hi, same⟩ := h.base hm last
      have := absName_injective (Const.mk.inj same).1
      omega
    intro m k v hm hk firstM firstK
    rw [InsMap.get_set] at hm hk
    split at hm <;> split at hk
    · rename_i eqM eqK
      rw [eqM, eqK]
    · cases hm
      exact (new k hk firstK).elim
    · cases hk
      exact (new m hm firstM).elim
    · exact h.distinct m k v hm hk firstM firstK
  recorded := by
    intro v hv
    refine (h.recorded v hv).imp id fun ⟨m, p, hp, hv, hm⟩ => ⟨m, p, hp, ?_, ?_⟩
    all_goals
      rw [InsMap.get_set, if_neg]
      · assumption
      · rintro rfl
        simp_all
  finite := h.finite

/-- A next-state version gets the new version of a constant, which is recorded. -/
theorem Linked.link (h : Linked cfg kept pa) (input : n.Input) (unknown : pa.map.get n = none)
    (hp : cfg.prevExpr n = some p) (hw : pa.map.get p = some w) : Linked cfg kept
      { pa with newStVars := pa.newStVars ++ [w], map := pa.map.set n (newActionConst w) } := by
  have keep : ∀ m v, pa.map.get m = some v → (pa.map.set n (newActionConst w)).get m = some v := by
    intro m v hm
    rw [InsMap.get_set, if_neg]
    · exact hm
    · rintro rfl
      simp [unknown] at hm
  constructor
  · intro m v hm
    rw [InsMap.get_set] at hm
    split at hm
    · rename_i same
      exact same ▸ input
    · exact h.input m v hm
  · intro m v hm
    rw [InsMap.get_set] at hm
    split at hm
    · rename_i same
      subst same
      cases hm
      exact .inr ⟨p, w, hp, keep p w hw, rfl⟩
    · exact (h.origin m v hm).imp id fun ⟨q, u, hq, hu, eq⟩ => ⟨q, u, hq, keep q u hu, eq⟩
  · intro m k v hm hk firstM firstK
    rw [InsMap.get_set] at hm hk
    split at hm
    · rename_i same
      simp [same, hp] at firstM
    · split at hk
      · rename_i same
        simp [same, hp] at firstK
      · exact h.distinct m k v hm hk firstM firstK
  · intro v hv
    rw [List.mem_append, List.mem_singleton] at hv
    obtain hv | rfl := hv
    · exact (h.recorded v hv).imp id fun ⟨m, q, hq, hv, hm⟩ => ⟨m, q, hq, keep q v hv, keep m _ hm⟩
    · refine .inr ⟨n, p, hp, keep p v hw, ?_⟩
      rw [InsMap.get_set, if_pos rfl]
  · exact h.finite

namespace PropAbs

theorem Extends.refl (pa : PropAbs) : pa.Extends pa := fun _ _ h => h

theorem Extends.trans {pa pb pc : PropAbs} (h : pa.Extends pb) (h' : pb.Extends pc) : pa.Extends pc :=
  fun n v hn => h' n v (h n v hn)

theorem newProp_known (h : pa.map.get n = some v) : newProp cfg n pa = (v, pa) := by
  unfold newProp
  rw [h]

theorem newProp_fresh (unknown : pa.map.get n = none) (first : cfg.prevExpr n = none) :
    newProp cfg n pa = (⟨absName pa.ctr, n.nodeSort⟩,
      { pa with ctr := pa.ctr + 1, map := pa.map.set n ⟨absName pa.ctr, n.nodeSort⟩ }) := by
  unfold newProp
  rw [unknown]
  dsimp only
  split
  · rename_i some
    simp [first] at some
  · rfl

theorem newProp_link (unknown : pa.map.get n = none) (hp : cfg.prevExpr n = some p) :
    newProp cfg n pa = (newActionConst (newProp cfg p pa).1,
      { (newProp cfg p pa).2 with
          newStVars := (newProp cfg p pa).2.newStVars ++ [(newProp cfg p pa).1]
          map := (newProp cfg p pa).2.map.set n (newActionConst (newProp cfg p pa).1) }) := by
  rw [newProp, unknown]
  dsimp only
  split
  · rename_i q hq
    rw [hp, Option.some.injEq] at hq
    subst hq
    rfl
  · rename_i none
    simp [hp] at none

theorem newProp_first (linked : Linked cfg kept pa) (input : n.Input)
    (first : cfg.prevExpr n = none) :
    Linked cfg kept (newProp cfg n pa).2 ∧ (newProp cfg n pa).2.map.get n = some (newProp cfg n pa).1 ∧
      ∀ m, m ≠ n → (newProp cfg n pa).2.map.get m = pa.map.get m := by
  cases known : pa.map.get n with
  | some v =>
    rw [newProp_known known]
    exact ⟨linked, known, fun _ _ => rfl⟩
  | none =>
    rw [newProp_fresh known first]
    exact ⟨linked.fresh input known first, by rw [InsMap.get_set, if_pos rfl],
      fun m other => by rw [InsMap.get_set, if_neg other]⟩

theorem newProp_spec (linked : Linked cfg kept pa) (input : n.Input) :
    Linked cfg kept (newProp cfg n pa).2 ∧ (newProp cfg n pa).2.map.get n = some (newProp cfg n pa).1 ∧
      pa.Extends (newProp cfg n pa).2 := by
  cases known : pa.map.get n with
  | some v =>
    rw [newProp_known known]
    exact ⟨linked, known, Extends.refl pa⟩
  | none =>
    cases hp : cfg.prevExpr n with
    | none =>
      obtain ⟨linked', found, others⟩ := newProp_first linked input hp
      refine ⟨linked', found, fun m v hm => ?_⟩
      rw [others m (by rintro rfl; simp [known] at hm), hm]
    | some p =>
      obtain ⟨inputP, first, -⟩ := input.prevExpr hp
      obtain ⟨linkedP, foundP, others⟩ := newProp_first linked inputP first
      have apart : n ≠ p := by
        rintro rfl
        simp [first] at hp
      have unknown : (newProp cfg p pa).2.map.get n = none := (others n apart).trans known
      rw [newProp_link known hp]
      refine ⟨linkedP.link input unknown hp foundP, by rw [InsMap.get_set, if_pos rfl], fun m v hm => ?_⟩
      rw [InsMap.get_set, if_neg (by rintro rfl; simp [known] at hm)]
      by_cases same : m = p
      · subst same
        rw [newProp_known hm]
        exact hm
      · rw [others m same, hm]

/-- `M` is the state `s` with every abstract constant interpreted by a node that it stands for. -/
structure Interprets {D : Domain} (pa : PropAbs) (s M : Structure D) : Prop where
  off : AgreeOff (fun c => IsAbs c.name) s M
  entry : ∀ n v, pa.map.get n = some v → ∀ env, M.value v [] = n.eval s env

theorem Interprets.mono {D : Domain} {s M : Structure D} {pa pa' : PropAbs} (h : pa'.Interprets s M)
    (extends_ : pa.Extends pa') : pa.Interprets s M :=
  ⟨h.off, fun n v hn => h.entry n v (extends_ n v hn)⟩

end PropAbs

end Goivy
