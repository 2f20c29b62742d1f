import Goivy.Action.Condition
import Goivy.TransRel.AtomicActions

/-! The branches of an `if` action that picks witnesses. -/
namespace Goivy

namespace Expr

mutual
/-- `SubstituteConstantsExpr` with a map of constants to variables. Nothing keeps a quantifier from
capturing a substituted variable. -/
def substituteConstants : Expr → List (Const × Variable) → Expr
  | .var v, _ => .var v
  | .const c, subs =>
    match subs.lookup c with
    | .some v => .var v
    | none => .const c
  | .apply f ts, subs => .apply f (substituteConstantsList ts subs)
  | .eq a b, subs => .eq (a.substituteConstants subs) (b.substituteConstants subs)
  | .not a, subs => .not (a.substituteConstants subs)
  | .and ts, subs => .and (substituteConstantsList ts subs)
  | .or ts, subs => .or (substituteConstantsList ts subs)
  | .implies a b, subs => .implies (a.substituteConstants subs) (b.substituteConstants subs)
  | .iff a b, subs => .iff (a.substituteConstants subs) (b.substituteConstants subs)
  | .ite a b c, subs =>
    .ite (a.substituteConstants subs) (b.substituteConstants subs) (c.substituteConstants subs)
  | .forAll vs a, subs => .forAll vs (a.substituteConstants subs)
  | .exists vs a, subs => .exists vs (a.substituteConstants subs)
  | .some vs a, subs => .some vs (a.substituteConstants subs)
  | .someElse vs a b c, subs => .someElse vs (a.substituteConstants subs) (b.substituteConstants subs)
    (c.substituteConstants subs)
def substituteConstantsList : List Expr → List (Const × Variable) → List Expr
  | [], _ => []
  | t :: ts, subs => t.substituteConstants subs :: substituteConstantsList ts subs
end

mutual
/-- No quantifier binds the variable for a constant in its scope. -/
def Uncaptured : Expr → List (Const × Variable) → Prop
  | .var _, _ | .const _, _ => True
  | .apply _ ts, subs | .and ts, subs | .or ts, subs => UncapturedList ts subs
  | .eq a b, subs | .implies a b, subs | .iff a b, subs => a.Uncaptured subs ∧ b.Uncaptured subs
  | .not a, subs => a.Uncaptured subs
  | .ite a b c, subs => a.Uncaptured subs ∧ b.Uncaptured subs ∧ c.Uncaptured subs
  | .forAll vs a, subs | .exists vs a, subs | .some vs a, subs =>
    (∀ x ∈ a.symbols, ∀ v, subs.lookup x = Option.some v → v ∉ vs) ∧ a.Uncaptured subs
  | .someElse vs a b c, subs =>
    (∀ x ∈ a.symbols ++ b.symbols ++ c.symbols, ∀ v, subs.lookup x = Option.some v → v ∉ vs) ∧
      a.Uncaptured subs ∧ b.Uncaptured subs ∧ c.Uncaptured subs
def UncapturedList : List Expr → List (Const × Variable) → Prop
  | [], _ => True
  | t :: ts, subs => t.Uncaptured subs ∧ UncapturedList ts subs
end

theorem substituteConstantsList_eq_map (ts : List Expr) (subs : List (Const × Variable)) :
    substituteConstantsList ts subs = ts.map (·.substituteConstants subs) := by
  induction ts with
  | nil => rfl
  | cons t ts ih => simp [substituteConstantsList, ih]

theorem uncapturedList_iff {ts : List Expr} {subs : List (Const × Variable)} :
    UncapturedList ts subs ↔ ∀ t ∈ ts, t.Uncaptured subs := by
  induction ts with
  | nil => simp [UncapturedList]
  | cons t ts ih => simp [UncapturedList, ih]

end Expr

variable {D : Domain} {M N : Structure D} {subs : List (Const × Variable)} {bound : List Variable}

/-- `N` gives the constants the values of their variables, and is else `M`. -/
structure ReadsVariables (M N : Structure D) (subs : List (Const × Variable)) : Prop where
  off : ∀ c, subs.lookup c = none → SameAt M N c
  individual : ∀ c v, subs.lookup c = some v → ∃ s, c.sort = .first s

/-- The values of the variables for the constants of an expression. -/
def Env.Stores (N : Structure D) (subs : List (Const × Variable)) (e : Expr) (env : Env D) : Prop :=
  ∀ c ∈ e.symbols, ∀ v, subs.lookup c = some v → N.value c [] = ⟨v.sort, env v⟩

theorem Env.Stores.off {e : Expr} {vs : List Variable} {env env' : Env D} (h : Env.Stores N subs e env)
    (clear : ∀ x ∈ e.symbols, ∀ v, subs.lookup x = some v → v ∉ vs) (off : env.Off vs env') :
    Env.Stores N subs e env' := by
  intro c mem v found
  rw [h c mem v found, off v (clear c mem v found)]

namespace Expr

/-- After substitution an expression has the value that it has with the constants' new values. -/
theorem eval_substituteConstants {e : Expr} {s : FSort} (h : e.HasSort bound s) (clear : e.Uncaptured subs)
    (reads : ReadsVariables M N subs) {env : Env D} (stores : Env.Stores N subs e env) :
    (e.substituteConstants subs).eval M env = e.eval N env := by
  induction e generalizing bound s env with
  | var v => rfl
  | const c =>
    rw [substituteConstants]
    cases found : subs.lookup c with
    | none => rw [eval, eval, (reads.off c found).value]
    | some v => rw [eval, eval, stores c (by simp [symbols]) v found]
  | apply f ts ih =>
    obtain ⟨domain, sort, sorts⟩ := h
    have head : subs.lookup f = none := by
      by_contra found
      obtain ⟨v, found⟩ := Option.ne_none_iff_exists'.mp found
      obtain ⟨t, individual⟩ := reads.individual f v found
      rw [individual] at sort
      cases sort
    rw [substituteConstants, eval, eval, substituteConstantsList_eq_map, evalList_eq_map, evalList_eq_map,
      List.map_map, (reads.off f head).value]
    refine congrArg (N.value f) (List.map_congr_left fun t ht => ?_)
    obtain ⟨s, hs⟩ := sorts.exists_sort t ht
    refine ih t ht hs (uncapturedList_iff.mp clear t ht) fun c mem => stores c ?_
    rw [symbols, symbolsList_eq_flatMap]
    exact List.mem_cons_of_mem _ (List.mem_flatMap.mpr ⟨t, ht, mem⟩)
  | and ts ih | or ts ih =>
    have terms : ts.map (fun t => (t.substituteConstants subs).eval M env) = ts.map (fun t => t.eval N env) := by
      refine List.map_congr_left fun t ht => ih t ht (hasSorts_map.mp h.2 t ht)
        (uncapturedList_iff.mp clear t ht) fun c mem => stores c ?_
      rw [symbols, symbolsList_eq_flatMap]
      exact List.mem_flatMap.mpr ⟨t, ht, mem⟩
    simp only [substituteConstants, eval, substituteConstantsList_eq_map, evalList_eq_map, List.map_map,
      Function.comp_def, terms]
  | not a ha => simp only [substituteConstants, eval, ha h.2 clear stores]
  | eq a b ha hb =>
    obtain ⟨-, t, sortA, sortB⟩ := h
    simp only [substituteConstants, eval,
      ha sortA clear.1 fun c mem => stores c (List.mem_append_left _ mem),
      hb sortB clear.2 fun c mem => stores c (List.mem_append_right _ mem)]
  | implies a b ha hb | iff a b ha hb =>
    simp only [substituteConstants, eval,
      ha h.2.1 clear.1 fun c mem => stores c (List.mem_append_left _ mem),
      hb h.2.2 clear.2 fun c mem => stores c (List.mem_append_right _ mem)]
  | ite a b c ha hb hc =>
    have used : ∀ x, x ∈ (Expr.ite a b c).symbols ↔ (x ∈ a.symbols ∨ x ∈ b.symbols) ∨ x ∈ c.symbols := by
      simp [symbols, or_assoc]
    simp only [substituteConstants, eval,
      ha h.1 clear.1 fun c mem => stores c ((used c).mpr (.inl (.inl mem))),
      hb h.2.1 clear.2.1 fun c mem => stores c ((used c).mpr (.inl (.inr mem))),
      hc h.2.2 clear.2.2 fun c mem => stores c ((used c).mpr (.inr mem))]
  | forAll vs a ha =>
    have body : ∀ env', env.Off vs env' → (a.substituteConstants subs).eval M env' = a.eval N env' :=
      fun env' off => ha h.2.2 clear.2 (Env.Stores.off stores clear.1 off)
    simp +contextual only [substituteConstants, eval, body]
  | «exists» vs a ha =>
    have body : ∀ env', env.Off vs env' → (a.substituteConstants subs).eval M env' = a.eval N env' :=
      fun env' off => ha h.2.2 clear.2 (Env.Stores.off stores clear.1 off)
    have same : (∃ env', env.Off vs env' ∧ ((a.substituteConstants subs).eval M env').Holds) ↔
        ∃ env', env.Off vs env' ∧ (a.eval N env').Holds :=
      exists_congr fun env' => and_congr_right fun off => by rw [body env' off]
    simp only [substituteConstants, eval, same]
  | some | someElse => exact h.elim

end Expr

namespace SomeCondition

variable (c : SomeCondition)

/-- The variables for the parameters. -/
def freshVariables : List Variable := symPlaceholders ⟨"", .function (c.params.map fun p => p.sort.range) .boolean⟩

/-- The map of parameters to variables. The last of equal parameters overwrites the others. -/
def subst : List (Const × Variable) := (c.params.zip c.freshVariables).reverse

/-- The variable of the first parameter with the name of the index. -/
def indexVariable (idx : Expr) : Option Variable :=
  match idx with
  | .const x => ((c.params.zip c.freshVariables).find? fun p => p.1.name = x.name).map Prod.snd
  | _ => none

/-- `a` before `b` for a minimum, and behind it for a maximum. -/
def ordered {α : Type} (a b : α) : List α := if c.kind = .someMin then [a, b] else [b, a]

/-- What the then-part assumes; nothing where an application is refused. -/
def thenFormula : Option Expr :=
  let sfmla := c.fmla.substituteConstants c.subst
  match c.kind, c.index with
  | .some, _ | _, none => some c.fmla
  | _, some idx =>
    match c.indexVariable idx with
    | some ivar => do
      let leq : Const := ⟨"<=", .function [idx.nodeSort.range, idx.nodeSort.range] .boolean⟩
      let leqApp ← Expr.newApply leq (c.ordered (.var ivar) idx)
      let eqNode := if c.kind = .someMin then Expr.eq (.var ivar) idx else .eq idx (.var ivar)
      return .and [c.fmla, .not (.and [sfmla, .and [leqApp, .not eqNode]])]
    | none => do
      let ltApp ← Expr.newApply (indexLess idx) (c.ordered (idx.substituteConstants c.subst) idx)
      return .and [c.fmla, .implies sfmla (.not ltApp)]

/-- What the else-part assumes. -/
def elseFormula : Expr := .not (c.fmla.substituteConstants c.subst)

end SomeCondition

/-- The actions that the parts consist of, over the bodies of the `if` action. -/
inductive IfPart (B : Type) where
  | body (b : B)
  | assume (fmla : Expr)
  | sequence (elems : List (IfPart B))
  | localAction (locals : List Const) (body : IfPart B)

/-- `subactionsSome`. -/
def subactionsSome {B : Type} (c : SomeCondition) (thenBody : B) (elseBody : Option B) :
    Option (IfPart B × IfPart B) := do
  let fmla ← c.thenFormula
  let elseAction := match elseBody with
    | some b => .body b
    | none => .sequence []
  return (.localAction c.params (.sequence [.assume fmla, .body thenBody]),
    .sequence [.assume c.elseFormula, elseAction])

namespace IfPart

variable {B : Type} (bodies : B → Meaning (Structure D))

mutual
/-- The meaning of a part. Locals have any values at the start, and are taken back at the end. -/
noncomputable def meaning : IfPart B → Meaning (Structure D)
  | .body b => bodies b
  | .assume f => ⟨fun s s' => f.Valid s ∧ s' = s, fun _ => False⟩
  | .sequence elems => meaningList elems
  | .localAction locals a =>
    { step := fun s s' => ∃ u t, AgreeOff (· ∈ locals) s u ∧ (meaning a).step u t ∧
        s' = .patch {x | x ∈ locals} s t
      fails := fun s => ∃ u, AgreeOff (· ∈ locals) s u ∧ (meaning a).fails u }
noncomputable def meaningList : List (IfPart B) → Meaning (Structure D)
  | [] => .skip
  | a :: as => (meaning a).seq (meaningList as)
end

end IfPart

namespace SomeCondition

variable {c : SomeCondition}

theorem length_freshVariables (c : SomeCondition) : c.freshVariables.length = c.params.length := by
  simp [freshVariables, symPlaceholders, LSort.domain]

/-- The parameters with their variables. -/
theorem mem_zip {p : Const} {v : Variable} (mem : (p, v) ∈ c.params.zip c.freshVariables) :
    v.sort = p.sort.range := by
  obtain ⟨i, bound, same⟩ := List.mem_iff_getElem.mp mem
  rw [List.getElem_zip, Prod.mk.injEq] at same
  obtain ⟨rfl, rfl⟩ := same
  simp [freshVariables, symPlaceholders, LSort.domain]

theorem mem_of_lookup {p : Const} {v : Variable} (found : c.subst.lookup p = some v) :
    (p, v) ∈ c.params.zip c.freshVariables := List.mem_reverse.mp (InsMap.mem_of_lookup found)

theorem lookup_eq_none_iff {p : Const} : c.subst.lookup p = none ↔ p ∉ c.params := by
  have keys : c.subst.map Prod.fst = c.params.reverse := by
    rw [subst, List.map_reverse, List.map_fst_zip (length_freshVariables c).ge]
  rw [List.lookup_eq_none_iff, ← List.mem_reverse, ← keys, List.mem_map]
  simp only [bne_iff_ne, ne_eq, not_exists, not_and]
  exact forall₂_congr fun q _ => not_congr eq_comm

/-- The variables have the values of the parameters. -/
def Stored (c : SomeCondition) (w : Structure D) (env : Env D) : Prop :=
  ∀ p v, c.subst.lookup p = some v → w.value p [] = ⟨v.sort, env v⟩

theorem zip_of_map_eq {α β γ : Type} {f : β → γ} {g : α → γ} {as : List α} {bs : List β}
    (same : bs.map f = as.map g) : ∀ q ∈ as.zip bs, g q.1 = f q.2 := by
  induction as generalizing bs with
  | nil => simp
  | cons a as ih =>
    cases bs with
    | nil => simp
    | cons b bs =>
      rw [List.map_cons, List.map_cons, List.cons.injEq] at same
      rw [List.zip_cons_cons, List.forall_mem_cons]
      exact ⟨same.1.symm, ih same.2⟩

/-- Some values of the variables are those of the parameters. -/
theorem exists_stored (individuals : ∀ p ∈ c.params, ∃ s, p.sort = .first s) (w : Structure D) :
    ∃ env, c.Stored w env := by
  have fits : (c.params.map fun p => w.value p []).map Sigma.fst = c.freshVariables.map Variable.sort := by
    rw [freshVariables, symPlaceholders_sorts, List.map_map]
    exact List.map_congr_left fun p mem => rfl
  obtain ⟨env, values⟩ := exists_env (symPlaceholders_nodup _) fits
  exact ⟨env, fun p v found => zip_of_map_eq values _ (mem_of_lookup found)⟩

open Classical in
/-- Values of the variables are those of the parameters in some state. -/
theorem exists_state (individuals : ∀ p ∈ c.params, ∃ s, p.sort = .first s) (u : Structure D) (env : Env D) :
    ∃ w, AgreeOff (· ∈ c.params) u w ∧ c.Stored w env := by
  let w : Structure D := fun n s args =>
    match c.subst.lookup ⟨n, s⟩ with
    | some v => env ⟨v.name, s.range⟩
    | none => u n s args
  refine ⟨w, fun p off => ?_, fun p v found => ?_⟩
  · have none := lookup_eq_none_iff.mpr off
    funext args
    show u p.name p.sort args = w p.name p.sort args
    simp only [w, none]
  · have mem := mem_of_lookup found
    obtain ⟨t, sort⟩ := individuals p (List.of_mem_zip mem).1
    have range := mem_zip mem
    obtain ⟨vn, vs⟩ := v
    subst range
    rw [Structure.value_eq w (by rw [sort]; rfl)]
    simp only [w, found]

variable (c) in
/-- The parameters are individuals, and the formula and the index are closed and well-sorted. -/
structure WellSorted : Prop where
  individuals : ∀ p ∈ c.params, ∃ s, p.sort = .first s
  fmla : c.fmla.HasSort [] .boolean
  index : ∀ idx, c.index = some idx → ∃ s, idx.HasSort [] s

variable (c) in
/-- No quantifier binds the variable for a parameter in its scope, and no other parameter has the name of
the index. -/
structure Clear : Prop where
  fmla : c.fmla.Uncaptured c.subst
  index : ∀ idx, c.index = some idx → idx.Uncaptured c.subst
  named : ∀ x, c.index = some (.const x) → ∀ p ∈ c.params, p.name = x.name →
    c.params.filter (·.name = x.name) = [x]

theorem WellSorted.reads (sorted : c.WellSorted) {u w : Structure D} (agree : AgreeOff (· ∈ c.params) u w) :
    ReadsVariables u w c.subst where
  off p none := agree p (lookup_eq_none_iff.mp none)
  individual p v found := sorted.individuals p (List.of_mem_zip (mem_of_lookup found)).1


/-- A closed expression has one value. -/
theorem closed_eval {e : Expr} {s : FSort} (h : e.HasSort [] s) (M : Structure D) (env env' : Env D) :
    e.eval M env = e.eval M env' := by
  refine Expr.eval_freeVariables M fun v free => ?_
  have := Expr.binds_of_mem_freeVariables h v free
  cases this

/-- The formula about the competing tuple is the formula in its state. -/
theorem holds_competing (sorted : c.WellSorted) (clear : c.fmla.Uncaptured c.subst) {u w : Structure D}
    (agree : AgreeOff (· ∈ c.params) u w) {env : Env D} (stored : c.Stored w env) :
    (c.fmla.substituteConstants c.subst).Holds u env ↔ c.fmla.Valid w := by
  have value := Expr.eval_substituteConstants sorted.fmla clear (sorted.reads agree)
    fun p _ v found => stored p v found
  rw [Expr.Holds, value]
  exact ⟨fun holds env' => by rwa [Expr.Holds, closed_eval sorted.fmla w env' env], fun valid => valid env⟩

/-- What a conjunct about all competing tuples says. -/
theorem forall_competing (sorted : c.WellSorted) (clear : c.fmla.Uncaptured c.subst) {s u : Structure D}
    (agree : AgreeOff (· ∈ c.params) s u) {less : Env D → Prop} {compare : Structure D → Env D → Prop}
    (same : ∀ env w, AgreeOff (· ∈ c.params) u w → c.Stored w env → ∀ env', less env ↔ compare w env') :
    (∀ env, ¬ ((c.fmla.substituteConstants c.subst).Holds u env ∧ less env)) ↔
      ∀ w, c.Satisfies s w → ∀ env, ¬ compare w env := by
  constructor
  · rintro none w ⟨off, valid⟩ env' here
    have agreeW : AgreeOff (· ∈ c.params) u w := fun p hp => (agree p hp).symm.trans (off p hp)
    obtain ⟨env, stored⟩ := exists_stored sorted.individuals w
    exact none env ⟨(holds_competing sorted clear agreeW stored).mpr valid, (same env w agreeW stored env').mpr here⟩
  · rintro none env ⟨holds, here⟩
    obtain ⟨w, agreeW, stored⟩ := exists_state sorted.individuals u env
    have off : AgreeOff (· ∈ c.params) s w := fun p hp => (agree p hp).trans (agreeW p hp)
    exact none w ⟨off, (holds_competing sorted clear agreeW stored).mp holds⟩ env ((same env w agreeW stored env).mp here)

/-- The order of a sort in a structure: strict and total, with its reflexive closure. -/
structure OrderedBy (s : Structure D) (sort : FSort) : Prop where
  irrefl : ∀ a : Val D, a.1 = sort → ¬ (s.value ⟨"<", .function [sort, sort] .boolean⟩ [a, a]).Holds
  trans : ∀ a b d : Val D, a.1 = sort → b.1 = sort → d.1 = sort →
    (s.value ⟨"<", .function [sort, sort] .boolean⟩ [a, b]).Holds →
    (s.value ⟨"<", .function [sort, sort] .boolean⟩ [b, d]).Holds →
    (s.value ⟨"<", .function [sort, sort] .boolean⟩ [a, d]).Holds
  total : ∀ a b : Val D, a.1 = sort → b.1 = sort → a ≠ b →
    (s.value ⟨"<", .function [sort, sort] .boolean⟩ [a, b]).Holds ∨
      (s.value ⟨"<", .function [sort, sort] .boolean⟩ [b, a]).Holds
  reflexive : ∀ a b : Val D, a.1 = sort → b.1 = sort →
    ((s.value ⟨"<=", .function [sort, sort] .boolean⟩ [a, b]).Holds ↔
      (s.value ⟨"<", .function [sort, sort] .boolean⟩ [a, b]).Holds ∨ a = b)

/-- At most and different is less. -/
theorem OrderedBy.less_iff {s : Structure D} {sort : FSort} (order : OrderedBy s sort) {a b : Val D}
    (ha : a.1 = sort) (hb : b.1 = sort) :
    (s.value ⟨"<=", .function [sort, sort] .boolean⟩ [a, b]).Holds ∧ a ≠ b ↔
      (s.value ⟨"<", .function [sort, sort] .boolean⟩ [a, b]).Holds := by
  rw [order.reflexive a b ha hb]
  constructor
  · rintro ⟨less | same, ne⟩
    · exact less
    · exact absurd same ne
  · intro less
    refine ⟨.inl less, ?_⟩
    rintro rfl
    exact order.irrefl a ha less

/-- The variable of the index is the one that stands for it. -/
theorem Clear.indexVariable (clear : c.Clear) {x : Const} {v : Variable} (index : c.index = some (.const x))
    (found : c.indexVariable (.const x) = some v) : c.subst.lookup x = some v := by
  obtain ⟨⟨p, v'⟩, first, rfl⟩ := Option.map_eq_some_iff.mp found
  have mem := List.mem_of_find?_eq_some first
  have name : p.name = x.name := by simpa using List.find?_some first
  have once := clear.named x index p (List.of_mem_zip mem).1 name
  obtain rfl : p = x := by
    have : p ∈ c.params.filter (·.name = x.name) :=
      List.mem_filter.mpr ⟨(List.of_mem_zip mem).1, by simpa using name⟩
    rwa [once, List.mem_singleton] at this
  cases other : c.subst.lookup p with
  | none => exact absurd (List.of_mem_zip mem).1 (lookup_eq_none_iff.mp other)
  | some w =>
    -- both pairs are the only one with the parameter
    have length : ((c.params.zip c.freshVariables).filter fun q => q.1.name = p.name).length = 1 := by
      have keys : ((c.params.zip c.freshVariables).filter fun q => q.1.name = p.name).map Prod.fst = [p] := by
        refine (List.filter_map (p := fun x : Const => decide (x.name = p.name))).symm.trans ?_
        rw [List.map_fst_zip (length_freshVariables c).ge]
        exact once
      rw [← List.length_map, keys, List.length_singleton]
    obtain ⟨q, only⟩ := List.length_eq_one_iff.mp length
    have here : ∀ y, (p, y) ∈ c.params.zip c.freshVariables → (p, y) = q := fun y there => by
      have : (p, y) ∈ (c.params.zip c.freshVariables).filter fun q => q.1.name = p.name :=
        List.mem_filter.mpr ⟨there, by simp⟩
      rwa [only, List.mem_singleton] at this
    have := (here w (mem_of_lookup other)).trans (here v' mem).symm
    rw [(Prod.mk.inj this).2]

theorem SameAt.order {s u : Structure D} (sorted : c.WellSorted) (agree : AgreeOff (· ∈ c.params) s u)
    (name : String) (dom : List FSort) (r : FSort) : s.value ⟨name, .function dom r⟩ = u.value ⟨name, .function dom r⟩ := by
  refine (agree _ fun mem => ?_).value
  obtain ⟨t, individual⟩ := sorted.individuals _ mem
  cases individual

theorem evalList_ordered (M : Structure D) (a b : Expr) (env : Env D) :
    evalList M (c.ordered a b) env = c.ordered (a.eval M env) (b.eval M env) := by
  unfold ordered
  split <;> rfl

theorem holds_apply (M : Structure D) (f : Const) (ts : List Expr) (env : Env D) :
    (Expr.apply f ts).Holds M env ↔ (M.value f (evalList M ts env)).Holds := by
  rw [Expr.Holds, Expr.eval]

theorem valid_and_not (M : Structure D) (a b d : Expr) : (Expr.and [a, .not (.and [b, d])]).Valid M ↔
    a.Valid M ∧ ∀ env, ¬ (b.Holds M env ∧ d.Holds M env) := by
  rw [Expr.Valid, Expr.Valid, ← forall_and]
  refine forall_congr' fun env => ?_
  rw [Expr.holds_and, List.forall_mem_cons, List.forall_mem_singleton, Expr.holds_not, Expr.holds_and,
    List.forall_mem_cons, List.forall_mem_singleton]

theorem extremal_iff {s u : Structure D} {idx : Expr} (picks : c.kind ≠ .some) (index : c.index = some idx) :
    c.Extremal s u ↔ ∀ w, c.Satisfies s w → ∀ env,
      ¬ (u.value (indexLess idx) (c.ordered (idx.eval w env) (idx.eval u env))).Holds := by
  unfold Extremal ordered
  rw [index]
  cases kind : c.kind with
  | some => exact absurd kind picks
  | someMin | someMax => simp

theorem thenFormula_of_index {idx : Expr} (picks : c.kind ≠ .some) (index : c.index = some idx) :
    c.thenFormula = match c.indexVariable idx with
      | some ivar => (Expr.newApply ⟨"<=", .function [idx.nodeSort.range, idx.nodeSort.range] .boolean⟩
          (c.ordered (.var ivar) idx)).map fun leqApp => .and [c.fmla, .not (.and [c.fmla.substituteConstants c.subst,
            .and [leqApp, .not (if c.kind = .someMin then Expr.eq (.var ivar) idx else .eq idx (.var ivar))]])]
      | none => (Expr.newApply (indexLess idx) (c.ordered (idx.substituteConstants c.subst) idx)).map fun ltApp =>
          .and [c.fmla, .implies (c.fmla.substituteConstants c.subst) (.not ltApp)] := by
  unfold thenFormula
  rw [index]
  cases kind : c.kind with
  | some => exact absurd kind picks
  | someMin | someMax => cases param : c.indexVariable idx <;> simp [param, Option.map_eq_bind, Function.comp_def]

/-- What the then-part assumes of the chosen tuple. -/
theorem thenFormula_iff (sorted : c.WellSorted) (clear : c.Clear) {s u : Structure D}
    (order : ∀ idx, c.index = some idx → OrderedBy s idx.nodeSort.range)
    (agree : AgreeOff (· ∈ c.params) s u) {f : Expr} (made : c.thenFormula = some f) :
    f.Valid u ↔ c.fmla.Valid u ∧ c.Extremal s u := by
  by_cases plain : c.kind = .some ∨ c.index = none
  · have same : c.thenFormula = some c.fmla ∧ c.Extremal s u := by
      unfold thenFormula Extremal
      rcases plain with kind | index
      · rw [kind]
        cases c.index <;> exact ⟨rfl, trivial⟩
      · rw [index]
        cases c.kind <;> exact ⟨rfl, trivial⟩
    cases same.1.symm.trans made
    exact (and_iff_left same.2).symm
  push Not at plain
  obtain ⟨picks, hasIndex⟩ := plain
  obtain ⟨idx, index⟩ := Option.ne_none_iff_exists'.mp hasIndex
  obtain ⟨t, idxSort⟩ := sorted.index idx index
  have range : idx.nodeSort.range = t := by rw [Expr.nodeSort_of_hasSort idxSort]; rfl
  have idxVal : ∀ (w : Structure D) (env : Env D), (idx.eval w env).1 = idx.nodeSort.range := fun w env => by
    rw [range, Expr.sort_eval_of_hasSort w idxSort]
  rw [thenFormula_of_index picks index] at made
  rw [extremal_iff picks index]
  cases param : c.indexVariable idx with
  | some ivar =>
    rw [param] at made
    obtain ⟨leqApp, applied, rfl⟩ := Option.map_eq_some_iff.mp made
    obtain rfl := Expr.newApply_eq applied
    obtain ⟨x, rfl⟩ : ∃ x, idx = .const x := by
      cases idx with
      | const x => exact ⟨x, rfl⟩
      | _ => cases param
    have found := clear.indexVariable index param
    -- in the chosen state, at most and different is less
    have lt := SameAt.order sorted agree "<" [x.sort.range, x.sort.range] .boolean
    have le := SameAt.order sorted agree "<=" [x.sort.range, x.sort.range] .boolean
    have less : ∀ a b : Val D, a.1 = x.sort.range → b.1 = x.sort.range →
        ((u.value ⟨"<=", .function [x.sort.range, x.sort.range] .boolean⟩ [a, b]).Holds ∧ a ≠ b ↔
          (u.value (indexLess (.const x)) [a, b]).Holds) := fun a b ha hb => by
      have := (order _ index).less_iff ha hb
      rwa [show (Expr.const x).nodeSort.range = x.sort.range from rfl, lt, le] at this
    have competing : (∀ env, ¬ ((c.fmla.substituteConstants c.subst).Holds u env ∧
        (Expr.and [.apply ⟨"<=", .function [x.sort.range, x.sort.range] .boolean⟩ (c.ordered (.var ivar) (.const x)),
          .not (if c.kind = .someMin then Expr.eq (.var ivar) (.const x) else .eq (.const x) (.var ivar))]).Holds u env)) ↔
        ∀ w, c.Satisfies s w → ∀ env, ¬ (u.value (indexLess (.const x))
          (c.ordered ((Expr.const x).eval w env) ((Expr.const x).eval u env))).Holds := by
      refine forall_competing sorted clear.fmla agree fun env w off stored env' => ?_
      have value : (Expr.var ivar).eval u env = (Expr.const x).eval w env' := by
        rw [Expr.eval, Expr.eval, stored x ivar found]
      have here : (Expr.const x).eval u env = (Expr.const x).eval u env' := closed_eval idxSort u env env'
      rw [Expr.holds_and, List.forall_mem_cons, List.forall_mem_singleton, Expr.holds_not, holds_apply,
        evalList_ordered, value, here]
      unfold ordered
      split
      · rw [Expr.holds_eq, value, here]
        exact less _ _ (idxVal w env') (idxVal u env')
      · rw [Expr.holds_eq, value, here]
        exact less _ _ (idxVal u env') (idxVal w env')
    rw [← competing]
    exact valid_and_not _ _ _ _
  | none =>
    rw [param] at made
    obtain ⟨ltApp, applied, rfl⟩ := Option.map_eq_some_iff.mp made
    obtain rfl := Expr.newApply_eq applied
    have competing : (∀ env, ¬ ((c.fmla.substituteConstants c.subst).Holds u env ∧
        (Expr.apply (indexLess idx) (c.ordered (idx.substituteConstants c.subst) idx)).Holds u env)) ↔
        ∀ w, c.Satisfies s w → ∀ env, ¬ (u.value (indexLess idx)
          (c.ordered (idx.eval w env) (idx.eval u env))).Holds := by
      refine forall_competing sorted clear.fmla agree fun env w off stored env' => ?_
      have value : (idx.substituteConstants c.subst).eval u env = idx.eval w env' :=
        (Expr.eval_substituteConstants idxSort (clear.index idx index) (sorted.reads off)
          fun p _ v found => stored p v found).trans (closed_eval idxSort w env env')
      rw [holds_apply, evalList_ordered, value, closed_eval idxSort u env env']
    rw [← competing, Expr.Valid, Expr.Valid, ← forall_and]
    refine forall_congr' fun env => ?_
    rw [Expr.holds_and, List.forall_mem_cons, List.forall_mem_singleton, Expr.holds_implies, Expr.holds_not, not_and]

/-- The else-part is taken where no tuple satisfies the formula. -/
theorem elseFormula_iff (sorted : c.WellSorted) (clear : c.Clear) (s : Structure D) :
    c.elseFormula.Valid s ↔ ∀ u, ¬ c.Satisfies s u := by
  have competing := forall_competing sorted clear.fmla (AgreeOff.refl (· ∈ c.params) s)
    (show ∀ (env : Env D) w, _ → _ → ∀ env' : Env D, (fun _ => True) env ↔ (fun _ _ => True) w env' from
      fun _ _ _ _ _ => Iff.rfl)
  simp only [and_true, not_true_eq_false, forall_const] at competing
  simp only [elseFormula, Expr.Valid, Expr.holds_not]
  exact competing

/-- The parts pick the witnesses of the condition, which only the then-part sees. -/
structure PicksWitness (c : SomeCondition) (thenBody elseBody ifPart elsePart : Meaning (Structure D))
    (s : Structure D) : Prop where
  thenStep : ∀ s', ifPart.step s s' ↔ ∃ u t, c.Satisfies s u ∧ c.Extremal s u ∧ thenBody.step u t ∧
    s' = c.restore s t
  thenFails : ifPart.fails s ↔ ∃ u, c.Satisfies s u ∧ c.Extremal s u ∧ thenBody.fails u
  elseStep : ∀ s', elsePart.step s s' ↔ (∀ u, ¬ c.Satisfies s u) ∧ elseBody.step s s'
  elseFails : elsePart.fails s ↔ (∀ u, ¬ c.Satisfies s u) ∧ elseBody.fails s

/-- A clear condition picks its witnesses in every state. -/
theorem subactions_pick_witness {B : Type} (c : SomeCondition) (thenBody : B) (elseBody : Option B)
    (ifPart elsePart : IfPart B) (bodies : B → Meaning (Structure D)) (s : Structure D)
    (returned : subactionsSome c thenBody elseBody = some (ifPart, elsePart)) (sorted : c.WellSorted)
    (clear : c.Clear) (order : ∀ idx, c.index = some idx → OrderedBy s idx.nodeSort.range) :
    PicksWitness c (bodies thenBody) (elseBody.elim .skip bodies) (ifPart.meaning bodies)
      (elsePart.meaning bodies) s := by
  simp only [subactionsSome, Option.bind_eq_bind, Option.bind_eq_some_iff, Option.pure_def, Option.some.injEq,
    Prod.mk.injEq] at returned
  obtain ⟨f, made, rfl, rfl⟩ := returned
  have chosen : ∀ u, AgreeOff (· ∈ c.params) s u ∧ f.Valid u ↔ c.Satisfies s u ∧ c.Extremal s u := fun u => by
    rw [Satisfies, and_assoc]
    exact and_congr_right fun agree => thenFormula_iff sorted clear order agree made
  have rest : (match elseBody with
      | some b => IfPart.body b
      | none => .sequence []).meaning bodies = elseBody.elim .skip bodies := by
    cases elseBody <;> rfl
  refine ⟨fun s' => ?_, ?_, fun s' => ?_, ?_⟩
  · simp only [IfPart.meaning, IfPart.meaningList, Meaning.seq_skip]
    constructor
    · rintro ⟨u, t, agree, ⟨_, ⟨valid, rfl⟩, step⟩, same⟩
      obtain ⟨satisfies, extremal⟩ := (chosen _).mp ⟨agree, valid⟩
      exact ⟨_, t, satisfies, extremal, step, same⟩
    · rintro ⟨u, t, satisfies, extremal, step, same⟩
      obtain ⟨agree, valid⟩ := (chosen u).mpr ⟨satisfies, extremal⟩
      exact ⟨u, t, agree, ⟨u, ⟨valid, rfl⟩, step⟩, same⟩
  · simp only [IfPart.meaning, IfPart.meaningList, Meaning.seq_skip]
    constructor
    · rintro ⟨u, agree, fails | ⟨_, ⟨valid, rfl⟩, fails⟩⟩
      · exact fails.elim
      · obtain ⟨satisfies, extremal⟩ := (chosen _).mp ⟨agree, valid⟩
        exact ⟨_, satisfies, extremal, fails⟩
    · rintro ⟨u, satisfies, extremal, fails⟩
      obtain ⟨agree, valid⟩ := (chosen u).mpr ⟨satisfies, extremal⟩
      exact ⟨u, agree, .inr ⟨u, ⟨valid, rfl⟩, fails⟩⟩
  · simp only [IfPart.meaning, IfPart.meaningList, Meaning.seq_skip, rest]
    rw [← elseFormula_iff sorted clear s]
    exact ⟨fun ⟨_, ⟨valid, same⟩, step⟩ => ⟨valid, same ▸ step⟩, fun ⟨valid, step⟩ => ⟨s, ⟨valid, rfl⟩, step⟩⟩
  · simp only [IfPart.meaning, IfPart.meaningList, Meaning.seq_skip, rest]
    rw [← elseFormula_iff sorted clear s]
    constructor
    · rintro (fails | ⟨_, ⟨valid, same⟩, fails⟩)
      · exact fails.elim
      · exact ⟨valid, same ▸ fails⟩
    · exact fun ⟨valid, fails⟩ => .inr ⟨s, ⟨valid, rfl⟩, fails⟩

/-- A constant of the sort t, and two variables. -/
def chosenX : Const := ⟨"x", .first (.uninterpreted "t")⟩
def boundY : Variable := ⟨"Y", .uninterpreted "t"⟩
def boundV0 : Variable := ⟨"V0", .uninterpreted "t"⟩

/-- Some element has edges to all others. -/
def someSource (y : Variable) : SomeCondition :=
  ⟨[chosenX], .forAll [y] (.apply edge [.const chosenX, .var y]), .some, none⟩

/-- All edges are loops, and all constants are the same element. -/
noncomputable def loopsOnly : Structure Domain.two :=
  fun _ s args => .two (open Classical in decide (∀ a ∈ args.1, ∀ b ∈ args.1, a = b)) s.range

theorem subactions_pick_witness_someSource : PicksWitness (someSource boundY) .skip .skip
    ((IfPart.localAction [chosenX] (.sequence [.assume (someSource boundY).fmla, .body ()])).meaning fun _ => .skip)
    ((IfPart.sequence [.assume (someSource boundY).elseFormula, .sequence []]).meaning fun _ : Unit => .skip)
    loopsOnly := by
  refine subactions_pick_witness (someSource boundY) () none _ _ (fun _ => .skip) loopsOnly rfl ?_ ?_ ?_
  · refine ⟨?_, ?_, ?_⟩
    · simp [someSource, chosenX]
    · exact ⟨rfl, by decide, _, rfl, rfl, ⟨by decide, rfl⟩, trivial⟩
    · simp [someSource]
  · refine ⟨⟨?_, trivial, trivial, trivial⟩, ?_, ?_⟩
    · intro x _ v found
      have mem := mem_of_lookup found
      simp only [someSource, freshVariables, symPlaceholders, LSort.domain, List.map_cons, List.map_nil,
        List.mapIdx_cons, List.mapIdx_nil, List.zip_cons_cons, List.zip_nil_right, List.mem_singleton,
        Prod.mk.injEq] at mem
      rw [mem.2]
      decide
    · simp [someSource]
    · simp [someSource]
  · simp [someSource]

/-- A quantifier over V0 captures the competing tuple: no tuple satisfies the formula, but the else-part
is blocked as well. -/
theorem someSource_blocked : subactionsSome (someSource boundV0) () none =
      some (.localAction [chosenX] (.sequence [.assume (someSource boundV0).fmla, .body ()]),
        .sequence [.assume (.not (.forAll [boundV0] (.apply edge [.var boundV0, .var boundV0]))), .sequence []]) ∧
    (someSource boundV0).WellSorted ∧ (∀ u, ¬ (someSource boundV0).Satisfies loopsOnly u) ∧
    ∀ s', ¬ ((IfPart.sequence [.assume (.not (.forAll [boundV0] (.apply edge [.var boundV0, .var boundV0]))),
      .sequence []]).meaning fun _ : Unit => .skip).step loopsOnly s' := by
  have edges : ∀ a b : El Domain.two (.uninterpreted "t"), (loopsOnly.value edge
      [⟨.uninterpreted "t", a⟩, ⟨.uninterpreted "t", b⟩]).Holds ↔ a = b := by
    intro a b
    rw [Structure.value_eq _ (c := edge) rfl]
    constructor
    · intro holds
      let pair : List (Val Domain.two) := [⟨.uninterpreted "t", a⟩, ⟨.uninterpreted "t", b⟩]
      have same : ∀ x ∈ pair, ∀ y ∈ pair, x = y := by
        classical exact of_decide_eq_true (eq_of_heq (Sigma.mk.inj holds).2)
      exact eq_of_heq (Sigma.mk.inj (same _ List.mem_cons_self _ (List.mem_cons_of_mem _ List.mem_cons_self))).2
    · rintro rfl
      classical exact congrArg (Sigma.mk FSort.boolean) (decide_eq_true (by simp))
  refine ⟨rfl, ?_, ?_, ?_⟩
  · refine ⟨?_, ?_, ?_⟩
    · simp [someSource, chosenX]
    · exact ⟨rfl, by decide, _, rfl, rfl, ⟨by decide, rfl⟩, trivial⟩
    · simp [someSource]
  · rintro u ⟨agree, valid⟩
    have sink : ∀ env : Env Domain.two, u chosenX.name chosenX.sort ⟨[], rfl⟩ = env boundV0 := fun env => by
      have holds := (Expr.holds_forAll u env _ _).mp (valid env) env fun _ _ => rfl
      have value := (agree edge (by simp [someSource, edge, chosenX])).value
      rw [Expr.Holds, Expr.eval, ← value, evalList, evalList, evalList, Expr.eval, Expr.eval,
        Structure.value_eq u (c := chosenX) rfl] at holds
      exact (edges _ _).mp holds
    have one := sink fun v => .two true v.sort
    have other := sink fun v => .two false v.sort
    exact Bool.noConfusion (one.symm.trans other)
  · rintro s' ⟨t, ⟨valid, -⟩, -⟩
    refine (Expr.holds_not _ _ _).mp (valid fun v => .two true v.sort) ?_
    rw [Expr.holds_forAll]
    exact fun env _ => (edges _ _).mpr rfl

end SomeCondition

end Goivy
