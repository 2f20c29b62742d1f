import Goivy.Mc.Linking

/-! Propositional abstraction simulates the concrete system. -/
namespace Goivy

variable {cfg : PropAbsConfig} {kept : List Const}

namespace PropAbs

section Propositional

variable (cfg)

mutual
/-- Nothing in the expression has to be abstracted. -/
def propositional : Expr → Bool
  | .var _ | .const _ => true
  | .forAll _ _ | .exists _ _ => false
  | .apply f ts => !needsAbstraction cfg (.apply f ts) && propositionalList ts
  | .and ts => !needsAbstraction cfg (.and ts) && propositionalList ts
  | .or ts => !needsAbstraction cfg (.or ts) && propositionalList ts
  | .eq a b => !needsAbstraction cfg (.eq a b) && propositional a && propositional b
  | .not a => !needsAbstraction cfg (.not a) && propositional a
  | .implies a b => !needsAbstraction cfg (.implies a b) && propositional a && propositional b
  | .iff a b => !needsAbstraction cfg (.iff a b) && propositional a && propositional b
  | .ite a b c => !needsAbstraction cfg (.ite a b c) && propositional a && propositional b &&
    propositional c
  | .some vs a => !needsAbstraction cfg (.some vs a) && propositional a
  | .someElse vs a b c => !needsAbstraction cfg (.someElse vs a b c) && propositional a &&
    propositional b && propositional c
def propositionalList : List Expr → Bool
  | [] => true
  | t :: ts => propositional t && propositionalList ts
end

end Propositional

/-- The abstraction of an expression, and of a list of them, does what it should. -/
structure Abstracts (cfg : PropAbsConfig) (kept : List Const) (e : Expr) (pa : PropAbs)
    (r : Expr × PropAbs) : Prop where
  linked : Linked cfg kept r.2
  extends_ : pa.Extends r.2
  eval : ∀ {D : Domain} {s M : Structure D}, r.2.Interprets s M → ∀ env, r.1.eval M env = e.eval s env
  done : propositional cfg r.1 = true
  sort : r.1.nodeSort = e.nodeSort

structure AbstractsList (cfg : PropAbsConfig) (kept : List Const) (ts : List Expr) (pa : PropAbs)
    (r : List Expr × PropAbs) : Prop where
  linked : Linked cfg kept r.2
  extends_ : pa.Extends r.2
  eval : ∀ {D : Domain} {s M : Structure D}, r.2.Interprets s M → ∀ env,
    evalList M r.1 env = evalList s ts env
  done : propositionalList cfg r.1 = true
  sorts : r.1.map Expr.nodeSort = ts.map Expr.nodeSort

variable {pa : PropAbs}

/-- A node that is abstracted becomes a constant for it. -/
theorem abstractOr_spec {e : Expr} {descend : Expr × PropAbs} (linked : Linked cfg kept pa)
    (input : (Node.expr e).Input)
    (h : needsAbstraction cfg e = false → Abstracts cfg kept e pa descend) :
    Abstracts cfg kept e pa (abstractOr cfg e pa descend) := by
  unfold abstractOr
  cases needs : needsAbstraction cfg e with
  | false => exact h needs
  | true =>
    obtain ⟨linked', found, extends_⟩ := newProp_spec linked input
    exact ⟨linked', extends_, fun interp env => interp.entry _ _ found env, rfl, linked'.sort found⟩

theorem track_spec (linked : Linked cfg kept pa) (c : Const) :
    Linked cfg kept (track cfg c pa) ∧ pa.Extends (track cfg c pa) := by
  unfold track
  split
  · exact ⟨linked, Extends.refl pa⟩
  · rename_i tracked
    refine ⟨⟨linked.input, linked.origin, linked.distinct, linked.recorded, fun d hd => ?_⟩,
      Extends.refl pa⟩
    rw [List.mem_append, List.mem_singleton] at hd
    obtain hd | rfl := hd
    · exact linked.finite d hd
    · simp only [Bool.or_eq_true, not_or, Bool.not_eq_true] at tracked
      exact tracked.1.2

theorem any_nodeSort_congr {ts us : List Expr} (sorts : us.map Expr.nodeSort = ts.map Expr.nodeSort) :
    us.any (fun t => !cfg.isFiniteSort t.nodeSort) = ts.any fun t => !cfg.isFiniteSort t.nodeSort := by
  have := congrArg (List.any · fun s => !cfg.isFiniteSort s) sorts
  simpa [List.any_map, Function.comp_def] using this

theorem mkPropAbsList_spec {ts : List Expr} (linked : Linked cfg kept pa)
    (ih : ∀ t ∈ ts, ∀ pa, Linked cfg kept pa → Abstracts cfg kept t pa (mkPropAbs cfg t pa)) :
    AbstractsList cfg kept ts pa (mkPropAbsList cfg ts pa) := by
  induction ts generalizing pa with
  | nil => exact ⟨linked, Extends.refl pa, fun _ _ => rfl, rfl, rfl⟩
  | cons t ts tail =>
    have head := ih t List.mem_cons_self pa linked
    have rest := tail head.linked fun u hu => ih u (List.mem_cons_of_mem _ hu)
    refine ⟨rest.linked, head.extends_.trans rest.extends_, fun interp env => ?_, ?_, ?_⟩
    · simp only [mkPropAbsList, evalList, head.eval (interp.mono rest.extends_), rest.eval interp]
    · simp only [mkPropAbsList, propositionalList, head.done, rest.done, Bool.and_self]
    · simp only [mkPropAbsList, List.map_cons, head.sort, rest.sorts]

end PropAbs

namespace Node.Input

variable {ts : List Expr} {a b c : Expr} {vs : List Variable}

theorem of_subset {e t : Expr} (h : (Node.expr e).Input)
    (closed : e.freeVariables = [] → t.freeVariables = [])
    (sorted : e.wellSorted = true → t.wellSorted = true)
    (symbols : ∀ c ∈ t.symbols, c ∈ e.symbols) : (Node.expr t).Input :=
  ⟨closed h.closed, sorted h.sorted, fun c hc => h.concrete c (symbols c hc),
    fun c hc => h.once c (symbols c hc)⟩

theorem term {e t : Expr} (h : (Node.expr e).Input) (he : (∃ f, e = .apply f ts) ∨ e = .and ts ∨ e = .or ts)
    (ht : t ∈ ts) : (Node.expr t).Input := by
  refine h.of_subset (fun closed => ?_) (fun sorted => ?_) fun c hc => ?_
  · obtain ⟨f, rfl⟩ | rfl | rfl := he
    all_goals
      simp only [Expr.freeVariables, Expr.freeVariablesList_eq_flatMap, List.flatMap_eq_nil_iff] at closed
      exact closed t ht
  · obtain ⟨f, rfl⟩ | rfl | rfl := he
    all_goals exact wellSortedList_iff.mp sorted t ht
  · have mem : c ∈ symbolsList ts := by
      rw [symbolsList_eq_flatMap]
      exact List.mem_flatMap.mpr ⟨t, ht, hc⟩
    obtain ⟨f, rfl⟩ | rfl | rfl := he
    · exact List.mem_cons_of_mem _ mem
    · exact mem
    · exact mem

theorem sides {e : Expr} (h : (Node.expr e).Input)
    (he : e = .eq a b ∨ e = .implies a b ∨ e = .iff a b) :
    (Node.expr a).Input ∧ (Node.expr b).Input := by
  constructor
  all_goals
    refine h.of_subset (fun closed => ?_) (fun sorted => ?_) fun c hc => ?_
    all_goals
      obtain rfl | rfl | rfl := he <;>
        simp_all [Expr.freeVariables, Expr.wellSorted, Expr.symbols]

end Node.Input

namespace PropAbs

/-- `MkPropAbs`, on any closed expression. -/
theorem mkPropAbs_spec {e : Expr} (input : (Node.expr e).Input) :
    ∀ pa, Linked cfg kept pa → Abstracts cfg kept e pa (mkPropAbs cfg e pa) := by
  induction e with
  | var v => simpa [Node.freeVariables, Expr.freeVariables] using input.closed
  | const c =>
    intro pa linked
    obtain ⟨linked', extends_⟩ := track_spec linked c
    refine ⟨linked', extends_, fun interp env => ?_, rfl, rfl⟩
    have same := interp.off c (input.concrete c (by simp [Node.symbols, Expr.symbols]))
    simp only [mkPropAbs, Expr.eval, same.value]
  | apply f ts ih =>
    intro pa linked
    refine abstractOr_spec linked input fun needs => ?_
    have terms := mkPropAbsList_spec linked fun t ht => ih t ht (input.term (.inl ⟨f, rfl⟩) ht)
    refine ⟨terms.linked, terms.extends_, fun interp env => ?_, ?_, rfl⟩
    · have same := interp.off f (input.concrete f (by simp [Node.symbols, Expr.symbols]))
      simp only [Expr.eval, terms.eval interp, same.value]
    · have empty := congrArg List.isEmpty terms.sorts
      simp only [List.isEmpty_map] at empty
      simp only [needsAbstraction] at needs
      simp only [propositional, terms.done, Bool.and_true, needsAbstraction,
        any_nodeSort_congr terms.sorts, empty, needs, Bool.not_false]
  | and ts ih | or ts ih =>
    intro pa linked
    refine abstractOr_spec linked input fun needs => ?_
    have terms := mkPropAbsList_spec linked fun t ht => ih t ht (input.term (by simp) ht)
    refine ⟨terms.linked, terms.extends_, fun interp env => ?_, ?_, rfl⟩
    · simp only [Expr.eval, terms.eval interp]
    · simp only [needsAbstraction, children] at needs
      simp only [propositional, terms.done, Bool.and_true, needsAbstraction, children,
        any_nodeSort_congr terms.sorts, needs, Bool.not_false]
  | not a ha =>
    intro pa linked
    refine abstractOr_spec linked input fun needs => ?_
    have body := ha (input.of_subset (by simp [Expr.freeVariables]) (by simp [Expr.wellSorted])
      (by simp [Expr.symbols])) pa linked
    refine ⟨body.linked, body.extends_, fun interp env => ?_, ?_, rfl⟩
    · simp only [Expr.eval, body.eval interp]
    · simp only [needsAbstraction, children, List.any_cons, List.any_nil] at needs
      simp only [propositional, body.done, Bool.and_true, needsAbstraction, children, List.any_cons,
        List.any_nil, body.sort, needs, Bool.not_false]
  | eq a b ha hb | implies a b ha hb | iff a b ha hb =>
    intro pa linked
    refine abstractOr_spec linked input fun needs => ?_
    obtain ⟨inputA, inputB⟩ : (Node.expr a).Input ∧ (Node.expr b).Input := input.sides (by simp)
    have left := ha inputA pa linked
    have right := hb inputB _ left.linked
    refine ⟨right.linked, left.extends_.trans right.extends_, fun interp env => ?_, ?_, rfl⟩
    · simp only [Expr.eval, left.eval (interp.mono right.extends_), right.eval interp]
    · simp only [needsAbstraction, children, List.any_cons, List.any_nil] at needs
      simp only [propositional, left.done, right.done, Bool.and_true, needsAbstraction, children,
        List.any_cons, List.any_nil, left.sort, right.sort, needs, Bool.not_false]
  | ite c a b hc ha hb =>
    intro pa linked
    refine abstractOr_spec linked input fun needs => ?_
    have cond := hc (input.of_subset (by simp_all [Expr.freeVariables]) (by simp_all [Expr.wellSorted])
      (by simp_all [Expr.symbols])) pa linked
    have left := ha (input.of_subset (by simp_all [Expr.freeVariables]) (by simp_all [Expr.wellSorted])
      (by simp_all [Expr.symbols])) _ cond.linked
    have right := hb (input.of_subset (by simp_all [Expr.freeVariables]) (by simp_all [Expr.wellSorted])
      (by simp_all [Expr.symbols])) _ left.linked
    have extends_ := left.extends_.trans right.extends_
    refine ⟨right.linked, cond.extends_.trans extends_, fun interp env => ?_, ?_, ?_⟩
    · simp only [Expr.eval, cond.eval (interp.mono extends_), left.eval (interp.mono right.extends_),
        right.eval interp]
    · simp only [needsAbstraction, children, List.any_cons, List.any_nil] at needs
      simp only [propositional, cond.done, left.done, right.done, Bool.and_true, needsAbstraction,
        children, List.any_cons, List.any_nil, cond.sort, left.sort, right.sort, needs, Bool.not_false]
    · exact left.sort
  | forAll vs a | «exists» vs a =>
    intro pa linked
    exact abstractOr_spec linked input fun needs => by simp [needsAbstraction] at needs
  | some vs a ha =>
    intro pa linked
    -- a closed description has no parameters
    have params : vs = [] := by
      have closed := input.closed
      simp only [Node.freeVariables, Expr.freeVariables, List.append_eq_nil_iff] at closed
      exact closed.1
    subst params
    refine abstractOr_spec linked input fun needs => ?_
    have body := ha (input.of_subset (by simp [Expr.freeVariables]) (by simp [Expr.wellSorted])
      (by simp [Expr.symbols])) pa linked
    refine ⟨body.linked, body.extends_, fun interp env => rfl, ?_, rfl⟩
    simp only [needsAbstraction, children, List.map_nil, List.nil_append, List.any_cons,
      List.any_nil] at needs
    simp only [propositional, body.done, Bool.and_true, needsAbstraction, children, List.map_nil,
      List.nil_append, List.any_cons, List.any_nil, body.sort, needs, Bool.not_false]
  | someElse vs a b c => simpa [Node.wellSorted, Expr.wellSorted] using input.sorted

theorem mkPropAbsDef_spec {d : Definition} (linked : Linked cfg kept pa)
    (input : (Node.definition d).Input) :
    Linked cfg kept (mkPropAbsDef cfg d pa).2 ∧ pa.Extends (mkPropAbsDef cfg d pa).2 ∧
      ∀ {D : Domain} {s M : Structure D}, (mkPropAbsDef cfg d pa).2.Interprets s M →
        ∀ env, (mkPropAbsDef cfg d pa).1.eval M env = (Node.definition d).eval s env := by
  unfold mkPropAbsDef
  split
  · obtain ⟨linked', found, extends_⟩ := newProp_spec linked input
    exact ⟨linked', extends_, fun interp env => interp.entry _ _ found env⟩
  · have closed := input.closed
    have sorted := input.sorted
    simp only [Node.freeVariables, List.append_eq_nil_iff] at closed
    simp only [Node.wellSorted, Bool.and_eq_true] at sorted
    have sides : ∀ c, (c ∈ d.lhs.symbols ∨ c ∈ d.rhs.symbols) → c ∈ (Node.definition d).symbols :=
      fun c hc => List.mem_append.mpr hc
    have left := mkPropAbs_spec ⟨closed.1, sorted.1, fun c hc => input.concrete c (sides c (.inl hc)),
      fun c hc => input.once c (sides c (.inl hc))⟩ pa linked
    have right := mkPropAbs_spec ⟨closed.2, sorted.2, fun c hc => input.concrete c (sides c (.inr hc)),
      fun c hc => input.once c (sides c (.inr hc))⟩ _ left.linked
    refine ⟨right.linked, left.extends_.trans right.extends_, fun interp env => ?_⟩
    simp only [Node.eval, left.eval (interp.mono right.extends_), right.eval interp]

theorem mkPropAbsDefs_spec {ds : List Definition} (linked : Linked cfg kept pa)
    (input : ∀ d ∈ ds, (Node.definition d).Input) :
    Linked cfg kept (mkPropAbsDefs cfg ds pa).2 ∧ pa.Extends (mkPropAbsDefs cfg ds pa).2 ∧
      ∀ {D : Domain} {s M : Structure D}, (mkPropAbsDefs cfg ds pa).2.Interprets s M →
        List.Forall₂ (fun r d => ∀ env, Node.eval M r env = (Node.definition d).eval s env)
          (mkPropAbsDefs cfg ds pa).1 ds := by
  induction ds generalizing pa with
  | nil => exact ⟨linked, Extends.refl pa, fun _ => .nil⟩
  | cons d ds ih =>
    obtain ⟨linked', extends_, value⟩ := mkPropAbsDef_spec linked (input d List.mem_cons_self)
    obtain ⟨linked'', extends', values⟩ := ih linked' fun e he => input e (List.mem_cons_of_mem _ he)
    exact ⟨linked'', extends_.trans extends', fun interp =>
      .cons (value (interp.mono extends')) (values interp)⟩

theorem mkPropAbsList_forall {ts : List Expr} (linked : Linked cfg kept pa)
    (input : ∀ t ∈ ts, (Node.expr t).Input) :
    Linked cfg kept (mkPropAbsList cfg ts pa).2 ∧ pa.Extends (mkPropAbsList cfg ts pa).2 ∧
      ∀ {D : Domain} {s M : Structure D}, (mkPropAbsList cfg ts pa).2.Interprets s M →
        List.Forall₂ (fun r t => ∀ env, Expr.eval M r env = t.eval s env)
          (mkPropAbsList cfg ts pa).1 ts := by
  induction ts generalizing pa with
  | nil => exact ⟨linked, Extends.refl pa, fun _ => .nil⟩
  | cons t ts ih =>
    have head := mkPropAbs_spec (input t List.mem_cons_self) pa linked
    obtain ⟨linked', extends_, values⟩ := ih head.linked fun u hu => input u (List.mem_cons_of_mem _ hu)
    exact ⟨linked', head.extends_.trans extends_, fun interp =>
      .cons (head.eval (interp.mono extends_)) (values interp)⟩

/-- A propositional expression is left as it is, and so are the abstract constants. -/
theorem mkPropAbs_propositional {e : Expr} (h : propositional cfg e = true) (pa : PropAbs) :
    ∃ syms, mkPropAbs cfg e pa = (e, { pa with finiteSyms := syms }) := by
  have list : ∀ ts : List Expr, (∀ t ∈ ts, propositional cfg t = true → ∀ pa,
      ∃ syms, mkPropAbs cfg t pa = (t, { pa with finiteSyms := syms })) →
      propositionalList cfg ts = true → ∀ pa,
        ∃ syms, mkPropAbsList cfg ts pa = (ts, { pa with finiteSyms := syms }) := by
    intro ts ih
    induction ts with
    | nil => exact fun _ pa => ⟨pa.finiteSyms, rfl⟩
    | cons t ts tail =>
      intro h pa
      simp only [propositionalList, Bool.and_eq_true] at h
      obtain ⟨syms, head⟩ := ih t List.mem_cons_self h.1 pa
      obtain ⟨syms', rest⟩ := tail (fun u hu => ih u (List.mem_cons_of_mem _ hu)) h.2
        { pa with finiteSyms := syms }
      exact ⟨syms', by simp only [mkPropAbsList, head, rest]⟩
  induction e generalizing pa with
  | var v => exact ⟨pa.finiteSyms, rfl⟩
  | const c =>
    simp only [mkPropAbs, track]
    split
    · exact ⟨pa.finiteSyms, rfl⟩
    · exact ⟨_, rfl⟩
  | apply f ts ih | and ts ih | or ts ih =>
    simp only [propositional, Bool.and_eq_true, Bool.not_eq_true'] at h
    obtain ⟨syms, terms⟩ := list ts ih h.2 pa
    exact ⟨syms, by simp [mkPropAbs, abstractOr, h.1, terms]⟩
  | not a ha | some vs a ha =>
    simp only [propositional, Bool.and_eq_true, Bool.not_eq_true'] at h
    obtain ⟨syms, body⟩ := ha h.2 pa
    exact ⟨syms, by simp [mkPropAbs, abstractOr, h.1, body]⟩
  | eq a b ha hb | implies a b ha hb | iff a b ha hb =>
    simp only [propositional, Bool.and_eq_true, Bool.not_eq_true'] at h
    obtain ⟨syms, left⟩ := ha h.1.2 pa
    obtain ⟨syms', right⟩ := hb h.2 { pa with finiteSyms := syms }
    exact ⟨syms', by simp [mkPropAbs, abstractOr, h.1.1, left, right]⟩
  | ite a b c ha hb hc | someElse vs a b c ha hb hc =>
    simp only [propositional, Bool.and_eq_true, Bool.not_eq_true'] at h
    obtain ⟨syms, cond⟩ := ha h.1.1.2 pa
    obtain ⟨syms', left⟩ := hb h.1.2 { pa with finiteSyms := syms }
    obtain ⟨syms'', right⟩ := hc h.2 { pa with finiteSyms := syms' }
    exact ⟨syms'', by simp [mkPropAbs, abstractOr, h.1.1.1, cond, left, right]⟩
  | forAll vs a | «exists» vs a => simp [propositional] at h

theorem propositional_rename {ρ : Renaming} (operators : ∀ c, isInterpretedSymbol c = true → ρ.const c = c)
    {e : Expr} (h : propositional cfg e = true) : propositional cfg (e.rename ρ) = true := by
  have list : ∀ ts : List Expr, (∀ t ∈ ts, propositional cfg t = true →
      propositional cfg (t.rename ρ) = true) → propositionalList cfg ts = true →
      propositionalList cfg (renameList ρ ts) = true := by
    intro ts ih h
    induction ts with
    | nil => rfl
    | cons t ts tail =>
      simp only [propositionalList, Bool.and_eq_true] at h
      simp only [renameList, propositionalList, ih t List.mem_cons_self h.1,
        tail (fun u hu => ih u (List.mem_cons_of_mem _ hu)) h.2, Bool.and_self]
  have sorts : ∀ ts : List Expr, (renameList ρ ts).map Expr.nodeSort = ts.map Expr.nodeSort := by
    intro ts
    rw [renameList_eq_map, List.map_map]
    exact List.map_congr_left fun t _ => Expr.nodeSort_rename ρ t
  induction e with
  | var v => rfl
  | const c => rfl
  | apply f ts ih =>
    simp only [propositional, Bool.and_eq_true, Bool.not_eq_true'] at h
    have empty := congrArg List.isEmpty (sorts ts)
    simp only [List.isEmpty_map] at empty
    have needs := h.1
    simp only [needsAbstraction, Bool.and_eq_false_iff, Bool.or_eq_false_iff, Bool.not_eq_false'] at needs
    simp only [Expr.rename, propositional, list ts ih h.2, Bool.and_true, Bool.not_eq_true',
      needsAbstraction, any_nodeSort_congr (sorts ts), empty, Bool.and_eq_false_iff,
      Bool.or_eq_false_iff, Bool.not_eq_false']
    refine needs.imp id ?_
    rintro ⟨finite, op⟩
    exact ⟨finite, by rw [operators f op]; exact op⟩
  | and ts ih | or ts ih =>
    simp only [propositional, Bool.and_eq_true, Bool.not_eq_true', needsAbstraction, children] at h
    simp only [Expr.rename, propositional, list ts ih h.2, Bool.and_true, needsAbstraction, children,
      any_nodeSort_congr (sorts ts), h.1, Bool.not_false]
  | forAll vs a | «exists» vs a => simp [propositional] at h
  | _ => simp_all [propositional, Expr.rename, needsAbstraction, children]

end PropAbs

end Goivy
