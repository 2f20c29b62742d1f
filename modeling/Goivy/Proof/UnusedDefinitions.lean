import Goivy.Logic.Conservative
import Goivy.Proof.GoalMeaning
import Goivy.TransRel.AtomicActions

/-! Removing the definitions of a goal that its conclusion does not use. -/
namespace Goivy

variable {D : Domain} {M N : Structure D}

/-- The first of the `Args`. -/
def Expr.firstArg : Expr → Option Expr
  | .var _ | .const _ => none
  | .apply _ ts | .and ts | .or ts => ts.head?
  | .eq a _ | .not a | .implies a _ | .iff a _ | .ite a _ _ | .forAll _ a | .exists _ a => Option.some a
  | .some vs a | .someElse vs a _ _ => Option.some (vs.head?.elim a Expr.var)

/-- `IvyNodeRep`. -/
def Expr.nodeRep : Expr → Option Const
  | .apply f _ => Option.some f
  | .const c => Option.some c
  | _ => none

/-- The symbol on the left-hand side of a definition. -/
def Conclusion.definedSym : Conclusion → Option Const
  | .formula e => e.dropUniversals.firstArg.bind Expr.nodeRep
  | .definition d | .definitionSchema d => d.lhs.nodeRep

/-- A premise with what else the checker reads of it: whether it is marked as a definition, and whether a sort is wrapped
in a node of the compiler. -/
structure MarkedPremise where
  node : Premise
  isDefinition : Bool
  compiledSort : Bool

/-- What a premise introduces: nothing where the compiler has wrapped it. -/
inductive Introduced where
  | nothing
  | sort (name : String)
  | symbol (c : Const)

namespace MarkedPremise

/-- The symbol of a premise that is marked as a definition, or of a declaration (`GoalDefines`). -/
def introduced (x : MarkedPremise) : Introduced :=
  match x.node with
  | .sort n => if x.compiledSort then .nothing else .sort n
  | .constantDecl compiled c => if compiled then .nothing else .symbol c
  | .goal _ [] conc => if x.isDefinition then conc.definedSym.elim .nothing .symbol else .nothing
  | .goal _ (_ :: _) _ => .nothing

def symbol (x : MarkedPremise) : Option Const :=
  match x.introduced with
  | .symbol c => some c
  | _ => none

end MarkedPremise

/-- A symbol is looked up among the used ones by its key. The key of a sort is none of theirs. -/
def Introduced.unused (used : List Const) : Introduced → Bool
  | .nothing => false
  | .sort _ => true
  | .symbol c => c ∉ used

/-- The symbols that a kept premise adds to the used ones: only expressions add theirs. A labeled formula and a
declaration are none, and a sort has no symbols. -/
def Premise.exprSymbols : Premise → List Const
  | .sort _ | .constantDecl _ _ | .goal _ _ _ => []

/-- What a goal concludes, also where it is a temporal formula about a program: its truth depends on the symbols of its
formulas. -/
structure GoalConclusion where
  fmlas : List Expr
  Holds : ∀ {D : Domain}, Structure D → Prop
  holds_congr : ∀ {D : Domain} {M N : Structure D}, (∀ f ∈ fmlas, ∀ c ∈ f.symbols, SameAt M N c) → (Holds M ↔ Holds N)

def GoalConclusion.formula (e : Expr) : GoalConclusion where
  fmlas := [e]
  Holds M := e.Valid M
  holds_congr same := Conclusion.holds_congr (.formula e) (same e (List.mem_singleton_self e))

structure MarkedGoal where
  prems : List MarkedPremise
  conc : GoalConclusion

namespace MarkedGoal

/-- The loop over the premises, from the last one to the first. -/
def removeLoop : List MarkedPremise → List Const → List MarkedPremise → List MarkedPremise
  | [], _, newPrems => newPrems
  | x :: rest, usedSyms, newPrems =>
    if x.introduced.unused usedSyms then removeLoop rest usedSyms newPrems
    else removeLoop rest (x.node.exprSymbols ++ usedSyms) (x :: newPrems)

def usedSyms (g : MarkedGoal) : List Const := g.conc.fmlas.flatMap Expr.symbols

/-- `RemoveUnusedDefinitionsGoal`. -/
def removeUnusedDefinitionsGoal (g : MarkedGoal) : MarkedGoal :=
  { g with prems := removeLoop g.prems.reverse g.usedSyms [] }

theorem removeLoop_eq (xs : List MarkedPremise) (used : List Const) (new : List MarkedPremise) :
    removeLoop xs used new = (xs.filter fun x => !x.introduced.unused used).reverse ++ new := by
  induction xs generalizing new with
  | nil => rfl
  | cons x xs ih =>
    have none : x.node.exprSymbols = [] := by cases x.node <;> rfl
    rw [removeLoop, none, List.nil_append, ih, ih]
    by_cases unused : x.introduced.unused used <;> simp [unused]

/-- No kept premise adds to the used symbols, so that one pass over them decides. -/
theorem prems_remove (g : MarkedGoal) : g.removeUnusedDefinitionsGoal.prems =
    g.prems.filter fun x => !x.introduced.unused g.usedSyms := by
  rw [removeUnusedDefinitionsGoal, removeLoop_eq, List.filter_reverse, List.reverse_reverse, List.append_nil]

/-- A goal is valid when its conclusion is true in all structures in which its premises are. -/
def Valid (g : MarkedGoal) : Prop :=
  ∀ {D : Domain} (M : Structure D), (∀ x ∈ g.prems, x.node.Holds M) → g.conc.Holds M

end MarkedGoal

/-- The definition that a formula is, where it is one. -/
def Conclusion.asDefinition : Conclusion → Option Definition
  | .formula e =>
    match e.dropUniversals with
    | .eq a b | .iff a b => if b.isDescription then none else some ⟨a, b⟩
    | _ => none
  | .definition d | .definitionSchema d => some d

def MarkedPremise.definition? (x : MarkedPremise) : Option Definition :=
  match x.node with
  | .goal _ [] conc => if x.isDefinition then conc.asDefinition else none
  | _ => none

/-- Every premise that is marked as a definition defines a symbol by a term without it, and no premise before it uses the
symbol. -/
structure FreshDefinitions (prems : List MarkedPremise) : Prop where
  explicit : ∀ x ∈ prems, x.isDefinition = true → ∀ label conc, x.node = .goal label [] conc →
    ∃ d c vs, conc.asDefinition = some d ∧ d.Explicit c vs ∧ c ∉ d.rhs.symbols
  ordered : prems.Pairwise fun x y => ∀ d, y.definition? = some d → ∀ c, d.defines = .const c → c ∉ x.node.usedSymbols

namespace MarkedGoal

/-- A symbol is dropped only when neither the conclusion nor a kept premise uses it. -/
def DropsUnused (g : MarkedGoal) : Prop :=
  ∀ x ∈ g.prems, x ∉ g.removeUnusedDefinitionsGoal.prems → ∀ c, x.symbol = some c →
    c ∉ g.usedSyms ∧ ∀ y ∈ g.removeUnusedDefinitionsGoal.prems, c ∉ y.node.usedSymbols

/-- Where the conclusion does not use a symbol that a premise introduces, no other premise does, apart from the
definitions of such symbols. -/
def UsedDirectly (g : MarkedGoal) : Prop :=
  ∀ x ∈ g.prems, ∀ c, x.symbol = some c → c ∉ g.usedSyms → ∀ y ∈ g.prems, c ∈ y.node.usedSymbols →
    ∃ d, y.symbol = some d ∧ d ∉ g.usedSyms

end MarkedGoal

theorem Conclusion.symbol_of_explicit {conc : Conclusion} {d : Definition} {c : Const} {vs : List Variable}
    (same : conc.asDefinition = some d) (explicit : d.Explicit c vs) : conc.definedSym = some c := by
  have lhs : d.lhs.nodeRep = some c := by
    obtain ⟨lhs, -⟩ | lhs := explicit.lhs <;> rw [lhs, Expr.nodeRep]
  cases conc with
  | formula e =>
    simp only [asDefinition] at same
    split at same
    · rename_i a b body
      split at same
      · cases same
      · cases same
        rw [definedSym, body]
        exact lhs
    · rename_i a b body
      split at same
      · cases same
      · cases same
        rw [definedSym, body]
        exact lhs
    · cases same
  | definition | definitionSchema =>
    cases same
    exact lhs

/-- A premise is true where its definition is. -/
theorem Conclusion.holds_of_definition {conc : Conclusion} {d : Definition} {c : Const} {vs : List Variable}
    (same : conc.asDefinition = some d) (explicit : d.Explicit c vs) (valid : d.toConstraint.Valid M) : conc.Holds M := by
  have sides : d.rhs.isDescription = false → ∀ env, d.lhs.eval M env = d.rhs.eval M env := by
    intro plain
    refine (valid_definition plain (fun individual => ?_) (fun env => ?_) (explicit.rhs.sort_eval ·)).mp valid
    · obtain ⟨lhs, -⟩ | lhs := explicit.lhs
      · rw [lhs] at individual
        have sort : c.sort = .first .boolean := of_not_not (of_decide_eq_false individual)
        rw [sort]
        rfl
      · rw [lhs] at individual
        exact LSort.first.inj (of_not_not (of_decide_eq_false individual))
    · rw [explicit.eval_lhs]
      rfl
  cases conc with
  | formula e =>
    simp only [asDefinition] at same
    refine (Expr.drop_spec M e).1.mp ?_
    split at same
    · rename_i a b body
      split at same
      · cases same
      · rename_i plain
        cases same
        rw [body]
        exact fun env => (Expr.holds_eq M env _ _).mpr (sides (by simpa using plain) env)
    · rename_i a b body
      split at same
      · cases same
      · rename_i plain
        cases same
        rw [body]
        exact fun env => (Expr.holds_iff M env _ _).mpr (Expr.holds_congr M env (sides (by simpa using plain) env))
    · cases same
  | definition | definitionSchema =>
    cases same
    exact valid

namespace MarkedGoal

variable {g : MarkedGoal}

theorem mem_remove {x : MarkedPremise} : x ∈ g.removeUnusedDefinitionsGoal.prems ↔
    x ∈ g.prems ∧ x.introduced.unused g.usedSyms = false := by
  rw [prems_remove, List.mem_filter, Bool.not_eq_true']

theorem unused_of_symbol {x : MarkedPremise} {c : Const} (symbol : x.symbol = some c) :
    x.introduced.unused g.usedSyms = decide (c ∉ g.usedSyms) := by
  unfold MarkedPremise.symbol at symbol
  split at symbol
  · rename_i d intro
    cases symbol
    rw [intro, Introduced.unused]
  · cases symbol

/-- A dropped premise is a sort, a declaration or a definition, and its symbol is not used. -/
theorem cases_of_unused {x : MarkedPremise} {used : List Const} (unused : x.introduced.unused used = true) :
    (∃ n, x.node = .sort n) ∨ ∃ c, x.symbol = some c ∧ c ∉ used ∧ ((∃ compiled, x.node = .constantDecl compiled c) ∨
      ∃ label conc, x.node = .goal label [] conc ∧ x.isDefinition = true ∧ conc.definedSym = some c) := by
  unfold MarkedPremise.symbol
  unfold MarkedPremise.introduced at unused ⊢
  split at unused
  · rename_i n sort
    exact .inl ⟨n, sort⟩
  · rename_i compiled c decl
    cases compiled with
    | false => exact .inr ⟨c, rfl, of_decide_eq_true unused, .inl ⟨_, decl⟩⟩
    | true => cases unused
  · rename_i label conc goal
    cases defined : conc.definedSym with
    | none =>
      rw [defined] at unused
      split at unused <;> cases unused
    | some c =>
      rw [defined] at unused
      split at unused
      · rename_i marked
        exact .inr ⟨c, by simp [marked], of_decide_eq_true unused, .inr ⟨label, conc, goal, marked, defined⟩⟩
      · cases unused
  · cases unused

/-- Exactly the goals whose symbols are used directly keep what they use. -/
theorem dropsUnused_iff : g.DropsUnused ↔ g.UsedDirectly := by
  constructor
  · intro drops x hx c symbol unused y hy uses
    have dropped : x ∉ g.removeUnusedDefinitionsGoal.prems := by
      rw [mem_remove, unused_of_symbol symbol]
      simp [unused]
    have gone : y ∉ g.removeUnusedDefinitionsGoal.prems := fun kept => (drops x hx dropped c symbol).2 y kept uses
    rw [mem_remove, not_and, Bool.not_eq_false] at gone
    obtain ⟨n, sort⟩ | ⟨d, symbol', unused', -⟩ := cases_of_unused (gone hy)
    · rw [sort] at uses
      cases uses
    · exact ⟨d, symbol', unused'⟩
  · intro direct x hx dropped c symbol
    have unused : c ∉ g.usedSyms := by
      rw [mem_remove, unused_of_symbol symbol, not_and, Bool.not_eq_false, decide_eq_true_eq] at dropped
      exact dropped hx
    refine ⟨unused, fun y hy uses => ?_⟩
    rw [mem_remove] at hy
    obtain ⟨d, symbol', unused'⟩ := direct x hx c symbol unused y hy.1 uses
    rw [unused_of_symbol symbol', decide_eq_false_iff_not] at hy
    exact hy.2 unused'

theorem symbols_of_definition {conc : Conclusion} {d : Definition} (same : conc.asDefinition = some d) :
    conc.symbols = d.symbols := by
  cases conc with
  | formula e =>
    simp only [Conclusion.asDefinition] at same
    rw [Conclusion.symbols, ← (Expr.drop_symbols e).1]
    split at same
    · rename_i a b body
      split at same
      · cases same
      · cases same
        rw [body]
        rfl
    · rename_i a b body
      split at same
      · cases same
      · cases same
        rw [body]
        rfl
    · cases same
  | definition | definitionSchema =>
    cases same
    rfl

theorem definition?_eq_some {x : MarkedPremise} {d : Definition} (same : x.definition? = some d) :
    ∃ label conc, x.node = .goal label [] conc ∧ x.isDefinition = true ∧ conc.asDefinition = some d := by
  unfold MarkedPremise.definition? at same
  split at same
  · rename_i label conc goal
    split at same
    · rename_i marked
      exact ⟨label, conc, goal, marked, same⟩
    · cases same
  · cases same

/-- The definitions that are dropped. -/
def dropped (g : MarkedGoal) : List Definition := g.prems.filterMap fun x =>
  if x.introduced.unused g.usedSyms then x.definition? else none

theorem mem_dropped {d : Definition} : d ∈ g.dropped ↔
    ∃ x ∈ g.prems, x.introduced.unused g.usedSyms = true ∧ x.definition? = some d := by
  rw [dropped, List.mem_filterMap]
  refine exists_congr fun x => and_congr_right fun _ => ?_
  split
  · rename_i unused
    simp [unused]
  · rename_i used
    simp [used]

theorem explicit_of_definition (fresh : FreshDefinitions g.prems) {x : MarkedPremise} (hx : x ∈ g.prems) {d : Definition}
    (same : x.definition? = some d) : ∃ c vs, d.Explicit c vs ∧ c ∉ d.rhs.symbols ∧
      ∀ used, x.introduced.unused used = true → x.symbol = some c := by
  obtain ⟨label, conc, goal, marked, same⟩ := definition?_eq_some same
  obtain ⟨d', c, vs, same', explicit, absent⟩ := fresh.explicit x hx marked label conc goal
  cases same.symm.trans same'
  refine ⟨c, vs, explicit, absent, fun used _ => ?_⟩
  rw [MarkedPremise.symbol, MarkedPremise.introduced, goal]
  simp [marked, Conclusion.symbol_of_explicit same explicit]

/-- The dropped definitions have a common expansion of every structure. -/
theorem exists_dropped (fresh : FreshDefinitions g.prems) (M : Structure D) :
    ∃ N : Structure D, AgreeOff (fun c => ∃ x ∈ g.prems, x.introduced.unused g.usedSyms = true ∧ x.symbol = some c) M N ∧
      ∀ d ∈ g.dropped, d.toConstraint.Valid N := by
  have ordered : g.dropped.Pairwise fun d e => ∀ c, e.defines = .const c → c ∉ d.symbols := by
    refine List.pairwise_filterMap.mpr (fresh.ordered.imp ?_)
    intro x y unused d hd e he c hc mem
    split at hd
    · split at he
      · obtain ⟨label, conc, goal, -, same⟩ := definition?_eq_some hd
        refine unused e he c hc ?_
        rw [goal, Premise.usedSymbols, symbols_of_definition same]
        exact List.mem_append_right _ mem
      · cases he
    · cases hd
  obtain ⟨N, off, valid⟩ := exists_expansion (fun d hd => by
    obtain ⟨x, hx, -, same⟩ := mem_dropped.mp hd
    obtain ⟨c, vs, explicit, absent, -⟩ := explicit_of_definition fresh hx same
    exact ⟨c, vs, explicit, absent⟩) ordered M
  refine ⟨N, fun c other => off c ?_, valid⟩
  rintro ⟨d, hd, defined⟩
  obtain ⟨x, hx, unused, same⟩ := mem_dropped.mp hd
  obtain ⟨c', vs, explicit, -, symbol⟩ := explicit_of_definition fresh hx same
  cases explicit.defines.symm.trans defined
  exact other ⟨x, hx, unused, symbol _ unused⟩

/-- Removing unused definitions keeps the validity of a goal that keeps what it uses. -/
theorem valid_remove (fresh : FreshDefinitions g.prems) (drops : g.DropsUnused) :
    g.removeUnusedDefinitionsGoal.Valid ↔ g.Valid := by
  constructor
  · exact fun valid D M prems => valid M fun x hx => prems x (mem_remove.mp hx).1
  intro valid D M prems
  obtain ⟨N, off, definitions⟩ := exists_dropped fresh M
  have unusedSymbol : ∀ c, (∃ x ∈ g.prems, x.introduced.unused g.usedSyms = true ∧ x.symbol = some c) →
      c ∉ g.usedSyms ∧ ∀ y ∈ g.removeUnusedDefinitionsGoal.prems, c ∉ y.node.usedSymbols := by
    rintro c ⟨x, hx, unused, symbol⟩
    exact drops x hx (by simp [mem_remove, unused]) c symbol
  have conc : g.conc.Holds N := valid N fun x hx => by
    by_cases kept : x ∈ g.removeUnusedDefinitionsGoal.prems
    · have same : ∀ c ∈ x.node.usedSymbols, SameAt M N c := fun c hc =>
        off c fun dropped => (unusedSymbol c dropped).2 x kept hc
      exact (Premise.holds_congr same).mp (prems x kept)
    · rw [mem_remove, not_and, Bool.not_eq_false] at kept
      obtain ⟨n, sort⟩ | ⟨c, symbol, -, ⟨compiled, decl⟩ | ⟨label, conc, goal, marked, -⟩⟩ := cases_of_unused (kept hx)
      · rw [sort]
        trivial
      · rw [decl]
        trivial
      · obtain ⟨d, c', vs, same, explicit, -⟩ := fresh.explicit x hx marked label conc goal
        have mem : d ∈ g.dropped := mem_dropped.mpr ⟨x, hx, kept hx, by
          rw [MarkedPremise.definition?, goal]
          simp [marked, same]⟩
        rw [goal, Premise.holds_plain]
        exact Conclusion.holds_of_definition same explicit (definitions d mem)
  have same : ∀ f ∈ g.conc.fmlas, ∀ c ∈ f.symbols, SameAt M N c := fun f hf c hc =>
    off c fun dropped => (unusedSymbol c dropped).1 (List.mem_flatMap.mpr ⟨f, hf, hc⟩)
  exact (g.conc.holds_congr same).mpr conc

/-- Removing unused definitions keeps the validity and drops only what is unused, exactly where the symbols of the
definitions are used directly. -/
theorem removeUnused_iff (g : MarkedGoal) (fresh : FreshDefinitions g.prems) :
    ((g.removeUnusedDefinitionsGoal.Valid ↔ g.Valid) ∧ g.DropsUnused) ↔ g.UsedDirectly :=
  ⟨fun h => dropsUnused_iff.mp h.2, fun direct =>
    ⟨valid_remove fresh (dropsUnused_iff.mpr direct), dropsUnused_iff.mpr direct⟩⟩

def itemConst (n : String) : Const := ⟨n, .first (.uninterpreted "t")⟩

/-- The declaration of a constant, and its definition by another one. -/
def constantDefinition (lhs rhs : String) : List MarkedPremise :=
  [⟨.constantDecl false (itemConst lhs), false, false⟩,
    ⟨.goal none [] (.formula (.eq (.const (itemConst lhs)) (.const (itemConst rhs)))), true, false⟩]

def itemsEqual (lhs rhs : String) : GoalConclusion := .formula (.eq (.const (itemConst lhs)) (.const (itemConst rhs)))

/-- f is defined as h, and the goal is f = h. -/
def oneDefinition : MarkedGoal := ⟨constantDefinition "f" "h", itemsEqual "f" "h"⟩

/-- g is defined as h and f as g, and the goal is f = h. -/
def twoDefinitions : MarkedGoal := ⟨constantDefinition "g" "h" ++ constantDefinition "f" "g", itemsEqual "f" "h"⟩

theorem itemDefinition_explicit {lhs rhs : String} : (⟨.const (itemConst lhs), .const (itemConst rhs)⟩ : Definition).Explicit
    (itemConst lhs) [] :=
  ⟨.inl ⟨rfl, rfl⟩, .nil, rfl, .plain rfl rfl (List.Subset.refl _)⟩

theorem explicit_constantDefinition {lhs rhs : String} (ne : rhs ≠ lhs) {x : MarkedPremise}
    (hx : x ∈ constantDefinition lhs rhs) (marked : x.isDefinition = true) {label : Option String} {conc : Conclusion}
    (goal : x.node = .goal label [] conc) :
    ∃ d c vs, conc.asDefinition = some d ∧ d.Explicit c vs ∧ c ∉ d.rhs.symbols := by
  rcases List.mem_pair.mp hx with rfl | rfl
  · cases marked
  · cases goal
    refine ⟨_, _, _, rfl, itemDefinition_explicit, ?_⟩
    simpa [Expr.symbols, itemConst] using ne.symm

theorem holds_constantDefinition {lhs rhs : String} : (∀ x ∈ constantDefinition lhs rhs, x.node.Holds M) ↔
    M.value (itemConst lhs) [] = M.value (itemConst rhs) [] := by
  have equation : (Premise.goal none [] (.formula (.eq (.const (itemConst lhs)) (.const (itemConst rhs))))).Holds M ↔
      M.value (itemConst lhs) [] = M.value (itemConst rhs) [] := by
    rw [Premise.holds_plain]
    exact ⟨fun h => (Expr.holds_eq M _ _ _).mp (h (Classical.arbitrary _)), fun h env => (Expr.holds_eq M env _ _).mpr h⟩
  rw [constantDefinition, List.forall_mem_cons, List.forall_mem_singleton, equation]
  exact ⟨And.right, fun h => ⟨trivial, h⟩⟩

theorem removeUnused_iff_oneDefinition :
    (oneDefinition.removeUnusedDefinitionsGoal.Valid ↔ oneDefinition.Valid) ∧ oneDefinition.DropsUnused := by
  refine (removeUnused_iff oneDefinition ⟨fun x hx marked label conc goal =>
    explicit_constantDefinition (by decide) hx marked goal, ?_⟩).mpr ?_
  · simp [oneDefinition, constantDefinition, Premise.usedSymbols]
  · intro x hx c symbol unused
    have used : itemConst "f" ∈ oneDefinition.usedSyms := by decide
    rcases List.mem_pair.mp hx with rfl | rfl
    · cases symbol
      exact absurd used unused
    · cases symbol
      exact absurd used unused

/-- The definition of g is dropped although that of f is kept, and with it the validity of the goal. -/
theorem twoDefinitions_lost : FreshDefinitions twoDefinitions.prems ∧ twoDefinitions.Valid ∧
    ¬ twoDefinitions.removeUnusedDefinitionsGoal.Valid := by
  refine ⟨⟨fun x hx marked label conc goal => ?_, ?_⟩, fun M prems env => ?_, fun valid => ?_⟩
  · rcases List.mem_append.mp hx with hx | hx
    · exact explicit_constantDefinition (by decide) hx marked goal
    · exact explicit_constantDefinition (by decide) hx marked goal
  · simp [twoDefinitions, constantDefinition, Premise.usedSymbols, Premise.usedSymbolsList, Conclusion.symbols,
      MarkedPremise.definition?, Conclusion.asDefinition, Expr.dropUniversals, Expr.isDescription, Expr.symbols, itemConst,
      Definition.defines]
  · rw [twoDefinitions, List.forall_mem_append, holds_constantDefinition, holds_constantDefinition] at prems
    exact (Expr.holds_eq M env _ _).mpr (prems.2.trans prems.1)
  · -- f and g are the same element, and h is another one
    let M : Structure Domain.two := fun n s _ => .two (n ≠ "h") s.range
    have removed : twoDefinitions.removeUnusedDefinitionsGoal.prems = constantDefinition "f" "g" := rfl
    have equal := valid M (removed ▸ holds_constantDefinition.mpr rfl) (Classical.arbitrary _)
    have values : M.value (itemConst "f") [] = M.value (itemConst "h") [] := (Expr.holds_eq M _ _ _).mp equal
    rw [Structure.value_eq M rfl, Structure.value_eq M rfl] at values
    exact Bool.noConfusion (eq_of_heq (Sigma.mk.inj values).2)

end MarkedGoal

end Goivy
