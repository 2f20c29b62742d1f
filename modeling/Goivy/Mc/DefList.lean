import Goivy.Mc.Callback
import Goivy.Mc.Boundary
import Goivy.Module.Clauses
import Goivy.Util.InsMap
import Goivy.Logic.Vocabulary
import Goivy.Logic.Sorting
import Goivy.Util.OptionList

/-! Definitions as circuits. A symbol that is used before its definition is defined by a callback. -/
namespace Goivy

namespace Encoder

/-- `DefineSym`. -/
def defineSym (enc : Encoder) (sym : Const) (val : List Nat) : Encoder :=
  let names := (enc.encoding sym).getD (bitNames sym.name val.length)
  { enc with encoding := Function.update enc.encoding sym (some names),
             sub := (names.zip val).foldl (fun a p => a.define p.1 p.2) enc.sub }

/-- The symbol and the right-hand side of each definition. -/
def definedSymbols (defs : List Definition) : List (Const × Expr) :=
  defs.filterMap fun d =>
    match d.defines with
    | .const sym => some (sym, d.rhs)
    | _ => none

/-- The callback of `DefList`. It diverges where it is called more often. -/
def getdef (dmap : List (Const × Expr)) : Nat → GetDefFunc
  | 0, _, _ => .error .diverges
  | fuel + 1, enc, sym =>
    match dmap.reverse.lookup sym with
    | none => .error (.noDefinition sym.name)
    | some body => do
      let (enc, val) ← enc.eval body (some (getdef dmap fuel))
      return (enc.defineSym sym val, val)

/-- The loop over the definitions. -/
def defineAll (dmap : List (Const × Expr)) (fuel : Nat) : List (Const × Expr) → Encoder → Except EvalError Encoder
  | [], enc => .ok enc
  | (sym, rhs) :: ds, enc => do
    let (enc, val) ← enc.eval rhs (some (getdef dmap fuel))
    defineAll dmap fuel ds (enc.defineSym sym val)

/-- `DefList`. -/
def defList (enc : Encoder) (defs : List Definition) (fuel : Nat) : Except EvalError Encoder :=
  defineAll (definedSymbols defs) fuel (definedSymbols defs) enc

end Encoder

/-- The bits of a name become literals; nothing else changes. -/
theorem Aiger.define_fold {names : List String} (a : Aiger) (val : List Nat) (distinct : names.Nodup)
    (length : names.length = val.length) :
    ∃ m, (names.zip val).foldl (fun a p => a.define p.1 p.2) a = { a with varMap := m } ∧
      (∀ n, n ∉ names → m n = a.varMap n) ∧ names.mapM m = some val := by
  induction names generalizing a val with
  | nil =>
    obtain rfl := List.length_eq_zero_iff.mp length.symm
    exact ⟨a.varMap, rfl, fun _ _ => rfl, rfl⟩
  | cons n names ih =>
    cases val with
    | nil => cases length
    | cons l val =>
      obtain ⟨fresh, distinct⟩ := List.nodup_cons.mp distinct
      obtain ⟨m, folded, other, mapped⟩ := ih (a.define n l) val distinct (Nat.succ.inj length)
      refine ⟨m, folded, fun x hx => ?_, ?_⟩
      · rw [List.mem_cons, not_or] at hx
        exact (other x hx.2).trans (Function.update_of_ne hx.1 ..)
      · have here : m n = some l := (other n fresh).trans (Function.update_self ..)
        rw [List.mapM_cons, here, mapped]
        rfl

/-- Definitions of distinct symbols that do not depend on themselves. -/
structure DefSystem (sig : Signature) (base : List Const) (ds : List (Const × Expr)) (rank : Const → Nat) :
    Prop where
  declares : sig.Declares (base ++ ds.map Prod.fst)
  typed : ∀ d ∈ ds, ∃ s, d.1.sort = .first s ∧ sig.WellSorted (base ++ ds.map Prod.fst) d.2 s
  acyclic : ∀ d ∈ ds, ∀ c ∈ d.2.symbols, c ∈ ds.map Prod.fst → rank c < rank d.1

/-- The symbols have the values of their right-hand sides. -/
def Satisfies {D : Domain} (ds : List (Const × Expr)) (M : Structure D) (env : Env D) : Prop :=
  ∀ d ∈ ds, (Expr.const d.1).eval M env = d.2.eval M env

namespace Encoder

variable (sig : Signature) (base : List Const) (ds : List (Const × Expr)) (enc : Encoder)

/-- The structures that the inputs of an encoder denote, with the definitions. -/
def definedScope : Scope := fun v _ M env => enc.Denotes sig base v M env ∧ Satisfies ds M env

/-- An encoder while definitions are added to `enc`, after the symbols `done` got theirs. -/
structure Midway (done : List Const) (enc' : Encoder) : Prop where
  interp : enc'.interp = sig.interp
  isConstructor : ∀ x, enc'.isConstructor x = decide (x.name ∈ sig.constructors)
  index : enc'.constructorIndexFn = constructorIndex sig.interp
  numbered : enc'.sub.Numbered
  extends_ : enc.Extends enc'
  inputs : ∀ x ∈ base, (∃ k, enc'.encoding x = some (bitNames x.name k)) ∧ enc'.lit x = enc.lit x
  names : ∀ d ∈ ds, ∀ s, d.1.sort = .first s → ∀ th, HasTheory s sig.interp th →
    (enc'.encoding d.1).getD (bitNames d.1.name th.width) = bitNames d.1.name th.width
  defined : ∀ d ∈ ds, ∀ s, d.1.sort = .first s → ∀ th, HasTheory s sig.interp th → ∀ ls, enc'.lit d.1 = some ls →
    Reads sig (definedScope sig base ds enc) enc' (.const d.1) s th ls
  done : ∀ d ∈ ds, d.1 ∈ done → enc'.lit d.1 ≠ none

variable {sig base ds enc} {rank : Const → Nat} {done : List Const} {enc' : Encoder}

theorem Midway.grows (h : Midway sig base ds enc done enc') {a : Aiger} (grows : enc'.sub.Grows a) :
    Midway sig base ds enc done { enc' with sub := a } := by
  have lit : ∀ x, Encoder.lit { enc' with sub := a } x = enc'.lit x := fun x => by
    rw [Encoder.lit, Encoder.lit, grows.varMap]
  have extend : enc'.Extends { enc' with sub := a } := .ofGrows grows
  refine ⟨h.interp, h.isConstructor, h.index, grows.numbered, h.extends_.trans extend, fun x hx => ?_, h.names,
    fun d hd s sort th ht ls found => ?_, fun d hd mem => ?_⟩
  · rw [lit]
    exact h.inputs x hx
  · rw [lit] at found
    exact (h.defined d hd s sort th ht ls found).mono extend
  · rw [lit]
    exact h.done d hd mem

variable (sig base ds enc done) in
/-- `Midway` as an invariant of evaluations. -/
def midway : Invariant sig where
  holds := Midway sig base ds enc done
  interp _ h := h.interp
  isConstructor _ h := h.isConstructor
  index _ h := h.index
  numbered _ h := h.numbered
  grows _ _ h := h.grows

variable (system : DefSystem sig base ds rank)

include system

theorem eq_of_name {d e : Const × Expr} (hd : d ∈ ds) (he : e ∈ ds)
    (same : d.1.name = e.1.name) : d = e := by
  have names := system.declares.names
  rw [List.map_append, List.nodup_append, List.map_map] at names
  exact List.inj_on_of_nodup_map names.2.1 hd he same

theorem name_ne {d : Const × Expr} (hd : d ∈ ds) {x : Const} (hx : x ∈ base) :
    x.name ≠ d.1.name := by
  have names := system.declares.names
  rw [List.map_append, List.nodup_append, List.map_map] at names
  exact names.2.2 _ (List.mem_map_of_mem hx) _ (List.mem_map.mpr ⟨d, hd, rfl⟩)

/-- A definition of a symbol leaves all others as they are. -/
theorem Midway.defineSym (h : Midway sig base ds enc done enc') {d : Const × Expr} (hd : d ∈ ds) {s : FSort}
    (sort : d.1.sort = .first s) {th : FiniteTheory} (ht : HasTheory s sig.interp th) {val : List Nat}
    (reads : Reads sig (definedScope sig base ds enc) enc' (.const d.1) s th val) :
    Midway sig base ds enc (d.1 :: done) (enc'.defineSym d.1 val) ∧ enc'.Extends (enc'.defineSym d.1 val) := by
  have names : (enc'.encoding d.1).getD (bitNames d.1.name val.length) = bitNames d.1.name th.width := by
    rw [reads.length]
    exact h.names d hd s sort th ht
  obtain ⟨m, folded, other, mapped⟩ := Aiger.define_fold enc'.sub val (bitNames_nodup d.1.name th.width)
    (by rw [bitNames, List.length_map, List.length_range, reads.length])
  have shape : enc'.defineSym d.1 val =
      { enc' with encoding := Function.update enc'.encoding d.1 (some (bitNames d.1.name th.width)),
                  sub := { enc'.sub with varMap := m } } := by
    rw [Encoder.defineSym, names, folded]
  have encodingHere : (enc'.defineSym d.1 val).encoding d.1 = some (bitNames d.1.name th.width) := by
    rw [shape]
    exact Function.update_self ..
  have varMap : (enc'.defineSym d.1 val).sub.varMap = m := by
    rw [shape]
  have here : (enc'.defineSym d.1 val).lit d.1 = some val := by
    rw [Encoder.lit, encodingHere, varMap]
    exact mapped
  have elsewhere : ∀ y : Const, y.name ≠ d.1.name → (∀ ns, enc'.encoding y = some ns → ∃ k, ns = bitNames y.name k) →
      (enc'.defineSym d.1 val).encoding y = enc'.encoding y ∧ (enc'.defineSym d.1 val).lit y = enc'.lit y := by
    intro y ne form
    have encoding : (enc'.defineSym d.1 val).encoding y = enc'.encoding y := by
      rw [shape]
      exact Function.update_of_ne (fun same => ne (congrArg Const.name same)) ..
    refine ⟨encoding, ?_⟩
    rw [Encoder.lit, encoding, Encoder.lit]
    cases found : enc'.encoding y with
    | none => rfl
    | some ns =>
      obtain ⟨k, rfl⟩ := form ns found
      rw [varMap]
      refine mapM_congr_some fun n hn => other n fun hn' => ?_
      obtain ⟨i, -, rfl⟩ := mem_bitNames hn
      obtain ⟨j, -, same⟩ := mem_bitNames hn'
      exact ne (bitName_inj same).1
  have form : ∀ e ∈ ds, ∀ ns, enc'.encoding e.1 = some ns → ∃ k, ns = bitNames e.1.name k := by
    intro e he ns found
    obtain ⟨t, sortE, -⟩ := system.typed e he
    obtain ⟨th', ht'⟩ : ∃ th', HasTheory t sig.interp th' := by
      obtain ⟨t', mem, sort'⟩ := system.declares.sorts e.1 (List.mem_append_right _ (List.mem_map_of_mem he))
      obtain rfl : t = t' := LSort.first.inj (sortE.symm.trans sort')
      exact Signature.theory_of_mem mem
    have same := h.names e he t sortE th' ht'
    rw [found, Option.getD_some] at same
    exact ⟨_, same⟩
  have others : ∀ e ∈ ds, e = d ∨ (enc'.defineSym d.1 val).encoding e.1 = enc'.encoding e.1 ∧
      (enc'.defineSym d.1 val).lit e.1 = enc'.lit e.1 := by
    intro e he
    by_cases same : e.1.name = d.1.name
    · exact .inl (eq_of_name system he hd same)
    · exact .inr (elsewhere e.1 same (form e he))
  have extend : enc'.Extends (enc'.defineSym d.1 val) := by
    rw [shape]
    exact ⟨List.prefix_rfl, Nat.le_refl _⟩
  refine ⟨⟨?_, ?_, ?_, ?_, h.extends_.trans extend, fun x hx => ?_, fun e he t sortE th' ht' => ?_,
    fun e he t sortE th' ht' ls found => ?_, fun e he mem => ?_⟩, extend⟩
  · rw [shape]
    exact h.interp
  · rw [shape]
    exact h.isConstructor
  · rw [shape]
    exact h.index
  · rw [shape]
    exact ⟨h.numbered.ordered, h.numbered.nextID, h.numbered.value⟩
  · obtain ⟨⟨k, encoding⟩, lit⟩ := h.inputs x hx
    obtain ⟨sameEncoding, sameLit⟩ := elsewhere x (name_ne system hd hx) fun ns found =>
      ⟨k, Option.some.inj (found.symm.trans encoding)⟩
    exact ⟨⟨k, sameEncoding.trans encoding⟩, sameLit.trans lit⟩
  · rcases others e he with rfl | ⟨encoding, -⟩
    · obtain rfl : s = t := LSort.first.inj (sort.symm.trans sortE)
      rw [ht'.unique ht, encodingHere, Option.getD_some]
    · rw [encoding]
      exact h.names e he t sortE th' ht'
  · rcases others e he with rfl | ⟨-, lit⟩
    · obtain rfl : s = t := LSort.first.inj (sort.symm.trans sortE)
      obtain rfl : val = ls := Option.some.inj (here.symm.trans found)
      rw [ht'.unique ht]
      exact reads.mono extend
    · rw [lit] at found
      exact (h.defined e he t sortE th' ht' ls found).mono extend
  · rcases others e he with rfl | ⟨-, lit⟩
    · rw [here]
      exact Option.some_ne_none val
    · rw [lit]
      rcases List.mem_cons.mp mem with same | mem
      · obtain rfl := eq_of_name system he hd (congrArg Const.name same)
        rw [← lit, here]
        exact Option.some_ne_none val
      · exact h.done e he mem

omit system in
/-- The expressions keep their sorts over the symbols that occur in them. -/
theorem wellSorted_restrict {syms syms' : List Const} {e : Expr} {s : FSort} (ws : sig.WellSorted syms e s)
    (inside : ∀ c ∈ e.symbols, c ∈ syms → c ∈ syms') : sig.WellSorted syms' e s := by
  induction ws with
  | symbol mem sort => exact .symbol (inside _ (by simp [Expr.symbols]) mem) sort
  | constructor hs h hn => exact .constructor hs h hn
  | numeral hs h numeral value inRange => exact .numeral hs h numeral value inRange
  | and _ ih =>
    refine .and fun t ht => ih t ht fun c hc => inside c ?_
    rw [Expr.symbols, symbolsList_eq_flatMap]
    exact List.mem_flatMap.mpr ⟨t, ht, hc⟩
  | or _ ih =>
    refine .or fun t ht => ih t ht fun c hc => inside c ?_
    rw [Expr.symbols, symbolsList_eq_flatMap]
    exact List.mem_flatMap.mpr ⟨t, ht, hc⟩
  | not _ ih => exact .not (ih inside)
  | implies _ _ ihA ihB =>
    exact .implies (ihA fun c hc => inside c (List.mem_append_left _ hc))
      (ihB fun c hc => inside c (List.mem_append_right _ hc))
  | iff _ _ ihA ihB =>
    exact .iff (ihA fun c hc => inside c (List.mem_append_left _ hc))
      (ihB fun c hc => inside c (List.mem_append_right _ hc))
  | eq _ _ ihA ihB =>
    exact .eq (ihA fun c hc => inside c (List.mem_append_left _ hc))
      (ihB fun c hc => inside c (List.mem_append_right _ hc))
  | ite _ _ _ ihC ihA ihB =>
    simp only [Expr.symbols, List.mem_append] at inside
    exact .ite (ihC fun c hc => inside c (.inl (.inl hc))) (ihA fun c hc => inside c (.inl (.inr hc)))
      (ihB fun c hc => inside c (.inr hc))

/-- The symbols that a definition may use. -/
def below (rank : Const → Nat) (base : List Const) (ds : List (Const × Expr)) (n : Nat) : List Const :=
  base ++ (ds.map Prod.fst).filter (rank · < n)

theorem declares_below (n : Nat) : sig.Declares (below rank base ds n) := by
  have sub : (below rank base ds n).Sublist (base ++ ds.map Prod.fst) :=
    (List.Sublist.refl base).append List.filter_sublist
  exact ⟨system.declares.names.sublist (sub.map _), fun x hx => system.declares.sorts x (sub.subset hx),
    fun x hx => system.declares.fresh x (sub.subset hx)⟩

theorem wellSorted_below {d : Const × Expr} (hd : d ∈ ds) {s : FSort} (sort : d.1.sort = .first s) :
    sig.WellSorted (below rank base ds (rank d.1)) d.2 s := by
  obtain ⟨t, sort', ws⟩ := system.typed d hd
  obtain rfl : s = t := LSort.first.inj (sort.symm.trans sort')
  refine wellSorted_restrict ws fun c hc mem => ?_
  rcases List.mem_append.mp mem with mem | mem
  · exact List.mem_append_left _ mem
  · exact List.mem_append_right _ (List.mem_filter.mpr ⟨mem, by simpa using system.acyclic d hd c hc mem⟩)

/-- The callback defines a symbol. -/
def CallsBack (sig : Signature) (base : List Const) (ds : List (Const × Expr)) (enc : Encoder) (done : List Const)
    (fuel : Nat) (d : Const × Expr) : Prop :=
  ∀ s, d.1.sort = .first s → ∀ th, HasTheory s sig.interp th → ∀ enc', Midway sig base ds enc done enc' →
    ∃ enc₁ ls, Gives (midway sig base ds enc done) (definedScope sig base ds enc) enc'
      (getdef ds fuel enc' d.1) (.const d.1) s th enc₁ ls

variable (encodable : sig.Encodable) (ready : enc.Ready sig base)

include encodable ready

/-- A right-hand side is evaluated when the callback defines the symbols that it uses. -/
theorem rhs_gives {d : Const × Expr} (hd : d ∈ ds) {fuel : Nat}
    (callback : ∀ e ∈ ds, rank e.1 < rank d.1 → CallsBack sig base ds enc done fuel e) {s : FSort}
    (sort : d.1.sort = .first s) {th : FiniteTheory} (ht : HasTheory s sig.interp th)
    (h : Midway sig base ds enc done enc') : ∃ enc₁ val, enc'.eval d.2 (some (getdef ds fuel)) = .ok (enc₁, val) ∧
      Midway sig base ds enc done enc₁ ∧ enc'.Extends enc₁ ∧
      Reads sig (definedScope sig base ds enc) enc₁ (.const d.1) s th val := by
  have symbols : ∀ x ∈ below rank base ds (rank d.1), ∀ s, x.sort = .first s → ∀ th, HasTheory s sig.interp th →
      ∀ enc', (midway sig base ds enc done).holds enc' → ∃ enc₁ ls, Gives (midway sig base ds enc done)
        (definedScope sig base ds enc) enc' (enc'.evalSymbol (some (getdef ds fuel)) x) (.const x) s th enc₁ ls := by
    intro x hx s sort th ht enc' h
    rcases List.mem_append.mp hx with hx | hx
    · obtain ⟨ls, lit, length, exist⟩ := ready.lits x hx s sort th ht
      have found := (h.inputs x hx).2.trans lit
      refine ⟨enc', ls, evalSymbol_some found, h, .refl enc', length,
        fun l hl => h.extends_.exists_ (exist l hl), fun v _ D M number env _ inside => ?_⟩
      exact inside.1 x hx s sort th ht ls lit
    · obtain ⟨mem, lower⟩ := List.mem_filter.mp hx
      obtain ⟨e, he, rfl⟩ := List.mem_map.mp mem
      cases found : enc'.lit e.1 with
      | some ls => exact ⟨enc', ls, evalSymbol_some found, h, .refl enc', h.defined e he s sort th ht ls found⟩
      | none =>
        obtain ⟨enc₁, ls, called⟩ := callback e he (by simpa using lower) s sort th ht enc' h
        refine ⟨enc₁, ls, ?_⟩
        rw [evalSymbol_none found]
        exact called
  obtain ⟨enc₁, val, given⟩ := gives (midway sig base ds enc done) (definedScope sig base ds enc)
    (some (getdef ds fuel)) (declares_below system _) encodable symbols (wellSorted_below system hd sort) th ht enc' h
  have mem : s ∈ .boolean :: sig.sorts := by
    obtain ⟨t, mem, sort'⟩ := system.declares.sorts d.1 (List.mem_append_right _ (List.mem_map_of_mem hd))
    rwa [LSort.first.inj (sort.symm.trans sort')]
  have nonempty : val ≠ [] := by
    rintro rfl
    have width := FiniteTheory.width_pos (encodable.theory mem ht)
    rw [← given.reads.length] at width
    exact absurd width (by decide)
  refine ⟨enc₁, val, ?_, given.holds, given.extends_, given.reads.length, given.reads.exists_,
    fun v settled D M number env standard inside => ?_⟩
  · rw [eval, given.result]
    simp only [bind, Except.bind, if_neg nonempty]
  · rw [inside.2 d hd]
    exact given.reads.means v settled D M number env standard inside

omit encodable ready in
theorem lookup_definition {d : Const × Expr} (hd : d ∈ ds) : ds.reverse.lookup d.1 = some d.2 := by
  cases found : ds.reverse.lookup d.1 with
  | none =>
    have differ := List.lookup_eq_none_iff.mp found d (List.mem_reverse.mpr hd)
    simp at differ
  | some e =>
    have mem := List.mem_reverse.mp (InsMap.mem_of_lookup found)
    exact congrArg (fun p => some p.2) (eq_of_name system hd mem rfl).symm

/-- The callback ends for a symbol when its calls are more than the rank of the symbol. -/
theorem getdef_callsBack {d : Const × Expr} (hd : d ∈ ds) {fuel : Nat} (enough : rank d.1 < fuel) :
    CallsBack sig base ds enc done fuel d := by
  induction fuel generalizing d with
  | zero => contradiction
  | succ fuel ih =>
    intro s sort th ht enc' h
    obtain ⟨enc₁, val, evaluated, holds, extend, reads⟩ := rhs_gives system encodable ready hd
      (fun e he lower => ih he (by omega)) sort ht h
    obtain ⟨defined, more⟩ := holds.defineSym system hd sort ht reads
    refine ⟨enc₁.defineSym d.1 val, val, ?_, ?_, extend.trans more, reads.mono more⟩
    · rw [getdef, lookup_definition system hd]
      simp only [evaluated, bind, Except.bind, pure, Except.pure]
    · exact { defined with done := fun e he mem => defined.done e he (List.mem_cons_of_mem _ mem) }

/-- The loop defines its symbols. -/
theorem defineAll_midway {rest : List (Const × Expr)} (inside : ∀ d ∈ rest, d ∈ ds) {fuel : Nat}
    (enough : ∀ d ∈ ds, rank d.1 < fuel) (h : Midway sig base ds enc done enc') :
    ∃ enc₁, defineAll ds fuel rest enc' = .ok enc₁ ∧ Midway sig base ds enc (rest.map Prod.fst ++ done) enc₁ := by
  induction rest generalizing done enc' with
  | nil => exact ⟨enc', rfl, h⟩
  | cons d rest ih =>
    have hd := inside d List.mem_cons_self
    obtain ⟨s, sort, -⟩ := system.typed d hd
    obtain ⟨t, mem, sort'⟩ := system.declares.sorts d.1 (List.mem_append_right _ (List.mem_map_of_mem hd))
    obtain rfl : s = t := LSort.first.inj (sort.symm.trans sort')
    obtain ⟨th, ht⟩ := Signature.theory_of_mem mem
    obtain ⟨enc₁, val, evaluated, holds, extend, reads⟩ := rhs_gives system encodable ready hd
      (fun e he _ => getdef_callsBack system encodable ready he (enough e he)) sort ht h
    obtain ⟨defined, -⟩ := holds.defineSym system hd sort ht reads
    obtain ⟨enc₂, looped, last⟩ := ih (fun e he => inside e (List.mem_cons_of_mem _ he)) defined
    refine ⟨enc₂, ?_, ?_⟩
    · rw [defineAll, evaluated]
      exact looped
    · refine { last with done := fun e he mem => last.done e he ?_ }
      simp only [List.map_cons, List.mem_append, List.mem_cons] at mem ⊢
      tauto

end Encoder

namespace DefSystem

variable {sig : Signature} {base : List Const} {ds : List (Const × Expr)} {rank : Const → Nat} {D : Domain}

/-- A structure in which the symbols have the values of their definitions, and all others are the same. -/
def Expands (ds : List (Const × Expr)) (M M' : Structure D) : Prop :=
  AgreeOff (· ∈ ds.map Prod.fst) M M' ∧ ∀ env, Satisfies ds M' env

theorem hasSort_of_wellSorted {syms : List Const} {e : Expr} {s : FSort} (ws : sig.WellSorted syms e s) :
    e.HasSort [] s := by
  induction ws with
  | symbol _ sort => exact sort
  | constructor | numeral => rfl
  | and _ ih | or _ ih => exact ⟨rfl, hasSorts_map.mpr ih⟩
  | not _ ih => exact ⟨rfl, ih⟩
  | implies _ _ ihA ihB | iff _ _ ihA ihB => exact ⟨rfl, ihA, ihB⟩
  | eq _ _ ihA ihB => exact ⟨rfl, _, ihA, ihB⟩
  | ite _ _ _ ihC ihA ihB => exact ⟨ihC, ihA, ihB⟩

theorem eval_closed {e : Expr} {s : FSort} (h : e.HasSort [] s) (M : Structure D) (env env' : Env D) :
    e.eval M env = e.eval M env' :=
  Expr.eval_freeVariables M fun v hv => by
    rw [Expr.freeVariables_of_hasSort h] at hv
    contradiction

variable (system : DefSystem sig base ds rank)

include system

/-- Every structure has an expansion: the symbols get their values in the order of their ranks. -/
theorem exists_expansion (M : Structure D) : ∃ M', Expands ds M M' := by
  let env₀ : Env D := fun v => Classical.arbitrary _
  have upTo : ∀ n, ∃ N : Structure D, AgreeOff (· ∈ (ds.map Prod.fst).filter (rank · < n)) M N ∧
      ∀ d ∈ ds, rank d.1 < n → ∀ env, (Expr.const d.1).eval N env = d.2.eval N env := by
    intro n
    induction n with
    | zero => exact ⟨M, .refl _ M, fun d _ lt => absurd lt (Nat.not_lt_zero _)⟩
    | succ n ih =>
      obtain ⟨N, agree, lower⟩ := ih
      let cs := (ds.filter fun d => rank d.1 = n).map fun d => (d.1, d.2.eval N env₀)
      have typed : ∀ d ∈ ds, ∃ s, d.1.sort = .first s ∧ d.2.HasSort [] s := fun d hd =>
        (system.typed d hd).imp fun s h => ⟨h.1, hasSort_of_wellSorted h.2⟩
      have symbols : ∀ c, c ∈ cs.map Prod.fst ↔ ∃ d ∈ ds, rank d.1 = n ∧ d.1 = c := by
        simp [cs, and_assoc]
      obtain ⟨N', agree', values⟩ := exists_values N cs
        (by
          have names := system.declares.names
          rw [List.map_append, List.nodup_append, List.map_map] at names
          rw [List.map_map]
          exact names.2.1.sublist (List.filter_sublist.map _))
        (by
          simp only [cs, List.forall_mem_map, List.mem_filter]
          rintro d ⟨hd, -⟩
          obtain ⟨s, sort, h⟩ := typed d hd
          rw [sort, Expr.sort_eval_of_hasSort N h])
      -- the right-hand sides of ranks up to n use symbols below n, which stay as they are
      have rhs : ∀ d ∈ ds, rank d.1 ≤ n → d.2.eval N' = d.2.eval N := fun d hd le =>
        (Expr.eval_congr fun c hc => agree' c fun mem => by
          obtain ⟨e, he, same, rfl⟩ := (symbols c).mp mem
          have := system.acyclic d hd e.1 hc (List.mem_map_of_mem he)
          omega).symm
      refine ⟨N', fun c hc => ?_, fun d hd lt env => ?_⟩
      · refine (agree c fun mem => hc ?_).trans (agree' c fun mem => hc ?_)
        · obtain ⟨mem, lt⟩ := List.mem_filter.mp mem
          exact List.mem_filter.mpr ⟨mem, by simp only [decide_eq_true_eq] at lt ⊢; omega⟩
        · obtain ⟨d, hd, same, rfl⟩ := (symbols c).mp mem
          exact List.mem_filter.mpr ⟨List.mem_map_of_mem hd, by simp only [decide_eq_true_eq]; omega⟩
      · rw [rhs d hd (by omega)]
        rcases Nat.lt_succ_iff_lt_or_eq.mp lt with lt | same
        · have kept : SameAt N N' d.1 := agree' d.1 fun mem => by
            obtain ⟨e, he, same, eq⟩ := (symbols d.1).mp mem
            rw [eq] at same
            omega
          rw [← lower d hd lt env, Expr.eval, Expr.eval, kept.value]
        · have value := values (d.1, d.2.eval N env₀) (List.mem_map.mpr ⟨d, List.mem_filter.mpr ⟨hd, by simpa⟩, rfl⟩)
          obtain ⟨s, -, h⟩ := typed d hd
          rw [Expr.eval, value]
          exact eval_closed h N env₀ env
  obtain ⟨N, agree, satisfied⟩ := upTo ((ds.map fun d => rank d.1).sum + 1)
  have below : ∀ d ∈ ds, rank d.1 < (ds.map fun d => rank d.1).sum + 1 := fun d hd =>
    Nat.lt_succ_of_le (List.le_sum_of_mem (List.mem_map_of_mem hd))
  exact ⟨N, fun c hc => agree c fun mem => hc (List.mem_filter.mp mem).1,
    fun env d hd => satisfied d hd (below d hd) env⟩

omit system in
/-- The values of a sort are the same in all structures with the same numbers. -/
theorem eval_value_same {M M' : Structure D} {number : (s : FSort) → Int → El D s}
    (standard : sig.Standard M number) (standard' : sig.Standard M' number) (encodable : sig.Encodable) {s : FSort}
    (hs : s ∈ .boolean :: sig.sorts) {th : FiniteTheory} (h : HasTheory s sig.interp th) {k : Nat}
    (le : k ≤ th.last) (env : Env D) : (th.value s k).eval M env = (th.value s k).eval M' env := by
  have ok := encodable.theory hs h
  by_cases boolean : th = .boolean
  · subst boolean
    simp only [FiniteTheory.value]
    split <;> simp [Expr.tru, Expr.fls, Expr.eval, evalList]
  · have hs : s ∈ sig.sorts := by
      rcases List.mem_cons.mp hs with rfl | hs
      · exact absurd (h.unique sig.hasTheory_boolean) boolean
      · exact hs
    rw [(Signature.eval_value standard hs h ok boolean le env).1,
      (Signature.eval_value standard' hs h ok boolean le env).1]

/-- Expansion keeps constructors and numerals. -/
theorem standard_expansion {M M' : Structure D} {number : (s : FSort) → Int → El D s}
    (standard : sig.Standard M number) (expands : Expands ds M M') : sig.Standard M' number := by
  have fresh : ∀ n s, n ∈ sig.constructors ∨ isNumeralName n = true → M n s = M' n s := by
    intro n s kind
    refine expands.1 ⟨n, s⟩ fun mem => ?_
    obtain ⟨notConstructor, notNumeral⟩ := system.declares.fresh ⟨n, s⟩ (List.mem_append_right _ mem)
    rcases kind with constructor | numeral
    · exact notConstructor constructor
    · exact Bool.noConfusion (notNumeral.symm.trans numeral)
  refine ⟨standard.injective, fun s hs ext h i n found => ?_, fun s hs th h n k numeral value inRange => ?_⟩
  · rw [← fresh n _ (.inl ((sig.extension s hs ext h).2 n (List.mem_of_getElem? found)))]
    exact standard.constructor s hs ext h i n found
  · rw [← fresh n _ (.inr numeral)]
    exact standard.numeral s hs th h n k numeral value inRange

end DefSystem

namespace Encoder

variable {sig : Signature} {inputs latches outputs : List Const} {enc : Encoder}

/-- The encoder of a signature has literals for the bits of the inputs and latches only. -/
theorem ofSignature_fresh {b : Const → Nat}
    (bits : ∀ x ∈ inputs ++ latches ++ outputs, getEncodingBitsWithInterp x.sort sig.interp = .ok (b x))
    (names : ((inputs ++ latches).map Const.name).Nodup)
    (made : ofSignature sig.constructors inputs latches outputs sig.interp = .ok enc) :
    (∀ x, enc.encoding x = none ∨ x ∈ inputs ++ latches ++ outputs ∧ enc.encoding x = some (bitNames x.name (b x))) ∧
      ∀ x : Const, x.name ∉ (inputs ++ latches).map Const.name → ∀ i : Nat, enc.sub.varMap (x.name ++ "[" ++ toString i ++ "]") = none := by
  have ofInputs := encodeVars_eq fun x hx => bits x (List.mem_append_left _ (List.mem_append_left _ hx))
  have ofLatches := encodeVars_eq fun x hx => bits x (List.mem_append_left _ (List.mem_append_right _ hx))
  have ofOutputs := encodeVars_eq fun x hx => bits x (List.mem_append_right _ hx)
  simp only [ofSignature, new, ofInputs, ofLatches, ofOutputs, bind, Except.bind, pure, Except.pure,
    Except.ok.injEq] at made
  subst made
  constructor
  · intro x
    simp only [List.mem_append]
    grind
  · intro x other i
    have distinct : (subNames b inputs ++ [Aiger.bogus] ++ subNames b latches).Nodup := by
      rw [List.append_assoc, List.singleton_append, List.nodup_middle, List.nodup_cons, subNames, subNames,
        ← List.flatMap_append]
      refine ⟨fun h => ?_, subNames_nodup names b⟩
      obtain ⟨x, -, hx⟩ := List.mem_flatMap.mp h
      exact bogus_notMem _ _ hx
    refine (Aiger.addVar_fold _ distinct _).2.2.1 _ fun mem => ?_
    rw [List.append_assoc, List.mem_append, List.mem_append, List.mem_singleton] at mem
    have outside : ∀ xs : List Const, xs ⊆ inputs ++ latches →
        x.name ++ "[" ++ toString i ++ "]" ∉ subNames b xs := fun xs inside h => by
      obtain ⟨y, hy, hn⟩ := List.mem_flatMap.mp h
      obtain ⟨j, -, same⟩ := mem_bitNames hn
      exact other ((bitName_inj same).1 ▸ List.mem_map_of_mem (inside hy))
    rcases mem with mem | mem | mem
    · exact outside inputs (List.subset_append_left _ _) mem
    · refine bogus_notMem x.name (i + 1) (mem ▸ ?_)
      exact List.mem_map.mpr ⟨i, List.mem_range.mpr (Nat.lt_succ_self i), rfl⟩
    · exact outside latches (List.subset_append_right _ _) mem

end Encoder

theorem DefSystem.perm {sig : Signature} {base : List Const} {ds ds' : List (Const × Expr)} {rank : Const → Nat}
    (system : DefSystem sig base ds rank) (perm : ds'.Perm ds) : DefSystem sig base ds' rank := by
  have names := (perm.map Prod.fst).append_left base
  refine ⟨⟨(names.map _).nodup_iff.mpr system.declares.names, fun x hx => system.declares.sorts x (names.subset hx),
    fun x hx => system.declares.fresh x (names.subset hx)⟩, fun d hd => ?_, fun d hd c hc mem => ?_⟩
  · obtain ⟨s, sort, ws⟩ := system.typed d (perm.subset hd)
    exact ⟨s, sort, Encoder.wellSorted_restrict ws fun c _ mem => names.symm.subset mem⟩
  · exact system.acyclic d (perm.subset hd) c hc ((perm.map _).subset mem)

/-- The literals of every symbol have the value of its right-hand side, where all defined symbols have the values of
their definitions, and the inputs keep their literals. -/
structure DefinesSymbols (sig : Signature) (base : List Const) (ds : List (Const × Expr)) (enc enc' : Encoder) :
    Prop where
  numbered : enc'.sub.Numbered
  inputs : ∀ x ∈ base, enc'.lit x = enc.lit x
  symbols : ∀ d ∈ ds, ∀ s, d.1.sort = .first s → ∀ th, HasTheory s sig.interp th →
    ∃ ls, enc'.lit d.1 = some ls ∧ ls.length = th.width ∧ ∀ v, Circuit.Settled enc'.sub.gates v →
      ∀ (D : Domain) (M : Structure D) (number : (s : FSort) → Int → El D s) (env : Env D),
        sig.Standard M number → enc.Denotes sig base v M env → (∃ M', DefSystem.Expands ds M M') ∧
          ∀ M', DefSystem.Expands ds M M' →
            d.2.eval M' env = (th.value s (min (binary (ls.map (litValue v))) th.last)).eval M env

namespace Encoder

variable {sig : Signature} {inputs latches outputs : List Const} {enc : Encoder} {rank : Const → Nat}

theorem uninterpreted_bool : (fun _ : String => (none : Option SortInterp)) "bool" = none := rfl

/-- A sort with the values a and b. -/
def twoConstructors : Signature where
  sorts := [.enumerated "t" ["a", "b"]]
  interp := fun _ => none
  constructors := ["a", "b"]
  bool := uninterpreted_bool
  finite := by
    intro s hs
    rw [List.mem_singleton.mp hs]
    exact ⟨_, .enumerated rfl⟩
  extension := by
    intro s hs ext h
    rw [List.mem_singleton.mp hs] at h
    obtain rfl := FiniteTheory.enumerated.inj (h.unique (.enumerated rfl))
    exact ⟨by decide, fun n hn => hn⟩
  symbolic := by decide

/-- An encoder for this sort without inputs. -/
def noInputs : Encoder :=
  ⟨[], [], [], fun _ => none, .new [] [] [], fun _ => none, fun sym => sym.name ∈ ["a", "b"], constructorIndex fun _ => none,
    fun _ => none⟩

/-- y := ~x and x := false -/
def forwardReference : List Definition :=
  [⟨.const (boolConst "y"), .not (.const (boolConst "x"))⟩, ⟨.const (boolConst "x"), .fls⟩]

/-- x := false for a Boolean x, and x := b for an x of the sort t. -/
def sameName : List Definition :=
  [⟨.const (boolConst "x"), .fls⟩,
    ⟨.const ⟨"x", .first (.enumerated "t" ["a", "b"])⟩, .const ⟨"b", .first (.enumerated "t" ["a", "b"])⟩⟩]

end Encoder

end Goivy
