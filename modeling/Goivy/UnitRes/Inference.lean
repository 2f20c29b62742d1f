import Goivy.UnitRes.Engine

/-! What every operation of the engine keeps: indices in range, everything already
stored, and any property that its inferences keep. -/
namespace Goivy

/-- An outcome with the property, unless the fuel was too little where it may be `short`. -/
def Outcome {α : Type} (short : Prop) (Q : α → Prop) : Except Fault α → Prop
  | .ok a => Q a
  | .error f => f = .outOfFuel ∧ short

variable {short : Prop}

theorem Outcome.bind {α β : Type} {Q : α → Prop} {R : β → Prop} {x : Except Fault α}
    {f : α → Except Fault β} (h : Outcome short Q x) (next : ∀ a, Q a → Outcome short R (f a)) :
    Outcome short R (x >>= f) := by
  cases x with
  | ok a => exact next a h
  | error e => exact h

theorem Outcome.mono {α : Type} {Q R : α → Prop} {x : Except Fault α} (h : Outcome short Q x)
    (sub : ∀ a, Q a → R a) : Outcome short R x := by
  cases x with
  | ok a => exact sub a h
  | error e => exact h

theorem Outcome.with_result {α : Type} {Q : α → Prop} {x : Except Fault α} (h : Outcome short Q x) :
    Outcome short (fun a => x = .ok a ∧ Q a) x := by
  cases x with
  | ok a => exact ⟨rfl, h⟩
  | error e => exact h

theorem outcome_foldlM {α β : Type} {Q : β → Prop} {f : β → α → Except Fault β} {as : List α}
    {b : β} (start : Q b) (step : ∀ b, ∀ a ∈ as, Q b → Outcome short Q (f b a)) :
    Outcome short Q (as.foldlM f b) := by
  induction as generalizing b with
  | nil => exact start
  | cons a as ih =>
    rw [List.foldlM_cons]
    exact (step b a List.mem_cons_self start).bind fun b' hb' =>
      ih hb' fun c x hx => step c x (List.mem_cons_of_mem _ hx)

theorem outcome_loopOver {α : Type} {Q : UnitRes → Prop} {body : UnitRes → α → Loop} {as : List α}
    {ur : UnitRes} (start : Q ur)
    (step : ∀ ur, ∀ a ∈ as, Q ur → Outcome short (fun r => Q r.1) (body ur a)) :
    Outcome short (fun r => Q r.1) (loopOver body as ur) := by
  induction as generalizing ur with
  | nil => exact start
  | cons a as ih =>
    refine (step ur a List.mem_cons_self start).bind ?_
    rintro ⟨ur', stop⟩ h
    cases stop with
    | true => exact h
    | false => exact ih h fun c x hx => step c x (List.mem_cons_of_mem _ hx)

/-- An equality has two arguments. -/
def UnitResLiteral.Binary (l : UnitResLiteral) : Prop := l.atom.relName = "=" → l.atom.args.length = 2

namespace UnitRes

/-- Every number in an index is that of a unit, with the polarity of its node. -/
structure InRange (ur : UnitRes) : Prop where
  units : ∀ p, ∀ i ∈ ur.index.units p, ∃ l, ur.unitQueue[i]? = some l ∧ l.polarity = p.polarity
  terms : ∀ k, ∀ i ∈ ur.unitTermIndex k, i < ur.unitQueue.length
  used : ur.usedUnits ≤ ur.unitQueue.length

/-- A later state: in range, with the property, with all that was stored before and no more
room for unions. -/
structure Next (I : UnitRes → Prop) (room : CongClos → Nat) (ur ur' : UnitRes) : Prop where
  inRange : ur'.InRange
  holds : I ur'
  units : ur.unitQueue <+: ur'.unitQueue
  clauses : ur.clauses <+: ur'.clauses
  unsat : ur.unsat = true → ur'.unsat = true
  room : room ur'.equationalTheory ≤ room ur.equationalTheory

theorem Next.refl {I : UnitRes → Prop} {room : CongClos → Nat} {ur : UnitRes}
    (inRange : ur.InRange) (holds : I ur) : Next I room ur ur :=
  ⟨inRange, holds, List.prefix_rfl, List.prefix_rfl, fun h => h, le_rfl⟩

theorem Next.trans {I : UnitRes → Prop} {room : CongClos → Nat} {u v w : UnitRes}
    (h : Next I room u v) (h' : Next I room v w) : Next I room u w :=
  ⟨h'.inRange, h'.holds, h.units.trans h'.units, h.clauses.trans h'.clauses,
    fun unsat => h'.unsat (h.unsat unsat), h'.room.trans h.room⟩

theorem getElem?_extend {α : Type} {as bs : List α} (h : as <+: bs) {i : Nat} {a : α}
    (ha : as[i]? = some a) : bs[i]? = some a := by
  obtain ⟨cs, rfl⟩ := h
  rw [List.getElem?_append_left (List.getElem?_eq_some_iff.mp ha).1]
  exact ha

/-- The properties `P` of clauses and `I` of states that the inferences of the engine keep.
Unless the fuel may be too little, each union takes room. -/
structure Inferences (order : IterationOrder) (short : Prop) (P : UnitResClause → Prop)
    (I : UnitRes → Prop) (room : CongClos → Nat) : Prop where
  unit : ∀ ur, I ur → ∀ l ∈ ur.unitQueue, P [l]
  clause : ∀ ur, I ur → ∀ cl ∈ ur.clauses, P cl
  setUnsat : ∀ ur, I ur → P [] → I ur.setUnsat
  appendUnit : ∀ ur, I ur → ∀ l, P [l] →
    ur.unitSubsumed order (ur.litRep (canonizeLiteral "V" l)) = .ok false →
    I (ur.appendUnit (ur.litRep (canonizeLiteral "V" l)))
  appendClause : ∀ ur, I ur → ∀ cl, P cl → I (ur.appendClause cl)
  deindex : ∀ ur, I ur → ∀ i cl subsumed, I { ur.deindex i cl with subsumed }
  bookkeeping : ∀ ur, I ur → ∀ usedUnits unitTermIndex searches,
    I { ur with usedUnits, unitTermIndex, searches }
  union : ∀ ur, I ur → ∀ a b, P [⟨true, equalityAtom a b⟩] → isConst a → isConst b →
    I { ur with equationalTheory := (ur.equationalTheory.union a b).1 } ∧
      room (ur.equationalTheory.union a b).1 ≤ room ur.equationalTheory ∧
      ((ur.equationalTheory.union a b).2 = true →
        short ∨ room (ur.equationalTheory.union a b).1 < room ur.equationalTheory)
  binary : ∀ cl, P cl → ∀ l ∈ cl, l.Binary
  canonize : ∀ base l, P [l] → P [canonizeLiteral base l]
  litRep : ∀ ur, I ur → ∀ l, P [l] → P [ur.litRep l]
  swap : ∀ l, P [l] → l.atom.relName = "=" → P [l.swapArgs]
  added : ∀ cl, P cl → ∀ cl' ∈ addedClauses cl, P cl'
  rewrite : ∀ a b l, P [⟨true, equalityAtom a b⟩] → P [l] →
    P [l.substituteConstants [(a, b)]] ∧ P [l.substituteConstants [(b, a)]]
  resolve : ∀ ur, I ur → ∀ lit cl j l subs eqs, P [lit] → P cl → cl[j]? = some l →
    (ur.litRep l).polarity ≠ lit.polarity → mguEq lit.atom (ur.litRep l).atom = some (subs, eqs) →
    P (simplifyClause ((cl.eraseIdx j).map (·.substitute subs) ++ disequalities eqs))
  resolveUnits : ∀ ur, I ur → ∀ lit l subs eqs, P [lit] → P [l] →
    (ur.litRep l).polarity ≠ lit.polarity → mguEq lit.atom (ur.litRep l).atom = some (subs, eqs) →
    P (disequalities eqs)

theorem reindex_units (ur : UnitRes) (i : Nat) (cl : UnitResClause) (p : IndexPath) :
    (ur.reindex i cl).index.units p = ur.index.units p := by
  unfold reindex
  generalize cl.zipIdx = ps
  generalize ur.index = idx
  induction ps generalizing idx with
  | nil => rfl
  | cons q ps ih => exact (ih _).trans rfl

theorem deindex_units (ur : UnitRes) (i : Nat) (cl : UnitResClause) (p : IndexPath) :
    (ur.deindex i cl).index.units p = ur.index.units p := by
  unfold deindex
  generalize ur.index = idx
  induction cl generalizing idx with
  | nil => rfl
  | cons q cl ih => exact (ih _).trans rfl

section Primitives

variable {ur : UnitRes} (inRange : ur.InRange)

include inRange

theorem InRange.setUnsat : ur.setUnsat.InRange :=
  ⟨inRange.units, inRange.terms, le_rfl⟩

theorem InRange.appendUnit (l : UnitResLiteral) : (ur.appendUnit l).InRange := by
  constructor
  · intro p i hi
    simp only [UnitRes.appendUnit, Index.addUnit] at hi ⊢
    by_cases here : p = l.path
    · rw [here, Function.update_self] at hi
      obtain hi | hi := List.mem_append.mp hi
      · obtain ⟨k, hk, polarity⟩ := inRange.units _ i hi
        exact ⟨k, getElem?_extend (List.prefix_append ..) hk, polarity.trans (here ▸ rfl)⟩
      · rw [List.mem_singleton.mp hi]
        exact ⟨l, by simp, here ▸ rfl⟩
    · rw [Function.update_of_ne here] at hi
      obtain ⟨k, hk, polarity⟩ := inRange.units p i hi
      exact ⟨k, getElem?_extend (List.prefix_append ..) hk, polarity⟩
  · intro k i hi
    have := inRange.terms k i hi
    simp only [UnitRes.appendUnit, List.length_append, List.length_singleton]
    omega
  · have := inRange.used
    simp only [UnitRes.appendUnit, List.length_append, List.length_singleton]
    omega

theorem InRange.appendClause (cl : UnitResClause) : (ur.appendClause cl).InRange :=
  ⟨fun p i hi => inRange.units p i ((reindex_units _ _ _ p) ▸ hi), inRange.terms, inRange.used⟩

theorem InRange.deindex (i : Nat) (cl : UnitResClause) (subsumed : List Nat) :
    InRange { ur.deindex i cl with subsumed } :=
  ⟨fun p j hj => inRange.units p j ((deindex_units ur i cl p) ▸ hj), inRange.terms, inRange.used⟩

omit inRange in
theorem anySubsumes_inRange {l : UnitResLiteral} {is : List Nat}
    (range : ∀ i ∈ is, ∃ k, ur.unitQueue[i]? = some k) :
    Outcome short (fun _ => True) (ur.anySubsumes l is) := by
  induction is with
  | nil => trivial
  | cons i is ih =>
    obtain ⟨k, hk⟩ := range i List.mem_cons_self
    simp only [UnitRes.anySubsumes, hk]
    split
    · trivial
    · exact ih fun j hj => range j (List.mem_cons_of_mem _ hj)

variable (order : IterationOrder)

theorem InRange.indexed (l : UnitResLiteral) :
    ∀ i ∈ (ur.findSubsuming order l).flatMap ur.index.units, ∃ k, ur.unitQueue[i]? = some k := by
  intro i hi
  obtain ⟨p, -, hp⟩ := List.mem_flatMap.mp hi
  obtain ⟨k, hk, -⟩ := inRange.units p i hp
  exact ⟨k, hk⟩

theorem InRange.unitSubsumed (l : UnitResLiteral) :
    Outcome short (fun _ => True) (ur.unitSubsumed order l) := by
  refine (anySubsumes_inRange (inRange.indexed order l)).bind fun found _ => ?_
  cases found with
  | true => trivial
  | false =>
    simp only [Bool.false_eq_true, if_false]
    split
    · exact anySubsumes_inRange (inRange.indexed order _)
    · trivial

theorem InRange.unitSubsumedByUsed (l : UnitResLiteral) :
    Outcome short (fun _ => True) (ur.unitSubsumedByUsed order l) :=
  anySubsumes_inRange fun i hi => inRange.indexed order l i (List.mem_of_mem_filter hi)

theorem InRange.subsumedByUsedLit (cl : UnitResClause) :
    Outcome short (fun _ => True) (ur.subsumedByUsedLit order cl) := by
  induction cl with
  | nil => trivial
  | cons l ls ih =>
    refine (inRange.unitSubsumedByUsed order l).bind fun found _ => ?_
    cases found with
    | true => trivial
    | false =>
      refine (inRange.unitSubsumedByUsed order l.invert).bind fun found _ => ?_
      cases found with
      | true => trivial
      | false => exact ih

omit inRange in
theorem otherUnits_inRange {polarity : Bool} {is : List Nat} (range : ∀ i ∈ is, i < ur.unitQueue.length) :
    Outcome short (fun js => ∀ j ∈ js, ∃ l, ur.unitQueue[j]? = some l ∧ l.polarity ≠ polarity)
      (ur.otherUnits polarity is) := by
  induction is with
  | nil => exact fun j hj => absurd hj List.not_mem_nil
  | cons i is ih =>
    have found := List.getElem?_eq_getElem (range i List.mem_cons_self)
    simp only [UnitRes.otherUnits, found]
    refine (ih fun j hj => range j (List.mem_cons_of_mem _ hj)).bind fun js hjs => ?_
    show ∀ j ∈ _, _
    split
    · rename_i other
      intro j hj
      obtain rfl | hj := List.mem_cons.mp hj
      · exact ⟨_, found, other⟩
      · exact hjs j hj
    · exact hjs

end Primitives

section Engine

variable {order : IterationOrder} {P : UnitResClause → Prop} {I : UnitRes → Prop}
  {room : CongClos → Nat} (rules : Inferences order short P I room)

include rules

theorem addClauseBasic_next {ur : UnitRes} (inRange : ur.InRange) (holds : I ur)
    {cl : UnitResClause} (hcl : P cl) : Outcome short (Next I room ur) (ur.addClauseBasic order cl) := by
  match cl, hcl with
  | [], hcl =>
    exact ⟨inRange.setUnsat, rules.setUnsat ur holds hcl, List.prefix_rfl, List.prefix_rfl,
      fun _ => rfl, le_rfl⟩
  | [l], hcl =>
    simp only [addClauseBasic]
    split
    · exact .refl inRange holds
    · refine (inRange.unitSubsumed order _).with_result.bind ?_
      rintro subsumed ⟨answer, -⟩
      cases subsumed with
      | true => exact .refl inRange holds
      | false =>
        exact ⟨inRange.appendUnit _, rules.appendUnit ur holds l hcl answer, List.prefix_append ..,
          List.prefix_rfl, fun h => h, le_rfl⟩
  | l :: k :: ls, hcl =>
    exact ⟨inRange.appendClause _, rules.appendClause ur holds _ hcl, List.prefix_rfl,
      List.prefix_append .., fun h => h, le_rfl⟩

theorem addClause_next {ur : UnitRes} (inRange : ur.InRange) (holds : I ur) {cl : UnitResClause}
    (hcl : P cl) : Outcome short (Next I room ur) (ur.addClause order cl) :=
  outcome_foldlM (.refl inRange holds) fun _ cl' hcl' next =>
    (addClauseBasic_next rules next.inRange next.holds (rules.added cl hcl cl' hcl')).mono
      fun _ => next.trans

theorem addAndStop_next {ur : UnitRes} (inRange : ur.InRange) (holds : I ur) {cl : UnitResClause}
    (hcl : P cl) : Outcome short (fun r => Next I room ur r.1) (ur.addAndStop order cl) :=
  (addClause_next rules inRange holds hcl).bind fun _ next => next

theorem resolveClause_next {lit : UnitResLiteral} (hlit : P [lit]) {ur : UnitRes}
    (inRange : ur.InRange) (holds : I ur) (entry : Nat × Nat) :
    Outcome short (fun r => Next I room ur r.1) (resolveClause order lit ur entry) := by
  have same : Next I room ur ur := .refl inRange holds
  unfold resolveClause
  split
  · exact same
  · rename_i cl hcl
    split
    · exact same
    · rename_i l hl
      simp only
      split
      · exact same
      · rename_i candidate
        simp only [Bool.or_eq_true, decide_eq_true_eq, not_or] at candidate
        split
        · exact same
        · split
          · exact same
          · rename_i subs eqs unified
            split
            · have memCl := List.mem_of_getElem? hcl
              have new := rules.resolve ur holds lit cl entry.2 l subs eqs hlit
                (rules.clause ur holds cl memCl) hl candidate.1 unified
              -- the clause is no longer watched when the unit subsumes it
              have dropped : Next I room ur (if atomSubsume lit.atom (ur.litRep l).atom then
                  { ur.deindex entry.1 cl with subsumed := ur.subsumed ++ [entry.1] } else ur) := by
                split
                · exact ⟨inRange.deindex .., rules.deindex ur holds .., List.prefix_rfl,
                    List.prefix_rfl, fun h => h, le_rfl⟩
                · exact same
              split
              · exact dropped
              · refine (dropped.inRange.subsumedByUsedLit order _).bind fun subsumed _ => ?_
                cases subsumed with
                | true => exact dropped
                | false =>
                  exact (addAndStop_next rules dropped.inRange dropped.holds new).mono
                    fun _ => dropped.trans
            · exact same

theorem resolveUnit_next {lit : UnitResLiteral} (hlit : P [lit]) {ur : UnitRes}
    (inRange : ur.InRange) (holds : I ur) (allow : Bool) {i : Nat} {l : UnitResLiteral}
    (hl : ur.unitQueue[i]? = some l) (opposite : l.polarity ≠ lit.polarity) :
    Outcome short (fun r => Next I room ur r.1) (resolveUnit order lit allow ur i) := by
  have same : Next I room ur ur := .refl inRange holds
  simp only [resolveUnit, hl]
  split
  · exact same
  · rename_i subs eqs unified
    have new := rules.resolveUnits ur holds lit l subs eqs hlit
      (rules.unit ur holds l (List.mem_of_getElem? hl)) opposite unified
    split
    · refine (inRange.subsumedByUsedLit order _).bind fun subsumed _ => ?_
      cases subsumed with
      | true => exact same
      | false => exact addAndStop_next rules inRange holds new
    · exact same

theorem resolveUnits_next {lit : UnitResLiteral} (hlit : P [lit]) {ur : UnitRes}
    (inRange : ur.InRange) (holds : I ur) (allow : Bool) {is : List Nat}
    (opposite : ∀ i ∈ is, ∃ l, ur.unitQueue[i]? = some l ∧ l.polarity ≠ lit.polarity) :
    Outcome short (fun r => Next I room ur r.1) (ur.resolveUnits order lit is allow) := by
  refine outcome_loopOver (.refl inRange holds) fun ur' i hi next => ?_
  obtain ⟨l, hl, polarity⟩ := opposite i hi
  exact (resolveUnit_next rules hlit next.inRange next.holds allow
    (getElem?_extend next.units hl) polarity).mono fun _ => next.trans

theorem resolveAtNode_next {lit : UnitResLiteral} (hlit : P [lit]) {ur : UnitRes}
    (inRange : ur.InRange) (holds : I ur) (keep : Bool) {p : IndexPath}
    (opposite : p.polarity ≠ lit.polarity) :
    Outcome short (fun r => Next I room ur r.1) (resolveAtNode order lit keep ur p) := by
  unfold resolveAtNode
  have watched : Outcome short (fun r => Next I room ur r.1)
      (loopOver (resolveClause order lit) (ur.index.watching p) ur) :=
    outcome_loopOver (.refl inRange holds) fun ur' e _ next =>
      (resolveClause_next rules hlit next.inRange next.holds e).mono fun _ => next.trans
  refine watched.bind ?_
  rintro ⟨ur', stop⟩ next
  cases stop with
  | true => exact next
  | false =>
    cases keep with
    | false => exact next
    | true =>
      refine (resolveUnits_next rules hlit next.inRange next.holds false fun i hi => ?_).bind
        fun r hr => next.trans hr
      obtain ⟨l, hl, polarity⟩ := next.inRange.units p i hi
      exact ⟨l, hl, polarity ▸ opposite⟩

end Engine

section Propagation

variable {order : IterationOrder} {P : UnitResClause → Prop} {I : UnitRes → Prop}
  {room : CongClos → Nat} (rules : Inferences order short P I room)

include rules

theorem propagateOriented_next {ur : UnitRes} (inRange : ur.InRange) (holds : I ur)
    {l : UnitResLiteral} (hl : P [l]) :
    Outcome short (fun r => Next I room ur r.1) (propagateOriented order ur l) := by
  have hlit := rules.litRep ur holds _ (rules.canonize "W" l hl)
  have nodes : ∀ p ∈ ur.findUnifying order l.invert, p.polarity ≠ l.polarity := by
    intro p hp
    have found := (List.mem_filter.mp ((order.perm ..).mem_iff.mp hp)).2
    simp only [Bool.and_eq_true, decide_eq_true_eq] at found
    rw [found.1.1.1]
    exact Bool.not_ne_self l.polarity
  have searched : Next I room ur { ur with searches := ur.searches + 1 } :=
    ⟨⟨inRange.units, inRange.terms, inRange.used⟩, rules.bookkeeping ur holds _ _ _,
      List.prefix_rfl, List.prefix_rfl, fun h => h, le_rfl⟩
  unfold propagateOriented
  have resolved : Outcome short (fun r => Next I room ur r.1) (loopOver
      (resolveAtNode order (ur.litRep (canonizeLiteral "W" l)) (keepLit l))
      (ur.findUnifying order l.invert) { ur with searches := ur.searches + 1 }) :=
    outcome_loopOver searched fun ur' p hp next =>
      (resolveAtNode_next rules hlit next.inRange next.holds (keepLit l) (nodes p hp)).mono
        fun _ => next.trans
  refine resolved.bind ?_
  rintro ⟨ur', stop⟩ next
  cases stop with
  | true => exact next
  | false =>
    cases keepLit l with
    | true => exact next
    | false =>
      refine (otherUnits_inRange (next.inRange.terms _)).bind fun others opposite => ?_
      exact (resolveUnits_next rules hlit next.inRange next.holds true opposite).bind
        fun _ => next.trans

theorem rewriteUnit_next {ur : UnitRes} (inRange : ur.InRange) (holds : I ur) {t0 t1 : Expr}
    (rewrites : ∀ l, P [l] → P [l.substituteConstants [(t0, t1)]]) {i : Nat}
    (lt : i < ur.unitQueue.length) :
    Outcome short (fun r => Next I room ur r.1) (rewriteUnit order t0 t1 ur i) := by
  simp only [rewriteUnit, List.getElem?_eq_getElem lt]
  split
  · exact .refl inRange holds
  · exact addAndStop_next rules inRange holds
      (rewrites _ (rules.unit ur holds _ (List.getElem_mem lt)))

theorem updateEquationalTheory_next {ur : UnitRes} (inRange : ur.InRange) (holds : I ur)
    {l : UnitResLiteral} (hl : P [l]) : Next I room ur (ur.updateEquationalTheory l).1 ∧
      ((ur.updateEquationalTheory l).2 = true → short ∨
        room (ur.updateEquationalTheory l).1.equationalTheory < room ur.equationalTheory) := by
  have same : Next I room ur ur ∧
      (false = true → short ∨ room ur.equationalTheory < room ur.equationalTheory) :=
    ⟨.refl inRange holds, fun h => nomatch h⟩
  unfold updateEquationalTheory
  split
  · rename_i t0 t1 equality args
    split
    · rename_i consts
      rw [Bool.and_eq_true] at consts
      have eq : P [⟨true, equalityAtom t0 t1⟩] := by
        simp only [UnitResLiteral.isEqualityLit, Bool.and_eq_true, decide_eq_true_eq] at equality
        rwa [← equality.1, equalityAtom, ← equality.2, ← args]
      obtain ⟨kept, le, lt⟩ := rules.union ur holds t0 t1 eq consts.1 consts.2
      exact ⟨⟨⟨inRange.units, inRange.terms, inRange.used⟩, kept, List.prefix_rfl, List.prefix_rfl,
        fun h => h, le⟩, lt⟩
    · exact same
  · exact same

/-- What a propagation of one unit keeps where its fuel is enough for the room. -/
def PropagatesWith (short : Prop) (P : UnitResClause → Prop) (I : UnitRes → Prop)
    (room : CongClos → Nat) (fuel : Nat)
    (again : UnitRes → UnitResLiteral → Except Fault UnitRes) : Prop :=
  ∀ ur l, InRange ur → I ur → P [l] → short ∨ room ur.equationalTheory < fuel →
    Outcome short (Next I room ur) (again ur l)

theorem repropagate_next {fuel : Nat} {again : UnitRes → UnitResLiteral → Except Fault UnitRes}
    (again_next : PropagatesWith short P I room fuel again) {ur : UnitRes} (inRange : ur.InRange)
    (holds : I ur) {i : Nat} (lt : i < ur.unitQueue.length)
    (enough : short ∨ room ur.equationalTheory < fuel) :
    Outcome short (fun r => Next I room ur r.1) (repropagate again ur i) := by
  simp only [repropagate, List.getElem?_eq_getElem lt]
  have unit := rules.unit ur holds _ (List.getElem_mem lt)
  exact (again_next ur _ inRange holds unit enough).bind fun _ next => next

theorem propagateEquality_next {fuel : Nat} {again : UnitRes → UnitResLiteral → Except Fault UnitRes}
    (again_next : PropagatesWith short P I room fuel again) {ur : UnitRes} (inRange : ur.InRange)
    (holds : I ur) {l : UnitResLiteral} (hl : P [l])
    (enough : short ∨ room ur.equationalTheory < fuel + 1)
    (equality : l.isEqualityLit = true) :
    Outcome short (Next I room ur) (ur.propagateEquality order again l) := by
  have hlit := rules.litRep ur holds l hl
  simp only [UnitResLiteral.isEqualityLit, Bool.and_eq_true, decide_eq_true_eq] at equality
  obtain ⟨a, b, args⟩ := List.length_eq_two.mp
    (rules.binary _ hlit _ (List.mem_singleton_self _) equality.2)
  have eq : P [⟨true, equalityAtom a b⟩] := by
    rwa [← equality.1, equalityAtom, ← equality.2, ← args]
  obtain ⟨t0, t1, oriented, rewrites⟩ : ∃ t0 t1,
      (if a.termSexp < b.termSexp then (b, a) else (a, b)) = (t0, t1) ∧
        ∀ l, P [l] → P [l.substituteConstants [(t0, t1)]] := by
    split
    · exact ⟨b, a, rfl, fun l hl => (rules.rewrite a b l eq hl).2⟩
    · exact ⟨a, b, rfl, fun l hl => (rules.rewrite a b l eq hl).1⟩
  simp only [propagateEquality, args, oriented]
  split
  · exact .refl inRange holds
  · have rewritten : Outcome short (fun r => Next I room ur r.1)
        (loopOver (rewriteUnit order t0 t1) (ur.unitTermIndex (.inl t0)) ur) :=
      outcome_loopOver (.refl inRange holds) fun ur' i hi next =>
        (rewriteUnit_next rules next.inRange next.holds rewrites
          ((inRange.terms _ i hi).trans_le next.units.length_le)).mono fun _ => next.trans
    refine rewritten.bind ?_
    rintro ⟨ur', stop⟩ next
    cases stop with
    | true => exact next
    | false =>
      obtain ⟨update, merged⟩ := updateEquationalTheory_next rules next.inRange next.holds hlit
      simp only [Bool.false_eq_true, if_false]
      generalize ur'.updateEquationalTheory (ur.litRep l) = result at update merged ⊢
      obtain ⟨ur₁, changed⟩ := result
      have updated := next.trans update
      cases changed with
      | false => exact updated
      | true =>
        have enough' : short ∨ room ur₁.equationalTheory < fuel := by
          obtain possible | lt := merged rfl
          · exact .inl possible
          · refine enough.imp_right fun le => ?_
            have := next.room
            simp only at lt this
            omega
        have again' : Outcome short (fun r => Next I room ur₁ r.1)
            (loopOver (repropagate again) (ur₁.unitTermIndex (.inl t1)) ur₁) :=
          outcome_loopOver (.refl updated.inRange updated.holds) fun ur' i hi next =>
            (repropagate_next rules again_next next.inRange next.holds
              ((updated.inRange.terms _ i hi).trans_le next.units.length_le)
              (enough'.imp_right next.room.trans_lt)).mono fun _ => next.trans
        exact again'.bind fun _ => updated.trans

theorem propagateLit_next (fuel : Nat) :
    PropagatesWith short P I room fuel (propagateLit order fuel) := by
  induction fuel with
  | zero =>
    intro ur l _ _ _ enough
    exact ⟨rfl, enough.resolve_right (Nat.not_lt_zero _)⟩
  | succ fuel ih =>
    intro ur l inRange holds hl enough
    unfold propagateLit
    split
    · rename_i ground
      simp only [UnitResLiteral.isGroundEqualityLit, Bool.and_eq_true] at ground
      exact propagateEquality_next rules ih inRange holds hl enough ground.1
    · have lits : ∀ k ∈ (if l.atom.relName = "=" && l.atom.args.length = 2 then [l, l.swapArgs]
          else [l]), P [k] := by
        intro k hk
        split at hk
        · rename_i equality
          simp only [Bool.and_eq_true, decide_eq_true_eq] at equality
          rw [List.mem_pair] at hk
          obtain rfl | rfl := hk
          · exact hl
          · exact rules.swap l hl equality.1
        · exact List.mem_singleton.mp hk ▸ hl
      have oriented : Outcome short (fun r => Next I room ur r.1) (loopOver (propagateOriented order)
          (if l.atom.relName = "=" && l.atom.args.length = 2 then [l, l.swapArgs] else [l]) ur) :=
        outcome_loopOver (.refl inRange holds) fun ur' k hk next =>
          (propagateOriented_next rules next.inRange next.holds (lits k hk)).mono
            fun _ => next.trans
      exact oriented.bind fun _ next => next

theorem indexUnitTerms_next {ur : UnitRes} (inRange : ur.InRange) (holds : I ur) {i : Nat}
    (lt : i < ur.unitQueue.length) :
    Outcome short (fun ur' => Next I room ur ur' ∧ ur'.usedUnits = ur.usedUnits)
      (ur.indexUnitTerms i) := by
  simp only [indexUnitTerms, List.getElem?_eq_getElem lt]
  generalize ((ur.unitQueue[i].atom.args.filter fun t => !isVar t).eraseDups.map .inl ++
    [.inr ur.unitQueue[i].atom.relName] : List (Expr ⊕ String)) = terms
  have inRange' : ∀ (idx : Expr ⊕ String → List Nat), (∀ k, ∀ j ∈ idx k, j < ur.unitQueue.length) →
      ∀ k, ∀ j ∈ (terms.foldl (fun idx t => Function.update idx t (idx t ++ [i])) idx) k,
        j < ur.unitQueue.length := by
    induction terms with
    | nil => exact fun idx h => h
    | cons t terms ih =>
      refine fun idx h => ih _ fun k j hj => ?_
      simp only [Function.update_apply] at hj
      split at hj
      · obtain hj | hj := List.mem_append.mp hj
        · exact h t j hj
        · exact List.mem_singleton.mp hj ▸ lt
      · exact h k j hj
  exact ⟨⟨⟨inRange.units, inRange' _ inRange.terms, inRange.used⟩, rules.bookkeeping ur holds _ _ _,
    List.prefix_rfl, List.prefix_rfl, fun h => h, le_rfl⟩, rfl⟩

theorem indexUnits_next {ur : UnitRes} (inRange : ur.InRange) (holds : I ur) {is : List Nat}
    (lt : ∀ i ∈ is, i < ur.unitQueue.length) :
    Outcome short (fun ur' => Next I room ur ur' ∧ ur'.usedUnits = ur.usedUnits)
      (is.foldlM indexUnitTerms ur) :=
  outcome_foldlM ⟨.refl inRange holds, rfl⟩ fun _ i hi next =>
    (indexUnitTerms_next rules next.1.inRange next.1.holds
      ((lt i hi).trans_le next.1.units.length_le)).mono fun _ later =>
        ⟨next.1.trans later.1, later.2.trans next.2⟩

theorem propagate_next {bound : Nat} (bounded : ∀ ur, I ur → short ∨ ur.unitQueue.length ≤ bound)
    (fuel : Nat) {ur : UnitRes} (inRange : ur.InRange) (holds : I ur)
    (enough : short ∨ bound - ur.usedUnits + room ur.equationalTheory < fuel) :
    Outcome short (Next I room ur) (ur.propagate order fuel) := by
  induction fuel generalizing ur with
  | zero =>
    unfold propagate
    split
    · exact ⟨rfl, enough.resolve_right (Nat.not_lt_zero _)⟩
    · exact .refl inRange holds
  | succ fuel ih =>
    unfold propagate
    split
    · rename_i pending
      simp only [List.getElem?_eq_getElem pending]
      have unit := rules.unit ur holds _ (List.getElem_mem pending)
      have enough₁ : short ∨ room ur.equationalTheory < fuel := by
        obtain possible | le := bounded ur holds
        · exact .inl possible
        · exact enough.imp_right fun lt => by omega
      refine (propagateLit_next rules fuel ur _ inRange holds unit enough₁).bind fun ur₁ next => ?_
      have used : max (ur.usedUnits + 1) ur₁.usedUnits ≤ ur₁.unitQueue.length :=
        max_le ((Nat.succ_le_of_lt pending).trans next.units.length_le) next.inRange.used
      have moved : Next I room ur { ur₁ with usedUnits := max (ur.usedUnits + 1) ur₁.usedUnits } :=
        ⟨⟨next.inRange.units, next.inRange.terms, used⟩, rules.bookkeeping ur₁ next.holds _ _ _,
          next.units, next.clauses, next.unsat, next.room⟩
      have pendingUnits : ∀ i ∈ unitRange ur.usedUnits (max (ur.usedUnits + 1) ur₁.usedUnits),
          i < ur₁.unitQueue.length := by
        intro i hi
        obtain ⟨k, hk, rfl⟩ := List.mem_map.mp hi
        have := List.mem_range.mp hk
        omega
      refine (indexUnits_next rules moved.inRange moved.holds pendingUnits).bind ?_
      rintro ur₂ ⟨later, sameUsed⟩
      have enough₂ : short ∨ bound - ur₂.usedUnits + room ur₂.equationalTheory < fuel := by
        obtain possible | le := bounded ur holds
        · exact .inl possible
        · refine enough.imp_right fun lt => ?_
          have noMoreRoom := (moved.trans later).room
          simp only at sameUsed
          omega
      exact (ih later.inRange later.holds enough₂).mono fun _ => (moved.trans later).trans
    · exact .refl inRange holds

omit rules in
/-- Whatever the fuel, where it may be too little. -/
theorem propagate_next_short (rules : Inferences order True P I room) (fuel : Nat)
    {ur : UnitRes} (inRange : ur.InRange) (holds : I ur) :
    Outcome True (Next I room ur) (ur.propagate order fuel) :=
  propagate_next rules (fun _ _ => Or.inl (b := _ ≤ 0) trivial) fuel inRange holds (.inl trivial)

theorem new_next {clauses : List UnitResClause} (start : I empty) (given : ∀ cl ∈ clauses, P cl) :
    Outcome short (Next I room empty) (new order clauses) :=
  outcome_foldlM (.refl ⟨fun _ _ h => absurd h List.not_mem_nil, fun _ _ h => absurd h List.not_mem_nil,
    le_rfl⟩ start) fun _ cl hcl next =>
      (addClause_next rules next.inRange next.holds (given cl hcl)).mono fun _ => next.trans

end Propagation

end UnitRes

end Goivy
