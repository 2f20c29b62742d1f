import Goivy.Action.Condition
import Goivy.Util.OptionList

/-! The two functions that unroll loops up to a bound. -/
namespace Goivy

/-- Actions, as far as unrolling looks at them: every other class is a label with the actions among
its arguments. -/
inductive LoopProgram (L : Type) where
  | other (label : L) (args : List (LoopProgram L))
  | assume (fmla : Expr)
  | sequence (elems : List (LoopProgram L))
  | ifThen (cond : Condition) (thenBody : LoopProgram L)
  | whileAction (cond : Condition) (body : LoopProgram L)

mutual
/-- The first conjunct, at any depth. -/
@[grind =] def firstConjunct : Expr → Expr
  | .and ts => firstConjunctOf ts
  | e => e
@[grind =] def firstConjunctOf : List Expr → Expr
  | [] => .and []
  | t :: _ => firstConjunct t
end

/-- The sort that a loop over this condition counts through. -/
def indexSort : Condition → Option LSort
  | .witness _ => none
  | .formula e =>
    match firstConjunct e with
    | .apply f (t :: _) => if f.name ∈ ["<", ">", "<=", ">="] then some t.nodeSort else none
    | .not (.eq a _) => some a.nodeSort
    | _ => none

namespace LoopProgram

variable {L : Type}

@[elab_as_elim, induction_eliminator]
theorem induct {motive : LoopProgram L → Prop}
    (other : ∀ l args, (∀ a ∈ args, motive a) → motive (.other l args))
    (assume : ∀ f, motive (.assume f))
    (sequence : ∀ elems, (∀ a ∈ elems, motive a) → motive (.sequence elems))
    (ifThen : ∀ c a, motive a → motive (.ifThen c a))
    (whileAction : ∀ c a, motive a → motive (.whileAction c a))
    (a : LoopProgram L) : motive a :=
  LoopProgram.rec (motive_1 := motive) (motive_2 := fun as => ∀ a ∈ as, motive a)
    other assume sequence ifThen whileAction (fun _ h => absurd h List.not_mem_nil)
    (fun _ _ head tail _ h => (List.mem_cons.mp h).elim (fun e => e ▸ head) (tail _)) a

/-- The chain of branches around a body, which ends in `assume false`. -/
@[grind =] def chain (cond : Condition) (body : LoopProgram L) : Nat → LoopProgram L
  | 0 => .ifThen cond (.assume .fls)
  | n + 1 => .ifThen cond (.sequence [body, chain cond body n])

variable (card : Option LSort → Int)

/-- `unrollWhile`; nothing where it panics. -/
def unrollWhile (cond : Condition) (body : LoopProgram L) : Option (LoopProgram L) :=
  if card (indexSort cond) < 0 then none
  else if 100 < card (indexSort cond) then none
  else some (chain cond body (card (indexSort cond)).toNat)

mutual
/-- `UnrollLoops`; nothing where it panics. -/
@[grind =] def unrollLoops : LoopProgram L → Option (LoopProgram L)
  | .other l args => (unrollLoopsList args).map (.other l)
  | .assume f => some (.assume f)
  | .sequence elems => (unrollLoopsList elems).map .sequence
  | .ifThen c a => (unrollLoops a).map (.ifThen c)
  | .whileAction c body => (unrollLoops body).bind (unrollWhile card c)
@[grind =] def unrollLoopsList : List (LoopProgram L) → Option (List (LoopProgram L))
  | [] => some []
  | a :: as => do return (← unrollLoops a) :: (← unrollLoopsList as)
end

/-- `Unroll` without a body of its own; nothing where it returns an error. -/
def unroll (cond : Condition) (body : LoopProgram L) : Option (LoopProgram L) :=
  if card (indexSort cond) ≤ 0 then none
  else if 100 < card (indexSort cond) then none
  else some (chain cond body (card (indexSort cond)).toNat)

mutual
/-- The conditions of the loops in an action. -/
@[grind =] def loops : LoopProgram L → List Condition
  | .other _ args => loopsList args
  | .assume _ => []
  | .sequence elems => loopsList elems
  | .ifThen _ a => loops a
  | .whileAction c body => c :: loops body
@[grind =] def loopsList : List (LoopProgram L) → List Condition
  | [] => []
  | a :: as => loops a ++ loopsList as
end

variable {D : Domain} (interp : L → List (Meaning (Structure D)) → Meaning (Structure D))

mutual
/-- The meaning of an action whose loops end after at most as many rounds as their bounds say. -/
@[grind =] noncomputable def bounded : LoopProgram L → Meaning (Structure D)
  | .other l args => interp l (boundedList args)
  | .assume f => ⟨fun s s' => f.Valid s ∧ s' = s, fun _ => False⟩
  | .sequence elems => (boundedList elems).foldr Meaning.seq .skip
  | .ifThen c a => c.guard.branch (bounded a)
  | .whileAction c body => c.guard.loop (bounded body) (card (indexSort c)).toNat
@[grind =] noncomputable def boundedList : List (LoopProgram L) → List (Meaning (Structure D))
  | [] => []
  | a :: as => bounded a :: boundedList as
end

mutual
/-- What `IntUpdate` computes in an `UnrollContext`: a loop means what `Unroll` returns for it. -/
@[grind =] noncomputable def inUnrollContext : LoopProgram L → Option (Meaning (Structure D))
  | .other l args => (inUnrollContextList args).map (interp l)
  | .assume f => some ⟨fun s s' => f.Valid s ∧ s' = s, fun _ => False⟩
  | .sequence elems => (inUnrollContextList elems).map (·.foldr Meaning.seq .skip)
  | .ifThen c a => (inUnrollContext a).map c.guard.branch
  | .whileAction c body =>
    if card (indexSort c) ≤ 0 ∨ 100 < card (indexSort c) then none
    else (inUnrollContext body).map fun m => c.guard.unrolled m (card (indexSort c)).toNat
@[grind =] noncomputable def inUnrollContextList : List (LoopProgram L) → Option (List (Meaning (Structure D)))
  | [] => some []
  | a :: as => do return (← inUnrollContext a) :: (← inUnrollContextList as)
end

theorem boundedList_eq_map (as : List (LoopProgram L)) :
    boundedList card interp as = as.map (bounded card interp) := by
  induction as with
  | nil => rfl
  | cons a as ih => rw [boundedList, ih, List.map_cons]

theorem loopsList_eq_flatMap (as : List (LoopProgram L)) : loopsList as = as.flatMap loops := by
  induction as with
  | nil => rfl
  | cons a as ih => rw [loopsList, ih, List.flatMap_cons]

theorem assume_fls : bounded card interp (.assume .fls) = (.block : Meaning (Structure D)) := by
  ext
  · simp [bounded, Meaning.block, Expr.Valid]
  · rfl

/-- The meaning of a chain, in either reading. -/
theorem bounded_chain (c : Condition) (body : LoopProgram L) (n : Nat) :
    bounded card interp (chain c body n) = c.guard.unrolled (bounded card interp body) n := by
  induction n with
  | zero => rw [chain, bounded, assume_fls, Guard.unrolled]
  | succ n ih =>
    rw [chain, bounded, bounded, boundedList, boundedList, boundedList, ih, Guard.unrolled, List.foldr_cons,
      List.foldr_cons, List.foldr_nil, Meaning.seq_skip]

theorem inUnrollContext_chain (c : Condition) {body : LoopProgram L} {m : Meaning (Structure D)}
    (known : inUnrollContext card interp body = some m) (n : Nat) :
    inUnrollContext card interp (chain c body n) = some (c.guard.unrolled m n) := by
  induction n with
  | zero =>
    have block : inUnrollContext card interp (.assume .fls) = some (.block : Meaning (Structure D)) := by
      rw [← assume_fls card interp, inUnrollContext, bounded]
    rw [chain, inUnrollContext, block]
    rfl
  | succ n ih =>
    simp only [chain, inUnrollContext, inUnrollContextList, known, ih, Option.map_some, Option.pure_def,
      Option.bind_eq_bind, Option.bind_some, List.foldr_cons, List.foldr_nil, Meaning.seq_skip, Guard.unrolled]

/-- A loop in an `UnrollContext` means what `Unroll` makes of it. -/
theorem inUnrollContext_while (c : Condition) (body : LoopProgram L) :
    inUnrollContext card interp (.whileAction c body) = (unroll card c body).bind (inUnrollContext card interp) := by
  rw [inUnrollContext, unroll]
  by_cases low : card (indexSort c) ≤ 0
  · rw [if_pos (.inl low), if_pos low, Option.bind_none]
  by_cases high : 100 < card (indexSort c)
  · rw [if_pos (.inr high), if_neg low, if_pos high, Option.bind_none]
  · rw [if_neg (by simp [low, high]), if_neg low, if_neg high, Option.bind_some]
    cases known : inUnrollContext card interp body with
    | some m => rw [Option.map_some, inUnrollContext_chain card interp c known]
    | none =>
      obtain ⟨n, pos⟩ : ∃ n, (card (indexSort c)).toNat = n + 1 := ⟨(card (indexSort c)).toNat - 1, by omega⟩
      rw [pos]
      simp [chain, inUnrollContext, inUnrollContextList, known]

theorem unrollLoopsList_eq_mapM (as : List (LoopProgram L)) :
    unrollLoopsList card as = as.mapM (unrollLoops card) := by
  induction as with
  | nil => rfl
  | cons a as ih => simp [unrollLoopsList, ih]

theorem inUnrollContextList_eq_mapM (as : List (LoopProgram L)) :
    inUnrollContextList card interp as = as.mapM (inUnrollContext card interp) := by
  induction as with
  | nil => rfl
  | cons a as ih => simp [inUnrollContextList, ih]

end LoopProgram

namespace LoopProgram

variable {L : Type} (card : Option LSort → Int) {D : Domain}
  (interp : L → List (Meaning (Structure D)) → Meaning (Structure D))

/-- `UnrollLoops` refuses exactly the actions with a loop whose bound is unknown or above 100. -/
theorem unrollLoops_isSome (a : LoopProgram L) : (unrollLoops card a).isSome ↔
    ∀ c ∈ loops a, 0 ≤ card (indexSort c) ∧ card (indexSort c) ≤ 100 := by
  induction a with
  | other l args ih | sequence args ih =>
    rw [unrollLoops, unrollLoopsList_eq_mapM, Option.isSome_map, mapM_isSome_iff, loops, loopsList_eq_flatMap,
      List.forall_mem_flatMap]
    exact forall₂_congr ih
  | assume f => simp [unrollLoops, loops]
  | ifThen c a ih => rw [unrollLoops, Option.isSome_map, ih, loops]
  | whileAction c a ih =>
    rw [unrollLoops, loops, List.forall_mem_cons, ← ih]
    cases unrollLoops card a with
    | none => simp
    | some body =>
      simp only [Option.bind_some, unrollWhile, Option.isSome_some, and_true]
      split
      · simp_all
      · split <;> simp_all

/-- An action without its loops means what the bounded loops mean, in every context. -/
theorem unrollLoops_meaning {a a' : LoopProgram L} (unrolled : unrollLoops card a = some a') :
    inUnrollContext card interp a' = some (bounded card interp a) := by
  have lists : ∀ {as as' : List (LoopProgram L)}, (∀ a ∈ as, ∀ a', unrollLoops card a = some a' →
      inUnrollContext card interp a' = some (bounded card interp a)) → as.mapM (unrollLoops card) = some as' →
      as'.mapM (inUnrollContext card interp) = some (as.map (bounded card interp)) := by
    intro as as' ih made
    have each := mapM_eq_some_iff.mp made
    refine mapM_eq_some_iff.mpr (List.forall₂_map_right_iff.mpr ?_)
    clear made
    induction each with
    | nil => exact .nil
    | cons here _ later =>
      rw [List.forall_mem_cons] at ih
      exact .cons (ih.1 _ here) (later ih.2)
  induction a generalizing a' with
  | other l args ih =>
    rw [unrollLoops, unrollLoopsList_eq_mapM, Option.map_eq_some_iff] at unrolled
    obtain ⟨args', made, rfl⟩ := unrolled
    rw [inUnrollContext, inUnrollContextList_eq_mapM, lists (fun a mem a' => ih a mem) made, Option.map_some,
      bounded, boundedList_eq_map]
  | assume f =>
    cases unrolled
    rfl
  | sequence args ih =>
    rw [unrollLoops, unrollLoopsList_eq_mapM, Option.map_eq_some_iff] at unrolled
    obtain ⟨args', made, rfl⟩ := unrolled
    rw [inUnrollContext, inUnrollContextList_eq_mapM, lists (fun a mem a' => ih a mem) made, Option.map_some,
      bounded, boundedList_eq_map]
  | ifThen c a ih =>
    obtain ⟨body, made, rfl⟩ := Option.map_eq_some_iff.mp unrolled
    rw [inUnrollContext, ih made, Option.map_some, bounded]
  | whileAction c a ih =>
    obtain ⟨body, made, chained⟩ := Option.bind_eq_some_iff.mp unrolled
    rw [unrollWhile] at chained
    split at chained
    · cases chained
    split at chained
    · cases chained
    cases chained
    rw [inUnrollContext_chain card interp c (ih made), Guard.unrolled_eq_loop, bounded]

/-- In an `UnrollContext` a bound of zero is refused as well. -/
theorem inUnrollContext_isSome (a : LoopProgram L) : (inUnrollContext card interp a).isSome ↔
    ∀ c ∈ loops a, 0 < card (indexSort c) ∧ card (indexSort c) ≤ 100 := by
  induction a with
  | other l args ih | sequence args ih =>
    rw [inUnrollContext, inUnrollContextList_eq_mapM, Option.isSome_map, mapM_isSome_iff, loops,
      loopsList_eq_flatMap, List.forall_mem_flatMap]
    exact forall₂_congr ih
  | assume f => simp [inUnrollContext, loops]
  | ifThen c a ih => rw [inUnrollContext, Option.isSome_map, ih, loops]
  | whileAction c a ih =>
    rw [inUnrollContext, loops, List.forall_mem_cons, ← ih]
    split
    · rename_i refused
      simp only [Option.isSome_none, Bool.false_eq_true, false_iff]
      omega
    · rename_i usable
      rw [Option.isSome_map, and_iff_right (by omega)]

theorem inUnrollContext_meaning {a : LoopProgram L} {m : Meaning (Structure D)}
    (known : inUnrollContext card interp a = some m) : m = bounded card interp a := by
  have lists : ∀ {as : List (LoopProgram L)} {ms : List (Meaning (Structure D))},
      (∀ a ∈ as, ∀ m, inUnrollContext card interp a = some m → m = bounded card interp a) →
      as.mapM (inUnrollContext card interp) = some ms → ms = as.map (bounded card interp) := by
    intro as ms ih made
    have each := mapM_eq_some_iff.mp made
    clear made
    induction each with
    | nil => rfl
    | cons here _ later =>
      rw [List.forall_mem_cons] at ih
      rw [List.map_cons, ih.1 _ here, ← later ih.2]
  induction a generalizing m with
  | other l args ih | sequence args ih =>
    rw [inUnrollContext, inUnrollContextList_eq_mapM, Option.map_eq_some_iff] at known
    obtain ⟨ms, made, rfl⟩ := known
    rw [bounded, boundedList_eq_map, ← lists (fun a mem m => ih a mem) made]
  | assume f =>
    cases known
    rfl
  | ifThen c a ih =>
    obtain ⟨m, made, rfl⟩ := Option.map_eq_some_iff.mp known
    rw [bounded, ih made]
  | whileAction c a ih =>
    rw [inUnrollContext] at known
    split at known
    · cases known
    · obtain ⟨m, made, rfl⟩ := Option.map_eq_some_iff.mp known
      rw [bounded, ih made, Guard.unrolled_eq_loop]

/-- Both functions give the loop that runs up to its bound, and they refuse the same loops. -/
structure UnrollsExactly (c : Condition) (body : LoopProgram L) : Prop where
  unrollLoops : ∀ a, unrollLoops card (.whileAction c body) = some a → inUnrollContext card interp a =
    some (c.guard.loop (bounded card interp body) (card (indexSort c)).toNat)
  unroll : ∀ m, (unroll card c body).bind (inUnrollContext card interp) = some m →
    m = c.guard.loop (bounded card interp body) (card (indexSort c)).toNat
  refuse : LoopProgram.unrollLoops card (.whileAction c body) = none ↔
    (LoopProgram.unroll card c body).bind (inUnrollContext card interp) = none

/-- They do exactly where no loop has the bound zero, or both refuse one for another reason. -/
theorem unrollsExactly_iff (c : Condition) (body : LoopProgram L) : UnrollsExactly card interp c body ↔
    (∀ d ∈ loops (.whileAction c body), card (indexSort d) ≠ 0) ∨
      ∃ d ∈ loops (.whileAction c body), card (indexSort d) < 0 ∨ 100 < card (indexSort d) := by
  have first := unrollLoops_isSome card (.whileAction c body)
  have second := inUnrollContext_isSome card interp (.whileAction c body)
  rw [inUnrollContext_while] at second
  have refusals : (unrollLoops card (.whileAction c body) = none ↔
      (unroll card c body).bind (inUnrollContext card interp) = none) ↔
      ((∀ d ∈ loops (.whileAction c body), 0 ≤ card (indexSort d) ∧ card (indexSort d) ≤ 100) ↔
        ∀ d ∈ loops (.whileAction c body), 0 < card (indexSort d) ∧ card (indexSort d) ≤ 100) := by
    rw [← first, ← second, ← Option.not_isSome_iff_eq_none, ← Option.not_isSome_iff_eq_none, not_iff_not]
  constructor
  · intro exact
    have same := refusals.mp exact.refuse
    by_cases usable : ∀ d ∈ loops (.whileAction c body), 0 ≤ card (indexSort d) ∧ card (indexSort d) ≤ 100
    · exact .inl fun d mem => (same.mp usable d mem).1.ne'
    · push Not at usable
      obtain ⟨d, mem, unusable⟩ := usable
      exact .inr ⟨d, mem, by omega⟩
  · intro condition
    refine ⟨fun a made => ?_, fun m known => ?_, refusals.mpr ⟨fun usable d mem => ?_, fun usable d mem => ?_⟩⟩
    · rw [unrollLoops_meaning card interp made, bounded]
    · rw [← inUnrollContext_while] at known
      rw [inUnrollContext_meaning card interp known, bounded]
    · have here := usable d mem
      rcases condition with nonzero | ⟨d', mem', unusable⟩
      · have := nonzero d mem
        omega
      · have := usable d' mem'
        omega
    · have here := usable d mem
      omega

/-- The sort of the index has no values. -/
def emptyIndex : Option LSort → Int := fun _ => 0

/-- i < n, for an index sort with the values from 1 to 0. -/
def beforeEnd : Condition :=
  .formula (.apply ⟨"<", .function [.range "idx" "1" "0", .range "idx" "1" "0"] .boolean⟩
    [.const ⟨"i", .first (.range "idx" "1" "0")⟩, .const ⟨"n", .first (.range "idx" "1" "0")⟩])

/-- `UnrollLoops` blocks the rounds of the loop, `Unroll` returns an error. -/
theorem unrollLoops_emptyIndex : ¬ UnrollsExactly emptyIndex
    (fun (_ : Unit) _ => (.skip : Meaning (Structure Domain.unit))) beforeEnd (.other () []) := by
  intro exact
  have refused := exact.refuse.mpr rfl
  cases refused

end LoopProgram

end Goivy
