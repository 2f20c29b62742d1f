import Goivy.Mc.ElimIte
import Goivy.Mc.PropAbs
import Goivy.Module.Clauses

/-! Applications of functions to arguments of finite sorts as table lookups. An argument that is no
symbol becomes a fresh constant with a definition. -/
namespace Goivy

/-- The new definitions so far, and the counter of the constants. -/
structure TableState where
  newDefs : List Definition
  counter : Nat

def argName (n : Nat) : String := "__arg[" ++ itoa n ++ "]"

theorem argName_injective : Function.Injective argName := by
  intro i j same
  exact Nat.repr_injective ((String.append_right_inj _).mp ((String.append_left_inj _).mp same))

/-- The rest of a chain of conditionals. Nothing is returned where `MustApply` panics. -/
def tableChain (f : Const) (argSyms : List Expr) : Expr → List (List Expr) → Option Expr
  | result, [] => some result
  | result, combo :: combos => do
    let fApp ← Expr.newApply f combo
    tableChain f argSyms (.ite (.and (List.zipWith .eq argSyms combo)) fApp result) combos

/-- The chain over all tuples, of which the first one is the default. -/
def tableResult (app : Expr) (f : Const) (argSyms : List Expr) : List (List Expr) → Option Expr
  | [] => some app
  | combo :: combos => do
    let fApp ← Expr.newApply f combo
    tableChain f argSyms fApp combos

section
variable (interp : Interpretation)

/-- A function of finite sorts, which is looked up in a table. -/
def looksUp (f : Const) (ts : List Expr) : Bool :=
  !ts.isEmpty && !isInterpretedSymbol f && ts.all fun t => finiteWithInterp interp t.nodeSort

mutual
/-- The function `recur` of `ToTableLookup`. -/
def tableRecur (e : Expr) (st : TableState) : Option (Expr × TableState) :=
  match e with
  | .apply f ts =>
    if looksUp interp f ts then do
      let (args, st) ← tableLookupArgs ts st
      match args with
      | none => return (.apply f ts, st)
      | some (argSyms, constSets) =>
        let result ← tableResult (.apply f ts) f argSyms (mcCartesianProduct constSets)
        return (result, st)
    else do
      let (us, st) ← tableRecurList ts st
      return (Expr.cloneNode (.apply f ts) us, st)
  | e => do
    let (us, st) ← tableRecurList e.children st
    return (e.cloneNode us, st)
termination_by e.weight
decreasing_by
  · simp only [Expr.weight]; omega
  · simp only [Expr.weight]; omega
  · exact Expr.weightList_children _
def tableRecurList (ts : List Expr) (st : TableState) : Option (List Expr × TableState) :=
  match ts with
  | [] => some ([], st)
  | t :: ts => do
    let (u, st) ← tableRecur t st
    let (us, st) ← tableRecurList ts st
    return (u :: us, st)
termination_by Expr.weightList ts
decreasing_by all_goals (simp only [Expr.weightList]; omega)
/-- The loop over the arguments in `tableLookupApp`. It ends at a sort without values. -/
def tableLookupArgs (ts : List Expr) (st : TableState) :
    Option (Option (List Expr × List (List Expr)) × TableState) :=
  match ts with
  | [] => some (some ([], []), st)
  | .const c :: ts => do
    let constNodes ← sortValuesAsExprs c.sort.range interp
    if constNodes.isEmpty then return (none, st)
    else
      let (rest, st) ← tableLookupArgs ts st
      let set := if constNodes.any (Expr.equal (.const c)) then [.const c] else constNodes
      return (rest.map fun r => (.const c :: r.1, set :: r.2), st)
  | x :: ts => do
    let constNodes ← sortValuesAsExprs x.nodeSort.range interp
    if constNodes.isEmpty then return (none, st)
    else
      let sym : Const := ⟨argName st.counter, x.nodeSort⟩
      let (y, st) ← tableRecur x { st with counter := st.counter + 1 }
      let (rest, st) ← tableLookupArgs ts { st with newDefs := st.newDefs ++ [⟨.const sym, y⟩] }
      return (rest.map fun r => (.const sym :: r.1, constNodes :: r.2), st)
termination_by Expr.weightList ts
decreasing_by all_goals (simp only [Expr.weightList]; omega)
end

/-- The definitions of the transition part, of which both sides are children. -/
def tableRecurDefs : List Definition → TableState → Option (List Definition × TableState)
  | [], st => some ([], st)
  | d :: ds, st => do
    let (lhs, st) ← tableRecur interp d.lhs st
    let (rhs, st) ← tableRecur interp d.rhs st
    let (ds, st) ← tableRecurDefs ds st
    return (⟨lhs, rhs⟩ :: ds, st)

/-- The recursion returns the same node. -/
def keepsNode (e : Expr) : Bool :=
  e.children.isEmpty ||
    match e with
    | .apply f ts => looksUp interp f ts && ts.any fun t => sortValuesAsExprs t.nodeSort.range interp = some []
    | _ => false

/-- `ToTableLookup`. Nothing is returned where it panics. -/
def toTableLookup (trans : Clauses) (invariant : Expr) : Option (Clauses × Expr) := do
  let (defs, st) ← tableRecurDefs interp trans.defs ⟨[], 0⟩
  let (fmlas, st) ← tableRecurList interp trans.fmlas st
  if trans.defs.isEmpty && trans.fmlas.all (keepsNode interp) && st.newDefs.isEmpty then return (trans, invariant)
  else
    let (newInv, inv) ← tableRecur interp invariant ⟨[], st.counter⟩
    let newInv := if inv.newDefs.isEmpty then newInv
      else .implies (.and (inv.newDefs.map Definition.toConstraint)) newInv
    return (.new fmlas (defs ++ st.newDefs), newInv)
end

theorem newApply_of_hasSorts {f : Const} {dom : List FSort} {s : FSort} (sort : f.sort = .function dom s)
    {bound : List Variable} {ts : List Expr} (sorts : HasSorts bound ts dom) : Expr.newApply f ts = some (.apply f ts) := by
  have fits := hasSorts_iff.mp sorts
  have every : (dom.zip ts).all (fun p => argumentFits p.1 p.2) = true := by
    clear sort sorts
    induction fits with
    | nil => rfl
    | cons head _ ih =>
      rw [List.zip_cons_cons, List.all_cons, ih, argumentFits, Expr.nodeSort_of_hasSort head]
      simp
  rw [Expr.newApply, sort]
  simp only [if_pos (And.intro fits.length_eq.symm every)]

variable {D : Domain}

/-- A tuple matches the arguments. -/
theorem holds_matches (N : Structure D) (env : Env D) {argSyms combo : List Expr}
    (length : argSyms.length = combo.length) : (Expr.and (List.zipWith .eq argSyms combo)).Holds N env ↔
      argSyms.map (·.eval N env) = combo.map (·.eval N env) := by
  rw [Expr.holds_and]
  induction argSyms generalizing combo with
  | nil =>
    obtain rfl := List.length_eq_zero_iff.mp length.symm
    simp
  | cons a argSyms ih =>
    cases combo with
    | nil => cases length
    | cons t combo =>
      rw [List.zipWith_cons_cons, List.forall_mem_cons, Expr.holds_eq, ih (Nat.succ.inj length), List.map_cons,
        List.map_cons, List.cons.injEq]

/-- A chain has the value of the function when a tuple or the default matches. -/
theorem tableChain_spec {f : Const} {dom : List FSort} {s : FSort} (sort : f.sort = .function dom s)
    {argSyms : List Expr} (length : argSyms.length = dom.length) {combos : List (List Expr)}
    (sorts : ∀ combo ∈ combos, ∀ bound, HasSorts bound combo dom) (result : Expr) :
    ∃ e, tableChain f argSyms result combos = some e ∧
      (∀ bound, HasSorts bound argSyms dom → result.HasSort bound s → e.HasSort bound s) ∧
      ∀ {D : Domain} (N : Structure D) (env : Env D), (result.eval N env = N.value f (argSyms.map (·.eval N env)) ∨
        ∃ combo ∈ combos, argSyms.map (·.eval N env) = combo.map (·.eval N env)) →
        e.eval N env = N.value f (argSyms.map (·.eval N env)) := by
  induction combos generalizing result with
  | nil => exact ⟨result, rfl, fun _ _ h => h, by simp⟩
  | cons combo combos ih =>
    obtain ⟨here, sorts⟩ := List.forall_mem_cons.mp sorts
    have same : argSyms.length = combo.length := length.trans (hasSorts_iff.mp (here [])).length_eq.symm
    obtain ⟨e, chain, typed, value⟩ := ih sorts (.ite (.and (List.zipWith .eq argSyms combo)) (.apply f combo) result)
    refine ⟨e, ?_, fun bound args h => typed bound args ⟨?_, ⟨dom, sort, here bound⟩, h⟩, fun N env found => value N env ?_⟩
    · rw [tableChain, newApply_of_hasSorts sort (here [])]
      exact chain
    · refine ⟨rfl, hasSorts_map.mpr fun t ht => ?_⟩
      obtain ⟨i, hi, rfl⟩ := List.mem_iff_getElem.mp ht
      rw [List.getElem_zipWith]
      rw [List.length_zipWith] at hi
      have inside : i < dom.length := by omega
      exact ⟨rfl, dom[i], (List.forall₂_iff_get.mp (hasSorts_iff.mp args)).2 i _ inside,
        (List.forall₂_iff_get.mp (hasSorts_iff.mp (here bound))).2 i _ inside⟩
    · by_cases matched : (Expr.and (List.zipWith .eq argSyms combo)).Holds N env
      · left
        rw [Expr.eval_ite_pos N env _ _ matched, Expr.eval, evalList_eq_map, (holds_matches N env same).mp matched]
      · rw [Expr.eval_ite_neg N env _ _ matched]
        rw [holds_matches N env same] at matched
        rcases found with default | ⟨other, mem, eq⟩
        · exact .inl default
        · rcases List.mem_cons.mp mem with rfl | mem
          · exact (matched eq).elim
          · exact .inr ⟨other, mem, eq⟩

end Goivy
