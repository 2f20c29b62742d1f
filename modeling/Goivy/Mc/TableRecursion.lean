import Goivy.Mc.TableLookup
import Goivy.Mc.Combos
import Goivy.Module.Conditional

/-! The recursion of the table lookup keeps the value of an expression where the definitions of the constants
for arguments hold. -/
namespace Goivy

variable {D : Domain}

/-- The finite sorts among `S` consist exactly of their listed values. -/
def ExactSorts (interp : Interpretation) (S : FSort → Prop) (M : Structure D) : Prop :=
  ∀ s, S s → isFiniteSortWithInterp s interp = true → ∃ vals, sortValuesAsExprs s interp = some vals ∧
    ∀ x : El D s, ∃ t ∈ vals, ∀ env, t.eval M env = ⟨s, x⟩

/-- Some values are listed for the finite sorts among `S`. -/
def ListedSorts (interp : Interpretation) (S : FSort → Prop) : Prop :=
  ∀ s, S s → isFiniteSortWithInterp s interp = true → ∃ vals, sortValuesAsExprs s interp = some vals ∧ vals ≠ []

theorem ExactSorts.listed {interp : Interpretation} {S : FSort → Prop} {M : Structure D} (exact : ExactSorts interp S M) :
    ListedSorts interp S := by
  intro s hs finite
  obtain ⟨vals, listed, values⟩ := exact s hs finite
  obtain ⟨t, mem, -⟩ := values (Classical.arbitrary _)
  exact ⟨vals, listed, List.ne_nil_of_mem mem⟩

theorem sortValuesAsExprs_hasSort {s : FSort} {interp : Interpretation} {vals : List Expr}
    (listed : sortValuesAsExprs s interp = some vals) (bound : List Variable) : ∀ t ∈ vals, t.HasSort bound s := by
  have boolean : getSortTheory s interp = .sort .boolean → s = .boolean := by
    unfold getSortTheory
    intro h
    split at h
    · rename_i i _
      cases i <;> cases h
    · exact SortTheory.sort.inj h
  unfold sortValuesAsExprs at listed
  split at listed
  · cases listed
    exact List.forall_mem_map.mpr fun _ _ => rfl
  · split at listed
    · cases listed
      simp
    · split at listed
      · contradiction
      · cases listed
        exact List.forall_mem_map.mpr fun _ _ => rfl
  · rename_i theory
    cases listed
    rw [boolean theory, List.forall_mem_cons, List.forall_mem_singleton]
    exact ⟨⟨rfl, trivial⟩, rfl, trivial⟩
  · split at listed
    · contradiction
    · cases listed
      exact List.forall_mem_map.mpr fun _ _ => rfl
  · cases listed
    simp

/-- Both sides of a definition of one sort have the same value. -/
theorem holds_toConstraint {N : Structure D} {env : Env D} {bound : List Variable} {s : FSort} {lhs rhs : Expr}
    (left : lhs.HasSort bound s) (right : rhs.HasSort bound s) :
    (⟨lhs, rhs⟩ : Definition).toConstraint.Holds N env ↔ lhs.eval N env = rhs.eval N env := by
  have plain : rhs.isDescription = false := by
    cases rhs with
    | some | someElse => exact right.elim
    | _ => rfl
  rw [Clauses.toConstraint_of_not_description plain, constraintOf]
  cases individual : lhs.isIndividual with
  | true => exact Expr.holds_eq N env lhs rhs
  | false =>
    have boolean : s = .boolean := by
      rw [Expr.isIndividual, Expr.nodeSort_of_hasSort left] at individual
      simpa using individual
    subst boolean
    refine (Expr.holds_iff N env lhs rhs).trans ⟨fun same => ?_, fun same => by rw [Expr.Holds, Expr.Holds, same]⟩
    have sortL := Expr.sort_eval_of_hasSort N left env
    have sortR := Expr.sort_eval_of_hasSort N right env
    rw [Expr.Holds, Expr.Holds] at same
    generalize lhs.eval N env = x at same sortL
    generalize rhs.eval N env = y at same sortR
    obtain ⟨_, x⟩ := x
    obtain ⟨_, y⟩ := y
    cases sortL
    cases sortR
    cases x <;> cases y <;> simp_all [Val.Holds]

variable (interp : Interpretation)

mutual
/-- The arguments that become constants. -/
def Expr.namedArgs : Expr → List Expr
  | .var _ | .const _ => []
  | .apply f ts => if looksUp interp f ts then lookedUpArgs ts else namedArgsList ts
  | .and ts | .or ts => namedArgsList ts
  | .eq a b | .implies a b | .iff a b => a.namedArgs ++ b.namedArgs
  | .not a | .forAll _ a | .exists _ a | .some _ a => a.namedArgs
  | .ite a b c | .someElse _ a b c => a.namedArgs ++ (b.namedArgs ++ c.namedArgs)
def namedArgsList : List Expr → List Expr
  | [] => []
  | t :: ts => t.namedArgs ++ namedArgsList ts
def lookedUpArgs : List Expr → List Expr
  | [] => []
  | .const _ :: ts => lookedUpArgs ts
  | x :: ts => x :: (x.namedArgs ++ lookedUpArgs ts)
end

/-- A run adds the definitions `new`, which say that the constants have the values of their arguments. -/
structure ArgRun (S : FSort → Prop) (st st' : TableState) (new : List Definition)
    (pairs : List (Const × Expr)) (args : List Expr) : Prop where
  newDefs : st'.newDefs = st.newDefs ++ new
  counter : st'.counter = st.counter + pairs.length
  names : pairs.map (fun p => p.1.name) = (List.range' st.counter pairs.length).map argName
  args : ∀ t, t ∈ args ↔ ∃ p ∈ pairs, p.2 = t
  sorted : ∀ p ∈ pairs, ∃ bound s, p.1.sort = .first s ∧ p.2.HasSort bound s
  length : new.length = pairs.length
  consts : ∀ e, (∃ d ∈ new, d.lhs = e) ↔ ∃ p ∈ pairs, e = .const p.1
  holds : ∀ {D : Domain} (N : Structure D) (env : Env D), ExactSorts interp S N →
    ((∀ d ∈ new, d.toConstraint.Holds N env) ↔ ∀ p ∈ pairs, N.value p.1 [] = p.2.eval N env)

section Run

variable {interp} {S : FSort → Prop} {bound : List Variable} {st st₁ st₂ : TableState}
  {new new₁ new₂ : List Definition} {args args₁ args₂ : List Expr} {pairs pairs₁ pairs₂ : List (Const × Expr)}

namespace ArgRun

theorem refl (st : TableState) : ArgRun interp S st st [] [] [] := by
  constructor <;> simp

theorem trans (h : ArgRun interp S st st₁ new₁ pairs₁ args₁)
    (h' : ArgRun interp S st₁ st₂ new₂ pairs₂ args₂) :
    ArgRun interp S st st₂ (new₁ ++ new₂) (pairs₁ ++ pairs₂) (args₁ ++ args₂) where
  newDefs := by rw [h'.newDefs, h.newDefs, List.append_assoc]
  counter := by rw [h'.counter, h.counter, List.length_append, Nat.add_assoc]
  names := by
    rw [List.map_append, h.names, h'.names, h.counter, List.length_append, ← List.range'_append_1, List.map_append]
  args t := by simp only [List.mem_append, h.args, h'.args, or_and_right, exists_or]
  sorted := List.forall_mem_append.mpr ⟨h.sorted, h'.sorted⟩
  length := by rw [List.length_append, List.length_append, h.length, h'.length]
  consts e := by simp only [List.mem_append, or_and_right, exists_or, h.consts, h'.consts]
  holds N env exact := by
    rw [List.forall_mem_append, List.forall_mem_append, h.holds N env exact, h'.holds N env exact]

/-- A new constant, whose definition comes after those of the parts of its argument. -/
theorem fresh {s : FSort} {x y : Expr}
    (h : ArgRun interp S { st with counter := st.counter + 1 } st₁ new pairs args) (sort : x.HasSort bound s)
    (sort' : y.HasSort bound s) (value : ∀ {D : Domain} (N : Structure D) (env : Env D), ExactSorts interp S N →
      (∀ d ∈ new, d.toConstraint.Holds N env) → y.eval N env = x.eval N env) :
    ArgRun interp S st { st₁ with newDefs := st₁.newDefs ++ [⟨.const ⟨argName st.counter, .first s⟩, y⟩] }
      (new ++ [⟨.const ⟨argName st.counter, .first s⟩, y⟩]) ((⟨argName st.counter, .first s⟩, x) :: pairs)
      (x :: args) where
  newDefs := by rw [h.newDefs, List.append_assoc]
  counter := h.counter.trans (by rw [List.length_cons, Nat.add_assoc, Nat.add_comm 1])
  names := by rw [List.map_cons, h.names, List.length_cons, List.range'_succ, List.map_cons]
  args u := by simp only [List.mem_cons, h.args, exists_eq_or_imp, eq_comm]
  sorted := List.forall_mem_cons.mpr ⟨⟨bound, s, rfl, sort⟩, h.sorted⟩
  length := by rw [List.length_append, h.length, List.length_singleton, List.length_cons]
  consts e := by
    simp only [List.mem_append, List.mem_cons, List.not_mem_nil, or_false, or_and_right, exists_or, h.consts,
      exists_eq_left]
    rw [or_comm, eq_comm]
  holds N env exact := by
    rw [List.forall_mem_append, List.forall_mem_singleton, List.forall_mem_cons, ← h.holds N env exact, and_comm]
    refine and_congr_left fun parts => ?_
    have name : (Expr.const ⟨argName st.counter, .first s⟩).HasSort bound s := rfl
    rw [holds_toConstraint name sort', value N env exact parts, Expr.eval]

end ArgRun

/-- The values of expressions are kept where the new definitions hold. -/
def TableKeeps (interp : Interpretation) (S : FSort → Prop) (ts us : List Expr)
    (st st' : TableState) (args : List Expr) : Prop :=
  ∃ new pairs, ArgRun interp S st st' new pairs args ∧ Expr.KeepsSorts ts us ∧
    ∀ {D : Domain} (N : Structure D) (env : Env D), ExactSorts interp S N →
      (∀ d ∈ new, d.toConstraint.Holds N env) → us.map (·.eval N env) = ts.map (·.eval N env)

theorem TableKeeps.nil (st : TableState) : TableKeeps interp S [] [] st st [] :=
  ⟨[], [], .refl st, .nil, fun _ _ _ _ => rfl⟩

theorem TableKeeps.cons {t u : Expr} {ts us : List Expr} (head : TableKeeps interp S [t] [u] st st₁ args₁)
    (tail : TableKeeps interp S ts us st₁ st₂ args₂) :
    TableKeeps interp S (t :: ts) (u :: us) st st₂ (args₁ ++ args₂) := by
  obtain ⟨new, pairs, run, kept, eval⟩ := head
  obtain ⟨newT, pairsT, runT, keptT, evalT⟩ := tail
  refine ⟨_, _, run.trans runT, .cons (List.forall₂_cons.mp kept).1 keptT, fun N env exact holds => ?_⟩
  obtain ⟨here, there⟩ := List.forall_mem_append.mp holds
  exact congrArg₂ List.cons (List.cons.inj (eval N env exact here)).1 (evalT N env exact there)

theorem TableKeeps.cloneNode {e : Expr} {us : List Expr} (plain : e.isQuantifierFree = true)
    (keeps : TableKeeps interp S e.children us st st₁ args) :
    TableKeeps interp S [e] [e.cloneNode us] st st₁ args := by
  obtain ⟨new, pairs, run, kept, eval⟩ := keeps
  refine ⟨new, pairs, run, .cons (fun bound s sort => Expr.hasSort_cloneNode plain sort kept) .nil, fun N env exact holds => ?_⟩
  exact congrArg (fun value => [value]) (Expr.eval_cloneNode_at (Expr.isBinder_of_isQuantifierFree plain) (eval N env exact holds))

/-- A quantifier-free expression with a sort, whose functions take arguments of the sorts `S`. -/
structure Expr.Tabled (S : FSort → Prop) (e : Expr) : Prop where
  quantifierFree : e.isQuantifierFree = true
  sorted : ∃ bound s, e.HasSort bound s
  domains : ∀ c ∈ e.symbols, ∀ s ∈ c.sort.domain, S s


theorem Expr.Tabled.children {e : Expr} (tabled : e.Tabled S) : ∀ t ∈ e.children, t.Tabled S := by
  obtain ⟨plain, ⟨bound, s, h⟩, domains⟩ := tabled
  exact fun t ht => ⟨Expr.isQuantifierFree_children plain t ht, Expr.hasSort_children h t ht, fun c hc =>
    domains c (Expr.symbols_children ht hc)⟩

theorem TableKeeps.const (c : Const) (st : TableState) : TableKeeps interp S [.const c] [.const c] st st [] :=
  ⟨[], [], .refl st, .cons (fun _ _ h => h) .nil, fun _ _ _ _ => rfl⟩

theorem TableKeeps.named {s : FSort} {x y : Expr} (sort : x.HasSort bound s)
    (keeps : TableKeeps interp S [x] [y] { st with counter := st.counter + 1 } st₁ args) :
    TableKeeps interp S [x] [.const ⟨argName st.counter, .first s⟩] st
      { st₁ with newDefs := st₁.newDefs ++ [⟨.const ⟨argName st.counter, .first s⟩, y⟩] } (x :: args) := by
  obtain ⟨new, pairs, run, kept, eval⟩ := keeps
  have value : ∀ {D : Domain} (N : Structure D) (env : Env D), ExactSorts interp S N →
      (∀ d ∈ new, d.toConstraint.Holds N env) → y.eval N env = x.eval N env :=
    fun N env exact holds => (List.cons.inj (eval N env exact holds)).1
  have run := run.fresh sort ((List.forall₂_cons.mp kept).1 bound s sort) value
  refine ⟨_, _, run, .cons (fun _ r h => ?_) .nil, fun N env exact holds => ?_⟩
  · exact ((Expr.nodeSort_of_hasSort sort).symm.trans (Expr.nodeSort_of_hasSort h))
  · exact congrArg (fun value => [value]) ((run.holds N env exact).mp holds _ List.mem_cons_self)

/-- The tuples of the sets are well sorted, and one of them has the values of the arguments. -/
structure Tuples (interp : Interpretation) (S : FSort → Prop) (sets : List (List Expr)) (ts : List Expr) (ss : List FSort) :
    Prop where
  sorts : ∀ combo ∈ mcCartesianProduct sets, ∀ bound, HasSorts bound combo ss
  values : ∀ {D : Domain} (N : Structure D) (env : Env D), ExactSorts interp S N →
    ∃ combo ∈ mcCartesianProduct sets, combo.map (·.eval N env) = ts.map (·.eval N env)

theorem Tuples.nil : Tuples interp S [] [] [] where
  sorts combo mem bound := by
    rw [List.mem_singleton.mp mem]
    trivial
  values N env _ := ⟨[], List.mem_singleton_self _, rfl⟩

theorem Tuples.cons {set ts : List Expr} {sets : List (List Expr)} {ss : List FSort} {t : Expr} {s : FSort}
    (sorts : ∀ u ∈ set, ∀ bound, u.HasSort bound s) (values : ∀ {D : Domain} (N : Structure D) (env : Env D),
      ExactSorts interp S N → ∃ u ∈ set, u.eval N env = t.eval N env) (rest : Tuples interp S sets ts ss) :
    Tuples interp S (set :: sets) (t :: ts) (s :: ss) where
  sorts combo mem bound := by
    obtain ⟨u, us, hu, hus, rfl⟩ := List.forall₂_cons_right_iff.mp (mem_mcCartesianProduct.mp mem)
    exact ⟨sorts u hu bound, rest.sorts us (mem_mcCartesianProduct.mpr hus) bound⟩
  values N env exact := by
    obtain ⟨u, hu, value⟩ := values N env exact
    obtain ⟨us, hus, valuesT⟩ := rest.values N env exact
    exact ⟨u :: us, mem_mcCartesianProduct.mpr (.cons hu (mem_mcCartesianProduct.mp hus)), congrArg₂ List.cons value valuesT⟩

/-- The list of a finite sort, which is not empty. -/
theorem ListedSorts.of_hasSort (listed : ListedSorts interp S) {t : Expr} {s : FSort} (sort : t.HasSort bound s) (hs : S s)
    (finite : finiteWithInterp interp t.nodeSort = true) : ∃ vals, sortValuesAsExprs s interp = some vals ∧
      vals ≠ [] ∧ (∀ u ∈ vals, ∀ bound, u.HasSort bound s) ∧
      ∀ {D : Domain} (N : Structure D) (env : Env D), ExactSorts interp S N → ∃ u ∈ vals, u.eval N env = t.eval N env := by
  rw [Expr.nodeSort_of_hasSort sort] at finite
  obtain ⟨vals, list, ne⟩ := listed s hs finite
  refine ⟨vals, list, ne, fun u hu bound => sortValuesAsExprs_hasSort list bound u hu,
    fun N env exact => ?_⟩
  obtain ⟨vals', list', values⟩ := exact s hs finite
  obtain rfl := Option.some.inj (list.symm.trans list')
  have sort := Expr.sort_eval_of_hasSort N sort env
  generalize t.eval N env = x at sort ⊢
  obtain ⟨_, x⟩ := x
  cases sort
  obtain ⟨u, hu, value⟩ := values x
  exact ⟨u, hu, value env⟩

/-- The recursion returns a result that keeps the value. -/
def TableStep (interp : Interpretation) (S : FSort → Prop) (e : Expr) : Prop :=
  ∀ st, ∃ u st', tableRecur interp e st = some (u, st') ∧ TableKeeps interp S [e] [u] st st' (e.namedArgs interp)

theorem tableRecurList_keeps {ts : List Expr} (step : ∀ t ∈ ts, TableStep interp S t) (st : TableState) :
    ∃ us st', tableRecurList interp ts st = some (us, st') ∧
      TableKeeps interp S ts us st st' (namedArgsList interp ts) := by
  induction ts generalizing st with
  | nil =>
    rw [tableRecurList]
    exact ⟨[], st, rfl, .nil st⟩
  | cons t ts ih =>
    obtain ⟨u, st₁, run, keeps⟩ := step t List.mem_cons_self st
    obtain ⟨us, st₂, runT, keepsT⟩ := ih (fun x hx => step x (List.mem_cons_of_mem _ hx)) st₁
    refine ⟨u :: us, st₂, ?_, keeps.cons keepsT⟩
    simp [tableRecurList, run, runT]

theorem tableLookupArgs_keeps (listed : ListedSorts interp S) {ts : List Expr} {ss : List FSort}
    (sorts : HasSorts bound ts ss) (domain : ∀ s ∈ ss, S s)
    (finite : ∀ t ∈ ts, finiteWithInterp interp t.nodeSort = true) (step : ∀ t ∈ ts, TableStep interp S t)
    (st : TableState) : ∃ argSyms sets st', tableLookupArgs interp ts st = some (some (argSyms, sets), st') ∧
      TableKeeps interp S ts argSyms st st' (lookedUpArgs interp ts) ∧ Tuples interp S sets ts ss := by
  induction ts generalizing ss st with
  | nil =>
    cases ss with
    | nil =>
      rw [tableLookupArgs]
      exact ⟨[], [], st, rfl, .nil st, .nil⟩
    | cons s ss => exact sorts.elim
  | cons t ts ih =>
    cases ss with
    | nil => exact sorts.elim
    | cons s ss =>
      obtain ⟨sort, sorts⟩ := sorts
      obtain ⟨here, domain⟩ := List.forall_mem_cons.mp domain
      rw [List.forall_mem_cons] at finite step
      obtain ⟨vals, list, ne, valSorts, values⟩ := listed.of_hasSort sort here finite.1
      by_cases const : ∃ c, t = .const c
      · obtain ⟨c, rfl⟩ := const
        obtain ⟨argSyms, sets, st₁, run, keeps, tuples⟩ := ih sorts domain finite.2 step.2 st
        have range : c.sort.range = s := congrArg LSort.range sort
        refine ⟨.const c :: argSyms, (if vals.any (Expr.equal (.const c)) then [.const c] else vals) :: sets, st₁, ?_,
          (TableKeeps.const c st).cons keeps, ?_⟩
        · simp [tableLookupArgs, range, list, ne, run]
        · split
          · exact tuples.cons (List.forall_mem_singleton.mpr fun _ => sort)
              fun _ _ _ => ⟨_, List.mem_singleton_self _, rfl⟩
          · exact tuples.cons valSorts values
      · have nodeSort := Expr.nodeSort_of_hasSort sort
        obtain ⟨y, st₁, run, keeps⟩ := step.1 { st with counter := st.counter + 1 }
        obtain ⟨argSyms, sets, st₂, runT, keepsT, tuples⟩ := ih sorts domain finite.2 step.2
          { st₁ with newDefs := st₁.newDefs ++ [⟨.const ⟨argName st.counter, .first s⟩, y⟩] }
        refine ⟨.const ⟨argName st.counter, .first s⟩ :: argSyms, vals :: sets, st₂, ?_, ?_, tuples.cons valSorts values⟩
        · cases t with
          | const c => exact (const ⟨c, rfl⟩).elim
          | _ =>
            rw [tableLookupArgs]
            · rw [nodeSort]
              simp [LSort.range, list, ne, run, runT]
            · simp
        · have args : lookedUpArgs interp (t :: ts) = (t :: t.namedArgs interp) ++ lookedUpArgs interp ts := by
            cases t with
            | const c => exact (const ⟨c, rfl⟩).elim
            | _ => rfl
          rw [args]
          exact (keeps.named sort).cons keepsT


/-- The chain over all tuples has the value of the application. -/
theorem tableResult_spec {f : Const} {dom : List FSort} {s : FSort} (sort : f.sort = .function dom s)
    {ts argSyms : List Expr} {sets : List (List Expr)} (length : argSyms.length = dom.length)
    (tuples : Tuples interp S sets ts dom) : ∃ e, tableResult (.apply f ts) f argSyms (mcCartesianProduct sets) = some e ∧
      (∀ bound, HasSorts bound argSyms dom → HasSorts bound ts dom → e.HasSort bound s) ∧
      ∀ {D : Domain} (N : Structure D) (env : Env D), ExactSorts interp S N →
        argSyms.map (·.eval N env) = ts.map (·.eval N env) → e.eval N env = (Expr.apply f ts).eval N env := by
  have sorts := tuples.sorts
  have values : ∀ {D : Domain} (N : Structure D) (env : Env D), ExactSorts interp S N → _ := tuples.values
  generalize mcCartesianProduct sets = combos at sorts values
  cases combos with
  | nil => exact ⟨_, rfl, fun _ _ h => ⟨dom, sort, h⟩, fun _ _ _ _ => rfl⟩
  | cons combo combos =>
    rw [List.forall_mem_cons] at sorts
    obtain ⟨e, chain, typed, value⟩ := tableChain_spec sort length sorts.2 (.apply f combo)
    refine ⟨e, ?_, fun bound args _ => typed bound args ⟨dom, sort, sorts.1 bound⟩, fun N env exact same => ?_⟩
    · rw [tableResult, newApply_of_hasSorts sort (sorts.1 [])]
      exact chain
    · obtain ⟨c, hc, found⟩ := values N env exact
      rw [← same] at found
      rw [value N env, same, Expr.eval, evalList_eq_map]
      rcases List.mem_cons.mp hc with rfl | hc
      · left
        rw [Expr.eval, evalList_eq_map, found]
      · exact .inr ⟨c, hc, found.symm⟩

/-- A node that is no lookup is rebuilt from its children. -/
theorem TableStep.children {e : Expr} (plain : e.isQuantifierFree = true)
    (noTable : ∀ f ts, e = .apply f ts → looksUp interp f ts = false)
    (step : ∀ t ∈ e.children, TableStep interp S t) : TableStep interp S e := by
  intro st
  obtain ⟨us, st', run, keeps⟩ := tableRecurList_keeps step st
  have args : e.namedArgs interp = namedArgsList interp e.children := by
    cases e with
    | apply f ts => rw [Expr.namedArgs, noTable f ts rfl, if_neg Bool.false_ne_true, Expr.children]
    | forAll | «exists» | some | someElse => contradiction
    | _ => simp only [Expr.namedArgs, Expr.children, namedArgsList, List.append_nil]
  refine ⟨e.cloneNode us, st', ?_, args ▸ keeps.cloneNode plain⟩
  cases e with
  | apply f ts =>
    rw [Expr.children] at run
    simp [tableRecur, noTable f ts rfl, run]
  | _ => simp [tableRecur, run]

/-- The recursion returns a result that has the value of the expression where the new definitions hold. -/
theorem tableRecur_keeps (listed : ListedSorts interp S) {e : Expr} (tabled : e.Tabled S) :
    TableStep interp S e := by
  induction e with
  | apply f ts ih =>
    have step : ∀ t ∈ ts, TableStep interp S t := fun t ht => ih t ht (tabled.children t ht)
    by_cases table : looksUp interp f ts = true
    · obtain ⟨bound, s, dom, sort, sorts⟩ := tabled.sorted
      have finite : ∀ t ∈ ts, finiteWithInterp interp t.nodeSort = true := by
        rw [looksUp, Bool.and_eq_true, List.all_eq_true] at table
        exact table.2
      have domain : ∀ r ∈ dom, S r := by
        have domains := tabled.domains f List.mem_cons_self
        rwa [sort] at domains
      intro st
      obtain ⟨argSyms, sets, st', run, keeps, tuples⟩ := tableLookupArgs_keeps listed sorts domain finite step st
      obtain ⟨new, pairs, argRun, kept, eval⟩ := keeps
      have length : argSyms.length = dom.length := (hasSorts_iff.mp (kept.hasSorts sorts)).length_eq
      obtain ⟨u, result, typed, value⟩ := tableResult_spec sort length tuples
      refine ⟨u, st', by simp [tableRecur, table, run, result], new, pairs, ?_, .cons (fun bound r h => ?_) .nil,
        fun N env exact holds => ?_⟩
      · rwa [Expr.namedArgs, if_pos table]
      · obtain ⟨dom', sort', sorts'⟩ := h
        obtain ⟨rfl, rfl⟩ := LSort.function.inj (sort.symm.trans sort')
        exact typed bound (kept.hasSorts sorts') sorts'
      · exact congrArg (fun value => [value]) (value N env exact (eval N env exact holds))
    · refine .children tabled.quantifierFree (fun g us same => ?_) step
      cases same
      exact Bool.eq_false_iff.mpr table
  | and ts ih | or ts ih =>
    exact .children tabled.quantifierFree (by rintro _ _ ⟨⟩) fun t ht => ih t ht (tabled.children t ht)
  | var v | const c => exact .children tabled.quantifierFree (by rintro _ _ ⟨⟩) (by simp [Expr.children])
  | not a ih =>
    have tabled' := tabled.children
    simp only [Expr.children, List.forall_mem_cons] at tabled'
    exact .children tabled.quantifierFree (by rintro _ _ ⟨⟩) (List.forall_mem_singleton.mpr (ih tabled'.1))
  | eq a b iha ihb | implies a b iha ihb | iff a b iha ihb =>
    have tabled' := tabled.children
    simp only [Expr.children, List.forall_mem_cons] at tabled'
    exact .children tabled.quantifierFree (by rintro _ _ ⟨⟩)
      (List.forall_mem_cons.mpr ⟨iha tabled'.1, List.forall_mem_singleton.mpr (ihb tabled'.2.1)⟩)
  | ite c a b ihc iha ihb =>
    have tabled' := tabled.children
    simp only [Expr.children, List.forall_mem_cons] at tabled'
    exact .children tabled.quantifierFree (by rintro _ _ ⟨⟩) (List.forall_mem_cons.mpr ⟨ihc tabled'.1,
      List.forall_mem_cons.mpr ⟨iha tabled'.2.1, List.forall_mem_singleton.mpr (ihb tabled'.2.2.1)⟩⟩)
  | forAll | «exists» | some | someElse => cases tabled.quantifierFree


/-- Both sides of a definition, which have one sort. -/
structure Definition.Tabled (S : FSort → Prop) (d : Definition) : Prop where
  lhs : d.lhs.Tabled S
  rhs : d.rhs.Tabled S
  sort : ∃ bound s, d.lhs.HasSort bound s ∧ d.rhs.HasSort bound s

def Definition.namedArgs (interp : Interpretation) (d : Definition) : List Expr :=
  d.lhs.namedArgs interp ++ d.rhs.namedArgs interp

theorem tableRecurDefs_keeps (listed : ListedSorts interp S) {ds : List Definition} (tabled : ∀ d ∈ ds, d.Tabled S)
    (st : TableState) : ∃ ds' st', tableRecurDefs interp ds st = some (ds', st') ∧ ds'.length = ds.length ∧
      ∃ new pairs, ArgRun interp S st st' new pairs (ds.flatMap (·.namedArgs interp)) ∧
        ∀ {D : Domain} (N : Structure D) (env : Env D), ExactSorts interp S N →
          (∀ d ∈ new, d.toConstraint.Holds N env) →
            ((∀ d ∈ ds', d.toConstraint.Holds N env) ↔ ∀ d ∈ ds, d.toConstraint.Holds N env) := by
  induction ds generalizing st with
  | nil => exact ⟨[], st, rfl, rfl, [], [], .refl st, fun _ _ _ _ => Iff.rfl⟩
  | cons d ds ih =>
    obtain ⟨here, tabled⟩ := List.forall_mem_cons.mp tabled
    obtain ⟨lhs, st₁, runL, newL, pairsL, argRunL, keptL, evalL⟩ := tableRecur_keeps listed here.lhs st
    obtain ⟨rhs, st₂, runR, newR, pairsR, argRunR, keptR, evalR⟩ := tableRecur_keeps listed here.rhs st₁
    obtain ⟨ds', st₃, run, length, newT, pairsT, argRunT, holdsT⟩ := ih tabled st₂
    refine ⟨⟨lhs, rhs⟩ :: ds', st₃, by simp [tableRecurDefs, runL, runR, run], by simp [length], _, _,
      (argRunL.trans argRunR).trans argRunT, fun N env exact holds => ?_⟩
    obtain ⟨sides, there⟩ := List.forall_mem_append.mp holds
    obtain ⟨left, right⟩ := List.forall_mem_append.mp sides
    obtain ⟨bound, s, sortL, sortR⟩ := here.sort
    have sameL : lhs.eval N env = d.lhs.eval N env := (List.cons.inj (evalL N env exact left)).1
    have sameR : rhs.eval N env = d.rhs.eval N env := (List.cons.inj (evalR N env exact right)).1
    rw [List.forall_mem_cons, List.forall_mem_cons, holdsT N env exact there, holds_toConstraint
      ((List.forall₂_cons.mp keptL).1 bound s sortL) ((List.forall₂_cons.mp keptR).1 bound s sortR), sameL, sameR,
      ← holds_toConstraint sortL sortR]

end Run

end Goivy
