import Goivy.TransRel.AtomicExact

/-! Assignments, havocs and sets as one kind of action. -/
namespace Goivy

variable {D : Domain} {M : Structure D} {env : Env D}

namespace Expr

theorem holds_conjoin (ts : List Expr) : (conjoin ts).Holds M env ↔ ∀ t ∈ ts, t.Holds M env := by
  unfold conjoin
  split
  · rename_i fails
    obtain ⟨t, mem, isFalse⟩ := List.any_eq_true.mp fails
    obtain rfl := isFalse_eq isFalse
    exact iff_of_false (not_holds_fls M env) fun all => not_holds_fls M env (all fls mem)
  · have rest : (∀ t ∈ ts, t.Holds M env) ↔ ∀ t ∈ ts.filter (fun t => !t.isTrue), t.Holds M env := by
      refine ⟨fun all t mem => all t (List.mem_of_mem_filter mem), fun all t mem => ?_⟩
      cases truth : t.isTrue with
      | true => exact isTrue_eq truth ▸ holds_tru M env
      | false => exact all t (List.mem_filter.mpr ⟨mem, by simp [truth]⟩)
    rw [rest]
    split
    · rename_i one
      rw [one, List.forall_mem_singleton]
    · rw [holds_and]

theorem holds_disjoin (ts : List Expr) : (disjoin ts).Holds M env ↔ ∃ t ∈ ts, t.Holds M env := by
  unfold disjoin
  split
  · rename_i holds
    obtain ⟨t, mem, isTrue⟩ := List.any_eq_true.mp holds
    obtain rfl := isTrue_eq isTrue
    exact iff_of_true (holds_tru M env) ⟨tru, mem, holds_tru M env⟩
  · have rest : (∃ t ∈ ts, t.Holds M env) ↔ ∃ t ∈ ts.filter (fun t => !t.isFalse), t.Holds M env := by
      refine ⟨fun ⟨t, mem, holds⟩ => ⟨t, List.mem_filter.mpr ⟨mem, ?_⟩, holds⟩,
        fun ⟨t, mem, holds⟩ => ⟨t, List.mem_of_mem_filter mem, holds⟩⟩
      cases falsity : t.isFalse with
      | true => exact absurd (isFalse_eq falsity ▸ holds) (not_holds_fls M env)
      | false => rfl
    rw [rest]
    split
    · rename_i one
      simp [one]
    · rw [holds_or]

theorem holds_sign (polarity : Bool) (atom : Expr) :
    (sign polarity atom).Holds M env ↔ (atom.Holds M env ↔ polarity = true) := by
  cases polarity <;> simp [sign]

theorem valid_unwrapSingleton (e : Expr) : e.unwrapSingleton.Valid M ↔ e.Valid M := by
  unfold unwrapSingleton
  split <;> simp [Valid]

end Expr

theorem Clauses.sat_ofFormula (f : Expr) : (ofFormula f).Sat M ↔ f.Valid M := by
  rw [ofFormula, sat_new]
  simp only [List.forall_mem_singleton, List.not_mem_nil, false_imp_iff, implies_true, and_true]
  exact (Expr.drop_spec M _).1.trans (Expr.valid_unwrapSingleton f)

theorem HasSorts.evalList {ctx : List Variable} {ts : List Expr} {ss : List FSort} (h : HasSorts ctx ts ss)
    (M : Structure D) (env : Env D) : (Goivy.evalList M ts env).map Sigma.fst = ss := by
  rw [hasSorts_iff] at h
  induction h with
  | nil => rfl
  | cons head _ ih =>
    rw [Goivy.evalList, List.map_cons, ih, Expr.sort_eval_of_hasSort M head]

section Locations

variable {phs : List Variable} {args : List Expr} {phEnv : Env D} {ctx : List Variable}

/-- The conditions on the placeholders hold exactly where their values are matched. -/
theorem matched_iff (plain : PlainArgs args) (sorts : HasSorts ctx args ((phs.map Variable.sort).take args.length)) :
    Matched M args (phEnv.values phs) ↔ ∀ c ∈ matchConditions phs args, c.Holds M phEnv := by
  have fits : args.length ≤ phs.length := by
    have := (hasSorts_iff.mp sorts).length_eq
    simp only [List.length_take, List.length_map] at this
    omega
  constructor
  · rintro ⟨env, this⟩
    exact ((matchedBy_iff plain.closed fits).mp this).1
  · intro conds
    obtain ⟨env, bound⟩ := exists_bound plain.distinct sorts phEnv
    exact ⟨env, (matchedBy_iff plain.closed fits).mpr ⟨conds, bound⟩⟩

end Locations

section Frames

variable {eqs : List Expr} {P : Expr → Prop}

/-- A frame for each condition is a frame for their conjunction. -/
theorem forall_or_iff {q : Prop} : (∀ e ∈ eqs, q ∨ P e) ↔ (¬ (∀ e ∈ eqs, P e) → q) := by
  constructor
  · intro all fails
    push Not at fails
    obtain ⟨e, mem, fails⟩ := fails
    exact (all e mem).resolve_right fails
  · intro all e mem
    by_cases holds : P e
    · exact .inr holds
    · exact .inl (all fun conds => holds (conds e mem))

theorem frames_iff {new old : Prop} : (∀ e ∈ eqs, (¬ new ∨ old ∨ P e) ∧ (new ∨ ¬ old ∨ P e)) ↔
    (¬ (∀ e ∈ eqs, P e) → (new ↔ old)) := by
  rw [← forall_or_iff]
  refine forall₂_congr fun e _ => ?_
  tauto

theorem forall_mem_pairs {f g : Expr → Expr} :
    (∀ t ∈ eqs.flatMap fun e => [f e, g e], P t) ↔ ∀ e ∈ eqs, P (f e) ∧ P (g e) := by
  induction eqs with
  | nil => simp
  | cons e eqs ih =>
    rw [List.flatMap_cons, List.forall_mem_append, ih, List.forall_mem_cons]
    simp

end Frames

namespace Update

theorem havocVariables_nodup (c : Const) : (havocVariables c).Nodup := by
  refine List.pairwise_iff_getElem.mpr fun i j hi hj lt same => ?_
  simp only [havocVariables, List.getElem_mapIdx, Variable.mk.injEq] at same
  exact lt.ne (Nat.repr_injective ((String.append_right_inj _).mp same.1))

theorem havocVariables_sorts (c : Const) : (havocVariables c).map Variable.sort = c.sort.domain :=
  List.ext_getElem (by simp [havocVariables]) (by simp [havocVariables])

/-- What a havoc says: the argument lists that are not matched keep their values. -/
theorem havoc_spec {target : Expr} {sym : Const} {u : Update} {ctx : List Variable}
    (head : target.constSym = some sym) (made : havoc target = some u) (plain : PlainArgs target.nodeArgs)
    (sorts : HasSorts ctx target.nodeArgs (sym.sort.domain.take target.nodeArgs.length)) (N : Structure D) :
    u.modified = [sym] ∧ u.modifiedAll = false ∧ u.pre = .fls ∧
    (u.tr.Sat N ↔ ∀ vals : List (Val D), vals.map Sigma.fst = sym.sort.domain →
      ¬ Matched N target.nodeArgs vals → N.value (newActionConst sym) vals = N.value sym vals) := by
  simp only [havoc, head, Option.bind_eq_bind, Option.bind_eq_some_iff] at made
  obtain ⟨newApp, newEq, oldApp, oldEq, made⟩ := made
  cases made
  refine ⟨rfl, rfl, rfl, ?_⟩
  have newVal : ∀ w : Env D, newApp.eval N w = N.value (newActionConst sym) (w.values (havocVariables sym)) :=
    fun w => by rw [(Expr.applyToNodes_spec newEq N w).1, Expr.evalList_placeholders]
  have oldVal : ∀ w : Env D, oldApp.eval N w = N.value sym (w.values (havocVariables sym)) :=
    fun w => by rw [(Expr.applyToNodes_spec oldEq N w).1, Expr.evalList_placeholders]
  have location : ∀ w : Env D, (∀ t ∈ (if sym.sort.range = .boolean then
        (matchConditions (havocVariables sym) target.nodeArgs).flatMap fun eq =>
          [Expr.or [.not newApp, oldApp, eq], Expr.or [newApp, .not oldApp, eq]]
      else (matchConditions (havocVariables sym) target.nodeArgs).map fun eq => .or [.eq newApp oldApp, eq]),
      t.Holds N w) ↔ (¬ Matched N target.nodeArgs (w.values (havocVariables sym)) →
        N.value (newActionConst sym) (w.values (havocVariables sym)) =
          N.value sym (w.values (havocVariables sym))) := by
    intro w
    rw [matched_iff plain (by rwa [havocVariables_sorts]), ← newVal, ← oldVal]
    split
    · rename_i boolean
      have same : newApp.eval N w = oldApp.eval N w ↔ (newApp.Holds N w ↔ oldApp.Holds N w) :=
        ⟨fun same => by rw [Expr.Holds, Expr.Holds, same],
          Val.eq_of_holds_iff (by rw [newVal]; exact boolean) (by rw [oldVal]; exact boolean)⟩
      rw [same, ← frames_iff, forall_mem_pairs]
      simp
    · rw [← forall_or_iff]
      simp
  rw [make, Clauses.sat_ofFormula]
  have formula : ∀ (ts : List Expr) (w : Env D),
      (if ts.isEmpty then Expr.tru else .conjoin ts).Holds N w ↔ ∀ t ∈ ts, t.Holds N w := by
    intro ts w
    split
    · rename_i none
      simp [List.isEmpty_iff.mp none]
    · exact Expr.holds_conjoin ts
  simp only [Expr.Valid, formula, location]
  constructor
  · intro spec vals fits
    obtain ⟨w, rfl⟩ := exists_env (havocVariables_nodup sym) (fits.trans (havocVariables_sorts sym).symm)
    exact spec w
  · intro spec w
    refine spec _ ?_
    rw [← havocVariables_sorts sym, Env.values, List.map_map]
    rfl

/-- What a set says: the literal is true at the matched argument lists, and the others keep
their values. -/
theorem set_spec {literal : Expr} {sym : Const} {u : Update} {ctx : List Variable}
    (head : literal.polarity.2.constSym = some sym) (made : set literal = some u)
    (plain : PlainArgs literal.polarity.2.nodeArgs)
    (sorts : HasSorts ctx literal.polarity.2.nodeArgs sym.sort.domain) (boolean : sym.sort.range = .boolean)
    (N : Structure D) : u.modified = [sym] ∧ u.modifiedAll = false ∧ u.pre = .fls ∧
    (u.tr.Sat N ↔ ∀ vals : List (Val D), vals.map Sigma.fst = sym.sort.domain →
      (Matched N literal.polarity.2.nodeArgs vals →
        ((N.value (newActionConst sym) vals).Holds ↔ literal.polarity.1 = true)) ∧
      (¬ Matched N literal.polarity.2.nodeArgs vals →
        N.value (newActionConst sym) vals = N.value sym vals)) := by
  simp only [set, head, Option.bind_eq_bind, Option.bind_eq_some_iff] at made
  obtain ⟨newVs, newEq, oldVs, oldEq, newArgs, argsEq, made⟩ := made
  cases made
  refine ⟨rfl, rfl, rfl, ?_⟩
  generalize literal.polarity.2.nodeArgs = args at *
  generalize literal.polarity.1 = positive at *
  let new : List (Val D) → Prop := fun vals => (N.value (newActionConst sym) vals).Holds
  let old : List (Val D) → Prop := fun vals => (N.value sym vals).Holds
  have newVal : ∀ w : Env D, newVs.Holds N w ↔ new (w.values (symPlaceholders sym)) := fun w => by
    rw [Expr.Holds, (Expr.applyToNodes_spec newEq N w).1, Expr.evalList_placeholders]
  have oldVal : ∀ w : Env D, oldVs.Holds N w ↔ old (w.values (symPlaceholders sym)) := fun w => by
    rw [Expr.Holds, (Expr.applyToNodes_spec oldEq N w).1, Expr.evalList_placeholders]
  have argsVal : ∀ w : Env D, newArgs.Holds N w ↔ new (evalList N args w) := fun w => by
    rw [Expr.Holds, (Expr.applyToNodes_spec argsEq N w).1]
  have same : ∀ vals, N.value (newActionConst sym) vals = N.value sym vals ↔ (new vals ↔ old vals) :=
    fun vals => ⟨fun same => by simp only [new, old, same], Val.eq_of_holds_iff boolean boolean⟩
  have length : args.length = sym.sort.domain.length := (hasSorts_iff.mp sorts).length_eq
  have conditions : ∀ w : Env D, Matched N args (w.values (symPlaceholders sym)) ↔
      ∀ c ∈ matchConditions (symPlaceholders sym) args, c.Holds N w := fun w =>
    matched_iff plain (by rwa [symPlaceholders_sorts, length, List.take_length])
  have location : ∀ w : Env D, (∀ t ∈ (matchConditions (symPlaceholders sym) args).flatMap fun eq =>
        [Expr.disjoin [Expr.sign false newVs, Expr.sign true oldVs, eq],
          Expr.disjoin [Expr.sign true newVs, Expr.sign false oldVs, eq]], t.Holds N w) ↔
      (¬ Matched N args (w.values (symPlaceholders sym)) →
        (new (w.values (symPlaceholders sym)) ↔ old (w.values (symPlaceholders sym)))) := by
    intro w
    rw [conditions, ← frames_iff, forall_mem_pairs]
    simp [Expr.holds_disjoin, Expr.holds_sign, newVal, oldVal]
  rw [make, Clauses.sat_ofFormula]
  simp only [Expr.Valid, Expr.holds_conjoin, List.forall_mem_cons, location, Expr.holds_sign, argsVal,
    Expr.holds_disjoin, List.exists_mem_cons_iff, List.not_mem_nil, false_and, exists_false, or_false, newVal,
    oldVal, same]
  constructor
  · intro spec vals fits
    obtain ⟨w, rfl⟩ := exists_env (symPlaceholders_nodup sym) (fits.trans (symPlaceholders_sorts sym).symm)
    refine ⟨?_, (spec w).2.2⟩
    rintro ⟨env, matched⟩
    have whole : evalList N args env = w.values (symPlaceholders sym) := by
      refine matched.eq_of_length ?_
      rw [evalList_eq_map, List.length_map, length, Env.values, List.length_map, length_symPlaceholders]
    have := (spec env).2.1
    rwa [whole] at this
  · intro spec w
    have fits : (w.values (symPlaceholders sym)).map Sigma.fst = sym.sort.domain := by
      rw [← symPlaceholders_sorts sym, Env.values, List.map_map]
      rfl
    have argFits : (evalList N args w).map Sigma.fst = sym.sort.domain := by
      exact sorts.evalList N w
    obtain ⟨matched, unmatched⟩ := spec _ fits
    refine ⟨?_, (spec _ argFits).1 ⟨w, List.prefix_refl _⟩, unmatched⟩
    by_cases here : Matched N args (w.values (symPlaceholders sym))
    · exact .inl (matched here)
    · have := unmatched here
      cases positive <;> simp <;> tauto

end Update

theorem forall_args {dom : List FSort} {P : Args D dom → Prop} :
    (∀ vals, P vals) ↔ ∀ (vals : List (Val D)) (fits : vals.map Sigma.fst = dom), P ⟨vals, fits⟩ :=
  Subtype.forall

/-- An assignment, a havoc or a set. -/
inductive AtomicAction where
  | assign (lhs rhs : Expr)
  | havoc (target : Expr)
  | set (literal : Expr)

namespace AtomicAction

/-- `ActionUpdate`. Only an assignment has other branches than the standard one. -/
def update (tables : SortTables) : AtomicAction → Option (AssignBranch × Update)
  | .assign lhs rhs => Update.assign tables lhs rhs
  | .havoc target => (Update.havoc target).map (AssignBranch.standard, ·)
  | .set literal => (Update.set literal).map (AssignBranch.standard, ·)

/-- Both sides of an assignment have one sort, and the arguments have those of the symbol. A partial
application stands for the application that it is extended to. -/
def WellSorted (ctx : List Variable) : AtomicAction → Prop
  | .assign lhs rhs => ∀ c lhs' rhs', lhs.constSym = some c → extendAssign c lhs rhs = some (lhs', rhs') →
    ∃ sort, lhs'.HasSort ctx sort ∧ rhs'.HasSort ctx sort
  | .havoc target => ∀ c, target.constSym = some c →
    HasSorts ctx target.nodeArgs (c.sort.domain.take target.nodeArgs.length)
  | .set literal => literal.polarity.2.HasSort ctx .boolean

/-- No variable occurs twice among the arguments or in an argument that is no variable, no quantifier
captures a placeholder, and the `new_` symbol does not occur. -/
def Plain : AtomicAction → Prop
  | .assign lhs rhs => ∀ c lhs' rhs', lhs.constSym = some c → extendAssign c lhs rhs = some (lhs', rhs') →
    PlainArgs lhs'.nodeArgs ∧ rhs'.CaptureFree (matchRenaming (symPlaceholders c) lhs'.nodeArgs) ∧
      (∀ t ∈ lhs'.nodeArgs, newActionConst c ∉ t.symbols) ∧ newActionConst c ∉ rhs'.symbols
  | .havoc target => ∀ c, target.constSym = some c →
    PlainArgs target.nodeArgs ∧ ∀ t ∈ target.nodeArgs, newActionConst c ∉ t.symbols
  | .set literal => ∀ c, literal.polarity.2.constSym = some c →
    PlainArgs literal.polarity.2.nodeArgs ∧ ∀ t ∈ literal.polarity.2.nodeArgs, newActionConst c ∉ t.symbols

/-- The update changes the matched locations as the action says, and no others. -/
def Exact (s : Structure D) (u : Update) : AtomicAction → Prop
  | .assign lhs rhs => ∀ c lhs' rhs', lhs.constSym = some c → extendAssign c lhs rhs = some (lhs', rhs') →
    u.modified = [c] ∧ ∃ g, AssignsExactly s c lhs'.nodeArgs rhs' g ∧ ∀ g', u.Allows c s g' ↔ g' = g
  | .havoc target => ∀ c, target.constSym = some c → u.modified = [c] ∧ ∀ g, u.Allows c s g ↔
    ∀ vals : Args D c.sort.domain, ¬ Matched s target.nodeArgs vals.1 → g vals = s c.name c.sort vals
  | .set literal => ∀ c, literal.polarity.2.constSym = some c → u.modified = [c] ∧ ∀ g, u.Allows c s g ↔
    ∀ vals : Args D c.sort.domain,
      (Matched s literal.polarity.2.nodeArgs vals.1 →
        (Val.Holds (⟨c.sort.range, g vals⟩ : Val D) ↔ literal.polarity.1 = true)) ∧
      (¬ Matched s literal.polarity.2.nodeArgs vals.1 → g vals = s c.name c.sort vals)

end AtomicAction

namespace Expr

variable {lhs : Expr} {c : Const} {ctx : List Variable} {sort : FSort}

/-- The sorts of an application, from those of its symbol. -/
theorem HasSort.location (h : lhs.HasSort ctx sort) (head : lhs.constSym = .some c) :
    HasSorts ctx lhs.nodeArgs c.sort.domain ∧ c.sort.range = sort := by
  cases lhs with
  | const d =>
    cases head
    rw [show c.sort = .first sort from h]
    exact ⟨trivial, rfl⟩
  | apply f ts =>
    cases head
    obtain ⟨domain, same, sorts⟩ := h
    rw [same]
    exact ⟨sorts, rfl⟩
  | _ => cases head

/-- The variables of plain arguments are the arguments that are variables. -/
theorem usedVariables_location (head : lhs.constSym = .some c) (plain : PlainArgs lhs.nodeArgs) :
    ∀ v ∈ lhs.usedVariables, v ∈ argVariables lhs.nodeArgs := by
  cases lhs with
  | const d => simp [usedVariables]
  | apply f ts =>
    intro v used
    rw [usedVariables, usedVariablesList_eq_flatMap, List.mem_flatMap] at used
    obtain ⟨t, mem, used⟩ := used
    rcases plain.closed t mem with ⟨w, rfl⟩ | none
    · rw [usedVariables, List.mem_singleton] at used
      exact List.mem_filterMap.mpr ⟨_, mem, by rw [used]⟩
    · have := usedVariables_subset t v used
      simp [none] at this
  | _ => cases head

end Expr

theorem extendAssign_head {c : Const} {lhs rhs lhs' rhs' : Expr} (head : lhs.constSym = some c)
    (extended : extendAssign c lhs rhs = some (lhs', rhs')) : lhs'.constSym = some c := by
  have added : ∀ params e, lhs.addParameters params = some e → e.constSym = some c := by
    intro params e h
    cases lhs with
    | const d => cases Expr.newApply_eq h; exact head
    | apply f ts => cases Expr.newApply_eq h; exact head
    | _ => cases head
  unfold extendAssign at extended
  split at extended
  · cases extended
  · split at extended
    · cases extended
      exact head
    · simp only [Option.bind_eq_bind, Option.bind_eq_some_iff] at extended
      obtain ⟨e, eq, extended⟩ := extended
      split at extended
      · simp only [Option.bind_eq_some_iff] at extended
        obtain ⟨_, _, _, _, extended⟩ := extended
        cases extended
        exact added _ _ eq
      · simp only [Option.bind_eq_some_iff] at extended
        obtain ⟨_, _, extended⟩ := extended
        cases extended
        exact added _ _ eq

/-- What the standard branch of an assignment has checked. -/
theorem assign_standard {tables : SortTables} {lhs rhs : Expr} {u : Update} {c : Const}
    (head : lhs.constSym = some c) (accepted : Update.assign tables lhs rhs = some (.standard, u)) :
    ∃ lhs' rhs', extendAssign c lhs rhs = some (lhs', rhs') ∧ rhs'.usedVariables ⊆ lhs'.usedVariables ∧
      mkAssignClauses lhs' rhs' = some u := by
  simp only [Update.assign, head, Option.bind_eq_bind, Option.bind_eq_some_iff] at accepted
  obtain ⟨⟨lhs', rhs'⟩, extended, accepted⟩ := accepted
  refine ⟨lhs', rhs', extended, ?_⟩
  split at accepted
  · cases accepted
  rename_i used
  refine ⟨not_not.mp used, ?_⟩
  split at accepted
  · cases accepted
  split at accepted
  · cases accepted
  split at accepted
  · obtain ⟨_, _, other⟩ := Option.bind_eq_some_iff.mp accepted
    cases other
  split at accepted
  · obtain ⟨_, _, other⟩ := Option.bind_eq_some_iff.mp accepted
    cases other
  · obtain ⟨_, made, same⟩ := Option.bind_eq_some_iff.mp accepted
    cases same
    exact made

/-- The standard update of a plain action is exact in every state. -/
theorem atomic_update_exact (tables : SortTables) (a : AtomicAction) (u : Update) (ctx : List Variable)
    (s : Structure D) (accepted : a.update tables = some (.standard, u)) (sorted : a.WellSorted ctx)
    (plain : a.Plain) : a.Exact s u := by
  cases a with
  | assign lhs rhs =>
    intro c lhs' rhs' head extended
    obtain ⟨sort, lhsSort, rhsSort⟩ := sorted c lhs' rhs' head extended
    obtain ⟨plainArgs, clear, freshArgs, freshRhs⟩ := plain c lhs' rhs' head extended
    obtain ⟨l, r, extended', used, made⟩ := assign_standard head accepted
    cases extended'.symm.trans extended
    have head' := extendAssign_head head extended
    obtain ⟨argSorts, range⟩ := lhsSort.location head'
    have h : Assignable ctx c lhs'.nodeArgs rhs' :=
      ⟨plainArgs, argSorts, range ▸ rhsSort,
        fun v mem => Expr.usedVariables_location head' plainArgs v (used mem), clear⟩
    obtain ⟨g, exact, unique⟩ := h.existsUnique (s := s)
    refine ⟨(mkAssignClauses_spec head' made h s).1, g, exact, fun g' => ?_⟩
    rw [mkAssignClauses_exact head' made h freshArgs freshRhs]
    exact ⟨unique g', fun same => same ▸ exact⟩
  | havoc target =>
    intro c head
    obtain ⟨plainArgs, fresh⟩ := plain c head
    obtain ⟨_, made, same⟩ := Option.map_eq_some_iff.mp accepted
    cases same
    refine ⟨(Update.havoc_spec head made plainArgs (sorted c head) s).1, fun g => ?_⟩
    rw [Update.Allows, (Update.havoc_spec head made plainArgs (sorted c head) _).2.2.2, forall_args]
    refine forall₂_congr fun vals fits => ?_
    rw [matched_setNew fresh, Structure.value_new ⟨vals, fits⟩, Structure.value_old ⟨vals, fits⟩]
    exact imp_congr_right fun _ => ⟨Val.eq_of_sigma, fun same => by rw [same]⟩
  | set literal =>
    intro c head
    obtain ⟨plainArgs, fresh⟩ := plain c head
    obtain ⟨_, made, same⟩ := Option.map_eq_some_iff.mp accepted
    cases same
    have sorted : literal.polarity.2.HasSort ctx .boolean := sorted
    obtain ⟨argSorts, range⟩ := sorted.location head
    refine ⟨(Update.set_spec head made plainArgs argSorts range s).1, fun g => ?_⟩
    rw [Update.Allows, (Update.set_spec head made plainArgs argSorts range _).2.2.2, forall_args]
    refine forall₂_congr fun vals fits => ?_
    rw [matched_setNew fresh, Structure.value_new ⟨vals, fits⟩, Structure.value_old ⟨vals, fits⟩]
    exact and_congr_right fun _ => imp_congr_right fun _ => ⟨Val.eq_of_sigma, fun same => by rw [same]⟩

/-- The domain with two elements in every sort. -/
def Domain.two : Domain := ⟨fun _ => Bool, fun _ => ⟨true⟩⟩

def El.two (b : Bool) : (s : FSort) → El Domain.two s
  | .boolean | .uninterpreted _ | .enumerated _ _ | .range _ _ _ | .top _ => b

/-- Every relation is empty. -/
def Structure.empty : Structure Domain.two := fun _ s _ => .two false s.range

/-- A relation and two variables of its sort. -/
def edge : Const := ⟨"r", .function [.uninterpreted "t", .uninterpreted "t"] .boolean⟩
def edgeX : Variable := ⟨"X", .uninterpreted "t"⟩
def edgeY : Variable := ⟨"Y", .uninterpreted "t"⟩

/-- The update that gives `edge` the values of `rhs` at its placeholders. -/
def edgeUpdate (rhs : Expr) : Update :=
  ⟨[edge], false, .new [] [⟨symInst (newActionConst edge), rhs⟩], .fls⟩

def noTables : SortTables := ⟨[], [], []⟩

/-- r(X,Y) := r(Y,X) turns all edges round. -/
def turnEdges : AtomicAction :=
  .assign (.apply edge [.var edgeX, .var edgeY]) (.apply edge [.var edgeY, .var edgeX])

theorem atomic_update_exact_turnEdges : turnEdges.Exact Structure.empty
    (edgeUpdate (.apply edge [.var ⟨"V1", .uninterpreted "t"⟩, .var ⟨"V0", .uninterpreted "t"⟩])) := by
  refine atomic_update_exact noTables turnEdges _ [edgeX, edgeY] .empty rfl ?_ ?_
  · rintro c lhs rhs ⟨⟩ ⟨⟩
    exact ⟨.boolean, ⟨_, rfl, ⟨rfl, rfl⟩, ⟨rfl, rfl⟩, trivial⟩, _, rfl, ⟨rfl, rfl⟩, ⟨rfl, rfl⟩, trivial⟩
  · rintro c lhs rhs ⟨⟩ ⟨⟩
    refine ⟨⟨by decide, by simp [Expr.nodeArgs]⟩, ⟨trivial, trivial, trivial⟩, ?_, by decide⟩
    simp [Expr.nodeArgs, Expr.symbols]

/-- r(X,X) := true adds loops only. -/
def addLoops : AtomicAction := .assign (.apply edge [.var edgeX, .var edgeX]) .tru

/-- Its update makes all pairs edges: the second argument overwrites the first one. -/
theorem addLoops_overwrites : addLoops.update noTables = some (.standard, edgeUpdate .tru) ∧
    addLoops.WellSorted [edgeX] ∧ ¬ addLoops.Exact Structure.empty (edgeUpdate .tru) := by
  refine ⟨rfl, ?_, fun exact => ?_⟩
  · rintro c lhs rhs ⟨⟩ ⟨⟩
    exact ⟨.boolean, ⟨_, rfl, ⟨rfl, rfl⟩, ⟨rfl, rfl⟩, trivial⟩, rfl, trivial⟩
  · obtain ⟨-, g, assigns, allows⟩ := exact edge _ _ rfl rfl
    let loose : Args Domain.two edge.sort.domain :=
      ⟨[⟨.uninterpreted "t", true⟩, ⟨.uninterpreted "t", false⟩], rfl⟩
    have unmatched : ¬ Matched Structure.empty [.var edgeX, .var edgeX] loose.1 := by
      rintro ⟨env, this⟩
      have same : [(⟨edgeX.sort, env edgeX⟩ : Val Domain.two), ⟨edgeX.sort, env edgeX⟩] = loose.1 :=
        this.eq_of_length rfl
      obtain ⟨first, rest⟩ := List.cons.inj same
      have ends := first.symm.trans (List.cons.inj rest).1
      exact Bool.noConfusion (eq_of_heq (Sigma.mk.inj ends).2)
    have kept : g loose = false := (assigns loose).2 unmatched
    have sat := (allows g).mpr rfl
    rw [Update.Allows, edgeUpdate, Clauses.sat_new] at sat
    obtain ⟨env, values⟩ := exists_env (D := Domain.two) (symPlaceholders_nodup edge) loose.2
    have holds : (Expr.iff (symInst (newActionConst edge)) .tru).Holds (Structure.empty.setNew edge g) env :=
      sat.2 _ List.mem_cons_self env
    rw [Expr.holds_iff, Expr.Holds, eval_symInst] at holds
    have edges := holds.mpr (Expr.holds_tru _ env)
    rw [show symPlaceholders (newActionConst edge) = symPlaceholders edge from rfl, values,
      Structure.value_new, kept] at edges
    exact Bool.noConfusion (eq_of_heq (Sigma.mk.inj edges).2)

end Goivy
