import Goivy.TransRel.DestructorPath
import Goivy.TransRel.Relation

/-! A destructor assignment changes the field that its path addresses, and nothing else. -/
namespace Goivy

variable {D : Domain} {M N : Structure D} {tables : SortTables} {ctx : List Variable}

/-- The destructors that the module lists for a sort. -/
def destructorsOf (tables : SortTables) (s : FSort) : List Const :=
  (tables.sortDestructors.lookup s.string).getD []

/-- A path that follows the levels as far as it can leaves them by another destructor of the sort, or
by other arguments. -/
def Known (tables : SortTables) : List PathLevel → List (Const × List (Val D)) → Prop
  | (n, _) :: levels, (d, vals) :: fields => vals.map Sigma.fst = d.sort.domain.tail ∧
    (d = n ∧ Known tables levels fields ∨
      d.name ≠ n.name ∧ ∃ s, n.sort.domain.head? = some s ∧ d ∈ destructorsOf tables s)
  | _, _ => True

/-- A path neither leads to the assigned field nor into it, wherever the root is matched. -/
def Apart (M : Structure D) (args : List Expr) (levels : List PathLevel) (vals : List (Val D))
    (fields : List (Const × List (Val D))) : Prop :=
  ∀ env, MatchedBy M args env vals →
    ¬ evalPath M env levels <+: fields ∧ ¬ fields <+: evalPath M env levels

/-- The second state has the value of `rhs` at the end of the path from `m`, and is else the first one. -/
structure UpdatesField (tables : SortTables) (s s' : Structure D) (m : Const) (args : List Expr)
    (levels : List PathLevel) (rhs : Expr) : Prop where
  assigned : ∀ env, readPath s' (s'.value m (evalList s args env)) (evalPath s env levels) = rhs.eval s env
  otherFields : ∀ vals fields, vals.map Sigma.fst = m.sort.domain →
    (∀ field ∈ fields, field.1.State ∧ field.1 ≠ m) → Known tables levels fields →
    Apart s args levels vals fields → readPath s' (s'.value m vals) fields = readPath s (s.value m vals) fields
  otherIndices : ∀ vals, vals.map Sigma.fst = m.sort.domain → ¬ Matched s args vals →
    s'.value m vals = s.value m vals
  otherSymbols : ∀ c : Const, c.State → c ≠ m → SameAt s s' c

/-- No variable of the terms has the name of one of the placeholders. -/
def Clear (phs : List Variable) (ts : List Expr) : Prop :=
  ∀ t ∈ ts, ∀ v ∈ t.freeVariables, v.name ∉ phs.map Variable.name

/-- The arguments that are no variables. -/
def indexTerms (args : List Expr) : List Expr :=
  args.filter fun t => match t with
    | .var _ => false
    | _ => true

/-- A variable of an index term that has the name of a placeholder is the argument at its place. -/
def ClearIndex (phs : List Variable) (args : List Expr) : Prop :=
  ∀ t ∈ indexTerms args, ∀ v ∈ t.freeVariables, v.name ∈ phs.map Variable.name → (v, .var v) ∈ phs.zip args

/-- The frames of a level use no placeholder with the name of a variable that occurs before. -/
def ClearPath (tables : SortTables) : Expr → List Expr → List PathLevel → Prop
  | _, _, [] => True
  | e, args, (n, idx) :: levels => (∀ d ∈ siblings tables n e, Clear (symPlaceholders d).tail args) ∧
    (indexTerms idx ≠ [] → Clear (symPlaceholders n).tail args) ∧ ClearIndex (symPlaceholders n).tail idx ∧
    ClearPath tables (.apply n (e :: idx)) (args ++ idx) levels

/-- No variable is an argument twice, and no placeholder is confused with a variable or captured. -/
structure PlainPath (tables : SortTables) (m : Const) (root : Expr) (levels : List PathLevel) : Prop where
  distinct : ((argVariables (root.nodeArgs ++ levels.flatMap Prod.snd)).map Variable.name).Nodup
  clearRoot : ClearIndex (symPlaceholders m) root.nodeArgs
  captureFree : ∀ t ∈ root.nodeArgs, t.CaptureFree (matchRenaming (symPlaceholders m) root.nodeArgs)
  clearPath : ClearPath tables root root.nodeArgs levels

/-- The variables among the arguments have these values. -/
def Env.Reads (env : Env D) (args : List Expr) (vals : List (Val D)) : Prop :=
  ∀ p ∈ args.zip vals, ∀ v, p.1 = .var v → (⟨v.sort, env v⟩ : Val D) = p.2

theorem Env.Reads.cons {env : Env D} {t : Expr} {val : Val D} {args : List Expr} {vals : List (Val D)} :
    env.Reads (t :: args) (val :: vals) ↔
      (∀ v, t = .var v → (⟨v.sort, env v⟩ : Val D) = val) ∧ env.Reads args vals := by
  simp [Env.Reads, List.zip_cons_cons]

theorem mem_argVariables {v : Variable} {args : List Expr} : v ∈ argVariables args ↔ .var v ∈ args := by
  rw [argVariables, List.mem_filterMap]
  constructor
  · rintro ⟨t, mem, same⟩
    cases t <;> simp_all
  · exact fun mem => ⟨_, mem, rfl⟩

theorem Env.Reads.congr {env env' : Env D} {args : List Expr} {vals : List (Val D)} (reads : env.Reads args vals)
    (agree : ∀ v ∈ argVariables args, env v = env' v) : env'.Reads args vals := by
  intro p hp v same
  have mem : v ∈ argVariables args := mem_argVariables.mpr (same ▸ (List.of_mem_zip hp).1)
  rw [← agree v mem]
  exact reads p hp v same

theorem argVariables_append (args args' : List Expr) :
    argVariables (args ++ args') = argVariables args ++ argVariables args' := List.filterMap_append

/-- Distinct variable arguments can be given any values of their sorts. -/
theorem exists_reads {args : List Expr} (distinct : ((argVariables args).map Variable.name).Nodup)
    {vals : List (Val D)} (sorts : HasSorts ctx args (vals.map Sigma.fst)) (env₀ : Env D) :
    ∃ env : Env D, env₀.Off (argVariables args) env ∧ env.Reads args vals := by
  induction args generalizing vals with
  | nil => exact ⟨env₀, fun _ _ => rfl, by simp [Env.Reads]⟩
  | cons t args ih =>
    cases vals with
    | nil => exact sorts.elim
    | cons val vals =>
      rcases var_or_other t with ⟨v, rfl⟩ | other
      · have here : argVariables (.var v :: args) = v :: argVariables args := rfl
        rw [here, List.map_cons, List.nodup_cons] at distinct
        obtain ⟨env, off, reads⟩ := ih distinct.2 sorts.2
        have fresh : v ∉ argVariables args := fun mem => distinct.1 (List.mem_map_of_mem mem)
        obtain ⟨x, value⟩ : ∃ x : El D v.sort, (⟨v.sort, x⟩ : Val D) = val := by
          rw [show v.sort = val.1 from sorts.1.2]
          exact ⟨val.2, rfl⟩
        refine ⟨Function.update env v x, fun w hw => ?_, Env.Reads.cons.mpr ⟨?_, reads.congr fun w hw => ?_⟩⟩
        · rw [here, List.mem_cons, not_or] at hw
          rw [Function.update_of_ne hw.1]
          exact off w hw.2
        · rintro w same
          cases same
          rw [Function.update_self, value]
        · have ne : w ≠ v := by
            rintro rfl
            exact fresh hw
          rw [Function.update_of_ne ne]
      · rw [argVariables_other other] at distinct ⊢
        obtain ⟨env, off, reads⟩ := ih distinct sorts.2
        exact ⟨env, off, Env.Reads.cons.mpr ⟨fun v same => absurd same (other v), reads⟩⟩

theorem Env.Reads.of_zip {phs : List Variable} {args : List Expr} {env w : Env D} {ph v : Variable}
    (reads : env.Reads args (w.values phs)) (zipped : (ph, .var v) ∈ phs.zip args) :
    (⟨v.sort, env v⟩ : Val D) = ⟨ph.sort, w ph⟩ := by
  refine reads (_, ⟨ph.sort, w ph⟩) ?_ v rfl
  rw [Env.values, List.zip_map_right, ← List.zip_swap phs args]
  exact List.mem_map.mpr ⟨(.var v, ph), List.mem_map_of_mem zipped, rfl⟩

/-- Where the placeholders have the values of the arguments, the index terms do not see them. -/
theorem ClearIndex.same {phs : List Variable} {args : List Expr} {env w : Env D} (clear : ClearIndex phs args)
    (off : env.Off phs w) (reads : env.Reads args (w.values phs)) :
    ∀ t ∈ indexTerms args, ∀ v ∈ t.freeVariables, w v = env v := by
  intro t ht v hv
  by_cases bound : v ∈ phs
  · have zipped := clear t ht v hv (List.mem_map_of_mem bound)
    exact (eq_of_heq (Sigma.mk.inj (reads.of_zip zipped)).2).symm
  · exact off v bound

/-- The conditions on the placeholders hold where the arguments have the values of the placeholders. -/
theorem conditions_iff {phs : List Variable} {args : List Expr} {env w : Env D}
    (same : ∀ t ∈ indexTerms args, ∀ v ∈ t.freeVariables, w v = env v) (length : args.length = phs.length)
    (reads : env.Reads args (w.values phs)) :
    (∀ c ∈ matchConditions phs args, c.Holds N w) ↔ evalList N args env = w.values phs := by
  induction args generalizing phs with
  | nil =>
    obtain rfl := List.length_eq_zero_iff.mp length.symm
    simp [matchConditions, evalList, Env.values]
  | cons t args ih =>
    cases phs with
    | nil => cases length
    | cons ph phs =>
      have values : w.values (ph :: phs) = ⟨ph.sort, w ph⟩ :: w.values phs := rfl
      rw [values, Env.Reads.cons] at reads
      rw [evalList, values, List.cons.injEq]
      rcases var_or_other t with ⟨v, rfl⟩ | other
      · have skipped : matchConditions (ph :: phs) (.var v :: args) = matchConditions phs args := rfl
        have here : (Expr.var v).eval N env = ⟨ph.sort, w ph⟩ := reads.1 v rfl
        rw [skipped, ih same (Nat.succ.inj length) reads.2]
        exact ⟨fun rest => ⟨here, rest⟩, And.right⟩
      · have index : indexTerms (t :: args) = t :: indexTerms args := by
          cases t <;> first | rfl | exact absurd rfl (other _)
        rw [index, List.forall_mem_cons] at same
        have here : t.eval N w = t.eval N env := Expr.eval_freeVariables N same.1
        rw [matchConditions_other other, List.forall_mem_cons, Expr.holds_eq, here, Expr.eval,
          ih same.2 (Nat.succ.inj length) reads.2, eq_comm]

theorem matchConditions_eq_nil {phs : List Variable} {args : List Expr} (none : indexTerms args = []) :
    matchConditions phs args = [] := by
  rw [indexTerms, List.filter_eq_nil_iff] at none
  rw [matchConditions, List.filterMap_eq_nil_iff]
  intro p hp
  have := none p.2 (List.of_mem_zip hp).2
  grind

theorem exists_env_off {vs : List Variable} (distinct : vs.Nodup) (env : Env D) {vals : List (Val D)}
    (fits : vals.map Sigma.fst = vs.map Variable.sort) :
    ∃ env' : Env D, env.Off vs env' ∧ env'.values vs = vals := by
  obtain ⟨env', values⟩ := exists_env distinct fits
  obtain ⟨env'', off, inner⟩ := Env.Instance.exists_off env' env vs
  refine ⟨env'', off, Eq.trans ?_ values⟩
  exact List.map_congr_left fun v mem => by rw [inner v mem]

/-- The levels are well-sorted. -/
def PathSorts (ctx : List Variable) : Expr → List PathLevel → Prop
  | _, [] => True
  | e, (n, idx) :: levels => (∃ s dom, n.sort.domain = s :: dom ∧ e.nodeSort = .first s ∧ HasSorts ctx idx dom) ∧
    PathSorts ctx (.apply n (e :: idx)) levels

theorem pathSorts_of_hasSort {levels : List PathLevel} {e : Expr} {s : FSort}
    (h : (applyPath e levels).HasSort ctx s) : (∃ r, e.HasSort ctx r) ∧ PathSorts ctx e levels := by
  induction levels generalizing e with
  | nil => exact ⟨⟨s, h⟩, trivial⟩
  | cons level levels ih =>
    obtain ⟨n, idx⟩ := level
    obtain ⟨⟨r, domain, sort, sorts⟩, rest⟩ := ih (e := .apply n (e :: idx)) h
    cases domain with
    | nil => exact sorts.elim
    | cons r dom =>
      exact ⟨⟨r, sorts.1⟩, ⟨r, dom, by rw [sort]; rfl, Expr.nodeSort_of_hasSort sorts.1, sorts.2⟩, rest⟩

/-- The variable arguments of the levels have the values at their places in the path, as far as it follows the
levels. -/
def Env.ReadsPath (env : Env D) : List PathLevel → List (Const × List (Val D)) → Prop
  | (n, idx) :: levels, (d, vals) :: fields => d = n → env.Reads idx vals ∧ env.ReadsPath levels fields
  | _, _ => True

theorem Env.ReadsPath.congr {env env' : Env D} {levels : List PathLevel} {fields : List (Const × List (Val D))}
    (reads : env.ReadsPath levels fields) (agree : ∀ v ∈ argVariables (levels.flatMap Prod.snd), env v = env' v) :
    env'.ReadsPath levels fields := by
  induction levels generalizing fields with
  | nil => trivial
  | cons level levels ih =>
    cases fields with
    | nil => trivial
    | cons field fields =>
      rw [List.flatMap_cons, argVariables_append, List.forall_mem_append] at agree
      exact fun same => ⟨(reads same).1.congr agree.1, ih (reads same).2 agree.2⟩

/-- Distinct variables can be given the values in a path. -/
theorem exists_readsPath {levels : List PathLevel} {e : Expr} {fields : List (Const × List (Val D))}
    (distinct : ((argVariables (levels.flatMap Prod.snd)).map Variable.name).Nodup)
    (sorts : PathSorts ctx e levels) (known : Known tables levels fields) (env₀ : Env D) :
    ∃ env : Env D, env₀.Off (argVariables (levels.flatMap Prod.snd)) env ∧ env.ReadsPath levels fields := by
  induction levels generalizing e fields with
  | nil => exact ⟨env₀, fun _ _ => rfl, trivial⟩
  | cons level levels ih =>
    obtain ⟨n, idx⟩ := level
    cases fields with
    | nil => exact ⟨env₀, fun _ _ => rfl, trivial⟩
    | cons field fields =>
      obtain ⟨d, vals⟩ := field
      obtain ⟨⟨s, dom, domain, -, idxSorts⟩, sorts⟩ := sorts
      by_cases same : d = n
      · subst same
        have known' : Known tables levels fields := known.2.elim And.right fun other => absurd rfl other.1
        have fits : vals.map Sigma.fst = dom := by
          rw [known.1, domain]
          rfl
        rw [List.flatMap_cons, argVariables_append, List.map_append, List.nodup_append] at distinct
        obtain ⟨env₁, off₁, readsPath⟩ := ih distinct.2.1 sorts known'
        obtain ⟨env, off, reads⟩ := exists_reads distinct.1 (fits ▸ idxSorts) env₁
        rw [List.flatMap_cons, argVariables_append]
        refine ⟨env, fun v hv => ?_, fun _ => ⟨reads, readsPath.congr fun v hv => (off v fun mem => ?_).symm⟩⟩
        · rw [List.mem_append, not_or] at hv
          exact (off v hv.1).trans (off₁ v hv.2)
        · exact distinct.2.2 v.name (List.mem_map_of_mem mem) v.name (List.mem_map_of_mem hv) rfl
      · exact ⟨env₀, fun _ _ => rfl, fun eq => absurd eq same⟩

theorem symPlaceholders_tail_sorts (c : Const) :
    (symPlaceholders c).tail.map Variable.sort = c.sort.domain.tail := by
  rw [List.map_tail, symPlaceholders_sorts]

/-- Without index terms there is no condition. -/
theorem LevelFrame.index_or {n : Const} {idx : List Expr} {copy original : Expr}
    (frame : LevelFrame tables N n idx copy original) (w : Env D) :
    (∀ c ∈ matchConditions (symPlaceholders n).tail idx, c.Holds N w) ∨ indexTerms idx ≠ [] ∧
      N.value n (copy.eval N w :: w.values (symPlaceholders n).tail) =
        N.value n (original.eval N w :: w.values (symPlaceholders n).tail) := by
  by_cases indexed : indexTerms idx = []
  · refine .inl ?_
    rw [matchConditions_eq_nil indexed]
    simp
  · exact (frame.index w).imp id fun equal => ⟨indexed, equal⟩

/-- Along the path, the copy and the original have the same values in a place that is apart from the assigned one. -/
theorem PathFrames.apart {levels : List PathLevel} {copy original : Expr} {args : List Expr}
    {fields : List (Const × List (Val D))} {env : Env D} (frames : PathFrames tables N copy original levels)
    (clear : ClearPath tables original args levels) (sorts : PathSorts ctx original levels)
    (depends : ∀ env' : Env D, (∀ t ∈ args, ∀ v ∈ t.freeVariables, env' v = env v) →
      copy.eval N env' = copy.eval N env ∧ original.eval N env' = original.eval N env)
    (known : Known tables levels fields) (reads : env.ReadsPath levels fields)
    (apart : ¬ evalPath N env levels <+: fields ∧ ¬ fields <+: evalPath N env levels) :
    readPath N (copy.eval N env) fields = readPath N (original.eval N env) fields := by
  induction levels generalizing copy original args fields with
  | nil => exact absurd List.nil_prefix apart.1
  | cons level levels ih =>
    obtain ⟨n, idx⟩ := level
    obtain ⟨frame, later⟩ := frames
    obtain ⟨clearSiblings, clearArgs, clearIdx, clearLater⟩ := clear
    obtain ⟨⟨s, dom, domain, targetSort, idxSorts⟩, sortsLater⟩ := sorts
    cases fields with
    | nil => exact absurd List.nil_prefix apart.2
    | cons field fields =>
      obtain ⟨d, vals⟩ := field
      obtain ⟨fits, leaves⟩ := known
      -- the placeholders of the frame take the arguments of the field
      obtain ⟨w, off, values⟩ := exists_env_off ((symPlaceholders_nodup d).tail) env
        (fits.trans (symPlaceholders_tail_sorts d).symm)
      have same : Clear (symPlaceholders d).tail args →
          copy.eval N w = copy.eval N env ∧ original.eval N w = original.eval N env := fun clear =>
        depends w fun t ht v hv => off v fun bound => clear t ht v hv (List.mem_map_of_mem bound)
      have step : N.value d (copy.eval N env :: vals) = N.value d (original.eval N env :: vals) →
          readPath N (copy.eval N env) ((d, vals) :: fields) =
            readPath N (original.eval N env) ((d, vals) :: fields) := fun equal => by
        rw [readPath, readPath, List.foldl_cons, List.foldl_cons, equal]
      rcases leaves with ⟨rfl, known⟩ | ⟨other, t, first, listed⟩
      · rcases frame.index_or w with conds | ⟨indexed, equal⟩
        · obtain ⟨readsHere, readsLater⟩ := reads rfl
          have length : idx.length = (symPlaceholders d).tail.length := by
            rw [(hasSorts_iff.mp idxSorts).length_eq, List.length_tail, length_symPlaceholders, domain]
            rfl
          have index : evalList N idx env = vals := by
            rw [← values] at readsHere ⊢
            exact (conditions_iff (clearIdx.same off readsHere) length readsHere).mp conds
          have rest := ih later clearLater sortsLater (fun env' agree => ?_) known readsLater ?_
          · rw [Expr.eval, Expr.eval, evalList, evalList, index] at rest
            exact rest
          · rw [List.forall_mem_append] at agree
            have below := depends env' agree.1
            have idxSame : evalList N idx env' = evalList N idx env := by
              rw [evalList_eq_map, evalList_eq_map]
              exact List.map_congr_left fun t ht => Expr.eval_freeVariables N (agree.2 t ht)
            simp only [Expr.eval, evalList, below.1, below.2, idxSame, and_self]
          · simpa [evalPath, index, List.cons_prefix_cons] using apart
        · have same := same (clearArgs indexed)
          refine step ?_
          rwa [same.1, same.2, values] at equal
      · have sibling : d ∈ siblings tables n original := by
          rw [domain, List.head?_cons, Option.some.injEq] at first
          subst first
          rw [siblings, targetSort]
          exact List.mem_filter.mpr ⟨listed, by simpa using other⟩
        have equal := frame.sibling d sibling w
        have same := same (clearSiblings d sibling)
        refine step ?_
        rwa [same.1, same.2, values] at equal

theorem mem_argVariables_of_lookup {phs : List Variable} {args : List Expr} {n : String} {w : Variable}
    (found : (matchRenaming phs args).lookup n = some w) : ∃ v ∈ argVariables args, v.name = n := by
  have mem : (n, w) ∈ matchRenaming phs args := InsMap.mem_of_lookup found
  rw [matchRenaming, List.mem_reverse, List.mem_filterMap] at mem
  obtain ⟨⟨ph, t⟩, zipped, same⟩ := mem
  rcases var_or_other t with ⟨v, rfl⟩ | other
  · cases same
    exact ⟨v, mem_argVariables.mpr (List.of_mem_zip zipped).2, rfl⟩
  · cases t <;> first | exact absurd rfl (other _) | cases same

/-- What the assignment of the copy to the root says of one argument list. -/
theorem destrRoot_spec {root copy : Expr} {m : Const} {u : Update} {s : FSort} (head : root.constSym = some m)
    (applied : Expr.applyToNodes (nondetConst m) root.nodeArgs = some copy) (made : mkAssignClauses root copy = some u)
    (sorted : root.HasSort ctx s) (distinct : ((argVariables root.nodeArgs).map Variable.name).Nodup)
    (clear : ClearIndex (symPlaceholders m) root.nodeArgs)
    (captureFree : ∀ t ∈ root.nodeArgs, t.CaptureFree (matchRenaming (symPlaceholders m) root.nodeArgs))
    (sat : u.tr.Sat N) (env : Env D) (vals : List (Val D)) (fits : vals.map Sigma.fst = m.sort.domain)
    (reads : env.Reads root.nodeArgs vals) :
    (evalList N root.nodeArgs env = vals → N.value (newActionConst m) vals = copy.eval N env) ∧
      (evalList N root.nodeArgs env ≠ vals → N.value (newActionConst m) vals = N.value m vals) := by
  obtain ⟨argSorts, -⟩ := sorted.location head
  have length : root.nodeArgs.length = (symPlaceholders m).length :=
    argSorts.length.trans (length_symPlaceholders m).symm
  obtain ⟨w, off, values⟩ := exists_env_off (symPlaceholders_nodup m) env (fits.trans (symPlaceholders_sorts m).symm)
  rw [← values] at reads
  have conds := conditions_iff (N := N) (clear.same off reads) length reads
  -- a variable argument is replaced by a placeholder of the same value, and no other variable is one
  have stands : ∀ t ∈ root.nodeArgs, Env.Stands N (matchRenaming (symPlaceholders m) root.nodeArgs) t w env := by
    intro t ht v used
    obtain ⟨r, sort⟩ := argSorts.exists_sort t ht
    have free := Expr.usedVariables_subset t v used
    cases found : (matchRenaming (symPlaceholders m) root.nodeArgs).lookup v.name with
    | none =>
      have noArg : v ∉ argVariables root.nodeArgs := fun mem => by
        obtain ⟨ph, -, there⟩ := lookup_matchRenaming distinct length.le mem
        rw [found] at there
        contradiction
      have index : t ∈ indexTerms root.nodeArgs := by
        refine List.mem_filter.mpr ⟨ht, ?_⟩
        rcases var_or_other t with ⟨x, rfl⟩ | other
        · obtain rfl := List.mem_singleton.mp used
          exact absurd (mem_argVariables.mpr ht) noArg
        · cases t <;> first | rfl | exact absurd rfl (other _)
      rw [Option.getD_none, Expr.eval, off v fun mem => noArg (mem_argVariables.mpr
        (List.of_mem_zip (clear t index v free (List.mem_map_of_mem mem))).2)]
    | some ph =>
      obtain ⟨x, mem, name⟩ := mem_argVariables_of_lookup found
      obtain ⟨q, xSort⟩ := argSorts.exists_sort _ (mem_argVariables.mp mem)
      have vBound : Binds ctx v := Expr.binds_of_mem_freeVariables sort v free
      have xBound : Binds ctx x := xSort.1
      obtain rfl : x = v := by
        rw [Binds, name] at xBound
        exact Option.some.inj (xBound.symm.trans vBound)
      obtain ⟨ph', zipped, there⟩ := lookup_matchRenaming distinct length.le mem
      cases found.symm.trans there
      rw [Option.getD_some, Expr.eval]
      exact reads.of_zip zipped
  have value : (copy.substituteAst (matchRenaming (symPlaceholders m) root.nodeArgs)).eval N w = copy.eval N env := by
    unfold Expr.applyToNodes at applied
    split at applied
    · cases applied
      rfl
    · cases Expr.newApply_eq applied
      rw [Expr.substituteAst, Expr.eval, Expr.eval, Expr.substituteAstListByName_eq_map, evalList_eq_map,
        evalList_eq_map, List.map_map]
      refine congrArg _ (List.map_congr_left fun t ht => ?_)
      obtain ⟨r, sort⟩ := argSorts.exists_sort t ht
      exact Expr.eval_substituteAst sort (captureFree t ht) (stands t ht)
  have newInst : Expr.applyToNodes (newActionConst m) ((symPlaceholders m).map .var) =
      some (symInst (newActionConst m)) := applyToNodes_symPlaceholders (newActionConst m)
  have left : (symInst (newActionConst m)).eval N w = N.value (newActionConst m) (w.values (symPlaceholders m)) :=
    eval_symInst N _ w
  have substituted : ∀ env' : Env D, ((copy.substituteAst (matchRenaming (symPlaceholders m) root.nodeArgs)).eval N env').1 =
      m.sort.range := by
    unfold Expr.applyToNodes at applied
    split at applied
    · cases applied
      exact fun _ => rfl
    · cases Expr.newApply_eq applied
      exact fun _ => rfl
  have plain : copy.isDescription = false := by
    unfold Expr.applyToNodes at applied
    split at applied
    · cases applied
      rfl
    · cases Expr.newApply_eq applied
      rfl
  have boolean : (symInst (newActionConst m)).isIndividual = false → m.sort.range = .boolean := isIndividual_symInst
  have lhsSort : ∀ env' : Env D, ((symInst (newActionConst m)).eval N env').1 = m.sort.range := fun env' => by
    rw [eval_symInst]
    rfl
  rw [← values, Ne, ← conds]
  simp only [mkAssignClauses, head, newInst, applyToNodes_symPlaceholders, Expr.substituteAstByName_eq,
    Option.bind_eq_bind, Option.bind_some] at made
  split at made
  · rename_i none
    cases made
    rw [Clauses.sat_new, List.forall_mem_singleton, valid_definition
      (by rwa [Expr.isDescription_substituteAst]) boolean lhsSort substituted] at sat
    refine ⟨fun _ => ?_, fun fails => absurd (by simp [List.isEmpty_iff.mp none]) fails⟩
    rw [← left, sat.2 w, value]
  · cases made
    have branches : ∀ env' : Env D, ((Expr.ite (.and (matchConditions (symPlaceholders m) root.nodeArgs))
        (copy.substituteAst (matchRenaming (symPlaceholders m) root.nodeArgs)) (symInst m)).eval N env').1 =
        m.sort.range := fun env' => by
      rw [Expr.eval, Val.ite]
      split
      · exact substituted env'
      · rw [eval_symInst]
        rfl
    rw [Clauses.sat_new, List.forall_mem_singleton, valid_definition rfl boolean lhsSort branches] at sat
    constructor
    · intro holds
      rw [← left, sat.2 w, Expr.eval_ite_pos _ _ _ _ ((Expr.holds_and _ _ _).mpr holds), value]
    · intro fails
      rw [← left, sat.2 w, Expr.eval_ite_neg _ _ _ _ fun holds => fails ((Expr.holds_and _ _ _).mp holds), eval_symInst]

theorem symbols_applyPath {e : Expr} {levels : List PathLevel} {P : Const → Prop}
    (all : ∀ c ∈ (applyPath e levels).symbols, P c) : (∀ c ∈ e.symbols, P c) ∧
      ∀ level ∈ levels, P level.1 ∧ ∀ t ∈ level.2, ∀ c ∈ t.symbols, P c := by
  induction levels generalizing e with
  | nil => exact ⟨all, by simp⟩
  | cons level levels ih =>
    obtain ⟨here, rest⟩ := ih (e := .apply level.1 (e :: level.2)) all
    simp only [Expr.symbols, symbolsList_eq_flatMap, List.forall_mem_cons, List.flatMap_cons, List.forall_mem_append]
      at here
    refine ⟨here.2.1, List.forall_mem_cons.mpr ⟨⟨here.1, fun t ht c hc => ?_⟩, rest⟩⟩
    exact here.2.2 c (List.mem_flatMap.mpr ⟨t, ht, hc⟩)

/-- All symbols on the path are destructors. -/
theorem destrPath_destructors (tables : SortTables) {e : Expr} {f : Const} (head : e.constSym = some f) (isDestr : f.name ∈ tables.destructorSorts) :
    ∀ level ∈ (destrPath tables e).2, level.1.name ∈ tables.destructorSorts := by
  induction e generalizing f with
  | apply n args ih =>
    cases head
    cases args with
    | nil => simp [destrPath, destrPathArgs]
    | cons target rest =>
      simp only [destrPath, destrPathArgs]
      split
      · simp
      · rename_i sym found
        split
        · rename_i inner
          rw [List.forall_mem_append, List.forall_mem_singleton]
          exact ⟨ih target List.mem_cons_self found inner, isDestr⟩
        · exact List.forall_mem_singleton.mpr isDestr
  | _ => simp [destrPath]

/-- What the destructor branch of an assignment has checked. -/
theorem assign_destructor {lhs rhs : Expr} {u : Update} {c : Const} (head : lhs.constSym = some c)
    (accepted : Update.assign tables lhs rhs = some (.destructor, u)) :
    ∃ lhs' rhs', extendAssign c lhs rhs = some (lhs', rhs') ∧ c.name ∈ tables.destructorSorts ∧
      destructorAssignUpdate tables lhs' rhs' = some u := by
  simp only [Update.assign, head, Option.bind_eq_bind, Option.bind_eq_some_iff] at accepted
  obtain ⟨⟨lhs', rhs'⟩, extended, accepted⟩ := accepted
  refine ⟨lhs', rhs', extended, ?_⟩
  split at accepted
  · cases accepted
  split at accepted
  · cases accepted
  split at accepted
  · cases accepted
  split at accepted
  · rename_i isDestr
    obtain ⟨_, made, same⟩ := Option.bind_eq_some_iff.mp accepted
    cases same
    exact ⟨isDestr, made⟩
  split at accepted
  · obtain ⟨_, _, other⟩ := Option.bind_eq_some_iff.mp accepted
    cases other
  · obtain ⟨_, _, other⟩ := Option.bind_eq_some_iff.mp accepted
    cases other

theorem readPath_congr {fields : List (Const × List (Val D))} (same : ∀ field ∈ fields, M.value field.1 = N.value field.1)
    (v : Val D) : readPath M v fields = readPath N v fields := by
  induction fields generalizing v with
  | nil => rfl
  | cons field fields ih =>
    rw [List.forall_mem_cons] at same
    rw [readPath, readPath, List.foldl_cons, List.foldl_cons, same.1]
    exact ih same.2 _

theorem Env.reads_evalList (env : Env D) (args : List Expr) : env.Reads args (evalList M args env) := by
  induction args with
  | nil => simp [Env.Reads]
  | cons t args ih => exact Env.Reads.cons.mpr ⟨fun v same => same ▸ rfl, ih⟩

theorem Expr.eval_of_constSym {e : Expr} {c : Const} (head : e.constSym = .some c) (env : Env D) :
    e.eval M env = M.value c (evalList M e.nodeArgs env) := by
  cases e with
  | const | apply =>
    cases head
    rfl
  | _ => cases head

/-- A record sort with the destructors fld and gld, and records m. -/
def recordSort : FSort := .uninterpreted "t"
def slotSort : FSort := .uninterpreted "i"
def plainField : Const := ⟨"fld", .function [recordSort] .boolean⟩
def siblingField : Const := ⟨"gld", .function [recordSort] .boolean⟩
def oneRecord : Const := ⟨"m", .first recordSort⟩
def recordTables : SortTables := ⟨["fld", "gld"], [("t", [plainField, siblingField])], []⟩

/-- Arrays of Booleans as records, and an array of them. -/
def arrayField : Const := ⟨"fld", .function [recordSort, slotSort] .boolean⟩
def arrayRecords : Const := ⟨"m", .function [slotSort] recordSort⟩
def arrayTables : SortTables := ⟨["fld"], [("t", [arrayField])], []⟩
def arrayX : Variable := ⟨"X", slotSort⟩

def firstBit : List (Val Domain.two) → Bool
  | ⟨.uninterpreted _, x⟩ :: _ => x
  | _ => true

/-- The field fld of a record is the record itself, and `c` has the value `b` everywhere. -/
def recordState (c : Const) (b : Bool) : Structure Domain.two := fun n s args =>
  .two (if (⟨n, s⟩ : Const) = c then b else if n = "fld" then firstBit args.1 else true) s.range

theorem recordState_value {c d : Const} {b : Bool} {vals : List (Val Domain.two)}
    (fits : vals.map Sigma.fst = d.sort.domain) : (recordState c b).value d vals =
      ⟨d.sort.range, .two (if d = c then b else if d.name = "fld" then firstBit vals else true) d.sort.range⟩ := by
  rw [Structure.value_eq _ fits]
  rfl

theorem recordState_frame {u : Update} {c : Const} (modified : u.modified = [c]) :
    u.Frame (recordState c false) (recordState c true) := by
  intro d _ other
  rw [modified, List.mem_singleton] at other
  have ne : (⟨d.name, d.sort⟩ : Const) ≠ c := other
  funext vs
  simp [recordState, ne]

/-- Both states together. -/
def recordStates (c : Const) : Structure Domain.two := (recordState c false).joint (recordState c true)

theorem recordStates_old {c d : Const} {vals : List (Val Domain.two)} (old : isNew d.name = false)
    (fits : vals.map Sigma.fst = d.sort.domain) : (recordStates c).value d vals =
      ⟨d.sort.range, .two (if d = c then false else if d.name = "fld" then firstBit vals else true) d.sort.range⟩ := by
  rw [Structure.value_eq _ fits]
  simp [recordStates, Structure.joint, old, recordState]

theorem recordStates_new {c : Const} {vals : List (Val Domain.two)} (fits : vals.map Sigma.fst = c.sort.domain) :
    (recordStates c).value (newActionConst c) vals = ⟨c.sort.range, .two true c.sort.range⟩ := by
  have same : (newActionConst c).sort = c.sort := rfl
  rw [Structure.value_eq _ (c := newActionConst c) fits]
  simp only [recordStates, newActionConst, Structure.joint_new]
  simp [recordState]

theorem Expr.eval_tru (M : Structure D) (env : Env D) : Expr.tru.eval M env = ⟨.boolean, true⟩ := by
  simp [Expr.tru, Expr.eval, evalList, Val.ofProp]

end Goivy
