import Goivy.LogicUtil.Meaning

/-! Renaming the free variables of an expression. -/
namespace Goivy.LogicUtil

section Definitions

variable (ν : LogicVariable → LogicVariable)

mutual
/-- Renames the variables that neither `bound` nor a binder inside binds. -/
def Expr.renameFree : List LogicVariable → Expr → Expr
  | bound, .symbol (.var v) => .symbol (.var (if v ∈ bound then v else ν v))
  | _, .symbol (.const c) => .symbol (.const c)
  | bound, .apply f ts => .apply (f.renameFree bound) (renameFreeList bound ts)
  | bound, .node op ts => .node op (renameFreeList bound ts)
  | bound, .bind b vs ts => .bind b vs (renameFreeList (vs ++ bound) ts)
def renameFreeList : List LogicVariable → List Expr → List Expr
  | _, [] => []
  | bound, t :: ts => t.renameFree bound :: renameFreeList bound ts
end

mutual
/-- No binder captures a new variable. -/
def Expr.Avoids : List LogicVariable → Expr → Prop
  | bound, .symbol (.var v) => v ∉ bound → ν v ∉ bound
  | _, .symbol (.const _) => True
  | bound, .apply f ts => f.Avoids bound ∧ AvoidsList bound ts
  | bound, .node _ ts => AvoidsList bound ts
  | bound, .bind _ vs ts => AvoidsList (vs ++ bound) ts
def AvoidsList : List LogicVariable → List Expr → Prop
  | _, [] => True
  | bound, t :: ts => t.Avoids bound ∧ AvoidsList bound ts
end

theorem renameFreeList_eq (bound : List LogicVariable) (ts : List Expr) : renameFreeList ν bound ts = ts.map fun t => t.renameFree ν bound := by
  induction ts with
  | nil => rfl
  | cons t ts ih => rw [renameFreeList, ih, List.map_cons]

theorem avoidsList_iff {bound : List LogicVariable} {ts : List Expr} : AvoidsList ν bound ts ↔ ∀ t ∈ ts, t.Avoids ν bound := by
  induction ts with
  | nil => simp [AvoidsList]
  | cons t ts ih => simp [AvoidsList, ih]

end Definitions

variable {ν ν' : LogicVariable → LogicVariable} {bound : List LogicVariable} {e : Expr}

section Symbols

theorem mem_symbolsList {x : Symbol} {ts : List Expr} : x ∈ symbolsList ts ↔ ∃ t ∈ ts, x ∈ t.symbols := by
  rw [symbolsList_eq, List.mem_flatMap]

theorem mem_symbols_bind {b : Binder} {vs : List LogicVariable} {ts : List Expr} {v : LogicVariable} :
    .var v ∈ (Expr.bind b vs ts).symbols ↔ v ∉ vs ∧ ∃ t ∈ ts, .var v ∈ t.symbols := by
  rw [Expr.symbols, List.mem_filter, mem_symbolsList, decide_eq_true_eq, and_comm, List.mem_map_of_injective fun v w same => Symbol.var.inj same]

/-- A renaming matters at the free variables only. -/
theorem renameFree_congr (same : ∀ v, .var v ∈ e.symbols → v ∉ bound → ν v = ν' v) : e.renameFree ν bound = e.renameFree ν' bound := by
  induction e generalizing bound with
  | symbol x =>
    cases x with
    | const c => rfl
    | var v =>
      rw [Expr.renameFree, Expr.renameFree]
      split
      · rfl
      · rename_i free
        rw [same v (List.mem_singleton_self _) free]
  | apply f ts hf ih =>
    rw [Expr.renameFree, Expr.renameFree, renameFreeList_eq, renameFreeList_eq, hf fun v hv => same v (List.mem_append_left _ hv)]
    exact congrArg _ (List.map_congr_left fun t ht => ih t ht fun v hv => same v (List.mem_append_right _ (mem_symbolsList.mpr ⟨t, ht, hv⟩)))
  | node op ts ih =>
    rw [Expr.renameFree, Expr.renameFree, renameFreeList_eq, renameFreeList_eq]
    exact congrArg _ (List.map_congr_left fun t ht => ih t ht fun v hv => same v (mem_symbolsList.mpr ⟨t, ht, hv⟩))
  | bind b vs ts ih =>
    rw [Expr.renameFree, Expr.renameFree, renameFreeList_eq, renameFreeList_eq]
    refine congrArg _ (List.map_congr_left fun t ht => ih t ht fun v hv free => ?_)
    rw [List.mem_append, not_or] at free
    exact same v (mem_symbols_bind.mpr ⟨free.1, t, ht, hv⟩) free.2

theorem renameFree_id : e.renameFree id bound = e := by
  induction e generalizing bound with
  | symbol x => cases x <;> simp [Expr.renameFree]
  | apply f ts hf ih =>
    rw [Expr.renameFree, renameFreeList_eq, hf, List.map_congr_left fun t ht => ih t ht, List.map_id']
  | node op ts ih | bind b vs ts ih =>
    rw [Expr.renameFree, renameFreeList_eq, List.map_congr_left fun t ht => ih t ht, List.map_id']

theorem renameFree_of_closed (closed : ∀ v, .var v ∈ e.symbols → v ∈ bound) : e.renameFree ν bound = e :=
  (renameFree_congr fun v hv free => absurd (closed v hv) free).trans renameFree_id

theorem renameFree_renameFree (avoids : e.Avoids ν bound) : (e.renameFree ν bound).renameFree ν' bound = e.renameFree (ν' ∘ ν) bound := by
  induction e generalizing bound with
  | symbol x =>
    cases x with
    | const c => rfl
    | var v =>
      simp only [Expr.renameFree]
      by_cases hv : v ∈ bound
      · rw [if_pos hv, if_pos hv, if_pos hv]
      · rw [if_neg hv, if_neg (avoids hv), if_neg hv]
        rfl
  | apply f ts hf ih =>
    obtain ⟨head, args⟩ := avoids
    rw [avoidsList_iff] at args
    simp only [Expr.renameFree, renameFreeList_eq, List.map_map, hf head]
    exact congrArg _ (List.map_congr_left fun t ht => ih t ht (args t ht))
  | node op ts ih | bind b vs ts ih =>
    rw [Expr.Avoids, avoidsList_iff] at avoids
    simp only [Expr.renameFree, renameFreeList_eq, List.map_map]
    exact congrArg _ (List.map_congr_left fun t ht => ih t ht (avoids t ht))

theorem Expr.Avoids.notMem {v : LogicVariable} (avoids : e.Avoids ν bound) (occurs : .var v ∈ e.symbols) (free : v ∉ bound) : ν v ∉ bound := by
  induction e generalizing bound with
  | symbol x =>
    obtain rfl := List.mem_singleton.mp occurs
    exact avoids free
  | apply f ts hf ih =>
    obtain ⟨head, args⟩ := avoids
    rw [avoidsList_iff] at args
    obtain here | there := List.mem_append.mp occurs
    · exact hf head here free
    · obtain ⟨t, ht, here⟩ := mem_symbolsList.mp there
      exact ih t ht (args t ht) here free
  | node op ts ih =>
    rw [Expr.Avoids, avoidsList_iff] at avoids
    obtain ⟨t, ht, here⟩ := mem_symbolsList.mp occurs
    exact ih t ht (avoids t ht) here free
  | bind b vs ts ih =>
    rw [Expr.Avoids, avoidsList_iff] at avoids
    obtain ⟨outside, t, ht, here⟩ := mem_symbols_bind.mp occurs
    have inner := ih t ht (avoids t ht) here (by rw [List.mem_append, not_or]; exact ⟨outside, free⟩)
    exact fun captured => inner (List.mem_append_right _ captured)

theorem mem_symbols_renameFreeList {ts : List Expr} {w : LogicVariable} (each : ∀ t ∈ ts, .var w ∈ (t.renameFree ν bound).symbols ↔
    (w ∈ bound ∧ .var w ∈ t.symbols) ∨ ∃ v, v ∉ bound ∧ .var v ∈ t.symbols ∧ ν v = w) :
    (∃ t ∈ renameFreeList ν bound ts, .var w ∈ t.symbols) ↔
      (w ∈ bound ∧ ∃ t ∈ ts, .var w ∈ t.symbols) ∨ ∃ v, v ∉ bound ∧ (∃ t ∈ ts, .var v ∈ t.symbols) ∧ ν v = w := by
  rw [renameFreeList_eq]
  simp only [List.mem_map, exists_exists_and_eq_and]
  constructor
  · rintro ⟨t, ht, occurs⟩
    obtain ⟨here, old⟩ | ⟨v, free, old, new⟩ := (each t ht).mp occurs
    · exact .inl ⟨here, t, ht, old⟩
    · exact .inr ⟨v, free, ⟨t, ht, old⟩, new⟩
  · rintro (⟨here, t, ht, old⟩ | ⟨v, free, ⟨t, ht, old⟩, new⟩)
    · exact ⟨t, ht, (each t ht).mpr (.inl ⟨here, old⟩)⟩
    · exact ⟨t, ht, (each t ht).mpr (.inr ⟨v, free, old, new⟩)⟩

/-- The variables of a renamed expression: the bound ones, and the new names of the free ones. -/
theorem mem_symbols_renameFree (avoids : e.Avoids ν bound) (w : LogicVariable) :
    .var w ∈ (e.renameFree ν bound).symbols ↔ (w ∈ bound ∧ .var w ∈ e.symbols) ∨ ∃ v, v ∉ bound ∧ .var v ∈ e.symbols ∧ ν v = w := by
  induction e generalizing bound with
  | symbol x =>
    cases x with
    | const c => simp [Expr.renameFree, Expr.symbols]
    | var v =>
      simp only [Expr.renameFree, Expr.symbols, List.mem_singleton, Symbol.var.injEq]
      split <;> grind
  | apply f ts hf ih =>
    obtain ⟨head, args⟩ := avoids
    rw [avoidsList_iff] at args
    simp only [Expr.renameFree, Expr.symbols, List.mem_append, mem_symbolsList]
    rw [hf head, mem_symbols_renameFreeList fun t ht => ih t ht (args t ht)]
    grind
  | node op ts ih =>
    rw [Expr.Avoids, avoidsList_iff] at avoids
    simp only [Expr.renameFree, Expr.symbols, mem_symbolsList]
    exact mem_symbols_renameFreeList fun t ht => ih t ht (avoids t ht)
  | bind b vs ts ih =>
    rw [Expr.Avoids, avoidsList_iff] at avoids
    simp only [Expr.renameFree, mem_symbols_bind]
    rw [mem_symbols_renameFreeList fun t ht => ih t ht (avoids t ht)]
    have fresh : ∀ v, v ∉ vs ++ bound → (∃ t ∈ ts, .var v ∈ t.symbols) → ν v ∉ vs ++ bound := by
      rintro v free ⟨t, ht, occurs⟩
      exact (avoids t ht).notMem occurs free
    constructor
    · rintro ⟨outside, ⟨here, old⟩ | ⟨v, free, old, new⟩⟩
      · exact .inl ⟨(List.mem_append.mp here).resolve_left outside, outside, old⟩
      · rw [List.mem_append, not_or] at free
        exact .inr ⟨v, free.2, ⟨free.1, old⟩, new⟩
    · rintro (⟨here, outside, old⟩ | ⟨v, free, ⟨outside, old⟩, new⟩)
      · exact ⟨outside, .inl ⟨List.mem_append_right _ here, old⟩⟩
      · have away : v ∉ vs ++ bound := by
          rw [List.mem_append, not_or]
          exact ⟨outside, free⟩
        exact ⟨fun captured => fresh v away old (List.mem_append_left _ (new ▸ captured)), .inr ⟨v, away, old, new⟩⟩

end Symbols

section Values

variable {V : Type} {W : Reading V} {ρ ρ' : Assignment V}

/-- A renamed expression has the value that the expression has where the new variables have the values of the old ones. -/
theorem eval_renameFree (avoids : e.Avoids ν bound) (constants : ∀ c, .const c ∈ e.symbols → ∀ j, ρ' j (.const c) = ρ j (.const c))
    (inside : ∀ v ∈ bound, .var v ∈ e.symbols → ∀ j, ρ' j (.var v) = ρ j (.var v))
    (outside : ∀ v, v ∉ bound → .var v ∈ e.symbols → ∀ j, ρ' j (.var (ν v)) = ρ j (.var v)) :
    (e.renameFree ν bound).eval W ρ' = e.eval W ρ := by
  induction e generalizing bound ρ ρ' with
  | symbol x =>
    funext i
    cases x with
    | const c => exact constants c (List.mem_singleton_self _) i
    | var v =>
      rw [Expr.renameFree]
      split
      · rename_i hv
        exact inside v hv (List.mem_singleton_self _) i
      · rename_i hv
        exact outside v hv (List.mem_singleton_self _) i
  | apply f ts hf ih =>
    obtain ⟨head, args⟩ := avoids
    rw [avoidsList_iff] at args
    have func := hf head (fun c hc => constants c (List.mem_append_left _ hc)) (fun v hv occurs => inside v hv (List.mem_append_left _ occurs))
      fun v hv occurs => outside v hv (List.mem_append_left _ occurs)
    have terms : evals W (renameFreeList ν bound ts) ρ' = evals W ts ρ := by
      rw [evals_eq, evals_eq, renameFreeList_eq, List.map_map]
      refine List.map_congr_left fun t ht => ?_
      have sub : ∀ x ∈ t.symbols, x ∈ (Expr.apply f ts).symbols := fun x hx => List.mem_append_right _ (mem_symbolsList.mpr ⟨t, ht, hx⟩)
      exact ih t ht (args t ht) (fun c hc => constants c (sub _ hc)) (fun v hv occurs => inside v hv (sub _ occurs))
        fun v hv occurs => outside v hv (sub _ occurs)
    funext i
    rw [Expr.renameFree, Expr.eval, Expr.eval, func, terms]
  | node op ts ih =>
    rw [Expr.Avoids, avoidsList_iff] at avoids
    have args : evals W (renameFreeList ν bound ts) ρ' = evals W ts ρ := by
      rw [evals_eq, evals_eq, renameFreeList_eq, List.map_map]
      refine List.map_congr_left fun t ht => ?_
      have sub : ∀ x ∈ t.symbols, x ∈ (Expr.node op ts).symbols := fun x hx => mem_symbolsList.mpr ⟨t, ht, hx⟩
      exact ih t ht (avoids t ht) (fun c hc => constants c (sub _ hc)) (fun v hv occurs => inside v hv (sub _ occurs))
        fun v hv occurs => outside v hv (sub _ occurs)
    funext i
    rw [Expr.renameFree, Expr.eval, Expr.eval, args]
  | bind b vs ts ih =>
    rw [Expr.Avoids, avoidsList_iff] at avoids
    have parts : evalParts W (renameFreeList ν (vs ++ bound) ts) vs ρ' = evalParts W ts vs ρ := by
      rw [evalParts_eq, evalParts_eq, renameFreeList_eq, List.map_map]
      refine List.map_congr_left fun t ht => funext fun xs => ih t ht (avoids t ht) (fun c hc j => ?_) (fun v hv occurs j => ?_) fun v free occurs j => ?_
      · exact constants c (by simpa [Expr.symbols] using mem_symbolsList.mpr ⟨t, ht, hc⟩) j
      · refine Assignment.bind_agree (fun away k => ?_) j
        have away : v ∉ vs := fun hv' => away (List.mem_map_of_mem hv')
        exact inside v ((List.mem_append.mp hv).resolve_left away) (mem_symbols_bind.mpr ⟨away, t, ht, occurs⟩) k
      · have fresh := (avoids t ht).notMem occurs free
        rw [List.mem_append, not_or] at free fresh
        simp only [Assignment.bind, if_neg fresh.1, if_neg free.1]
        exact outside v free.2 (mem_symbols_bind.mpr ⟨free.1, t, ht, occurs⟩) j
    funext i
    rw [Expr.renameFree, Expr.eval, Expr.eval, parts]

end Values

end Goivy.LogicUtil
