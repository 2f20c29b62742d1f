import Goivy.UnitRes.Clause

/-! Simplification keeps the meaning of a clause in both directions. -/
namespace Goivy

variable {D : Domain} {M : Structure D} {env : Env D} {cl : UnitResClause} {l : UnitResLiteral}

/-- A disequality that is false makes the sides of its rewriting equal. -/
theorem eval_rewriteOf {v t : Expr} (h : rewriteOf l = some (v, t)) (false_ : ¬ l.Holds M env) : v.eval M env = t.eval M env := by
  obtain ⟨polarity, relName, args⟩ := l
  unfold rewriteOf at h
  split at h
  · rename_i a b diseq same
    simp only [UnitResLiteral.isDisequalityLit, Bool.and_eq_true, decide_eq_true_eq, Bool.not_eq_true'] at diseq
    obtain ⟨rfl, rfl⟩ := diseq
    obtain rfl : args = [a, b] := same
    have equal : a.eval M env = b.eval M env := by
      have := mt holds_equality.mpr false_
      simpa using this
    split at h
    · obtain ⟨rfl, rfl⟩ := Prod.mk.inj (Option.some.inj h)
      exact equal
    · split at h
      · obtain ⟨rfl, rfl⟩ := Prod.mk.inj (Option.some.inj h)
        exact equal.symm
      · contradiction
  · contradiction

theorem holds_rewrite {v t : Expr} (same : v.eval M env = t.eval M env) : (l.substitute [(v, t)]).Holds M env ↔ l.Holds M env := by
  refine holds_withArgs (UnitResLiteral.evalList_map fun x _ => ?_)
  rw [substTerm]
  split
  · rw [InsMap.lookup_cons]
    split
    · rename_i eq
      rw [eq]
      exact same.symm
    · rfl
  · rfl

/-- Where the given clause is false, so is each clause that the loop makes of it. -/
theorem valid_of_simplifyClause (sorted : ∀ l ∈ cl, l.Sorted) (valid : UnitResClause.Valid M (simplifyClause cl)) : cl.Valid M := by
  intro env
  by_contra none
  have cl_false : ∀ l ∈ cl, ¬ l.Holds M env := fun l hl holds => none ⟨l, hl, holds⟩
  obtain ⟨rewritten, false_, eq⟩ := simplifyClause_cases
    (P := fun cl' => ∀ l ∈ cl', l.Sorted ∧ ¬ l.Holds M env) (fun l hl => ⟨sorted l hl, cl_false l hl⟩) (by
      intro l hl x t found cl' kept k hk
      obtain ⟨v, rfl, term, sort⟩ := rewriteOf_spec (sorted l hl) found
      refine ⟨(valid_rewriteClause (M := M) (fun l hl => (kept l hl).1) term sort).1 k hk, ?_⟩
      obtain ⟨k, mem, rfl⟩ := List.mem_map.mp hk
      rw [holds_rewrite (eval_rewriteOf found (cl_false l hl))]
      exact (kept k mem).2)
  obtain ⟨l, hl, holds⟩ := valid env
  rw [eq] at hl
  split at hl
  · rename_i taut
    obtain ⟨k, hk, taut⟩ := List.any_eq_true.mp taut
    exact (false_ k hk).2 (UnitResLiteral.holds_of_isTautLit (false_ k hk).1 taut)
  · exact (false_ l (mem_removeDuplicatesAndVac.mp hl).1).2 holds

theorem nodup_removeDuplicatesAndVac (cl : UnitResClause) : (removeDuplicatesAndVac cl).Nodup := by
  have fold : ∀ result : UnitResClause, result.Nodup →
      (cl.foldl (fun result l => if l.isVacLit ∨ l ∈ result then result else result ++ [l]) result).Nodup := by
    induction cl with
    | nil => exact fun _ nodup => nodup
    | cons k cl ih =>
      intro result nodup
      rw [List.foldl_cons]
      refine ih _ ?_
      split
      · exact nodup
      · rename_i new
        rw [not_or] at new
        exact List.nodup_append.mpr ⟨nodup, List.nodup_singleton k, fun a ha b hb same => new.2 (List.mem_singleton.mp hb ▸ same ▸ ha)⟩
  exact fold [] List.nodup_nil

theorem simplifyClause_equivalent (sorted : ∀ l ∈ cl, l.Sorted) :
    (∀ (D : Domain) (M : Structure D), (simplifyClause cl).Valid M ↔ cl.Valid M) ∧
      (∀ t, (⟨false, equalityAtom t t⟩ : UnitResLiteral) ∉ simplifyClause cl) ∧ (simplifyClause cl).Nodup := by
  refine ⟨fun D M => ⟨valid_of_simplifyClause sorted, (simplifyClause_spec sorted).2⟩, fun t mem => ?_, ?_⟩
  · unfold simplifyClause at mem
    simp only at mem
    split at mem
    · exact absurd (List.mem_singleton.mp mem) (by simp [tautLit])
    · have vac := (mem_removeDuplicatesAndVac.mp mem).2
      simp [UnitResLiteral.isVacLit, UnitResLiteral.isDisequalityLit, UnitResLiteral.sameArgs, equalityAtom] at vac
  · unfold simplifyClause
    simp only
    split
    · exact List.nodup_singleton _
    · exact nodup_removeDuplicatesAndVac _

/-- A later disequality brings back a variable that the first one replaces. -/
theorem simplifyClause_equivalent_chain :
    let x : Expr := .var ⟨"X", .uninterpreted "s"⟩
    let z : Expr := .var ⟨"Z", .uninterpreted "s"⟩
    let a : Expr := .const ⟨"a", .first (.uninterpreted "s")⟩
    let cl : UnitResClause := [⟨false, equalityAtom x a⟩, ⟨false, equalityAtom z x⟩, ⟨true, ⟨"p", [x, z]⟩⟩]
    ∀ (D : Domain) (M : Structure D), (simplifyClause cl).Valid M ↔ cl.Valid M := by
  intro x z a cl
  have sorted : ∀ l ∈ cl, l.Sorted := by
    simp only [cl, List.forall_mem_cons, List.not_mem_nil, false_implies, implies_true, and_true]
    refine ⟨⟨?_, fun _ => ⟨x, a, rfl, rfl⟩⟩, ⟨?_, fun _ => ⟨z, x, rfl, rfl⟩⟩, ⟨?_, fun h => absurd h (by decide)⟩⟩
    · simp only [equalityAtom, List.forall_mem_cons, List.not_mem_nil, false_implies, implies_true, and_true]
      exact ⟨.var _, .const _ _⟩
    · simp only [equalityAtom, List.forall_mem_cons, List.not_mem_nil, false_implies, implies_true, and_true]
      exact ⟨.var _, .var _⟩
    · simp only [List.forall_mem_cons, List.not_mem_nil, false_implies, implies_true, and_true]
      exact ⟨.var _, .var _⟩
  exact (simplifyClause_equivalent sorted).1

end Goivy
