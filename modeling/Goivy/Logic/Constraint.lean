import Goivy.Logic.Rename
import Goivy.Logic.Substitute
import Goivy.Util.InsMap

/-! Renaming of symbols commutes with substitution and with the constraint of a
definition, and neither of these brings in new symbols. -/
namespace Goivy

/-- The renaming of the terms of a substitution. -/
def renameSubs (ρ : Renaming) (subs : List (Variable × Expr)) : List (Variable × Expr) :=
  subs.map (fun p => (p.1, p.2.rename ρ))

namespace Expr

variable (ρ : Renaming)

@[simp] theorem nodeSort_rename (e : Expr) : (e.rename ρ).nodeSort = e.nodeSort := by
  induction e with
  | some vs a ha | someElse vs a b c ha hb hc => cases vs <;> simp [rename, nodeSort]
  | ite a b c ha hb hc => simp [rename, nodeSort, hb]
  | _ => simp [rename, nodeSort, Renaming.const]

@[simp] theorem isIndividual_rename (e : Expr) : (e.rename ρ).isIndividual = e.isIndividual := by
  simp [isIndividual]

@[simp] theorem freeVariables_rename (e : Expr) :
    (e.rename ρ).freeVariables = e.freeVariables := by
  induction e with
  | apply f ts ih | and ts ih | or ts ih =>
    have terms : ts.flatMap (fun t => (t.rename ρ).freeVariables) =
        ts.flatMap freeVariables := List.flatMap_congr ih
    simp [rename, freeVariables, freeVariablesList_eq_flatMap, renameList_eq_map,
      List.flatMap_map, terms]
  | _ => simp_all [rename, freeVariables]

theorem newApply_rename (f : Const) (ts : List Expr) :
    newApply (ρ.const f) (ts.map (rename ρ)) = (newApply f ts).map (rename ρ) := by
  have fits : ∀ dom : List FSort, (dom.zip (ts.map (rename ρ))).all (fun p => argumentFits p.1 p.2) =
      (dom.zip ts).all (fun p => argumentFits p.1 p.2) := by
    intro dom
    simp only [List.zip_map_right, List.all_map]
    congr 1
    funext p
    simp [argumentFits]
  unfold newApply
  simp only [Renaming.const, List.length_map, fits]
  split <;> (try split) <;> simp [rename, renameList_eq_map, Renaming.const]

theorem newEq_rename (a b : Expr) :
    newEq (a.rename ρ) (b.rename ρ) = (newEq a b).map (rename ρ) := by
  simp only [newEq, nodeSort_rename]
  split
  · rfl
  · split
    · rfl
    · split <;> rfl

theorem newIte_rename (c a b : Expr) :
    newIte (c.rename ρ) (a.rename ρ) (b.rename ρ) = (newIte c a b).map (rename ρ) := by
  simp only [newIte, nodeSort_rename]
  split
  · rfl
  · split <;> rfl

theorem newNot_rename (a : Expr) : newNot (a.rename ρ) = (newNot a).map (rename ρ) := by
  simp only [newNot, nodeSort_rename]
  split <;> rfl

theorem newAnd_rename (ts : List Expr) :
    newAnd (ts.map (rename ρ)) = (newAnd ts).map (rename ρ) := by
  simp only [newAnd, List.all_map, Function.comp_def, nodeSort_rename]
  split <;> simp [rename, renameList_eq_map]

theorem newOr_rename (ts : List Expr) :
    newOr (ts.map (rename ρ)) = (newOr ts).map (rename ρ) := by
  simp only [newOr, List.all_map, Function.comp_def, nodeSort_rename]
  split <;> simp [rename, renameList_eq_map]

theorem newImplies_rename (a b : Expr) :
    newImplies (a.rename ρ) (b.rename ρ) = (newImplies a b).map (rename ρ) := by
  simp only [newImplies, nodeSort_rename]
  split <;> rfl

theorem newIff_rename (a b : Expr) :
    newIff (a.rename ρ) (b.rename ρ) = (newIff a b).map (rename ρ) := by
  simp only [newIff, nodeSort_rename]
  split <;> rfl

theorem newForAll_rename (vs : List Variable) (a : Expr) :
    newForAll vs (a.rename ρ) = (newForAll vs a).map (rename ρ) := by
  simp only [newForAll, nodeSort_rename]
  split <;> rfl

theorem newExists_rename (vs : List Variable) (a : Expr) :
    newExists vs (a.rename ρ) = (newExists vs a).map (rename ρ) := by
  simp only [newExists, nodeSort_rename]
  split <;> rfl

theorem lookup_renameSubs (v : Variable) (subs : List (Variable × Expr)) :
    (renameSubs ρ subs).lookup v = (subs.lookup v).map (rename ρ) := by
  induction subs with
  | nil => rfl
  | cons p subs ih =>
    cases h : v == p.1 with
    | true => simp [renameSubs, List.lookup, h]
    | false => simpa [renameSubs, List.lookup, h] using ih

theorem substituteWithoutBoundVariables_rename (vs : List Variable)
    (subs : List (Variable × Expr)) :
    substituteWithoutBoundVariables vs (renameSubs ρ subs) =
      (substituteWithoutBoundVariables vs subs).map (renameSubs ρ) := by
  simp only [substituteWithoutBoundVariables, renameSubs, List.filter_map, List.any_map,
    Function.comp_def, freeVariables_rename]
  split <;> rfl

theorem substituteList_rename (ts : List Expr) (subs : List (Variable × Expr))
    (ih : ∀ t ∈ ts, (t.rename ρ).substitute (renameSubs ρ subs) =
      (t.substitute subs).map (rename ρ)) :
    substituteList (ts.map (rename ρ)) (renameSubs ρ subs) =
      (substituteList ts subs).map (List.map (rename ρ)) := by
  induction ts with
  | nil => rfl
  | cons t ts tail =>
    simp only [List.map_cons, substituteList, ih t List.mem_cons_self,
      tail fun u hu => ih u (List.mem_cons_of_mem _ hu)]
    cases t.substitute subs with
    | none => rfl
    | some t' => cases substituteList ts subs <;> rfl

theorem substitute_rename (e : Expr) (subs : List (Variable × Expr)) :
    (e.rename ρ).substitute (renameSubs ρ subs) = (e.substitute subs).map (rename ρ) := by
  induction e generalizing subs with
  | var v =>
    simp only [rename, substitute, lookup_renameSubs]
    cases subs.lookup v <;> rfl
  | const c => rfl
  | apply f ts ih =>
    simp only [rename, renameList_eq_map, substitute,
      substituteList_rename ρ ts subs fun t ht => ih t ht subs]
    cases substituteList ts subs with
    | none => rfl
    | some us => exact newApply_rename ρ f us
  | and ts ih =>
    simp only [rename, renameList_eq_map, substitute,
      substituteList_rename ρ ts subs fun t ht => ih t ht subs]
    cases substituteList ts subs with
    | none => rfl
    | some us => exact newAnd_rename ρ us
  | or ts ih =>
    simp only [rename, renameList_eq_map, substitute,
      substituteList_rename ρ ts subs fun t ht => ih t ht subs]
    cases substituteList ts subs with
    | none => rfl
    | some us => exact newOr_rename ρ us
  | not a ha =>
    simp only [rename, substitute, ha]
    cases a.substitute subs with
    | none => rfl
    | some a' => exact newNot_rename ρ a'
  | eq a b ha hb | implies a b ha hb | iff a b ha hb =>
    simp only [rename, substitute, ha, hb]
    cases a.substitute subs with
    | none => rfl
    | some a' =>
      cases b.substitute subs with
      | none => rfl
      | some b' => first
        | exact newEq_rename ρ a' b'
        | exact newImplies_rename ρ a' b'
        | exact newIff_rename ρ a' b'
  | ite c a b hc ha hb =>
    simp only [rename, substitute, ha, hb, hc]
    cases c.substitute subs with
    | none => rfl
    | some c' =>
      cases a.substitute subs with
      | none => rfl
      | some a' =>
        cases b.substitute subs with
        | none => rfl
        | some b' => exact newIte_rename ρ c' a' b'
  | forAll vs a ha | «exists» vs a ha =>
    simp only [rename, substitute, substituteWithoutBoundVariables_rename]
    cases substituteWithoutBoundVariables vs subs with
    | none => rfl
    | some inner =>
      simp only [Option.map_some, Option.bind_some, ha]
      cases a.substitute inner with
      | none => rfl
      | some a' => first
        | exact newForAll_rename ρ vs a'
        | exact newExists_rename ρ vs a'
  | some vs a ha =>
    simp only [rename, substitute, substituteWithoutBoundVariables_rename]
    cases substituteWithoutBoundVariables vs subs with
    | none => rfl
    | some inner =>
      simp only [Option.map_some, Option.bind_some, ha]
      cases a.substitute inner <;> rfl
  | someElse vs a b c ha hb hc =>
    simp only [rename, substitute, substituteWithoutBoundVariables_rename]
    cases substituteWithoutBoundVariables vs subs with
    | none => rfl
    | some inner =>
      simp only [Option.map_some, Option.bind_some, ha, hb, hc]
      cases a.substitute inner with
      | none => rfl
      | some a' =>
        cases b.substitute inner with
        | none => rfl
        | some b' => cases c.substitute inner <;> rfl

/-- A checked constructor returns the node it is asked for, or nothing. -/
theorem newApply_eq {f : Const} {ts : List Expr} {e : Expr} (h : newApply f ts = .some e) :
    e = .apply f ts := by
  unfold newApply at h
  grind

theorem newForAll_symbols {vs : List Variable} {a e : Expr} (h : newForAll vs a = .some e) :
    e.symbols = a.symbols := by
  unfold newForAll at h
  split at h
  · contradiction
  · cases h
    rfl

theorem newExists_symbols {vs : List Variable} {a e : Expr} (h : newExists vs a = .some e) :
    e.symbols = a.symbols := by
  unfold newExists at h
  split at h
  · contradiction
  · cases h
    rfl

theorem substituteWithoutBoundVariables_subset {vs : List Variable}
    {subs inner : List (Variable × Expr)}
    (h : substituteWithoutBoundVariables vs subs = .some inner) : inner ⊆ subs := by
  simp only [substituteWithoutBoundVariables] at h
  split at h
  · contradiction
  · cases h
    exact List.filter_subset_self _

theorem substituteList_symbols {ts us : List Expr} {subs : List (Variable × Expr)}
    (h : substituteList ts subs = .some us) (ih : ∀ t ∈ ts, ∀ u, t.substitute subs = .some u →
      ∀ c ∈ u.symbols, c ∈ t.symbols ∨ ∃ p ∈ subs, c ∈ p.2.symbols) :
    ∀ c ∈ us.flatMap symbols, c ∈ ts.flatMap symbols ∨ ∃ p ∈ subs, c ∈ p.2.symbols := by
  induction ts generalizing us with
  | nil =>
    cases h
    simp
  | cons t ts tail =>
    simp only [substituteList, Option.bind_eq_some_iff, Option.map_eq_some_iff] at h
    obtain ⟨u, hu, us', hus, rfl⟩ := h
    intro c hc
    rw [List.flatMap_cons, List.mem_append] at hc ⊢
    obtain hc | hc := hc
    · exact (ih t List.mem_cons_self u hu c hc).imp .inl id
    · exact (tail hus (fun t ht => ih t (List.mem_cons_of_mem _ ht)) c hc).imp .inr id

theorem substitute_symbols {e e' : Expr} {subs : List (Variable × Expr)}
    (h : e.substitute subs = .some e') :
    ∀ c ∈ e'.symbols, c ∈ e.symbols ∨ ∃ p ∈ subs, c ∈ p.2.symbols := by
  induction e generalizing subs e' with
  | var v =>
    simp only [substitute, Option.some.injEq] at h
    cases hv : subs.lookup v with
    | none => simp [← h, hv, symbols]
    | some t =>
      intro c hc
      rw [← h, hv] at hc
      exact .inr ⟨(v, t), InsMap.mem_of_lookup hv, hc⟩
  | const c =>
    cases h
    intro d hd
    exact .inl hd
  | apply f ts ih =>
    simp only [substitute, Option.bind_eq_some_iff] at h
    obtain ⟨us, hus, he⟩ := h
    have terms := substituteList_symbols hus fun t ht u hu => ih t ht hu
    cases newApply_eq he
    simp only [symbols, symbolsList_eq_flatMap, List.mem_cons]
    rintro c (rfl | hc)
    · exact .inl (.inl rfl)
    · exact (terms c hc).imp .inr id
  | and ts ih | or ts ih =>
    simp only [substitute, Option.bind_eq_some_iff] at h
    obtain ⟨us, hus, he⟩ := h
    have terms := substituteList_symbols hus fun t ht u hu => ih t ht hu
    simp only [newAnd, newOr] at he
    split at he
    · cases he
      simpa only [symbols, symbolsList_eq_flatMap] using terms
    · contradiction
  | not a ha =>
    simp only [substitute, Option.bind_eq_some_iff, newNot] at h
    obtain ⟨a', sub, he⟩ := h
    have symbols_eq : e'.symbols = a'.symbols := by grind [symbols]
    intro c hc
    exact ha sub c (symbols_eq ▸ hc)
  | eq a b ha hb | implies a b ha hb | iff a b ha hb =>
    simp only [substitute, Option.bind_eq_some_iff] at h
    obtain ⟨a', hsa, b', hsb, he⟩ := h
    have symbols_eq : e'.symbols = a'.symbols ++ b'.symbols := by
      simp only [newEq, newImplies, newIff] at he
      grind [symbols]
    intro c hc
    rw [symbols_eq, List.mem_append] at hc
    simp only [symbols, List.mem_append]
    obtain hc | hc := hc
    · exact (ha hsa c hc).imp .inl id
    · exact (hb hsb c hc).imp .inr id
  | ite a b c ha hb hc =>
    simp only [substitute, Option.bind_eq_some_iff] at h
    obtain ⟨a', hsa, b', hsb, c', hsc, he⟩ := h
    have symbols_eq : e'.symbols = a'.symbols ++ b'.symbols ++ c'.symbols := by
      simp only [newIte] at he
      grind [symbols]
    intro d hd
    simp only [symbols_eq, List.mem_append] at hd
    simp only [symbols, List.mem_append]
    obtain (hd | hd) | hd := hd
    · exact (ha hsa d hd).imp (.inl ∘ .inl) id
    · exact (hb hsb d hd).imp (.inl ∘ .inr) id
    · exact (hc hsc d hd).imp .inr id
  | forAll vs a ha | «exists» vs a ha =>
    simp only [substitute, Option.bind_eq_some_iff] at h
    obtain ⟨inner, hin, a', hsa, he⟩ := h
    have symbols_eq : e'.symbols = a'.symbols := by
      first | exact newForAll_symbols he | exact newExists_symbols he
    intro c hc
    rw [symbols_eq] at hc
    refine (ha hsa c hc).imp id ?_
    rintro ⟨p, hp, hcp⟩
    exact ⟨p, substituteWithoutBoundVariables_subset hin hp, hcp⟩
  | some vs a ha =>
    simp only [substitute, Option.bind_eq_some_iff, Option.map_eq_some_iff] at h
    obtain ⟨inner, hin, a', hsa, rfl⟩ := h
    intro c hc
    refine (ha hsa c hc).imp id ?_
    rintro ⟨p, hp, hcp⟩
    exact ⟨p, substituteWithoutBoundVariables_subset hin hp, hcp⟩
  | someElse vs a b c ha hb hc =>
    simp only [substitute, Option.bind_eq_some_iff, Option.map_eq_some_iff] at h
    obtain ⟨inner, hin, a', hsa, b', hsb, c', hsc, rfl⟩ := h
    have widen : ∀ d : Const, (∃ p ∈ inner, d ∈ p.2.symbols) → ∃ p ∈ subs, d ∈ p.2.symbols := by
      rintro d ⟨p, hp, hd⟩
      exact ⟨p, substituteWithoutBoundVariables_subset hin hp, hd⟩
    intro d hd
    simp only [symbols, List.mem_append] at hd ⊢
    obtain (hd | hd) | hd := hd
    · exact (ha hsa d hd).imp (.inl ∘ .inl) (widen d)
    · exact (hb hsb d hd).imp (.inl ∘ .inr) (widen d)
    · exact (hc hsc d hd).imp .inr (widen d)

end Expr

namespace Definition

theorem toConstraint_rename (ρ : Renaming) (d : Definition) :
    (d.rename ρ).toConstraint = d.toConstraint.rename ρ := by
  obtain ⟨lhs, rhs⟩ := d
  cases rhs with
  | some vs phi =>
    cases vs with
    | nil => rfl
    | cons x vs =>
      have h := Expr.substitute_rename ρ phi [(x, lhs)]
      simp only [renameSubs, List.map_cons, List.map_nil] at h
      simp only [toConstraint, rename, Expr.rename, h]
      cases phi.substitute [(x, lhs)] <;> rfl
  | someElse vs phi a b => cases vs <;> rfl
  | _ =>
    simp only [toConstraint, rename, Expr.rename, Expr.isIndividual_rename]
    split <;> rfl

theorem symbols_rename (ρ : Renaming) (d : Definition) :
    (d.rename ρ).symbols = d.symbols.map ρ.const := by
  simp [symbols, rename, Expr.symbols_rename]

theorem symbols_toConstraint (d : Definition) :
    ∀ c ∈ d.toConstraint.symbols, c ∈ d.symbols := by
  obtain ⟨lhs, rhs⟩ := d
  intro c hc
  simp only [symbols, List.mem_append]
  cases rhs with
  | some vs phi =>
    cases vs with
    | nil => simpa [toConstraint, Expr.symbols] using hc
    | cons x vs =>
      cases hs : phi.substitute [(x, lhs)] with
      | none => simpa [toConstraint, hs, Expr.symbols] using hc
      | some psi =>
        have := Expr.substitute_symbols hs c
        simp only [toConstraint, hs, Expr.symbols, List.mem_append] at hc
        simp only [Expr.symbols]
        grind
  | someElse vs phi a b =>
    cases vs with
    | nil => simp_all [toConstraint, Expr.symbols]; grind
    | cons x vs =>
      simp only [toConstraint, Expr.symbols, symbolsList, List.append_nil, List.mem_append] at hc
      simp only [Expr.symbols, List.mem_append]
      grind
  | _ =>
    simp only [toConstraint] at hc
    split at hc <;> simpa [Expr.symbols] using hc

end Definition

end Goivy
