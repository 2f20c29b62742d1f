import Goivy.Proof.Goal
import Goivy.Logic.Vocabulary
import Goivy.Proof.Reinterpretation

/-! Truth of goals. Every formula is read as its universal closure, and a goal ranges over all meanings of the sorts
and symbols that its own premises declare. -/
namespace Goivy

variable {D D' : Domain} {M N : Structure D}

/-- Truth of a conclusion. -/
def Conclusion.Holds (M : Structure D) : Conclusion → Prop
  | .formula e => e.Valid M
  | .definition d | .definitionSchema d => d.toConstraint.Valid M

theorem Conclusion.holds_congr (conc : Conclusion) (same : ∀ c ∈ conc.symbols, SameAt M N c) :
    conc.Holds M ↔ conc.Holds N := by
  cases conc with
  | formula e => exact forall_congr' fun env => Expr.holds_congr M env (congrFun (Expr.eval_congr same) env)
  | definition d | definitionSchema d =>
    have constraint : ∀ c ∈ d.toConstraint.symbols, SameAt M N c := fun c hc => same c (d.symbols_toConstraint c hc)
    exact forall_congr' fun env => Expr.holds_congr M env (congrFun (Expr.eval_congr constraint) env)

namespace Premise

/-- The sorts that premises declare. -/
def declaredSorts (prems : List Premise) : List String := prems.filterMap fun
  | .sort n => some n
  | _ => none

/-- The symbols that premises declare. -/
def declaredSymbols (prems : List Premise) : List Const := prems.filterMap fun
  | .constantDecl _ c => some c
  | _ => none

end Premise

namespace Premise

mutual
/-- A premise is true in a structure when its conclusion is in every structure that reinterprets what it declares
and in which its own premises are. -/
def Holds : Premise → ∀ {D : Domain}, Structure D → Prop
  | .sort _, _, _ => True
  | .constantDecl _ _, _, _ => True
  | .goal _ prems conc, _, M => ∀ {D' : Domain} (M' : Structure D'),
      Reinterprets (declaredSorts prems) (declaredSymbols prems) M M' → HoldAll prems M' → conc.Holds M'
def HoldAll : List Premise → ∀ {D : Domain}, Structure D → Prop
  | [], _, _ => True
  | p :: ps, _, M => p.Holds M ∧ HoldAll ps M
end

theorem holdAll_iff {ps : List Premise} : HoldAll ps M ↔ ∀ p ∈ ps, p.Holds M := by
  induction ps with
  | nil => simp [HoldAll]
  | cons p ps ih => rw [HoldAll, ih, List.forall_mem_cons]

open Classical in
/-- A reinterpretation of one structure gives one of any structure that agrees on some symbols, with the same meaning
of these. Only they are given other meanings. -/
theorem exists_agree {names : List String} {cs cs' : List Const} {M' : Structure D'}
    (h : Reinterprets names cs M M') (used : List Const) (same : ∀ c ∈ used, SameAt M N c)
    (keep : ∀ c ∈ cs, c ∈ used → c ∈ cs') : ∃ N' : Structure D', Reinterprets names cs' N N' ∧ ∀ c ∈ used, SameAt M' N' c := by
  refine ⟨fun n s args => if (⟨n, s⟩ : Const) ∈ used then M' n s args else El.into D' (N n s (args.into D)),
    ⟨h.carriers, ?_⟩, ?_⟩
  · intro c undeclared avoids args args' sameArgs
    by_cases mem : c ∈ used
    · simp only [if_pos mem]
      rw [← show M c.name c.sort = N c.name c.sort from same c mem]
      exact h.symbols c (fun declared => undeclared (keep c declared mem)) avoids args args' sameArgs
    · have shared : ∀ s ∈ c.sort.domain, D.carrier s = D'.carrier s := fun s hs =>
        (h.carriers s (avoids s (List.mem_cons_of_mem _ hs))).symm
      have back := List.Forall₂.flip ((Args.same_into shared args').imp fun _ _ => Val.Same.symm)
      obtain rfl := Args.Same.eq sameArgs back
      simp only [if_neg mem]
      exact El.heq_into (h.carriers _ (avoids _ List.mem_cons_self)) _
  · intro c mem
    funext args
    simp only [if_pos mem]

mutual
/-- The truth of a premise depends on the symbols that it uses. -/
theorem holds_of_same : ∀ (p : Premise) {D : Domain} {M N : Structure D}, (∀ c ∈ p.usedSymbols, SameAt M N c) →
    p.Holds M → p.Holds N
  | .sort _, _, _, _, _, _ => trivial
  | .constantDecl _ _, _, _, _, _, _ => trivial
  | .goal _ prems conc, _, M, N, same, holds => fun N' reinterprets all => by
    have same' : ∀ c ∈ usedSymbolsList prems ++ conc.symbols, SameAt N M c := fun c hc => (same c hc).symm
    obtain ⟨M', reinterprets', agree⟩ := exists_agree reinterprets _ same' fun _ declared _ => declared
    rw [List.forall_mem_append] at agree
    exact (Conclusion.holds_congr conc agree.2).mpr (holds M' reinterprets' (holdAll_of_same prems agree.1 all))
theorem holdAll_of_same : ∀ (ps : List Premise) {D : Domain} {M N : Structure D},
    (∀ c ∈ usedSymbolsList ps, SameAt M N c) → HoldAll ps M → HoldAll ps N
  | [], _, _, _, _, _ => trivial
  | p :: ps, _, _, _, same, all => by
    rw [usedSymbolsList, List.forall_mem_append] at same
    exact ⟨holds_of_same p same.1 all.1, holdAll_of_same ps same.2 all.2⟩
end

theorem holds_congr {p : Premise} (same : ∀ c ∈ p.usedSymbols, SameAt M N c) : p.Holds M ↔ p.Holds N :=
  ⟨holds_of_same p same, holds_of_same p fun c hc => (same c hc).symm⟩

/-- A premise without premises of its own is its conclusion. -/
theorem holds_plain {label : Option String} {conc : Conclusion} : (goal label [] conc).Holds M ↔ conc.Holds M := by
  constructor
  · exact fun h => h M (Reinterprets.refl M) trivial
  · intro h D' M' reinterprets _
    obtain ⟨carrier, nonempty⟩ := D
    obtain ⟨carrier', nonempty'⟩ := D'
    obtain rfl : carrier' = carrier := funext fun s => reinterprets.carriers s (by simp [FSort.Avoids, declaredSorts])
    obtain rfl : M = M' := funext fun n => funext fun s => funext fun args => eq_of_heq
      (reinterprets.symbols ⟨n, s⟩ (by simp [declaredSymbols]) (by simp [Const.Avoids, FSort.Avoids, declaredSorts])
        args args (List.forall₂_same.mpr fun v _ => Val.Same.refl v))
    exact h

end Premise

end Goivy
