import Goivy.Logic.Instance
import Goivy.TransRel.AtomicUpdate

/-! Structures that give other meanings to some sorts and symbols. The values of the other sorts are the same elements
in both domains. -/
namespace Goivy

variable {D D' : Domain}

/-- The same element of the same sort. -/
def Val.Same (v : Val D) (v' : Val D') : Prop := v.1 = v'.1 ∧ HEq v.2 v'.2

theorem El.eq_of_carrier {s : FSort} (h : D'.carrier s = D.carrier s) : El D s = El D' s := by
  cases s with
  | boolean => rfl
  | _ => exact h.symm

open Classical in
/-- The element of the other domain, where that has it. -/
noncomputable def El.into {s : FSort} (D' : Domain) (x : El D s) : El D' s :=
  if h : El D s = El D' s then cast h x else Classical.arbitrary _

theorem El.heq_into {s : FSort} (h : D'.carrier s = D.carrier s) (x : El D s) : HEq x (El.into D' x) := by
  rw [El.into, dif_pos (El.eq_of_carrier h)]
  exact (cast_heq _ _).symm

namespace Val

theorem Same.refl (v : Val D) : Val.Same v v := ⟨rfl, .rfl⟩

theorem Same.symm {v : Val D} {v' : Val D'} (h : Val.Same v v') : Val.Same v' v := ⟨h.1.symm, h.2.symm⟩

theorem Same.eq {v w : Val D} (h : Val.Same v w) : v = w := Sigma.ext h.1 h.2

theorem Same.eq_iff {v w : Val D} {v' w' : Val D'} (hv : Val.Same v v') (hw : Val.Same w w') : v = w ↔ v' = w' := by
  constructor
  · rintro rfl
    exact Same.eq ⟨hv.1.symm.trans hw.1, hv.2.symm.trans hw.2⟩
  · rintro rfl
    exact Same.eq ⟨hv.1.trans hw.1.symm, hv.2.trans hw.2.symm⟩

theorem same_ofProp {p q : Prop} (h : p ↔ q) : Val.Same (Val.ofProp p : Val D) (Val.ofProp q : Val D') := by
  obtain rfl := propext h
  exact ⟨rfl, .rfl⟩

theorem Same.holds_iff {v : Val D} {v' : Val D'} (h : Val.Same v v') : v.Holds ↔ v'.Holds :=
  have truth : Val.Same (⟨.boolean, true⟩ : Val D) (⟨.boolean, true⟩ : Val D') := ⟨rfl, .rfl⟩
  h.eq_iff truth

theorem same_into {v : Val D} (h : D'.carrier v.1 = D.carrier v.1) :
    Val.Same v (⟨v.1, El.into D' v.2⟩ : Val D') := ⟨rfl, El.heq_into h v.2⟩

end Val

/-- The arguments of the other domain, where that has them. -/
noncomputable def Args.into {dom : List FSort} (D' : Domain) (args : Args D dom) : Args D' dom :=
  ⟨args.1.map fun v => ⟨v.1, El.into D' v.2⟩, by
    rw [List.map_map]
    exact args.2⟩

/-- The same arguments. -/
def Args.Same {dom : List FSort} (args : Args D dom) (args' : Args D' dom) : Prop :=
  List.Forall₂ Val.Same args.1 args'.1

theorem Args.same_into {dom : List FSort} (shared : ∀ s ∈ dom, D'.carrier s = D.carrier s) (args : Args D dom) :
    Args.Same args (args.into D') := by
  have sorts : ∀ v ∈ args.1, D'.carrier v.1 = D.carrier v.1 := fun v hv =>
    shared v.1 (args.2 ▸ List.mem_map_of_mem hv)
  rw [Args.Same, Args.into, List.forall₂_map_right_iff, List.forall₂_same]
  exact fun v hv => Val.same_into (sorts v hv)

theorem Args.Same.eq {dom : List FSort} {args args₁ : Args D dom} {args' : Args D' dom} (h : Args.Same args args')
    (h₁ : Args.Same args₁ args') : args = args₁ := by
  have unique : Relator.LeftUnique (Val.Same : Val D → Val D' → Prop) := fun _ _ _ hv hw =>
    Val.Same.eq ⟨hv.1.trans hw.1.symm, hv.2.trans hw.2.symm⟩
  exact Subtype.ext (List.left_unique_forall₂' unique h h₁)

/-- The sort is none of these names. -/
def FSort.Avoids (names : List String) (s : FSort) : Prop := ∀ n ∈ names, s ≠ .uninterpreted n

/-- None of the sorts is one of these names. -/
def Const.Avoids (names : List String) (c : Const) : Prop := ∀ s ∈ c.sort.range :: c.sort.domain, s.Avoids names

/-- The second structure gives other meanings to some sorts and symbols, and to the symbols over these sorts. -/
structure Reinterprets (names : List String) (cs : List Const) (M : Structure D) (M' : Structure D') : Prop where
  carriers : ∀ s : FSort, s.Avoids names → D'.carrier s = D.carrier s
  symbols : ∀ c : Const, c ∉ cs → c.Avoids names → ∀ (args : Args D c.sort.domain) (args' : Args D' c.sort.domain),
    args.Same args' → HEq (M c.name c.sort args) (M' c.name c.sort args')

/-- The same assignment of the variables whose sorts have kept their meaning. -/
def Env.Same (names : List String) (env : Env D) (env' : Env D') : Prop :=
  ∀ v : Variable, v.sort.Avoids names → HEq (env v) (env' v)

theorem heq_arbitrary {α β : Type} [Nonempty α] [Nonempty β] (h : α = β) :
    HEq (Classical.arbitrary α) (Classical.arbitrary β) := by
  subst h
  rfl

theorem Args.Same.eq_self {dom : List FSort} {args args' : Args D dom} (h : args.Same args') : args = args' :=
  h.eq (List.forall₂_same.mpr fun v _ => Val.Same.refl v)

theorem Reinterprets.refl {names : List String} {cs : List Const} (M : Structure D) : Reinterprets names cs M M := by
  refine ⟨fun _ _ => rfl, fun c _ _ args args' same => ?_⟩
  obtain rfl := same.eq_self
  rfl

namespace Reinterprets

variable {names : List String} {cs : List Const} {M : Structure D} {M' : Structure D'} (h : Reinterprets names cs M M')
include h

theorem symm : Reinterprets names cs M' M :=
  ⟨fun s avoids => (h.carriers s avoids).symm, fun c undeclared avoids args args' same =>
    (h.symbols c undeclared avoids args' args (List.Forall₂.flip (same.imp fun _ _ => Val.Same.symm))).symm⟩

theorem value_same {c : Const} (undeclared : c ∉ cs) (avoids : c.Avoids names) {vs : List (Val D)} {vs' : List (Val D')}
    (same : List.Forall₂ Val.Same vs vs') : Val.Same (M.value c vs) (M'.value c vs') := by
  have sorts : vs.map Sigma.fst = vs'.map Sigma.fst := by
    induction same with
    | nil => rfl
    | cons head _ ih => rw [List.map_cons, List.map_cons, head.1, ih]
  refine ⟨rfl, ?_⟩
  simp only [Structure.value]
  split
  · rename_i fits
    rw [dif_pos (sorts.symm.trans fits)]
    exact h.symbols c undeclared avoids ⟨vs, fits⟩ ⟨vs', sorts.symm.trans fits⟩ same
  · rename_i misfits
    rw [dif_neg fun fits => misfits (sorts.trans fits)]
    exact heq_arbitrary (El.eq_of_carrier (h.carriers _ (avoids _ List.mem_cons_self)))

theorem env_into (env : Env D) : Env.Same names env (fun v => El.into D' (env v)) := fun v avoids =>
  El.heq_into (h.carriers v.sort avoids) (env v)

open Classical in
theorem exists_off {vs : List Variable} {env envA : Env D} {env' : Env D'} (same : Env.Same names env env')
    (off : env.Off vs envA) : ∃ envB, env'.Off vs envB ∧ Env.Same names envA envB := by
  refine ⟨fun v => if v ∈ vs then El.into D' (envA v) else env' v, fun v hv => if_neg hv, ?_⟩
  intro v avoids
  by_cases bound : v ∈ vs
  · simpa only [if_pos bound] using h.env_into envA v avoids
  · simpa only [if_neg bound, off v bound] using same v avoids

theorem exists_off_iff {vs : List Variable} {env : Env D} {env' : Env D'} (same : Env.Same names env env')
    {P : Env D → Prop} {Q : Env D' → Prop} (body : ∀ envA envB, Env.Same names envA envB → (P envA ↔ Q envB)) :
    (∃ envA, env.Off vs envA ∧ P envA) ↔ ∃ envB, env'.Off vs envB ∧ Q envB := by
  constructor
  · rintro ⟨envA, off, holds⟩
    obtain ⟨envB, off', sameA⟩ := h.exists_off same off
    exact ⟨envB, off', (body envA envB sameA).mp holds⟩
  · rintro ⟨envB, off, holds⟩
    have back : Env.Same names env' env := fun v avoids => (same v avoids).symm
    obtain ⟨envA, off', sameB⟩ := h.symm.exists_off back off
    exact ⟨envA, off', (body envA envB fun v avoids => (sameB v avoids).symm).mpr holds⟩

theorem forall_off_iff {vs : List Variable} {env : Env D} {env' : Env D'} (same : Env.Same names env env')
    {P : Env D → Prop} {Q : Env D' → Prop} (body : ∀ envA envB, Env.Same names envA envB → (P envA ↔ Q envB)) :
    (∀ envA, env.Off vs envA → P envA) ↔ ∀ envB, env'.Off vs envB → Q envB := by
  have dual := @exists_off_iff _ _ _ _ _ _ h vs _ _ same _ _ fun envA envB hs => not_congr (body envA envB hs)
  grind

end Reinterprets

namespace Expr

/-- No sort of the expression is one of the names, and no symbol one of the others. -/
structure Untouched (names : List String) (cs : List Const) (e : Expr) : Prop where
  vars : ∀ v ∈ e.allVariables, v.sort.Avoids names
  symbols : ∀ c ∈ e.symbols, c ∉ cs ∧ c.Avoids names
  descriptionFree : e.descriptionFree = true

variable {names : List String} {cs : List Const} {M : Structure D} {M' : Structure D'}

theorem Untouched.terms {e : Expr} {ts : List Expr} (h : e.Untouched names cs)
    (vars : e.allVariables = allVariablesList ts) (syms : symbolsList ts ⊆ e.symbols)
    (plain : e.descriptionFree = descriptionFreeList ts) : ∀ t ∈ ts, t.Untouched names cs := by
  intro t ht
  refine ⟨fun v hv => h.vars v ?_, fun c hc => h.symbols c (syms ?_),
    descriptionFreeList_iff.mp (plain ▸ h.descriptionFree) t ht⟩
  · rw [vars, allVariablesList_eq_flatMap]
    exact List.mem_flatMap.mpr ⟨t, ht, hv⟩
  · rw [symbolsList_eq_flatMap]
    exact List.mem_flatMap.mpr ⟨t, ht, hc⟩

/-- An expression keeps its value. -/
theorem eval_same (r : Reinterprets names cs M M') {e : Expr} (h : e.Untouched names cs) {env : Env D} {env' : Env D'}
    (same : Env.Same names env env') : Val.Same (e.eval M env) (e.eval M' env') := by
  induction e generalizing env env' with
  | var v => exact ⟨rfl, same v (h.vars v List.mem_cons_self)⟩
  | const c =>
    obtain ⟨undeclared, avoids⟩ := h.symbols c List.mem_cons_self
    exact r.value_same undeclared avoids .nil
  | apply f ts ih =>
    have inner := h.terms rfl (List.subset_cons_self f _) rfl
    obtain ⟨undeclared, avoids⟩ := h.symbols f List.mem_cons_self
    rw [eval, eval, evalList_eq_map, evalList_eq_map]
    refine r.value_same undeclared avoids ?_
    rw [List.forall₂_map_left_iff, List.forall₂_map_right_iff, List.forall₂_same]
    exact fun t ht => ih t ht (inner t ht) same
  | and ts ih =>
    have inner := h.terms rfl (List.Subset.refl _) rfl
    refine Val.same_ofProp ?_
    simp only [evalList_eq_map, List.forall_mem_map]
    exact forall₂_congr fun t ht => (ih t ht (inner t ht) same).holds_iff
  | or ts ih =>
    have inner := h.terms rfl (List.Subset.refl _) rfl
    refine Val.same_ofProp ?_
    simp only [evalList_eq_map, List.mem_map, exists_exists_and_eq_and]
    exact exists_congr fun t => and_congr_right fun ht => (ih t ht (inner t ht) same).holds_iff
  | not a ha =>
    exact Val.same_ofProp (not_congr (ha ⟨h.vars, h.symbols, h.descriptionFree⟩ same).holds_iff)
  | eq a b ha hb | implies a b ha hb | iff a b ha hb =>
    obtain ⟨vars, syms, plain⟩ := h
    simp only [allVariables, symbols, descriptionFree, List.forall_mem_append, Bool.and_eq_true] at vars syms plain
    have sameA := ha ⟨vars.1, syms.1, plain.1⟩ same
    have sameB := hb ⟨vars.2, syms.2, plain.2⟩ same
    first
      | exact Val.same_ofProp (sameA.eq_iff sameB)
      | exact Val.same_ofProp (imp_congr sameA.holds_iff sameB.holds_iff)
      | exact Val.same_ofProp (iff_congr sameA.holds_iff sameB.holds_iff)
  | ite c a b hc ha hb =>
    obtain ⟨vars, syms, plain⟩ := h
    simp only [allVariables, symbols, descriptionFree, List.forall_mem_append, Bool.and_eq_true] at vars syms plain
    have sameC := hc ⟨vars.1.1, syms.1.1, plain.1.1⟩ same
    have sameA := ha ⟨vars.1.2, syms.1.2, plain.1.2⟩ same
    have sameB := hb ⟨vars.2, syms.2, plain.2⟩ same
    simp only [eval, Val.ite]
    by_cases holds : (c.eval M env).Holds
    · rw [if_pos holds, if_pos (sameC.holds_iff.mp holds)]
      exact sameA
    · rw [if_neg holds, if_neg fun holds' => holds (sameC.holds_iff.mpr holds')]
      exact sameB
  | forAll vs a ha =>
    have inner : a.Untouched names cs :=
      ⟨fun v hv => h.vars v (List.mem_append_right vs hv), h.symbols, h.descriptionFree⟩
    exact Val.same_ofProp (r.forall_off_iff same fun envA envB sameA => (ha inner sameA).holds_iff)
  | «exists» vs a ha =>
    have inner : a.Untouched names cs :=
      ⟨fun v hv => h.vars v (List.mem_append_right vs hv), h.symbols, h.descriptionFree⟩
    exact Val.same_ofProp (r.exists_off_iff same fun envA envB sameA => (ha inner sameA).holds_iff)
  | some vs a | someElse vs a b c =>
    have plain := h.descriptionFree
    simp [descriptionFree] at plain

theorem valid_of_reinterprets (r : Reinterprets names cs M M') {e : Expr} (h : e.Untouched names cs)
    (valid : e.Valid M) : e.Valid M' := by
  intro env'
  have same := r.symm.env_into env'
  exact (eval_same r.symm h same).holds_iff.mpr (valid _)

end Expr

end Goivy
