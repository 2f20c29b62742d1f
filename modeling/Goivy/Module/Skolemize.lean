import Goivy.Proof.SkolemSound
import Goivy.TransRel.AtomicActions

/-! Skolemization by polarity. -/
namespace Goivy

namespace Expr

mutual
/-- `SubstituteAstByName` with a nonempty map of names to terms, in expressions without descriptions. Nothing keeps a
quantifier from capturing a variable of a term. -/
@[grind =] def substituteTerms : Expr → List (String × Expr) → Expr
  | .var v, subs => (subs.lookup v.name).getD (.var v)
  | .const c, _ => .const c
  | .apply f ts, subs => .apply f (substituteTermsList ts subs)
  | .eq a b, subs => .eq (a.substituteTerms subs) (b.substituteTerms subs)
  | .not a, subs => .not (a.substituteTerms subs)
  | .and ts, subs => .and (substituteTermsList ts subs)
  | .or ts, subs => .or (substituteTermsList ts subs)
  | .implies a b, subs => .implies (a.substituteTerms subs) (b.substituteTerms subs)
  | .iff a b, subs => .iff (a.substituteTerms subs) (b.substituteTerms subs)
  | .ite a b c, subs => .ite (a.substituteTerms subs) (b.substituteTerms subs) (c.substituteTerms subs)
  | .forAll vs a, subs =>
    let newSubs := subs.filter (·.1 ∉ vs.map Variable.name)
    if newSubs.isEmpty then .forAll vs a else .forAll (deduplicateAndSortVars vs) (a.substituteTerms newSubs)
  | .exists vs a, subs =>
    let newSubs := subs.filter (·.1 ∉ vs.map Variable.name)
    if newSubs.isEmpty then .exists vs a else .exists (deduplicateAndSortVars vs) (a.substituteTerms newSubs)
  | .some vs a, subs => .some vs (a.substituteTerms subs)
  | .someElse vs a b c, subs => .someElse vs (a.substituteTerms subs) (b.substituteTerms subs) (c.substituteTerms subs)
@[grind =] def substituteTermsList : List Expr → List (String × Expr) → List Expr
  | [], _ => []
  | t :: ts, subs => t.substituteTerms subs :: substituteTermsList ts subs
end

end Expr

section Positions

variable {b : Bool} {p q p' q' : Prop}

theorem Improves.negate (h : Improves (!b) p q) : Improves b (¬ p) (¬ q) := by
  cases b with
  | true => exact fun out inn => out (h inn)
  | false => exact fun inn out => inn (h out)

theorem Improves.arrow (h : Improves (!b) p q) (h' : Improves b p' q') : Improves b (p → p') (q → q') := by
  cases b with
  | true => exact fun out inn => h' (out (h inn))
  | false => exact fun inn out => h' (inn (h out))

theorem Improves.all {α : Type} {p q : α → Prop} (h : ∀ x, Improves b (p x) (q x)) : Improves b (∀ x, p x) (∀ x, q x) := by
  cases b with
  | true => exact fun out x => h x (out x)
  | false => exact fun inn x => h x (inn x)

theorem Improves.any {α : Type} {p q : α → Prop} (h : ∀ x, Improves b (p x) (q x)) : Improves b (∃ x, p x) (∃ x, q x) := by
  cases b with
  | true => exact fun ⟨x, out⟩ => ⟨x, h x out⟩
  | false => exact fun ⟨x, inn⟩ => ⟨x, h x inn⟩

theorem Improves.guarded {r : Prop} (h : r → Improves b p q) : Improves b (r ∧ p) (r ∧ q) := by
  cases b with
  | true => exact fun ⟨guard, out⟩ => ⟨guard, h guard out⟩
  | false => exact fun ⟨guard, inn⟩ => ⟨guard, h guard inn⟩

theorem Improves.under {r : Prop} (h : r → Improves b p q) : Improves b (r → p) (r → q) := by
  cases b with
  | true => exact fun out guard => h guard (out guard)
  | false => exact fun inn guard => h guard (inn guard)

end Positions

namespace SkolemizeAst

section Names

/-- The loop over the numbers for a name that is used. -/
@[grind =] def numberedFrom (name : String) (usedNames : List String) : Nat → Nat → String
  | 0, count => name ++ "[" ++ toString count ++ "]"
  | fuel + 1, count =>
    let newName := name ++ "[" ++ toString count ++ "]"
    if newName ∈ usedNames then numberedFrom name usedNames fuel (count + 1) else newName

/-- The name of a Skolem symbol where it is not used. -/
def baseName (namePrefix : String) (v : Variable) : String := "@" ++ (if namePrefix = "" then "" else namePrefix ++ ".") ++ v.name

/-- The name of a Skolem symbol. One number more than there are used names is enough. -/
def skolemName (namePrefix : String) (usedNames : List String) (v : Variable) : String :=
  let name := baseName namePrefix v
  if name ∈ usedNames then numberedFrom name usedNames usedNames.length 1 else name

end Names

/-- What `SkolemizeAst` writes to. -/
structure SkolemNames where
  usedNames : List String
  skolems : List Const

section Walk

variable (namePrefix : String)

/-- The loop over the variables of a quantifier. Of variables with one name the last counts. -/
@[grind =] def skolemizeVars (mvs : List Variable) : List Variable → SkolemNames → List (String × Expr) × SkolemNames
  | [], st => ([], st)
  | v :: vars, st =>
    let skSym : Const := ⟨skolemName namePrefix st.usedNames v, skolemSort mvs v⟩
    let (subs, st) := skolemizeVars mvs vars ⟨skSym.name :: st.usedNames, st.skolems ++ [skSym]⟩
    (subs ++ [(v.name, skolemTerm skSym mvs)], st)

/-- A quantifier that is skolemized. The body is not visited again. -/
def skolemizeQuantifier (vs vars : List Variable) (body : Expr) (st : SkolemNames) : Expr × SkolemNames :=
  let mvs := vs.filter (· ∈ body.allVariables)
  let (subs, st) := skolemizeVars namePrefix mvs vars st
  (if subs.isEmpty then body else body.substituteTerms subs, st)

mutual
/-- Descriptions are left out. -/
@[grind =] def skolemizeAst : Bool → List Variable → Expr → SkolemNames → Expr × SkolemNames
  | pos, vs, .apply f ts, st => let (ts, st) := skolemizeAsts pos vs ts st; (.apply f ts, st)
  | pos, vs, .and ts, st => let (ts, st) := skolemizeAsts pos vs ts st; (.and ts, st)
  | pos, vs, .or ts, st => let (ts, st) := skolemizeAsts pos vs ts st; (.or ts, st)
  | pos, vs, .not a, st => let (a, st) := skolemizeAst (!pos) vs a st; (.not a, st)
  | pos, vs, .implies a b, st =>
    let (a, st) := skolemizeAst (!pos) vs a st; let (b, st) := skolemizeAst pos vs b st; (.implies a b, st)
  | pos, vs, .eq a b, st => let (a, st) := skolemizeAst pos vs a st; let (b, st) := skolemizeAst pos vs b st; (.eq a b, st)
  | pos, vs, .iff a b, st => let (a, st) := skolemizeAst pos vs a st; let (b, st) := skolemizeAst pos vs b st; (.iff a b, st)
  | pos, vs, .ite c a b, st =>
    let (c, st) := skolemizeAst pos vs c st; let (a, st) := skolemizeAst pos vs a st; let (b, st) := skolemizeAst pos vs b st
    (.ite c a b, st)
  | pos, vs, .forAll vars body, st =>
    if pos then let (body, st) := skolemizeAst pos (vs ++ vars) body st; (.forAll (deduplicateAndSortVars vars) body, st)
    else skolemizeQuantifier namePrefix vs vars body st
  | pos, vs, .exists vars body, st =>
    if pos then skolemizeQuantifier namePrefix vs vars body st
    else let (body, st) := skolemizeAst pos (vs ++ vars) body st; (.exists (deduplicateAndSortVars vars) body, st)
  | _, _, e, st => (e, st)
@[grind =] def skolemizeAsts : Bool → List Variable → List Expr → SkolemNames → List Expr × SkolemNames
  | _, _, [], st => ([], st)
  | pos, vs, t :: ts, st => let (t, st) := skolemizeAst pos vs t st; let (ts, st) := skolemizeAsts pos vs ts st; (t :: ts, st)
end

end Walk

section Conditions

mutual
/-- At this polarity a quantifier is met that is skolemized. -/
@[grind =] def skolemizes : Bool → Expr → Bool
  | _, .var _ | _, .const _ => false
  | pos, .apply _ ts | pos, .and ts | pos, .or ts => skolemizesAny pos ts
  | pos, .not a => skolemizes (!pos) a
  | pos, .implies a b => skolemizes (!pos) a || skolemizes pos b
  | pos, .eq a b | pos, .iff a b => skolemizes pos a || skolemizes pos b
  | pos, .ite a b c | pos, .someElse _ a b c => skolemizes pos a || skolemizes pos b || skolemizes pos c
  | pos, .forAll _ a => !pos || skolemizes pos a
  | pos, .exists _ a => pos || skolemizes pos a
  | pos, .some _ a => skolemizes pos a
@[grind =] def skolemizesAny : Bool → List Expr → Bool
  | _, [] => false
  | pos, t :: ts => skolemizes pos t || skolemizesAny pos ts
end

mutual
/-- The variables that are bound around a free occurrence of `y`. -/
@[grind =] def bindersOver (y : Variable) : Expr → List Variable
  | .var _ | .const _ => []
  | .apply _ ts | .and ts | .or ts => bindersOverList y ts
  | .eq a b | .implies a b | .iff a b => bindersOver y a ++ bindersOver y b
  | .not a => bindersOver y a
  | .ite a b c => bindersOver y a ++ bindersOver y b ++ bindersOver y c
  | .forAll vs a | .exists vs a | .some vs a => if y ∈ vs ∨ y ∉ a.freeVariables then [] else vs ++ bindersOver y a
  | .someElse vs a b c =>
    if y ∈ vs ∨ y ∉ a.freeVariables ++ b.freeVariables ++ c.freeVariables then []
    else vs ++ bindersOver y a ++ bindersOver y b ++ bindersOver y c
@[grind =] def bindersOverList (y : Variable) : List Expr → List Variable
  | [] => []
  | t :: ts => bindersOver y t ++ bindersOverList y ts
end

/-- A name of the variables stands for one of them in the body, and no variable of a Skolem term is captured there. -/
structure Replaceable (vs vars : List Variable) (body : Expr) : Prop where
  named : ∀ x ∈ body.freeVariables, ∀ v, vars.reverse.find? (·.name = x.name) = some v → v = x
  clear : ∀ v ∈ vars, ∀ y ∈ bindersOver v body, y.name ≠ v.name ∧ y ∉ vs

mutual
/-- Quantifiers are skolemized at positions of one polarity only (not below an equivalence, in the condition of a
conditional, or in a term), and where that is possible by name. -/
@[grind =] def Skolemizable : Bool → List Variable → Expr → Prop
  | pos, vs, .and ts | pos, vs, .or ts => AllSkolemizable pos vs ts
  | pos, vs, .not a => Skolemizable (!pos) vs a
  | pos, vs, .implies a b => Skolemizable (!pos) vs a ∧ Skolemizable pos vs b
  | pos, vs, .ite c a b => skolemizes pos c = false ∧ Skolemizable pos vs a ∧ Skolemizable pos vs b
  | pos, vs, .forAll vars body => if pos then Skolemizable pos (vs ++ vars) body else Replaceable vs vars body
  | pos, vs, .exists vars body => if pos then Replaceable vs vars body else Skolemizable pos (vs ++ vars) body
  | pos, _, e => skolemizes pos e = false
@[grind =] def AllSkolemizable : Bool → List Variable → List Expr → Prop
  | _, _, [] => True
  | pos, vs, t :: ts => Skolemizable pos vs t ∧ AllSkolemizable pos vs ts
end

end Conditions

theorem skolemizesAny_iff {pos : Bool} {ts : List Expr} : skolemizesAny pos ts = false ↔ ∀ t ∈ ts, skolemizes pos t = false := by
  induction ts with
  | nil => simp [skolemizesAny]
  | cons t ts ih => simp [skolemizesAny, ih]

theorem bindersOverList_eq_flatMap (y : Variable) (ts : List Expr) : bindersOverList y ts = ts.flatMap (bindersOver y) := by
  induction ts with
  | nil => rfl
  | cons t ts ih => rw [bindersOverList, ih, List.flatMap_cons]

section Names

theorem numbered_injective (name : String) : Function.Injective fun count : Nat => name ++ "[" ++ toString count ++ "]" := by
  intro i j same
  have digits := (String.append_right_inj _).mp ((String.append_left_inj "]").mp same)
  exact Nat.repr_injective digits

theorem mem_of_numberedFrom_mem {name : String} {usedNames : List String} {fuel count : Nat}
    (h : numberedFrom name usedNames fuel count ∈ usedNames) :
    ∀ i ≤ fuel, name ++ "[" ++ toString (count + i) ++ "]" ∈ usedNames := by
  induction fuel generalizing count with
  | zero =>
    intro i hi
    simpa [Nat.le_zero.mp hi, numberedFrom] using h
  | succ fuel ih =>
    rw [numberedFrom] at h
    split at h
    · rename_i here
      intro i hi
      cases i with
      | zero => exact here
      | succ i =>
        have rest := ih h i (Nat.le_of_succ_le_succ hi)
        rwa [Nat.add_assoc, Nat.add_comm 1] at rest
    · rename_i new
      exact absurd h new

/-- The new name is not used: more numbers than used names are tried. -/
theorem skolemName_not_mem (namePrefix : String) (usedNames : List String) (v : Variable) :
    skolemName namePrefix usedNames v ∉ usedNames := by
  rw [skolemName]
  split
  · intro mem
    have all := mem_of_numberedFrom_mem mem
    have distinct : Function.Injective fun i => baseName namePrefix v ++ "[" ++ toString (1 + i) ++ "]" := fun i j same =>
      Nat.add_left_cancel (numbered_injective _ same)
    obtain ⟨i, hi, new⟩ := exists_unused distinct usedNames
    exact new (all i hi)
  · rename_i new
    exact new

variable {namePrefix : String} {mvs : List Variable}

/-- Each variable of the quantifier gets a new symbol, and the last of a name is the one that is replaced. -/
theorem skolemizeVars_spec (vars : List Variable) (st : SkolemNames) :
    ∃ syms subs usedNames, skolemizeVars namePrefix mvs vars st = (subs, ⟨usedNames, st.skolems ++ syms⟩) ∧ st.usedNames ⊆ usedNames ∧
      (∀ c ∈ syms, c.name ∉ st.usedNames ∧ c.name ∈ usedNames) ∧ (syms.map Const.name).Nodup ∧
        syms.map Const.sort = vars.map (skolemSort mvs) ∧ (∀ q ∈ subs, ∃ p ∈ vars.zip syms, q.2 = skolemTerm p.2 mvs) ∧
          ∀ name, subs.lookup name = none ∧ vars.reverse.find? (·.name = name) = none ∨ ∃ p ∈ vars.zip syms,
            vars.reverse.find? (·.name = name) = some p.1 ∧ subs.lookup name = some (skolemTerm p.2 mvs) := by
  induction vars generalizing st with
  | nil => exact ⟨[], [], st.usedNames, by simp [skolemizeVars], List.Subset.refl _, by simp, by simp, rfl, by simp, fun _ => .inl ⟨rfl, rfl⟩⟩
  | cons v vars ih =>
    obtain ⟨name, hname⟩ : ∃ name, skolemName namePrefix st.usedNames v = name := ⟨_, rfl⟩
    have new : name ∉ st.usedNames := hname ▸ skolemName_not_mem namePrefix st.usedNames v
    obtain ⟨syms, subs, usedNames, eq, sub, fresh, distinct, sorts, terms, lookup⟩ :=
      ih ⟨name :: st.usedNames, st.skolems ++ [⟨name, skolemSort mvs v⟩]⟩
    refine ⟨⟨name, skolemSort mvs v⟩ :: syms, subs ++ [(v.name, skolemTerm ⟨name, skolemSort mvs v⟩ mvs)], usedNames, ?_, ?_, ?_, ?_, ?_, ?_, ?_⟩
    · rw [skolemizeVars, hname]
      simp only [eq, List.append_assoc, List.singleton_append]
    · exact fun x hx => sub (List.mem_cons_of_mem _ hx)
    · rw [List.forall_mem_cons]
      exact ⟨⟨new, sub List.mem_cons_self⟩, fun c hc => ⟨fun mem => (fresh c hc).1 (List.mem_cons_of_mem _ mem), (fresh c hc).2⟩⟩
    · rw [List.map_cons, List.nodup_cons]
      refine ⟨fun mem => ?_, distinct⟩
      obtain ⟨c, hc, same⟩ := List.mem_map.mp mem
      exact (fresh c hc).1 (same ▸ List.mem_cons_self)
    · rw [List.map_cons, List.map_cons, sorts]
    · rw [List.zip_cons_cons, List.forall_mem_append, List.forall_mem_singleton]
      refine ⟨fun q hq => ?_, _, List.mem_cons_self, rfl⟩
      obtain ⟨p, hp, eq⟩ := terms q hq
      exact ⟨p, List.mem_cons_of_mem _ hp, eq⟩
    · intro other
      rw [List.lookup_append, List.reverse_cons, List.find?_append, List.zip_cons_cons]
      rcases lookup other with ⟨none₁, none₂⟩ | ⟨p, hp, found, value⟩
      · rw [none₁, none₂, Option.none_or, Option.none_or, InsMap.lookup_cons, List.find?_singleton]
        by_cases same : v.name = other
        · exact .inr ⟨_, List.mem_cons_self, by simp [same], by simp [same]⟩
        · exact .inl ⟨by simp [Ne.symm same], by simp [same]⟩
      · rw [found, value, Option.some_or, Option.some_or]
        exact .inr ⟨p, List.mem_cons_of_mem _ hp, rfl, rfl⟩

end Names

section Substitution

variable {D : Domain} {M : Structure D} {e : Expr} {ts : List Expr} {subs : List (String × Expr)}

theorem substituteTermsList_eq_map (ts : List Expr) (subs : List (String × Expr)) :
    Expr.substituteTermsList ts subs = ts.map (Expr.substituteTerms · subs) := by
  induction ts with
  | nil => rfl
  | cons t ts ih => rw [Expr.substituteTermsList, ih, List.map_cons]

/-- No quantifier over a free variable that is replaced binds its name or a variable of its term. -/
def Fits (subs : List (String × Expr)) (e : Expr) : Prop :=
  ∀ x ∈ e.freeVariables, ∀ t, subs.lookup x.name = some t → ∀ y ∈ bindersOver x e, y.name ≠ x.name ∧ y ∉ t.freeVariables

theorem Fits.part {a : Expr} (h : Fits subs e) (free : a.freeVariables ⊆ e.freeVariables)
    (binders : ∀ x ∈ a.freeVariables, bindersOver x a ⊆ bindersOver x e) : Fits subs a :=
  fun x hx t found y hy => h x (free hx) t found y (binders x hx hy)

theorem lookup_filter_names (subs : List (String × Expr)) (vs : List Variable) (name : String) :
    (subs.filter (·.1 ∉ vs.map Variable.name)).lookup name = if name ∈ vs.map Variable.name then none else subs.lookup name :=
  InsMap.lookup_filter_notMem _ _ _

/-- `env'` gives the free variables of `e` the values of what they are replaced by. -/
def Replaces (M : Structure D) (subs : List (String × Expr)) (e : Expr) (env env' : Env D) : Prop :=
  ∀ x ∈ e.freeVariables, (⟨x.sort, env' x⟩ : Val D) = ((subs.lookup x.name).getD (.var x)).eval M env

/-- What a quantifier binds stays: the assignments on the two sides go together. -/
theorem Replaces.binder {a : Expr} {vs : List Variable} {env env' : Env D} (h : Replaces M subs (.forAll vs a) env env')
    (fits : Fits subs (.forAll vs a)) {envA envB : Env D} (off : env.Off vs envA) (off' : env'.Off vs envB) (bound : ∀ v ∈ vs, envA v = envB v) :
    Replaces M (subs.filter (·.1 ∉ vs.map Variable.name)) a envA envB := by
  intro x hx
  rw [lookup_filter_names]
  by_cases hv : x ∈ vs
  · rw [if_pos (List.mem_map_of_mem hv), Option.getD_none, Expr.eval, bound x hv]
  · have free : x ∈ (Expr.forAll vs a).freeVariables := List.mem_filter.mpr ⟨hx, by simpa using hv⟩
    have around : vs ⊆ bindersOver x (.forAll vs a) := by
      rw [bindersOver, if_neg (by simp [hv, hx])]
      exact List.subset_append_left _ _
    rw [off' x hv, h x free]
    cases found : subs.lookup x.name with
    | none => simp only [ite_self, Option.getD_none, Expr.eval, off x hv]
    | some t =>
      have clear := fits x free t found
      rw [if_neg fun mem => ?_, Option.getD_some]
      · exact Expr.eval_freeVariables M fun y hy => (off y fun mem => (clear y (around mem)).2 hy).symm
      · obtain ⟨y, hy, same⟩ := List.mem_map.mp mem
        exact (clear y (around hy)).1 same

theorem Fits.binder {a : Expr} {vs : List Variable} (h : Fits subs (.forAll vs a)) : Fits (subs.filter (·.1 ∉ vs.map Variable.name)) a := by
  intro x hx t found y hy
  rw [lookup_filter_names] at found
  split at found
  · contradiction
  · rename_i other
    have hv : x ∉ vs := fun mem => other (List.mem_map_of_mem mem)
    refine h x (List.mem_filter.mpr ⟨hx, by simpa using hv⟩) t found y ?_
    rw [bindersOver, if_neg (by simp [hv, hx])]
    exact List.mem_append_right _ hy

theorem Replaces.part {a : Expr} {env env' : Env D} (h : Replaces M subs e env env') (free : a.freeVariables ⊆ e.freeVariables) :
    Replaces M subs a env env' := fun x hx => h x (free hx)

/-- A quantifier ranges over the same assignments on both sides. -/
theorem Replaces.exists_off_iff {a : Expr} {vs : List Variable} {env env' : Env D} (h : Replaces M subs (.forAll vs a) env env')
    (fits : Fits subs (.forAll vs a)) {P Q : Env D → Prop}
    (same : ∀ envA envB, Replaces M (subs.filter (·.1 ∉ vs.map Variable.name)) a envA envB → (P envA ↔ Q envB)) :
    (∃ envA, env.Off vs envA ∧ P envA) ↔ ∃ envB, env'.Off vs envB ∧ Q envB := by
  constructor
  · rintro ⟨envA, off, hP⟩
    obtain ⟨envB, off', bound⟩ := Env.Instance.exists_off envA env' vs
    exact ⟨envB, off', (same envA envB (h.binder fits off off' bound)).mp hP⟩
  · rintro ⟨envB, off', hQ⟩
    obtain ⟨envA, off, bound⟩ := Env.Instance.exists_off envB env vs
    exact ⟨envA, off, (same envA envB (h.binder fits off off' fun v hv => (bound v hv).symm)).mpr hQ⟩

theorem Replaces.forall_off_iff {a : Expr} {vs : List Variable} {env env' : Env D} (h : Replaces M subs (.forAll vs a) env env')
    (fits : Fits subs (.forAll vs a)) {P Q : Env D → Prop}
    (same : ∀ envA envB, Replaces M (subs.filter (·.1 ∉ vs.map Variable.name)) a envA envB → (P envA ↔ Q envB)) :
    (∀ envA, env.Off vs envA → P envA) ↔ ∀ envB, env'.Off vs envB → Q envB := by
  have dual := h.exists_off_iff fits fun envA envB inner => not_congr (same envA envB inner)
  grind

/-- The body of a quantifier, which stays where nothing is replaced in it. -/
def newBody (a : Expr) (newSubs : List (String × Expr)) : Expr := if newSubs.isEmpty then a else a.substituteTerms newSubs

theorem eval_newBody {a : Expr} (ih : ∀ {subs : List (String × Expr)}, Fits subs a → ∀ {env env' : Env D}, Replaces M subs a env env' →
      (a.substituteTerms subs).eval M env = a.eval M env') (fits : Fits subs a) {env env' : Env D} (h : Replaces M subs a env env') :
    (newBody a subs).eval M env = a.eval M env' := by
  rw [newBody]
  split
  · rename_i none_
    rw [List.isEmpty_iff.mp none_] at h
    exact Expr.eval_freeVariables M fun x hx => (eq_of_heq (Sigma.mk.inj (h x hx)).2).symm
  · exact ih fits h

theorem substituteTerms_forAll (vs : List Variable) (a : Expr) (subs : List (String × Expr)) (env : Env D) :
    ((Expr.forAll vs a).substituteTerms subs).eval M env =
      (Expr.forAll vs (newBody a (subs.filter (·.1 ∉ vs.map Variable.name)))).eval M env := by
  simp only [Expr.substituteTerms, newBody]
  split
  · rfl
  · simp only [Expr.eval, Env.off_deduplicateAndSortVars]

theorem substituteTerms_exists (vs : List Variable) (a : Expr) (subs : List (String × Expr)) (env : Env D) :
    ((Expr.exists vs a).substituteTerms subs).eval M env =
      (Expr.exists vs (newBody a (subs.filter (·.1 ∉ vs.map Variable.name)))).eval M env := by
  simp only [Expr.substituteTerms, newBody]
  split
  · rfl
  · simp only [Expr.eval, Env.off_deduplicateAndSortVars]

theorem eval_substituteTerms (plain : e.descriptionFree = true) (fits : Fits subs e) {env env' : Env D} (h : Replaces M subs e env env') :
    (e.substituteTerms subs).eval M env = e.eval M env' := by
  induction e generalizing subs env env' with
  | var v => exact (h v List.mem_cons_self).symm
  | const c => rfl
  | apply f ts ih | and ts ih | or ts ih =>
    rw [Expr.descriptionFree, Expr.descriptionFreeList_iff] at plain
    have free : ∀ t ∈ ts, t.freeVariables ⊆ Expr.freeVariablesList ts := fun t ht x hx =>
      Expr.freeVariablesList_eq_flatMap ts ▸ List.mem_flatMap.mpr ⟨t, ht, hx⟩
    have binders : ∀ t ∈ ts, ∀ x, bindersOver x t ⊆ bindersOverList x ts := fun t ht x y hy =>
      bindersOverList_eq_flatMap x ts ▸ List.mem_flatMap.mpr ⟨t, ht, hy⟩
    have terms : (Expr.substituteTermsList ts subs).map (fun t => t.eval M env) = ts.map fun t => t.eval M env' := by
      rw [substituteTermsList_eq_map, List.map_map]
      exact List.map_congr_left fun t ht => ih t ht (plain t ht) (fits.part (free t ht) fun x _ => binders t ht x) (h.part (free t ht))
    simp only [Expr.substituteTerms, Expr.eval, evalList_eq_map, terms]
  | not a ha => simp only [Expr.substituteTerms, Expr.eval, ha plain fits h]
  | eq a b ha hb | implies a b ha hb | iff a b ha hb =>
    simp only [Expr.descriptionFree, Bool.and_eq_true] at plain
    have left := List.subset_append_left a.freeVariables b.freeVariables
    have right := List.subset_append_right a.freeVariables b.freeVariables
    simp only [Expr.substituteTerms, Expr.eval, ha plain.1 (fits.part left fun _ _ => List.subset_append_left _ _) (h.part left),
      hb plain.2 (fits.part right fun _ _ => List.subset_append_right _ _) (h.part right)]
  | ite a b c ha hb hc =>
    simp only [Expr.descriptionFree, Bool.and_eq_true] at plain
    have first : a.freeVariables ⊆ (Expr.ite a b c).freeVariables := by simp [Expr.freeVariables]
    have second : b.freeVariables ⊆ (Expr.ite a b c).freeVariables := by simp [Expr.freeVariables]
    have third : c.freeVariables ⊆ (Expr.ite a b c).freeVariables := by simp [Expr.freeVariables]
    simp only [Expr.substituteTerms, Expr.eval, ha plain.1.1 (fits.part first fun _ _ => by simp [bindersOver]) (h.part first),
      hb plain.1.2 (fits.part second fun _ _ => by simp [bindersOver]) (h.part second),
      hc plain.2 (fits.part third fun _ _ => by simp [bindersOver]) (h.part third)]
  | forAll vs a ha =>
    rw [substituteTerms_forAll, Expr.eval, Expr.eval]
    refine congrArg Val.ofProp (propext (h.forall_off_iff fits fun envA envB inner => ?_))
    rw [eval_newBody (ha plain) fits.binder inner]
  | «exists» vs a ha =>
    rw [substituteTerms_exists, Expr.eval, Expr.eval]
    refine congrArg Val.ofProp (propext (Replaces.exists_off_iff (a := a) h fits fun envA envB inner => ?_))
    rw [eval_newBody (ha plain) (Fits.binder fits) inner]
  | some | someElse => simp [Expr.descriptionFree] at plain

/-- The symbols after a substitution are old ones and those of the terms. -/
theorem symbols_substituteTerms {syms : List Const} (terms : ∀ p ∈ subs, ∀ c ∈ p.2.symbols, c ∈ syms) (e : Expr) :
    ∀ c ∈ (e.substituteTerms subs).symbols, c ∈ e.symbols ∨ c ∈ syms := by
  induction e generalizing subs with
  | var v =>
    rw [Expr.substituteTerms]
    cases found : subs.lookup v.name with
    | none => exact fun c hc => .inl hc
    | some t => exact fun c hc => .inr (terms _ (InsMap.mem_of_lookup found) c hc)
  | const c => exact fun c hc => .inl hc
  | apply f ts ih | and ts ih | or ts ih =>
    intro c hc
    simp only [Expr.substituteTerms, Expr.symbols, symbolsList_eq_flatMap, substituteTermsList_eq_map, List.flatMap_map] at hc ⊢
    have part : c ∈ ts.flatMap (fun t => (t.substituteTerms subs).symbols) → c ∈ ts.flatMap Expr.symbols ∨ c ∈ syms := by
      intro mem
      obtain ⟨t, ht, mem⟩ := List.mem_flatMap.mp mem
      exact (ih t ht terms c mem).imp (fun old => List.mem_flatMap.mpr ⟨t, ht, old⟩) id
    first
      | exact part hc
      | exact (List.mem_cons.mp hc).elim (fun head => .inl (head ▸ List.mem_cons_self)) fun tail => (part tail).imp (List.mem_cons_of_mem _) id
  | not a ha => exact ha terms
  | eq a b ha hb | implies a b ha hb | iff a b ha hb =>
    intro c hc
    simp only [Expr.substituteTerms, Expr.symbols, List.mem_append] at hc ⊢
    have left := ha terms c
    have right := hb terms c
    grind
  | ite a b c ha hb hc | someElse vs a b c ha hb hc =>
    intro d hd
    simp only [Expr.substituteTerms, Expr.symbols, List.mem_append] at hd ⊢
    have first := ha terms d
    have second := hb terms d
    have third := hc terms d
    grind
  | forAll vs a ha | «exists» vs a ha =>
    simp only [Expr.substituteTerms]
    split
    · exact fun c hc => .inl hc
    · exact ha fun p hp => terms p (List.mem_filter.mp hp).1
  | some vs a ha => exact ha terms

end Substitution

section Untouched

variable {namePrefix : String} {pos : Bool} {vs : List Variable} {st : SkolemNames}

/-- What is left of an expression in which nothing is skolemized. -/
structure SameMeaning (e e' : Expr) : Prop where
  eval : ∀ {D : Domain} (M : Structure D) (env : Env D), e'.eval M env = e.eval M env
  symbols : e'.symbols = e.symbols

theorem skolemizeAsts_untouched {ts : List Expr} (h : ∀ t ∈ ts, skolemizes pos t = false)
    (ih : ∀ t ∈ ts, skolemizes pos t = false → ∃ t', skolemizeAst namePrefix pos vs t st = (t', st) ∧ SameMeaning t t') :
    ∃ ts', skolemizeAsts namePrefix pos vs ts st = (ts', st) ∧ (∀ {D : Domain} (M : Structure D) (env : Env D), evalList M ts' env = evalList M ts env) ∧
      symbolsList ts' = symbolsList ts := by
  induction ts with
  | nil => exact ⟨[], rfl, fun _ _ => rfl, rfl⟩
  | cons t ts tail =>
    rw [List.forall_mem_cons] at h ih
    obtain ⟨t', eq, same⟩ := ih.1 h.1
    obtain ⟨ts', eq', same', symbols⟩ := tail h.2 ih.2
    refine ⟨t' :: ts', ?_, fun M env => ?_, ?_⟩
    · simp only [skolemizeAsts, eq, eq']
    · rw [evalList, evalList, same.eval, same']
    · rw [symbolsList, symbolsList, same.symbols, symbols]

theorem skolemizeAst_untouched {e : Expr} (plain : e.descriptionFree = true) (h : skolemizes pos e = false) :
    ∃ e', skolemizeAst namePrefix pos vs e st = (e', st) ∧ SameMeaning e e' := by
  induction e generalizing pos vs with
  | var v => exact ⟨.var v, rfl, fun _ _ => rfl, rfl⟩
  | const c => exact ⟨.const c, rfl, fun _ _ => rfl, rfl⟩
  | apply f ts ih | and ts ih | or ts ih =>
    rw [skolemizes, skolemizesAny_iff] at h
    rw [Expr.descriptionFree, Expr.descriptionFreeList_iff] at plain
    obtain ⟨ts', eq, same, symbols⟩ := @skolemizeAsts_untouched namePrefix pos vs st ts h fun t ht untouched => ih t ht (plain t ht) untouched
    refine ⟨_, by simp only [skolemizeAst, eq]; rfl, ?_, ?_⟩
    · intro D M env
      simp only [Expr.eval, same]
    · simp only [Expr.symbols, symbols]
  | not a ha =>
    rw [skolemizes] at h
    obtain ⟨a', eq, same⟩ := @ha _ vs plain h
    refine ⟨.not a', by simp only [skolemizeAst, eq], fun M env => ?_, same.symbols⟩
    simp only [Expr.eval, same.eval]
  | eq a b ha hb | implies a b ha hb | iff a b ha hb =>
    simp only [skolemizes, Bool.or_eq_false_iff] at h
    simp only [Expr.descriptionFree, Bool.and_eq_true] at plain
    obtain ⟨a', eq, left⟩ := @ha _ vs plain.1 h.1
    obtain ⟨b', eq', right⟩ := @hb _ vs plain.2 h.2
    refine ⟨_, by simp only [skolemizeAst, eq, eq']; rfl, ?_, ?_⟩
    · intro D M env
      simp only [Expr.eval, left.eval, right.eval]
    · simp only [Expr.symbols, left.symbols, right.symbols]
  | ite a b c ha hb hc =>
    simp only [skolemizes, Bool.or_eq_false_iff] at h
    simp only [Expr.descriptionFree, Bool.and_eq_true] at plain
    obtain ⟨a', eq₁, first⟩ := @ha _ vs plain.1.1 h.1.1
    obtain ⟨b', eq₂, second⟩ := @hb _ vs plain.1.2 h.1.2
    obtain ⟨c', eq₃, third⟩ := @hc _ vs plain.2 h.2
    refine ⟨_, by simp only [skolemizeAst, eq₁, eq₂, eq₃]; rfl, ?_, ?_⟩
    · intro D M env
      simp only [Expr.eval, first.eval, second.eval, third.eval]
    · simp only [Expr.symbols, first.symbols, second.symbols, third.symbols]
  | forAll us a ha | «exists» us a ha =>
    simp only [skolemizes, Bool.or_eq_false_iff, Bool.not_eq_false'] at h
    obtain ⟨rfl, untouched⟩ := h
    obtain ⟨a', eq, same⟩ := @ha _ (vs ++ us) plain untouched
    first
      | refine ⟨.forAll (deduplicateAndSortVars us) a', by rw [skolemizeAst, if_pos rfl, eq], fun M env => ?_, same.symbols⟩
        simp only [Expr.eval, Env.off_deduplicateAndSortVars, same.eval]
      | refine ⟨.exists (deduplicateAndSortVars us) a', by rw [skolemizeAst, if_neg Bool.false_ne_true, eq], fun M env => ?_, same.symbols⟩
        simp only [Expr.eval, Env.off_deduplicateAndSortVars, same.eval]
  | some | someElse => simp [Expr.descriptionFree] at plain

end Untouched

/-- What `SkolemizeAst` has made of some formulas, each in its position, between two states: `syms` are the new symbols. The new
formulas are as strong as the old ones, and no stronger than an expansion makes them. -/
structure Skolemized (st : SkolemNames) (items : List (Bool × Expr × Expr)) (syms : List Const) (st' : SkolemNames) : Prop where
  used : st.usedNames ⊆ st'.usedNames
  skolems : st'.skolems = st.skolems ++ syms
  fresh : ∀ c ∈ syms, c.name ∉ st.usedNames ∧ c.name ∈ st'.usedNames
  symbols : ∀ i ∈ items, ∀ c ∈ i.2.2.symbols, c ∈ i.2.1.symbols ∨ c ∈ syms
  sound : ∀ {D : Domain} (M : Structure D) (env : Env D), ∀ i ∈ items, Improves i.1 (i.2.1.Holds M env) (i.2.2.Holds M env)
  complete : ∀ {D : Domain} (M : Structure D), ∃ M', AgreeOff (· ∈ syms) M M' ∧
    ∀ env, ∀ i ∈ items, Improves (!i.1) (i.2.1.Holds M env) (i.2.2.Holds M' env)

namespace Skolemized

variable {st st' st'' : SkolemNames} {items items' : List (Bool × Expr × Expr)} {syms syms' : List Const} {e e' : Expr}

theorem nil (st : SkolemNames) : Skolemized st [] [] st :=
  ⟨List.Subset.refl _, (List.append_nil _).symm, by simp, by simp, by simp, fun M => ⟨M, .refl _ M, by simp⟩⟩

/-- A formula in which nothing is skolemized, at any positions. -/
theorem untouched (st : SkolemNames) (same : SameMeaning e e') (positions : List Bool) :
    Skolemized st (positions.map fun pos => (pos, e, e')) [] st := by
  have improves {D : Domain} (M : Structure D) (env : Env D) (b : Bool) : Improves b (e.Holds M env) (e'.Holds M env) := by
    rw [Expr.Holds, Expr.Holds, same.eval]
    exact .refl b _
  refine ⟨List.Subset.refl _, (List.append_nil _).symm, by simp, ?_, fun M env => ?_, fun M => ⟨M, .refl _ M, fun env => ?_⟩⟩
  · exact List.forall_mem_map.mpr fun _ _ c hc => .inl (same.symbols ▸ hc)
  · exact List.forall_mem_map.mpr fun _ _ => improves M env _
  · exact List.forall_mem_map.mpr fun _ _ => improves M env _

/-- The formulas one after the other: later symbols are unknown to earlier formulas, and earlier symbols to later ones. -/
theorem append (h : Skolemized st items syms st') (h' : Skolemized st' items' syms' st'')
    (known : ∀ i ∈ items ++ items', ∀ c ∈ i.2.1.symbols, c.name ∈ st.usedNames) :
    Skolemized st (items ++ items') (syms ++ syms') st'' := by
  rw [List.forall_mem_append] at known
  refine ⟨List.Subset.trans h.used h'.used, by rw [h'.skolems, h.skolems, List.append_assoc], ?_, ?_, ?_, ?_⟩
  · refine List.forall_mem_append.mpr ⟨fun c hc => ⟨(h.fresh c hc).1, h'.used (h.fresh c hc).2⟩, fun c hc => ?_⟩
    exact ⟨fun mem => (h'.fresh c hc).1 (h.used mem), (h'.fresh c hc).2⟩
  · refine List.forall_mem_append.mpr ⟨fun i hi c hc => ?_, fun i hi c hc => ?_⟩
    · exact (h.symbols i hi c hc).imp id (List.mem_append_left _)
    · exact (h'.symbols i hi c hc).imp id (List.mem_append_right _)
  · exact fun M env => List.forall_mem_append.mpr ⟨h.sound M env, h'.sound M env⟩
  · intro D M
    obtain ⟨M₁, agree₁, complete₁⟩ := h.complete M
    obtain ⟨M₂, agree₂, complete₂⟩ := h'.complete M₁
    refine ⟨M₂, fun c hc => ?_, fun env => List.forall_mem_append.mpr ⟨fun i hi => ?_, fun i hi => ?_⟩⟩
    · exact (agree₁ c fun mem => hc (List.mem_append_left _ mem)).trans (agree₂ c fun mem => hc (List.mem_append_right _ mem))
    · have same : i.2.2.eval M₁ = i.2.2.eval M₂ := Expr.eval_congr fun c hc => agree₂ c fun mem => (h'.fresh c mem).1 <|
        (h.symbols i hi c hc).elim (fun old => h.used (known.1 i hi c old)) fun new => (h.fresh c new).2
      rw [Expr.Holds, Expr.Holds, ← same]
      exact complete₁ env i hi
    · have same : i.2.1.eval M = i.2.1.eval M₁ := Expr.eval_congr fun c hc => agree₁ c fun mem => (h.fresh c mem).1 (known.2 i hi c hc)
      rw [Expr.Holds, same]
      exact complete₂ env i hi

/-- A connective or a quantifier over the formulas: it does in a position, turned or not, what the parts do in theirs. -/
theorem wrap (h : Skolemized st items syms st') {pos : Bool} (symbols : ∀ c ∈ e'.symbols, ∃ i ∈ items, c ∈ i.2.2.symbols)
    (symbols' : ∀ i ∈ items, i.2.1.symbols ⊆ e.symbols)
    (truth : ∀ (turn : Bool) {D : Domain} (M M' : Structure D),
      (∀ env, ∀ i ∈ items, Improves (turn ^^ i.1) (i.2.1.Holds M env) (i.2.2.Holds M' env)) →
        ∀ env, Improves (turn ^^ pos) (e.Holds M env) (e'.Holds M' env)) : Skolemized st [(pos, e, e')] syms st' := by
  refine ⟨h.used, h.skolems, h.fresh, ?_, fun M env => ?_, fun M => ?_⟩
  · refine List.forall_mem_singleton.mpr fun c hc => ?_
    obtain ⟨i, hi, mem⟩ := symbols c hc
    exact (h.symbols i hi c mem).imp (symbols' i hi ·) id
  · have parts := truth false M M
    simp only [Bool.false_xor] at parts
    exact List.forall_mem_singleton.mpr (parts (fun env => h.sound M env) env)
  · obtain ⟨M', agree, complete⟩ := h.complete M
    have parts := truth true M M'
    simp only [Bool.true_xor] at parts
    exact ⟨M', agree, fun env => List.forall_mem_singleton.mpr (parts complete env)⟩

end Skolemized

section Run

variable {namePrefix : String} {pos : Bool} {vs vars : List Variable} {a : Expr} {st : SkolemNames} {subs : List (String × Expr)}

/-- A variable that is replaced in the body is the one that its Skolem symbol is for. -/
theorem replaced_of_lookup {mvs : List Variable} {syms : List Const} (able : Replaceable vs vars a)
    (lookup : ∀ name, subs.lookup name = none ∧ vars.reverse.find? (·.name = name) = none ∨ ∃ p ∈ vars.zip syms,
      vars.reverse.find? (·.name = name) = some p.1 ∧ subs.lookup name = some (skolemTerm p.2 mvs))
    {x : Variable} (hx : x ∈ a.freeVariables) :
    subs.lookup x.name = none ∧ x ∉ vars ∨ ∃ p ∈ vars.zip syms, p.1 = x ∧ subs.lookup x.name = some (skolemTerm p.2 mvs) := by
  rcases lookup x.name with ⟨absent, none_⟩ | ⟨p, hp, found, value⟩
  · refine .inl ⟨absent, fun mem => ?_⟩
    simpa using List.find?_eq_none.mp none_ x (List.mem_reverse.mpr mem)
  · exact .inr ⟨p, hp, able.named x hx p.1 found, value⟩

/-- A quantifier that is skolemized. -/
theorem skolemizeQuantifier_run (sort : a.OfSort .boolean) (scope : ∀ x ∈ a.freeVariables, x ∉ vars → x ∈ vs)
    (known : ∀ c ∈ a.symbols, c.name ∈ st.usedNames) (able : Replaceable vs vars a) :
    ∃ e' st' syms, skolemizeQuantifier namePrefix vs vars a st = (e', st') ∧
      Skolemized st [(pos, quantifierAt (!pos) false vars a, e')] syms st' := by
  classical
  obtain ⟨mvs, hmvs⟩ : ∃ mvs, vs.filter (· ∈ a.allVariables) = mvs := ⟨_, rfl⟩
  have outer : ∀ x, x ∈ mvs ↔ x ∈ vs ∧ x ∈ a.allVariables := fun x => by simp [← hmvs]
  obtain ⟨syms, subs, usedNames, eq, used, fresh, distinct, sorts, terms, lookup⟩ := @skolemizeVars_spec namePrefix mvs vars st
  have sortOf : ∀ p ∈ vars.zip syms, p.2.sort = skolemSort mvs p.1 := by
    have pairs : List.Forall₂ (fun s t => s = t) (vars.map (skolemSort mvs)) (syms.map Const.sort) := by
      rw [sorts, List.forall₂_same]
      exact fun _ _ => rfl
    rw [List.forall₂_map_left_iff, List.forall₂_map_right_iff] at pairs
    exact fun p hp => (List.forall₂_zip pairs hp).symm
  have replaced {x : Variable} (hx : x ∈ a.freeVariables) := replaced_of_lookup able lookup hx
  have fits : Fits subs a := by
    intro x hx t found y hy
    rcases replaced hx with ⟨absent, -⟩ | ⟨p, hp, rfl, value⟩
    · rw [absent] at found
      contradiction
    · obtain rfl := Option.some.inj (value.symm.trans found)
      obtain ⟨name, free⟩ := able.clear p.1 (List.of_mem_zip hp).1 y hy
      exact ⟨name, fun mem => free ((outer y).mp ((skolemTerm_spec (sortOf p hp)).vars y mem)).1⟩
  have value {D : Domain} (N : Structure D) (env env' : Env D) (off : ∀ x, x ∉ vars → env' x = env x)
      (values : ∀ x ∈ a.freeVariables, ∀ p ∈ vars.zip syms, p.1 = x → subs.lookup x.name = some (skolemTerm p.2 mvs) →
        (skolemTerm p.2 mvs).eval N env = ⟨x.sort, env' x⟩) : (newBody a subs).eval N env = a.eval N env' := by
    refine eval_newBody (fun fits _ _ h => eval_substituteTerms sort.descriptionFree fits h) fits fun x hx => ?_
    rcases replaced hx with ⟨absent, out⟩ | ⟨p, hp, same, found⟩
    · rw [absent, off x out]
      rfl
    · rw [found, Option.getD_some, values x hx p hp same found]
  refine ⟨newBody a subs, ⟨usedNames, st.skolems ++ syms⟩, syms, ?_, used, rfl, fresh, ?_, ?_, ?_⟩
  · simp only [skolemizeQuantifier, hmvs, eq, newBody]
  · refine List.forall_mem_singleton.mpr fun c hc => ?_
    have here : (quantifierAt (!pos) false vars a).symbols = a.symbols := by cases pos <;> rfl
    rw [here]
    rw [newBody] at hc
    split at hc
    · exact .inl hc
    · refine symbols_substituteTerms (fun q hq c hc => ?_) a c hc
      obtain ⟨p, hp, eq⟩ := terms q hq
      rw [eq] at hc
      exact (skolemTerm_spec (sortOf p hp)).symbols c hc ▸ (List.of_mem_zip hp).2
  · -- the Skolem terms are witnesses
    intro D M env
    have values (x : Variable) : ∃ y : El D x.sort, (x ∉ vars → y = env x) ∧ ∀ p ∈ vars.zip syms, p.1 = x →
        subs.lookup x.name = some (skolemTerm p.2 mvs) → (skolemTerm p.2 mvs).eval M env = ⟨x.sort, y⟩ := by
      by_cases h : ∃ p ∈ vars.zip syms, p.1 = x ∧ subs.lookup x.name = some (skolemTerm p.2 mvs)
      · obtain ⟨p, hp, rfl, found⟩ := h
        obtain ⟨y, hy⟩ := (skolemTerm_spec (sortOf p hp)).sort.exists_value M env
        refine ⟨y, fun out => absurd (List.of_mem_zip hp).1 out, fun q _ _ other => ?_⟩
        rw [← Option.some.inj (found.symm.trans other), hy]
      · exact ⟨env x, fun _ => rfl, fun p hp same found => absurd ⟨p, hp, same, found⟩ h⟩
    choose env' off values using values
    have holds := (value M env env' off fun x _ p hp => values x p hp)
    refine List.forall_mem_singleton.mpr ?_
    rw [Expr.Holds, Expr.Holds, holds]
    cases pos with
    | true => exact fun witness => (Expr.holds_exists M env vars a).mpr ⟨env', off, witness⟩
    | false => exact fun all => (Expr.holds_forAll M env vars a).mp all env' off
  · -- the Skolem symbols choose witnesses where there are some
    intro D M
    let env₀ : Env D := Classical.arbitrary _
    obtain ⟨M', w, agree, -, choice, chosen⟩ := exists_skolem M env₀ distinct sorts fun env => (a.Holds M env ↔ pos = true)
    refine ⟨M', agree, fun env => List.forall_mem_singleton.mpr ?_⟩
    let env' : Env D := fun x => if x ∈ vars then w env x else env x
    have off : env.Off vars env' := fun x out => if_neg out
    have same : a.eval M' = a.eval M := (Expr.eval_congr fun c hc => agree c fun mem => (fresh c mem).1 (known c hc)).symm
    have holds : (newBody a subs).Holds M' env ↔ a.Holds M env' := by
      rw [Expr.Holds, value M' env env' off fun x _ p hp px _ => ?_, same, Expr.Holds]
      subst px
      rw [choice p hp env]
      exact congrArg (Sigma.mk p.1.sort) (if_pos (List.of_mem_zip hp).1).symm
    have good := good_choice (a := a) (fun env env' agree holds => by rwa [Expr.Holds, ← Expr.eval_freeVariables M agree]) (chosen env)
      (fun x hx out => .inl ((outer x).mpr ⟨scope x hx out, Expr.freeVariables_subset_allVariables a hx⟩)) off fun v hv _ => if_pos hv
    cases pos with
    | true =>
      intro some_
      obtain ⟨env₁, off₁, witness⟩ := (Expr.holds_exists M env vars a).mp some_
      exact holds.mpr (by simpa using good ⟨env₁, off₁, by simpa using witness⟩)
    | false =>
      intro out
      refine (Expr.holds_forAll M env vars a).mpr fun env₁ off₁ => ?_
      by_contra fails
      exact absurd (holds.mp out) (by simpa using good ⟨env₁, off₁, by simpa using fails⟩)

/-- The terms of a conjunction or a disjunction in turn. -/
theorem skolemizeAsts_run {ts : List Expr} (known : ∀ t ∈ ts, ∀ c ∈ t.symbols, c.name ∈ st.usedNames)
    (ih : ∀ t ∈ ts, ∀ st : SkolemNames, (∀ c ∈ t.symbols, c.name ∈ st.usedNames) →
      ∃ t' st' syms, skolemizeAst namePrefix pos vs t st = (t', st') ∧ Skolemized st [(pos, t, t')] syms st') :
    ∃ (items : List (Bool × Expr × Expr)) (st' : SkolemNames) (syms : List Const),
      skolemizeAsts namePrefix pos vs ts st = (items.map (·.2.2), st') ∧ items.map (·.2.1) = ts ∧ (∀ i ∈ items, i.1 = pos) ∧
        Skolemized st items syms st' := by
  induction ts generalizing st with
  | nil => exact ⟨[], st, [], rfl, rfl, by simp, .nil st⟩
  | cons t ts tail =>
    rw [List.forall_mem_cons] at known ih
    obtain ⟨t', st₁, syms, eq, head⟩ := ih.1 st known.1
    obtain ⟨items, st₂, syms', eq', terms, same, later⟩ := @tail st₁ (fun u hu c hc => head.used (known.2 u hu c hc)) ih.2
    refine ⟨(pos, t, t') :: items, st₂, syms ++ syms', ?_, ?_, ?_, head.append later ?_⟩
    · simp only [skolemizeAsts, eq, eq', List.map_cons]
    · rw [List.map_cons, terms]
    · exact List.forall_mem_cons.mpr ⟨rfl, same⟩
    · rw [List.forall_mem_append, List.forall_mem_singleton]
      refine ⟨known.1, fun i hi => known.2 i.2.1 ?_⟩
      exact terms ▸ List.mem_map_of_mem hi

/-- A formula in which nothing is skolemized. -/
theorem untouched_run {e : Expr} (sort : e.OfSort .boolean) (h : skolemizes pos e = false) :
    ∃ e' st' syms, skolemizeAst namePrefix pos vs e st = (e', st') ∧ Skolemized st [(pos, e, e')] syms st' := by
  obtain ⟨e', eq, same⟩ := @skolemizeAst_untouched namePrefix pos vs st e sort.descriptionFree h
  exact ⟨e', st, [], eq, .untouched st same [pos]⟩

theorem allSkolemizable_iff {ts : List Expr} : AllSkolemizable pos vs ts ↔ ∀ t ∈ ts, Skolemizable pos vs t := by
  induction ts with
  | nil => simp [AllSkolemizable]
  | cons t ts ih => rw [AllSkolemizable, ih, List.forall_mem_cons]

/-- The walk, from any state in which the symbols of the formula are used names. -/
theorem skolemizeAst_run {e : Expr} (sort : e.OfSort .boolean) (scope : e.freeVariables ⊆ vs)
    (known : ∀ c ∈ e.symbols, c.name ∈ st.usedNames) (able : Skolemizable pos vs e) :
    ∃ e' st' syms, skolemizeAst namePrefix pos vs e st = (e', st') ∧ Skolemized st [(pos, e, e')] syms st' := by
  induction e generalizing pos vs st with
  | var | const | apply | eq | iff => exact untouched_run sort able
  | not a ha =>
    obtain ⟨a', st', syms, eq, inner⟩ := ha sort.2 scope known able
    refine ⟨.not a', st', syms, by simp only [skolemizeAst, eq], inner.wrap ?_ ?_ fun turn D M M' parts env => ?_⟩
    · exact fun c hc => ⟨_, List.mem_cons_self, hc⟩
    · exact List.forall_mem_singleton.mpr (List.Subset.refl _)
    · have part := parts env _ List.mem_cons_self
      rw [Bool.xor_not] at part
      rw [Expr.holds_not, Expr.holds_not]
      exact part.negate
  | implies a b ha hb =>
    have known : (∀ c ∈ a.symbols, c.name ∈ st.usedNames) ∧ ∀ c ∈ b.symbols, c.name ∈ st.usedNames := List.forall_mem_append.mp known
    obtain ⟨a', st₁, syms, eq, left⟩ := ha sort.2.1 (fun x hx => scope (List.mem_append_left _ hx)) known.1 able.1
    obtain ⟨b', st₂, syms', eq', right⟩ := @hb _ vs st₁ sort.2.2 (fun x hx => scope (List.mem_append_right _ hx))
      (fun c hc => left.used (known.2 c hc)) able.2
    have both := left.append right (by simpa using known)
    refine ⟨.implies a' b', st₂, _, by simp only [skolemizeAst, eq, eq'], both.wrap ?_ ?_ fun turn D M M' parts env => ?_⟩
    · intro c hc
      simpa [Expr.symbols] using hc
    · simp [Expr.symbols]
    · have first := parts env (!pos, a, a') (by simp)
      rw [Bool.xor_not] at first
      rw [Expr.holds_implies, Expr.holds_implies]
      exact first.arrow (parts env (pos, b, b') (by simp))
  | and ts ih | or ts ih =>
    have each : ∀ t ∈ ts, ∀ st : SkolemNames, (∀ c ∈ t.symbols, c.name ∈ st.usedNames) →
        ∃ t' st' syms, skolemizeAst namePrefix pos vs t st = (t', st') ∧ Skolemized st [(pos, t, t')] syms st' := by
      intro t ht st known
      refine ih t ht (ofSorts_map.mp sort.2 t ht) (fun x hx => scope ?_) known (allSkolemizable_iff.mp able t ht)
      rw [Expr.freeVariables, Expr.freeVariablesList_eq_flatMap]
      exact List.mem_flatMap.mpr ⟨t, ht, hx⟩
    have known : ∀ t ∈ ts, ∀ c ∈ t.symbols, c.name ∈ st.usedNames := by
      intro t ht c hc
      refine known c ?_
      rw [Expr.symbols, symbolsList_eq_flatMap]
      exact List.mem_flatMap.mpr ⟨t, ht, hc⟩
    obtain ⟨items, st', syms, eq, rfl, same, inner⟩ := skolemizeAsts_run known each
    refine ⟨_, st', syms, by simp only [skolemizeAst, eq]; rfl, inner.wrap ?_ ?_ ?_⟩
    · intro c hc
      rw [Expr.symbols, symbolsList_eq_flatMap, List.flatMap_map] at hc
      exact List.mem_flatMap.mp hc
    · intro i hi c hc
      rw [Expr.symbols, symbolsList_eq_flatMap]
      exact List.mem_flatMap.mpr ⟨i.2.1, List.mem_map_of_mem hi, hc⟩
    · intro turn D M M' parts env
      have each : ∀ i ∈ items, Improves (turn ^^ pos) (i.2.1.Holds M env) (i.2.2.Holds M' env) :=
        fun i hi => same i hi ▸ parts env i hi
      first
        | rw [Expr.holds_and, Expr.holds_and, List.forall_mem_map, List.forall_mem_map]
          exact .all fun i => .under (each i)
        | simp only [Expr.holds_or, List.mem_map, exists_exists_and_eq_and]
          exact .any fun i => .guarded (each i)
  | ite c a b hc ha hb =>
    have known : (∀ d ∈ c.symbols, d.name ∈ st.usedNames) ∧ (∀ d ∈ a.symbols, d.name ∈ st.usedNames) ∧ ∀ d ∈ b.symbols, d.name ∈ st.usedNames := by
      rw [Expr.symbols, List.forall_mem_append, List.forall_mem_append] at known
      exact and_assoc.mp known
    rw [Expr.freeVariables] at scope
    obtain ⟨c', eq, same⟩ := @skolemizeAst_untouched namePrefix pos vs st c sort.1.descriptionFree able.1
    obtain ⟨a', st₁, syms, eq₁, left⟩ := @ha pos vs st sort.2.1 (fun x hx => scope (by simp [hx])) known.2.1 able.2.1
    obtain ⟨b', st₂, syms', eq₂, right⟩ := @hb pos vs st₁ sort.2.2 (fun x hx => scope (by simp [hx]))
      (fun d hd => left.used (known.2.2 d hd)) able.2.2
    have all := ((Skolemized.untouched st same [true, false]).append left (by simpa using And.intro known.1 known.2.1)).append right (by simpa using known)
    refine ⟨.ite c' a' b', st₂, _, by simp only [skolemizeAst, eq, eq₁, eq₂], all.wrap ?_ ?_ fun turn D M M' parts env => ?_⟩
    · intro d hd
      simpa [Expr.symbols, or_assoc] using hd
    · simp [Expr.symbols]
    · have same : c.Holds M env ↔ c'.Holds M' env := by
        have one := parts env (true, c, c') (by simp)
        have other := parts env (false, c, c') (by simp)
        cases turn with
        | true => exact ⟨one, other⟩
        | false => exact ⟨other, one⟩
      have first := parts env (pos, a, a') (by simp)
      have second := parts env (pos, b, b') (by simp)
      by_cases h : c.Holds M env
      · rw [Expr.Holds, Expr.Holds, Expr.eval_ite_pos M env a b h, Expr.eval_ite_pos M' env a' b' (same.mp h)]
        exact first
      · rw [Expr.Holds, Expr.Holds, Expr.eval_ite_neg M env a b h, Expr.eval_ite_neg M' env a' b' (mt same.mpr h)]
        exact second
  | forAll us a ha =>
    have inside : ∀ x ∈ a.freeVariables, x ∉ us → x ∈ vs := fun x hx out => scope (List.mem_filter.mpr ⟨hx, by simpa using out⟩)
    cases pos with
    | true =>
      obtain ⟨a', st', syms, eq, inner⟩ := @ha true (vs ++ us) st sort.2
        (fun x hx => List.mem_append.mpr (or_iff_not_imp_right.mpr (inside x hx))) known able
      refine ⟨.forAll (deduplicateAndSortVars us) a', st', syms, by rw [skolemizeAst, if_pos rfl, eq], inner.wrap ?_ ?_ fun turn D M M' parts env => ?_⟩
      · exact fun c hc => ⟨_, List.mem_cons_self, hc⟩
      · exact List.forall_mem_singleton.mpr (List.Subset.refl _)
      · rw [Expr.holds_forAll, Expr.holds_forAll]
        simp only [Env.off_deduplicateAndSortVars]
        exact .all fun env' => .under fun _ => parts env' _ List.mem_cons_self
    | false =>
      obtain ⟨e', st', syms, eq, done⟩ := @skolemizeQuantifier_run namePrefix false vs us a st sort.2 inside known able
      exact ⟨e', st', syms, by rw [skolemizeAst, if_neg Bool.false_ne_true, eq], done⟩
  | «exists» us a ha =>
    have inside : ∀ x ∈ a.freeVariables, x ∉ us → x ∈ vs := fun x hx out => scope (List.mem_filter.mpr ⟨hx, by simpa using out⟩)
    cases pos with
    | true =>
      obtain ⟨e', st', syms, eq, done⟩ := @skolemizeQuantifier_run namePrefix true vs us a st sort.2 inside known able
      exact ⟨e', st', syms, by rw [skolemizeAst, if_pos rfl, eq], done⟩
    | false =>
      obtain ⟨a', st', syms, eq, inner⟩ := @ha false (vs ++ us) st sort.2
        (fun x hx => List.mem_append.mpr (or_iff_not_imp_right.mpr (inside x hx))) known able
      refine ⟨.exists (deduplicateAndSortVars us) a', st', syms, by rw [skolemizeAst, if_neg Bool.false_ne_true, eq],
        inner.wrap ?_ ?_ fun turn D M M' parts env => ?_⟩
      · exact fun c hc => ⟨_, List.mem_cons_self, hc⟩
      · exact List.forall_mem_singleton.mpr (List.Subset.refl _)
      · rw [Expr.holds_exists, Expr.holds_exists]
        simp only [Env.off_deduplicateAndSortVars]
        exact .any fun env' => .guarded fun _ => parts env' _ List.mem_cons_self
  | some | someElse => exact sort.elim

/-- Skolemization keeps satisfiability in a positive position, and validity in a negative one, where quantifiers are skolemized at
positions of one polarity only and where the replacement by name is a substitution. -/
theorem skolemizeAst_spec {f : Expr} (sort : f.OfSort .boolean) (scope : f.freeVariables ⊆ vs) (known : ∀ c ∈ f.symbols, c.name ∈ st.usedNames)
    (able : Skolemizable pos vs f) :
    ∃ g st' syms, skolemizeAst namePrefix pos vs f st = (g, st') ∧ st'.skolems = st.skolems ++ syms ∧ (∀ c ∈ syms, c.name ∉ st.usedNames) ∧
      ∀ (D : Domain) (M : Structure D),
        (pos = true → (f.Valid M ↔ ∃ N, AgreeOff (· ∈ syms) M N ∧ g.Valid N)) ∧
          (pos = false → (f.Valid M ↔ ∀ N, AgreeOff (· ∈ syms) M N → g.Valid N)) := by
  obtain ⟨g, st', syms, eq, done⟩ := @skolemizeAst_run namePrefix pos vs st f sort scope known able
  refine ⟨g, st', syms, eq, done.skolems, fun c hc => (done.fresh c hc).1, fun D M => ?_⟩
  have same {N : Structure D} (agree : AgreeOff (· ∈ syms) M N) : f.Valid M ↔ f.Valid N :=
    Clauses.valid_congr fun c hc => agree c fun mem => (done.fresh c mem).1 (known c hc)
  obtain ⟨M', agree, complete⟩ := done.complete M
  have sound (N : Structure D) (env : Env D) := done.sound N env _ List.mem_cons_self
  have complete (env : Env D) := complete env _ List.mem_cons_self
  constructor
  · rintro rfl
    exact ⟨fun valid => ⟨M', agree, fun env => complete env (valid env)⟩,
      fun ⟨N, agree, valid⟩ => (same agree).mpr fun env => sound N env (valid env)⟩
  · rintro rfl
    exact ⟨fun valid N agree env => sound N env ((same agree).mp valid env), fun valid env => complete env (valid M' agree env)⟩

end Run

section Examples

def skolemX : Variable := ⟨"X", .uninterpreted "s"⟩
def skolemY : Variable := ⟨"Y", .uninterpreted "s"⟩

/-- Below a universal quantifier that stays, the existential variable becomes a function. -/
theorem skolemizeAst_spec_nested :
    let r : Const := ⟨"r", .function [.uninterpreted "s", .uninterpreted "s"] .boolean⟩
    let f : Expr := .forAll [skolemX] (.exists [skolemY] (.apply r [.var skolemX, .var skolemY]))
    ∃ g st' syms, skolemizeAst "" true [] f ⟨["r"], []⟩ = (g, st') ∧ st'.skolems = [] ++ syms ∧ (∀ c ∈ syms, c.name ∉ ["r"]) ∧
      ∀ (D : Domain) (M : Structure D), (true = true → (f.Valid M ↔ ∃ N, AgreeOff (· ∈ syms) M N ∧ g.Valid N)) ∧
        (true = false → (f.Valid M ↔ ∀ N, AgreeOff (· ∈ syms) M N → g.Valid N)) := by
  intro r f
  refine @skolemizeAst_spec "" true [] ⟨["r"], []⟩ f ?_ (by decide) (by decide) ⟨?_, ?_⟩
  · simp [f, r, Expr.OfSort, OfSorts, skolemX, skolemY]
  · decide
  · decide

/-- Below an equivalence both sides count as positive. -/
theorem skolemizeAst_spec_fails : ¬ ∀ (f : Expr) (usedNames : List String), f.OfSort .boolean → f.freeVariables = [] →
    (∀ c ∈ f.symbols, c.name ∈ usedNames) → ∀ (D : Domain) (M : Structure D), (skolemizeAst "" true [] f ⟨usedNames, []⟩).1.Valid M → f.Valid M := by
  intro sound
  let c : Const := ⟨"c", .first (.uninterpreted "s")⟩
  let sk : Const := ⟨"@X", .first (.uninterpreted "s")⟩
  let f : Expr := .iff (.exists [skolemX] (.eq (.var skolemX) (.const c))) .fls
  let M : Structure Domain.two := fun n s _ => .two (decide (n = "@X")) s.range
  have valid := sound f ["c"] (by simp [f, c, Expr.OfSort, skolemX, Expr.fls, OfSorts]) (by decide) (by decide) Domain.two M
  rw [show (skolemizeAst "" true [] f ⟨["c"], []⟩).1 = .iff (.eq (.const sk) (.const c)) .fls by decide] at valid
  have apart (env : Env Domain.two) : (Expr.const sk).eval M env ≠ (Expr.const c).eval M env := by
    rw [Expr.eval, Expr.eval, Structure.value_eq M (by rfl), Structure.value_eq M (by rfl)]
    exact fun same => Bool.noConfusion (eq_of_heq (Sigma.mk.inj same).2)
  have holds := valid (fun env => by simp [apart env]) fun v => .two false v.sort
  have witness : (Expr.exists [skolemX] (.eq (.var skolemX) (.const c))).Holds M fun v => .two false v.sort := by
    refine (Expr.holds_exists _ _ _ _).mpr ⟨_, fun _ _ => rfl, (Expr.holds_eq _ _ _ _).mpr ?_⟩
    rw [Expr.eval, Expr.eval, Structure.value_eq M (by rfl)]
    rfl
  simp [f, witness] at holds

end Examples

end SkolemizeAst

end Goivy
