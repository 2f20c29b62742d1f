import Goivy.Logic.Syntax

/-! Truth of expressions in many-sorted structures with nonempty sorts.
The Boolean sort has exactly the two truth values; every other sort is arbitrary,
so interpreted sorts and symbols are particular structures. -/
namespace Goivy

/-- The carriers of the sorts other than Boolean. -/
structure Domain where
  carrier : FSort → Type
  nonempty : ∀ s, Nonempty (carrier s)

/-- The elements of a sort. -/
def El (D : Domain) : FSort → Type
  | .boolean => Bool
  | s => D.carrier s

instance (D : Domain) (s : FSort) : Nonempty (El D s) := by
  cases s with
  | boolean => exact ⟨true⟩
  | _ => exact D.nonempty _

/-- A value together with its sort. -/
abbrev Val (D : Domain) := Σ s : FSort, El D s

/-- The argument lists of a symbol with this domain. -/
def Args (D : Domain) (dom : List FSort) := {vs : List (Val D) // vs.map Sigma.fst = dom}

/-- The meaning of each symbol: a name at a sort, applied to its arguments. -/
abbrev Structure (D : Domain) := String → (s : LSort) → Args D s.domain → El D s.range

/-- An assignment of the variables. -/
abbrev Env (D : Domain) := (v : Variable) → El D v.sort

variable {D : Domain}

open Classical in
/-- The value of a symbol at some arguments. Nothing is known where their sorts
are not those of the symbol. -/
noncomputable def Structure.value (M : Structure D) (c : Const) (vs : List (Val D)) : Val D :=
  ⟨c.sort.range, if h : vs.map Sigma.fst = c.sort.domain then M c.name c.sort ⟨vs, h⟩
    else Classical.arbitrary _⟩

theorem Structure.value_eq (M : Structure D) {c : Const} {vs : List (Val D)}
    (fits : vs.map Sigma.fst = c.sort.domain) :
    M.value c vs = ⟨c.sort.range, M c.name c.sort ⟨vs, fits⟩⟩ := by
  simp only [value, dif_pos fits]

open Classical in
noncomputable def Val.ofProp (p : Prop) : Val D := ⟨.boolean, decide p⟩

def Val.Holds (v : Val D) : Prop := v = ⟨.boolean, true⟩

open Classical in
@[simp] theorem holds_ofProp (p : Prop) : (Val.ofProp p : Val D).Holds ↔ p := by
  constructor
  · intro h
    have hd : decide p = true := eq_of_heq (Sigma.mk.inj h).2
    exact of_decide_eq_true hd
  · intro h
    exact congrArg (Sigma.mk FSort.boolean) (decide_eq_true h)

/-- `env'` gives other values to variables of `vs` only. -/
def Env.Off (vs : List Variable) (env env' : Env D) : Prop := ∀ v, v ∉ vs → env' v = env v

open Classical in
/-- A conditional on values. -/
noncomputable def Val.ite (c a b : Val D) : Val D := if c.Holds then a else b

open Classical in
/-- The value of an indefinite description that is used as a term: the value of
its parameter in some witness, or any value where there is none. -/
noncomputable def Val.pick (x : Variable) (vs : List Variable) (fmla : Env D → Val D)
    (env : Env D) : Val D :=
  if h : ∃ d, ∃ env', env.Off vs env' ∧ (fmla env').Holds ∧ env' x = d then ⟨x.sort, h.choose⟩
  else ⟨x.sort, Classical.arbitrary _⟩

open Classical in
noncomputable def Val.pickElse (vs : List Variable) (fmla ifVal elseVal : Env D → Val D)
    (env : Env D) : Val D :=
  if h : ∃ d, ∃ env', env.Off vs env' ∧ (fmla env').Holds ∧ ifVal env' = d then h.choose
  else elseVal env

mutual
/-- The value of an expression. The right-hand side of a definition that is an
indefinite description is read by `Definition.toConstraint` instead. -/
@[grind =] noncomputable def Expr.eval (M : Structure D) : Expr → Env D → Val D
  | .var v, env => ⟨v.sort, env v⟩
  | .const c, _ => M.value c []
  | .apply f ts, env => M.value f (evalList M ts env)
  | .eq a b, env => .ofProp (a.eval M env = b.eval M env)
  | .not a, env => .ofProp (¬ (a.eval M env).Holds)
  | .and ts, env => .ofProp (∀ v ∈ evalList M ts env, v.Holds)
  | .or ts, env => .ofProp (∃ v ∈ evalList M ts env, v.Holds)
  | .implies a b, env => .ofProp ((a.eval M env).Holds → (b.eval M env).Holds)
  | .iff a b, env => .ofProp ((a.eval M env).Holds ↔ (b.eval M env).Holds)
  | .ite c a b, env => (c.eval M env).ite (a.eval M env) (b.eval M env)
  | .forAll vs a, env => .ofProp (∀ env', env.Off vs env' → (a.eval M env').Holds)
  | .exists vs a, env => .ofProp (∃ env', env.Off vs env' ∧ (a.eval M env').Holds)
  | .some [] _, _ => ⟨.top "TopSort", Classical.arbitrary _⟩
  | .some (x :: vs) a, env => .pick x (x :: vs) (a.eval M) env
  | .someElse vs a b c, env => .pickElse vs (a.eval M) (b.eval M) (c.eval M) env
@[grind =] noncomputable def evalList (M : Structure D) : List Expr → Env D → List (Val D)
  | [], _ => []
  | t :: ts, env => t.eval M env :: evalList M ts env
end

/-- A formula is true under an assignment. -/
def Expr.Holds (M : Structure D) (env : Env D) (e : Expr) : Prop := (e.eval M env).Holds

/-- The universal closure of a formula is true. -/
def Expr.Valid (M : Structure D) (e : Expr) : Prop := ∀ env, e.Holds M env

theorem evalList_eq_map (M : Structure D) (ts : List Expr) (env : Env D) :
    evalList M ts env = ts.map (fun t => t.eval M env) := by
  induction ts with
  | nil => rfl
  | cons t ts ih => simp [evalList, ih]

namespace Expr

variable (M : Structure D) (env : Env D)

@[simp] theorem holds_eq (a b : Expr) :
    (Expr.eq a b).Holds M env ↔ a.eval M env = b.eval M env := holds_ofProp _

@[simp] theorem holds_not (a : Expr) : (Expr.not a).Holds M env ↔ ¬ a.Holds M env := holds_ofProp _

@[simp] theorem holds_and (ts : List Expr) :
    (Expr.and ts).Holds M env ↔ ∀ t ∈ ts, t.Holds M env :=
  (holds_ofProp _).trans (by simp [evalList_eq_map, Holds])

@[simp] theorem holds_or (ts : List Expr) :
    (Expr.or ts).Holds M env ↔ ∃ t ∈ ts, t.Holds M env :=
  (holds_ofProp _).trans (by simp [evalList_eq_map, Holds])

@[simp] theorem holds_implies (a b : Expr) :
    (Expr.implies a b).Holds M env ↔ (a.Holds M env → b.Holds M env) := holds_ofProp _

@[simp] theorem holds_iff (a b : Expr) :
    (Expr.iff a b).Holds M env ↔ (a.Holds M env ↔ b.Holds M env) := holds_ofProp _

@[simp] theorem holds_forAll (vs : List Variable) (a : Expr) :
    (Expr.forAll vs a).Holds M env ↔ ∀ env', env.Off vs env' → a.Holds M env' := holds_ofProp _

@[simp] theorem holds_exists (vs : List Variable) (a : Expr) :
    (Expr.exists vs a).Holds M env ↔ ∃ env', env.Off vs env' ∧ a.Holds M env' := holds_ofProp _

theorem eval_ite_pos {c : Expr} (a b : Expr) (h : c.Holds M env) :
    (Expr.ite c a b).eval M env = a.eval M env := by
  simp only [eval, Val.ite]
  exact if_pos h

theorem eval_ite_neg {c : Expr} (a b : Expr) (h : ¬ c.Holds M env) :
    (Expr.ite c a b).eval M env = b.eval M env := by
  simp only [eval, Val.ite]
  exact if_neg h

@[simp] theorem holds_tru : tru.Holds M env := by simp [tru]

@[simp] theorem not_holds_fls : ¬ fls.Holds M env := by simp [fls]

/-- A Boolean constant is true when it means true. -/
theorem holds_boolean (n : String) :
    (Expr.const ⟨n, .first .boolean⟩).Holds M env ↔ M n (.first .boolean) ⟨[], rfl⟩ = true := by
  rw [Holds, eval, Structure.value_eq M (by rfl), Val.Holds]
  constructor
  · intro h
    exact eq_of_heq (Sigma.mk.inj h).2
  · intro h
    exact congrArg (Sigma.mk FSort.boolean) h

/-- Equal values have the same truth. -/
theorem holds_congr {a b : Expr} {N : Structure D} {env' : Env D}
    (h : a.eval M env = b.eval N env') : a.Holds M env ↔ b.Holds N env' := by
  rw [Holds, Holds, h]

end Expr

/-- The domain with one element in every sort other than Boolean. -/
def Domain.unit : Domain := ⟨fun _ => Unit, fun _ => ⟨()⟩⟩

def El.ofBool (b : Bool) : (s : FSort) → El Domain.unit s
  | .boolean => b
  | .uninterpreted _ | .enumerated _ _ | .range _ _ _ | .top _ => ()

/-- A propositional valuation as a structure. -/
def Structure.ofNames (trueNames : List String) : Structure Domain.unit :=
  fun n s _ => El.ofBool (decide (n ∈ trueNames)) s.range

def boolConst (name : String) : Const := ⟨name, .first .boolean⟩

theorem Expr.holds_ofNames (trueNames : List String) (n : String) (env : Env Domain.unit) :
    (Expr.const (boolConst n)).Holds (.ofNames trueNames) env ↔ n ∈ trueNames := by
  rw [boolConst, holds_boolean]
  exact decide_eq_true_iff

end Goivy
