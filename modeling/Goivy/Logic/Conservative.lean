import Goivy.Logic.Instance
import Goivy.TransRel.Update

/-! Explicit definitions and the structures that satisfy them. -/
namespace Goivy

variable {D : Domain} {M : Structure D}

namespace Val

variable {x : Variable} {vs : List Variable} {f a b : Env D → Val D} {env : Env D}

theorem pick_spec (witness : ∃ env', env.Off vs env' ∧ (f env').Holds) :
    ∃ env', env.Off vs env' ∧ (f env').Holds ∧ ⟨x.sort, env' x⟩ = pick x vs f env := by
  obtain ⟨env', off, holds⟩ := witness
  have h : ∃ d, ∃ env', env.Off vs env' ∧ (f env').Holds ∧ env' x = d := ⟨_, env', off, holds, rfl⟩
  obtain ⟨envW, offW, holdsW, value⟩ := h.choose_spec
  exact ⟨envW, offW, holdsW, by rw [pick, dif_pos h, value]⟩

theorem pickElse_spec (witness : ∃ env', env.Off vs env' ∧ (f env').Holds) :
    ∃ env', env.Off vs env' ∧ (f env').Holds ∧ a env' = pickElse vs f a b env := by
  obtain ⟨env', off, holds⟩ := witness
  have h : ∃ d, ∃ env', env.Off vs env' ∧ (f env').Holds ∧ a env' = d := ⟨_, env', off, holds, rfl⟩
  obtain ⟨envW, offW, holdsW, value⟩ := h.choose_spec
  exact ⟨envW, offW, holdsW, by rw [pickElse, dif_pos h, value]⟩

theorem pickElse_else (noWitness : ¬ ∃ env', env.Off vs env' ∧ (f env').Holds) :
    pickElse vs f a b env = b env :=
  dif_neg fun ⟨_, env', off, holds, _⟩ => noWitness ⟨env', off, holds⟩

end Val

namespace Expr

/-- The sort of a value, through both branches of a conditional. -/
def hasSort : Expr → FSort → Bool
  | .ite _ a b, s => a.hasSort s && b.hasSort s
  | e, s => e.nodeSort = .first s

theorem sort_eval {e : Expr} {s : FSort} (plain : e.descriptionFree = true)
    (sort : e.hasSort s = true) (env : Env D) : (e.eval M env).1 = s := by
  induction e with
  | const c =>
    exact congrArg LSort.range (of_decide_eq_true sort : c.sort = .first s)
  | ite c a b hc ha hb =>
    simp only [descriptionFree, Bool.and_eq_true] at plain
    simp only [hasSort, Bool.and_eq_true] at sort
    simp only [eval, Val.ite]
    split
    · exact ha plain.1.2 sort.1
    · exact hb plain.2 sort.2
  | some vs a ha | someElse vs a b c ha hb hc => simp [descriptionFree] at plain
  | _ =>
    simp only [hasSort, nodeSort, decide_eq_true_eq, LSort.first.injEq] at sort
    exact sort

/-- A right-hand side over the parameters `vs`. A description stands at the top only. -/
inductive Explicit (vs : List Variable) (s : FSort) : Expr → Prop
  | plain {e : Expr} : e.descriptionFree = true → e.hasSort s = true → e.freeVariables ⊆ vs →
      Explicit vs s e
  | some {x : Variable} {phi : Expr} : x.sort = s → x ∉ vs → phi.descriptionFree = true →
      phi.freeVariables ⊆ x :: vs → Explicit vs s (.some [x] phi)
  | someElse {x : Variable} {phi a b : Expr} : x ∉ vs → phi.freeVariables ⊆ x :: vs →
      a.descriptionFree = true → a.hasSort s = true → a.freeVariables ⊆ x :: vs →
      b.descriptionFree = true → b.hasSort s = true → b.freeVariables ⊆ vs →
      Explicit vs s (.someElse [x] phi a b)

namespace Explicit

variable {vs : List Variable} {s : FSort} {e : Expr}

theorem sort_eval (h : Explicit vs s e) (env : Env D) : (e.eval M env).1 = s := by
  cases h with
  | plain plain sort free => exact Expr.sort_eval plain sort env
  | some sort =>
    simp only [eval, Val.pick]
    split <;> exact sort
  | someElse _ _ plainA sortA _ plainB sortB =>
    simp only [eval, Val.pickElse]
    split
    · rename_i witness
      obtain ⟨envA, -, -, value⟩ := witness.choose_spec
      rw [← value]
      exact Expr.sort_eval plainA sortA envA
    · exact Expr.sort_eval plainB sortB env

theorem eval_congr (h : Explicit vs s e) {env env' : Env D} (agree : ∀ v ∈ vs, env v = env' v) :
    e.eval M env = e.eval M env' := by
  cases h with
  | plain plain sort free => exact eval_freeVariables M fun v hv => agree v (free hv)
  | @some x phi sort fresh plain free =>
    refine Val.pick_congr fun d => Env.exists_off_congr vs (fun v hv _ => agree v hv) ?_
    intro envA envB bound params
    have same : phi.eval M envA = phi.eval M envB := eval_freeVariables M fun v hv => by
      obtain rfl | hv := List.mem_cons.mp (free hv)
      · exact (bound v List.mem_cons_self).symm
      · exact (params v hv).symm
    rw [same, bound x List.mem_cons_self]
  | @someElse x phi a b fresh free plainA sortA freeA plainB sortB freeB =>
    refine Val.pickElse_congr (fun d => Env.exists_off_congr vs (fun v hv _ => agree v hv) ?_)
      (eval_freeVariables M fun v hv => agree v (freeB hv))
    intro envA envB bound params
    have params' : ∀ v ∈ x :: vs, envA v = envB v := fun v hv => by
      obtain rfl | hv := List.mem_cons.mp hv
      · exact (bound v List.mem_cons_self).symm
      · exact (params v hv).symm
    rw [eval_freeVariables M fun v hv => params' v (free hv),
      eval_freeVariables (e := a) M fun v hv => params' v (freeA hv)]

end Explicit

end Expr

namespace Definition

/-- `c` applied to distinct variables is defined by a term over these variables. -/
structure Explicit (d : Definition) (c : Const) (vs : List Variable) : Prop where
  lhs : d.lhs = .const c ∧ vs = [] ∨ d.lhs = .apply c (vs.map .var)
  distinct : vs.Nodup
  sorts : vs.map Variable.sort = c.sort.domain
  rhs : d.rhs.Explicit vs c.sort.range

variable {d : Definition} {c : Const} {vs : List Variable}

theorem Explicit.defines (h : d.Explicit c vs) : d.defines = .const c := by
  obtain ⟨lhs, -⟩ | lhs := h.lhs <;> simp [Definition.defines, lhs]

theorem Explicit.eval_lhs (h : d.Explicit c vs) (env : Env D) :
    d.lhs.eval M env = M.value c (env.values vs) := by
  obtain ⟨lhs, rfl⟩ | lhs := h.lhs
  · rw [lhs, Expr.eval]
    rfl
  · rw [lhs, Expr.eval, evalList_eq_map, List.map_map]
    rfl

theorem Explicit.eval_lhs_congr (h : d.Explicit c vs) {env env' : Env D}
    (agree : ∀ v ∈ vs, env' v = env v) : d.lhs.eval M env' = d.lhs.eval M env := by
  have same : env'.values vs = env.values vs :=
    List.map_congr_left fun v hv => by rw [agree v hv]
  rw [h.eval_lhs, h.eval_lhs, same]

theorem Explicit.holds_some (h : d.Explicit c vs) {x : Variable} {xs : List Variable} {phi psi : Expr}
    (hr : d.rhs = .some (x :: xs) phi) (sub : phi.substitute [(x, d.lhs)] = some psi) {env : Env D}
    (same : d.lhs.eval M env = d.rhs.eval M env) (holds : phi.Holds M env) : psi.Holds M env := by
  have explicit := h.rhs
  rw [hr] at explicit same
  cases explicit with
  | plain plain => simp [Expr.descriptionFree] at plain
  | some sort fresh plain free =>
    obtain ⟨envW, off, holdsW, picked⟩ := Val.pick_spec (x := x) ⟨env, fun _ _ => rfl, holds⟩
    have inst : Env.Instance M [(x, d.lhs)] env envW := by
      intro v
      rw [InsMap.lookup_cons]
      split
      · rename_i same'
        subst same'
        exact picked.trans same.symm
      · rename_i other
        simp only [List.lookup, Option.getD_none, Expr.eval, off v (by simpa using other)]
    exact (Expr.holds_congr M env (Expr.eval_substitute plain inst sub)).mpr holdsW

theorem Explicit.holds_someElse (h : d.Explicit c vs) {x : Variable} {xs : List Variable}
    {phi a b : Expr} (hr : d.rhs = .someElse (x :: xs) phi a b)
    (same : ∀ env, d.lhs.eval M env = d.rhs.eval M env) (env : Env D) :
    (phi.Holds M env → ∃ envW, env.Off [x] envW ∧ phi.Holds M envW ∧
      d.lhs.eval M envW = a.eval M envW) ∧
    ((∃ envW, env.Off [x] envW ∧ phi.Holds M envW) ∨ d.lhs.eval M env = b.eval M env) := by
  have explicit := h.rhs
  have value := same env
  rw [hr] at explicit value
  cases explicit with
  | plain plain => simp [Expr.descriptionFree] at plain
  | @someElse x _ _ _ fresh =>
    constructor
    · intro holds
      obtain ⟨envW, off, holdsW, picked⟩ :=
        Val.pickElse_spec (a := a.eval M) (b := b.eval M) ⟨env, fun _ _ => rfl, holds⟩
      have params : ∀ v ∈ vs, envW v = env v := fun v hv =>
        off v fun mem => by
          obtain rfl : v = x := List.mem_singleton.mp mem
          exact fresh hv
      exact ⟨envW, off, holdsW, (h.eval_lhs_congr params).trans (value.trans picked.symm)⟩
    · by_cases witness : ∃ envW, env.Off [x] envW ∧ phi.Holds M envW
      · exact .inl witness
      · exact .inr (value.trans (Val.pickElse_else witness))

/-- The constraint of a definition holds where the two sides have the same value. -/
theorem Explicit.valid_toConstraint (h : d.Explicit c vs)
    (same : ∀ env, d.lhs.eval M env = d.rhs.eval M env) : d.toConstraint.Valid M := by
  intro env
  have value := same env
  have explicit := h.rhs
  cases hr : d.rhs with
  | some xs phi =>
    cases xs with
    | nil =>
      rw [hr] at explicit
      cases explicit with
      | plain plain => simp [Expr.descriptionFree] at plain
    | cons x xs =>
      simp only [toConstraint, hr]
      split
      · rename_i sub
        simp only [Expr.holds_forAll, Expr.holds_implies]
        exact fun envA off => h.holds_some hr sub (same envA)
      · exact (Expr.holds_eq M env _ _).mpr (hr ▸ value)
  | someElse xs phi a b =>
    cases xs with
    | nil =>
      rw [hr] at explicit
      cases explicit with
      | plain plain => simp [Expr.descriptionFree] at plain
    | cons x xs =>
      have arms := h.holds_someElse hr same env
      simpa [toConstraint, hr] using arms
  | _ =>
    rw [hr] at value
    simp only [toConstraint, hr]
    split
    · exact (Expr.holds_eq M env _ _).mpr value
    · exact (Expr.holds_iff M env _ _).mpr (Expr.holds_congr M env value)

/-- Any structure can be changed on the defined symbol so that the definition holds. -/
theorem Explicit.exists_expansion (h : d.Explicit c vs) (fresh : c ∉ d.rhs.symbols)
    (M : Structure D) : ∃ N : Structure D, AgreeOff (· = c) M N ∧ d.toConstraint.Valid N := by
  have meaning : ∀ (n : String) (s : LSort) (args : Args D s.domain), ∃ val : El D s.range,
      (⟨n, s⟩ : Const) = c → ∀ env : Env D, env.values vs = args.1 →
        (⟨s.range, val⟩ : Val D) = d.rhs.eval M env := by
    intro n s args
    by_cases same : (⟨n, s⟩ : Const) = c
    · subst same
      obtain ⟨env₀, params⟩ := exists_env h.distinct (args.2.trans h.sorts.symm)
      have sort := h.rhs.sort_eval (M := M) env₀
      generalize hv : d.rhs.eval M env₀ = value at sort
      obtain ⟨s', val⟩ := value
      subst sort
      refine ⟨val, fun _ env values => hv ▸ h.rhs.eval_congr fun v hv => ?_⟩
      have pair := List.map_eq_map_iff.mp (params.trans values.symm) v hv
      exact eq_of_heq (Sigma.mk.inj pair).2
    · exact ⟨Classical.arbitrary _, fun eq => absurd eq same⟩
  choose N hN using meaning
  have off : AgreeOff (· = c) M (.patch {c} N M) := fun x hx =>
    (Structure.patch_not_mem (by simpa using hx)).symm
  have rhs : d.rhs.eval (.patch {c} N M) = d.rhs.eval M := Expr.eval_congr fun x hx =>
    (off x fun eq => fresh (eq ▸ hx)).symm
  refine ⟨.patch {c} N M, off, h.valid_toConstraint fun env => ?_⟩
  have fits : (env.values vs).map Sigma.fst = c.sort.domain := by
    rw [← h.sorts, Env.values, List.map_map]
    rfl
  rw [h.eval_lhs, (Structure.patch_mem (Set.mem_singleton c)).value, rhs, Structure.value_eq N fits]
  exact hN c.name c.sort ⟨_, fits⟩ rfl env rfl

end Definition

/-- Definitions in an order in which no defined symbol occurs earlier have a common
expansion of every structure. -/
theorem exists_expansion {defs : List Definition}
    (explicit : ∀ d ∈ defs, ∃ c vs, d.Explicit c vs ∧ c ∉ d.rhs.symbols)
    (ordered : defs.Pairwise fun d e => ∀ c, e.defines = .const c → c ∉ d.symbols) (M : Structure D) :
    ∃ N : Structure D, AgreeOff (fun c => ∃ d ∈ defs, d.defines = .const c) M N ∧
      ∀ d ∈ defs, d.toConstraint.Valid N := by
  induction defs using List.reverseRecOn with
  | nil => exact ⟨M, AgreeOff.refl _ M, by simp⟩
  | append_singleton defs e ih =>
    rw [List.pairwise_append] at ordered
    obtain ⟨N, off, valid⟩ := ih (fun d hd => explicit d (by simp [hd])) ordered.1
    obtain ⟨c, vs, he, fresh⟩ := explicit e (by simp)
    obtain ⟨N', off', valid'⟩ := he.exists_expansion fresh N
    have defined : e.defines = .const c := he.defines
    refine ⟨N', fun x hx => (off x ?_).trans (off' x ?_), fun d hd => ?_⟩
    · rintro ⟨d, hd, eq⟩
      exact hx ⟨d, by simp [hd], eq⟩
    · rintro rfl
      exact hx ⟨e, by simp, defined⟩
    · rw [List.mem_append, List.mem_singleton] at hd
      obtain hd | rfl := hd
      · have same : d.toConstraint.eval N' = d.toConstraint.eval N := Expr.eval_congr fun x hx =>
          (off' x fun eq => ordered.2.2 d hd e (by simp) c defined
            (eq ▸ d.symbols_toConstraint x hx)).symm
        exact fun env => (Expr.holds_congr N' env (congrFun same env)).mpr (valid d hd env)
      · exact valid'

section Predicates

variable {ι : Type} {symbol : ι → Const} {params : ι → List Variable} {meaning : ι → Env D → Prop} {gs : List ι} {N N' : Structure D}

/-- Each symbol holds of its parameters exactly where it is to. -/
def Structure.Defines (N : Structure D) (symbol : ι → Const) (params : ι → List Variable) (meaning : ι → Env D → Prop) (gs : List ι) : Prop :=
  ∀ g ∈ gs, ∀ env : Env D, (N.value (symbol g) (env.values (params g))).Holds ↔ meaning g env

/-- The meaning of a defined symbol depends on its parameters. -/
theorem Structure.Defines.congr (h : N.Defines symbol params meaning gs) {g : ι} (hg : g ∈ gs) {env env' : Env D}
    (agree : ∀ v ∈ params g, env v = env' v) : meaning g env ↔ meaning g env' := by
  have same : env.values (params g) = env'.values (params g) := List.map_congr_left fun v hv => by rw [agree v hv]
  rw [← h g hg env, ← h g hg env', same]

theorem Structure.Defines.unique (h : N.Defines symbol params meaning gs) (h' : N'.Defines symbol params meaning gs)
    (distinct : ∀ g ∈ gs, (params g).Nodup) (domain : ∀ g ∈ gs, (symbol g).sort.domain = (params g).map Variable.sort)
    (range : ∀ g ∈ gs, (symbol g).sort.range = .boolean) (agree : AgreeOff (· ∈ gs.map symbol) N N') : N = N' := by
  funext n s
  show SameAt N N' ⟨n, s⟩
  by_cases defined : (⟨n, s⟩ : Const) ∈ gs.map symbol
  · obtain ⟨g, hg, same⟩ := List.mem_map.mp defined
    rw [← same]
    funext args
    obtain ⟨env, values⟩ := exists_env (distinct g hg) (args.2.trans (domain g hg))
    have both := (h g hg env).trans (h' g hg env).symm
    have value := Val.eq_of_holds_iff (range g hg) (range g hg) both
    rw [values, Structure.value_eq N args.2, Structure.value_eq N' args.2] at value
    exact eq_of_heq (Sigma.mk.inj value).2
  · exact agree _ defined

/-- What depends on the parameters can be said by new symbols. -/
theorem Structure.exists_defines (M : Structure D) (names : (gs.map fun g => (symbol g).name).Nodup)
    (domain : ∀ g ∈ gs, (symbol g).sort.domain = (params g).map Variable.sort) (range : ∀ g ∈ gs, (symbol g).sort.range = .boolean)
    (determined : ∀ g ∈ gs, ∀ env env' : Env D, (∀ v ∈ params g, env v = env' v) → (meaning g env ↔ meaning g env')) :
    ∃ N : Structure D, AgreeOff (· ∈ gs.map symbol) M N ∧ N.Defines symbol params meaning gs := by
  obtain ⟨N, agree, values⟩ := exists_meanings M
    (gs.map fun g => (symbol g, fun vals => Val.ofProp (∃ env : Env D, env.values (params g) = vals ∧ meaning g env)))
    (by simpa [Function.comp_def] using names) (List.forall_mem_map.mpr fun g hg _ => (range g hg).symm)
  rw [List.forall_mem_map] at values
  refine ⟨N, by simpa [Function.comp_def] using agree, fun g hg env => ?_⟩
  rw [values g hg _ (by rw [domain g hg, Env.values, List.map_map]; rfl), holds_ofProp]
  constructor
  · rintro ⟨env', same, here'⟩
    refine (determined g hg env' env fun v hv => ?_).mp here'
    exact eq_of_heq (Sigma.mk.inj (List.map_inj_left.mp same v hv)).2
  · exact fun here => ⟨env, rfl, here⟩

/-- Symbols with new names can be defined in exactly one way if and only if what each is to say depends on its parameters. -/
theorem Structure.existsUnique_defines (M : Structure D) (names : (gs.map fun g => (symbol g).name).Nodup)
    (distinct : ∀ g ∈ gs, (params g).Nodup) (domain : ∀ g ∈ gs, (symbol g).sort.domain = (params g).map Variable.sort)
    (range : ∀ g ∈ gs, (symbol g).sort.range = .boolean) :
    (∃! N : Structure D, AgreeOff (· ∈ gs.map symbol) M N ∧ N.Defines symbol params meaning gs) ↔
      ∀ g ∈ gs, ∀ env env' : Env D, (∀ v ∈ params g, env v = env' v) → (meaning g env ↔ meaning g env') := by
  constructor
  · rintro ⟨N, ⟨-, defines⟩, -⟩ g hg env env' agree
    exact defines.congr hg agree
  · intro determined
    obtain ⟨N, agree, defines⟩ := M.exists_defines names domain range determined
    refine ⟨N, ⟨agree, defines⟩, fun N' ⟨agree', defines'⟩ => ?_⟩
    exact defines'.unique defines distinct domain range (agree'.symm.trans agree)

end Predicates

end Goivy
