import Goivy.Mc.Instances

/-! The combinations of values that a quantifier is instantiated with. -/
namespace Goivy

theorem mem_mcCartesianProduct {sets : List (List Expr)} {combo : List Expr} :
    combo ∈ mcCartesianProduct sets ↔ List.Forall₂ (fun t set => t ∈ set) combo sets := by
  induction sets generalizing combo with
  | nil => simp [mcCartesianProduct]
  | cons set sets ih =>
    simp only [mcCartesianProduct, List.mem_flatMap, List.mem_map, ih, List.forall₂_cons_right_iff]
    constructor
    · rintro ⟨t, ht, rest, hrest, rfl⟩
      exact ⟨t, rest, ht, hrest, rfl⟩
    · rintro ⟨t, rest, ht, hrest, rfl⟩
      exact ⟨t, ht, rest, hrest, rfl⟩

section instanceMap

variable {vs : List Variable} {combo : List Expr} {R : Expr → Variable → Prop}

theorem instanceMap_ground (ground : ∀ t ∈ combo, t.Ground) :
    Expr.GroundValues (instanceMap vs combo) := by
  rintro ⟨n, t⟩ hp
  exact ground t (List.of_mem_zip (List.mem_reverse.mp hp)).2

theorem keys_instanceMap (length : combo.length = vs.length) :
    (instanceMap vs combo).map Prod.fst = (vs.map Variable.name).reverse := by
  rw [instanceMap, List.map_reverse, List.map_fst_zip (by simp [length])]

/-- Every bound variable has the value at its place in the combination. -/
theorem lookup_instanceMap (nodup : (vs.map Variable.name).Nodup) (choice : List.Forall₂ R combo vs) :
    ∀ v ∈ vs, ∃ t ∈ combo, (instanceMap vs combo).lookup v.name = some t ∧ R t v := by
  have keys : ((instanceMap vs combo).map Prod.fst).Nodup := by
    rw [keys_instanceMap choice.length_eq]
    exact List.nodup_reverse.mpr nodup
  have place : ∀ v ∈ vs, ∃ t, (v.name, t) ∈ (vs.map Variable.name).zip combo ∧ R t v := by
    clear nodup keys
    induction choice with
    | nil => simp
    | @cons t w combo vs head _ ih =>
      intro v hv
      rcases List.mem_cons.mp hv with rfl | hv
      · exact ⟨t, List.mem_cons_self, head⟩
      · obtain ⟨u, hu, value⟩ := ih v hv
        exact ⟨u, List.mem_cons_of_mem _ hu, value⟩
  intro v hv
  obtain ⟨t, ht, value⟩ := place v hv
  exact ⟨t, (List.of_mem_zip ht).2, (InsMap.mem_iff_lookup keys).mp (List.mem_reverse.mpr ht), value⟩

theorem instantiates_instanceMap (nodup : (vs.map Variable.name).Nodup)
    (choice : List.Forall₂ (fun t v => t.Ground ∧ t.HasSort [] v.sort) combo vs) :
    Instantiates (instanceMap vs combo) vs [] where
  kept v hv free := by
    obtain ⟨t, -, value, -⟩ := lookup_instanceMap nodup choice v hv.mem
    rw [free] at value
    contradiction
  ground v t hv value := by
    obtain ⟨u, -, value', ground, -⟩ := lookup_instanceMap nodup choice v hv.mem
    rw [value, Option.some.injEq] at value'
    exact value' ▸ ground
  sorts v t hv value := by
    obtain ⟨u, -, value', -, sort⟩ := lookup_instanceMap nodup choice v hv.mem
    rw [value, Option.some.injEq] at value'
    exact value' ▸ sort

variable {D : Domain} {M : Structure D} {env env' : Env D}

theorem gives_instanceMap (nodup : (vs.map Variable.name).Nodup)
    (choice : List.Forall₂ (fun t v => t.eval M env = ⟨v.sort, env' v⟩) combo vs) :
    Env.Gives M (instanceMap vs combo) vs env env' := by
  intro v hv
  obtain ⟨t, -, value, eval⟩ := lookup_instanceMap nodup choice v hv.mem
  rw [value, Option.getD_some, eval]

/-- A combination of well-sorted values is an assignment of the bound variables. -/
theorem exists_gives (nodup : (vs.map Variable.name).Nodup)
    (choice : List.Forall₂ (fun t v => t.Ground ∧ t.HasSort [] v.sort) combo vs) (env : Env D) :
    ∃ env', env.Off vs env' ∧ Env.Gives M (instanceMap vs combo) vs env env' := by
  classical
  have values : ∀ v ∈ vs, ∃ x : El D v.sort,
      (⟨v.sort, x⟩ : Val D) = (((instanceMap vs combo).lookup v.name).getD (.var v)).eval M env := by
    intro v hv
    obtain ⟨t, -, value, -, sort⟩ := lookup_instanceMap nodup choice v hv
    rw [value, Option.getD_some]
    have sort := Expr.sort_eval_of_hasSort M sort env
    generalize t.eval M env = val at sort ⊢
    obtain ⟨s, x⟩ := val
    cases sort
    exact ⟨x, rfl⟩
  choose x hx using values
  refine ⟨fun v => if hv : v ∈ vs then x v hv else env v, fun v hv => dif_neg hv, fun v hv => ?_⟩
  rw [← hx v hv.mem]
  exact congrArg (Sigma.mk v.sort) (dif_pos hv.mem)

/-- An assignment of the bound variables is a combination, where every element has a value. -/
theorem exists_combo {values : Variable → List Expr}
    (exact : ∀ v ∈ vs, ∀ x : El D v.sort, ∃ t ∈ values v, t.eval M env = ⟨v.sort, x⟩) (env' : Env D) :
    ∃ combo, List.Forall₂ (fun t v => t ∈ values v) combo vs ∧
      List.Forall₂ (fun t v => t.eval M env = ⟨v.sort, env' v⟩) combo vs := by
  induction vs with
  | nil => exact ⟨[], .nil, .nil⟩
  | cons v vs ih =>
    obtain ⟨t, ht, eval⟩ := exact v List.mem_cons_self (env' v)
    obtain ⟨combo, listed, evals⟩ := ih fun w hw => exact w (List.mem_cons_of_mem _ hw)
    exact ⟨t :: combo, .cons ht listed, .cons eval evals⟩

end instanceMap

/-- A fresh proposition. -/
def IsQe (c : Const) : Prop := ∃ n, c = qeConst n

namespace QelimConfig

variable (cfg : QelimConfig) (table : InsMap String (List Const))

/-- The values listed for a sort. -/
def listedValues (s : FSort) : List Expr := (cfg.getConsts table s).getD []

/-- The values of a sort are listed, and they are symbols or truth values of that sort. -/
structure Listed (s : FSort) : Prop where
  listed : cfg.getConsts table s = some (cfg.listedValues table s)
  sorts : ∀ t ∈ cfg.listedValues table s, t.HasSort [] s
  fresh : ∀ t ∈ cfg.listedValues table s, ∀ c ∈ t.symbols, ¬ IsQe c

variable {cfg table} {vs : List Variable} {body : Expr}

theorem getConsts_ground {s : FSort} {vals : List Expr} (h : cfg.getConsts table s = some vals) :
    ∀ t ∈ vals, t.Ground := by
  have consts : ∀ {α : Type} (xs : List α) (f : α → Const), ∀ t ∈ xs.map fun x => .const (f x),
      Expr.Ground t := fun xs f => List.forall_mem_map.mpr fun x _ => .const (f x)
  unfold getConsts at h
  split at h
  · unfold sortValuesAsExprs at h
    split at h
    · cases h
      exact consts _ _
    · split at h
      · cases h
        simp
      · split at h
        · contradiction
        · cases h
          exact consts _ _
    · cases h
      simp only [List.forall_mem_cons]
      exact ⟨.fls, .tru, by simp⟩
    · split at h
      · contradiction
      · cases h
        exact consts _ _
    · cases h
      simp
  · cases h
    exact consts _ _

theorem Listed.ground {s : FSort} (h : cfg.Listed table s) :
    ∀ t ∈ cfg.listedValues table s, t.Ground := getConsts_ground h.listed

/-- The combinations of listed values. -/
def combos (cfg : QelimConfig) (table : InsMap String (List Const)) (vs : List Variable) :
    List (List Expr) := mcCartesianProduct (vs.map fun v => cfg.listedValues table v.sort)

theorem mem_combos {combo : List Expr} : combo ∈ cfg.combos table vs ↔
    List.Forall₂ (fun t v => t ∈ cfg.listedValues table v.sort) combo vs := by
  rw [combos, mem_mcCartesianProduct, List.forall₂_map_right_iff]

theorem mapM_getConsts (listed : ∀ v ∈ vs, cfg.Listed table v.sort) :
    vs.mapM (fun v => cfg.getConsts table v.sort) =
      some (vs.map fun v => cfg.listedValues table v.sort) := by
  induction vs with
  | nil => rfl
  | cons v vs ih =>
    simp [List.mapM_cons, (listed v List.mem_cons_self).listed,
      ih fun w hw => listed w (List.mem_cons_of_mem _ hw)]

theorem instances_eq (listed : ∀ v ∈ vs, cfg.Listed table v.sort) :
    cfg.instances table vs body =
      some ((cfg.combos table vs).map fun combo => body.substituteByName (instanceMap vs combo)) := by
  simp [instances, mapM_getConsts listed, combos]

/-- A combination of listed values is well sorted. -/
theorem proper_of_mem_combos (listed : ∀ v ∈ vs, cfg.Listed table v.sort) {combo : List Expr}
    (h : combo ∈ cfg.combos table vs) :
    List.Forall₂ (fun t v => t.Ground ∧ t.HasSort [] v.sort) combo vs := by
  rw [mem_combos] at h
  induction h with
  | nil => exact .nil
  | @cons t v combo vs head _ ih =>
    have here := listed v List.mem_cons_self
    exact .cons ⟨here.ground t head, here.sorts t head⟩
      (ih fun w hw => listed w (List.mem_cons_of_mem _ hw))

section Holds

variable {D : Domain} {M : Structure D} {env env' : Env D} {combo : List Expr}
  (nodup : (vs.map Variable.name).Nodup) (sort : body.HasSort vs .boolean)
  (listed : ∀ v ∈ vs, cfg.Listed table v.sort)
include nodup sort listed

/-- An instance says what the body says about some elements. -/
theorem exists_assignment (mem : combo ∈ cfg.combos table vs) (env : Env D) :
    ∃ env', env.Off vs env' ∧
      ((body.substituteByName (instanceMap vs combo)).Holds M env ↔ body.Holds M env') := by
  have proper := proper_of_mem_combos listed mem
  obtain ⟨env', off, gives⟩ := exists_gives (M := M) nodup proper env
  exact ⟨env', off, Expr.holds_congr M env
    (Expr.eval_substituteByName sort (instantiates_instanceMap nodup proper) gives)⟩

/-- Where the values are all elements, what the body says about some elements is an instance. -/
theorem exists_instance
    (exact : ∀ v ∈ vs, ∀ x : El D v.sort, ∃ t ∈ cfg.listedValues table v.sort,
      t.eval M env = ⟨v.sort, x⟩) (env' : Env D) :
    ∃ combo ∈ cfg.combos table vs,
      ((body.substituteByName (instanceMap vs combo)).Holds M env ↔ body.Holds M env') := by
  obtain ⟨combo, mem, evals⟩ := exists_combo exact env'
  have mem := mem_combos.mpr mem
  have proper := proper_of_mem_combos listed mem
  exact ⟨combo, mem, Expr.holds_congr M env (Expr.eval_substituteByName sort
    (instantiates_instanceMap nodup proper) (gives_instanceMap nodup evals))⟩

theorem holds_forAll_instances (mem : combo ∈ cfg.combos table vs)
    (h : (Expr.forAll vs body).Holds M env) :
    (body.substituteByName (instanceMap vs combo)).Holds M env := by
  obtain ⟨env', off, same⟩ := exists_assignment (M := M) nodup sort listed mem env
  exact same.mpr ((Expr.holds_forAll M env vs body).mp h env' off)

theorem holds_exists_of_instance (mem : combo ∈ cfg.combos table vs)
    (h : (body.substituteByName (instanceMap vs combo)).Holds M env) :
    (Expr.exists vs body).Holds M env := by
  obtain ⟨env', off, same⟩ := exists_assignment (M := M) nodup sort listed mem env
  exact (Expr.holds_exists M env vs body).mpr ⟨env', off, same.mp h⟩

end Holds

end QelimConfig

end Goivy
