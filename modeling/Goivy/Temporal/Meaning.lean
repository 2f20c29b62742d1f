import Goivy.Logic.Vocabulary
import Goivy.Temporal.Names

/-! Named binders mean what the temporal operators meant that they replace. -/
namespace Goivy

open TExpr

theorem binderKind_whenName (name : String) : binderKind (whenName name) = .whenOp name := by
  have shape : (whenName name).toList = "l2s_when".toList ++ name.toList := by rw [whenName, String.toList_append]
  rw [binderKind, if_pos (shape ▸ List.prefix_append _ _), shape]
  exact congrArg BinderKind.whenOp (String.ofList_toList)

theorem binderKind_globallyName (environ : Option String) : binderKind (globallyName environ) = .globally environ := by
  cases environ with
  | none => decide
  | some environ =>
    have shape : (globallyName (some environ)).toList = 'g' :: '[' :: (environ.toList ++ [']']) := by
      simp [globallyName, String.toList_append]
    have other : globallyName (some environ) ≠ "g" := by
      intro same
      have := congrArg String.toList same
      simp [shape] at this
    rw [binderKind, shape, if_neg (by simp), if_neg other, List.drop_succ_cons, List.drop_succ_cons, List.drop_zero,
      List.dropLast_concat]
    exact congrArg (fun s => BinderKind.globally (some s)) (String.ofList_toList)

theorem whenBinder_whenName (name : String) : whenBinder (whenName name) = some name := by
  rw [whenBinder, binderKind_whenName]

theorem whenBinder_globallyName (environ : Option String) : whenBinder (globallyName environ) = none := by
  rw [whenBinder, binderKind_globallyName]

section

variable {subs : List (String × Variable)} {vs : List Variable}

theorem TExpr.lookup_removeBoundNames (n : String) :
    (TExpr.removeBoundNames subs vs).lookup n = if n ∈ vs.map Variable.name then none else subs.lookup n :=
  InsMap.lookup_filter_notMem (vs.map Variable.name) subs n

theorem renamed_removeBoundNames (v : Variable) :
    renamed (TExpr.removeBoundNames subs vs) v = if v.name ∈ vs.map Variable.name then v else renamed subs v := by
  rw [renamed, TExpr.lookup_removeBoundNames]
  split <;> rfl

theorem renamed_of_none {v : Variable} (h : subs.lookup v.name = none) : renamed subs v = v := by
  rw [renamed, h, Option.getD_none]

theorem noCapture_of_unchanged {u : TExpr} (h : ∀ v ∈ u.scan, subs.lookup v.name = none) : u.NoCapture subs := by
  have terms : ∀ {subs : List (String × Variable)} {ts : List TExpr}, (∀ v ∈ scanList ts, subs.lookup v.name = none) →
      (∀ t ∈ ts, (∀ v ∈ t.scan, subs.lookup v.name = none) → t.NoCapture subs) → NoCaptureList ts subs := by
    intro subs ts h ih
    refine noCaptureList_iff.mpr fun t ht => ih t ht fun v hv => h v ?_
    rw [scanList_eq_flatMap]
    exact List.mem_flatMap.mpr ⟨t, ht, hv⟩
  induction u generalizing subs with
  | apply f ts ih | and ts ih | or ts ih => exact terms h fun t ht h => ih t ht h
  | applyBinder name vs environ body ts _ ih => exact terms h fun t ht h => ih t ht h
  | not a ha | eventually environ a ha => exact ha h
  | eq a b ha hb | implies a b ha hb | iff a b ha hb | cond a b ha hb =>
    exact ⟨ha (fun v hv => h v (List.mem_append_left _ hv)), hb (fun v hv => h v (List.mem_append_right _ hv))⟩
  | ite c a b hc ha hb =>
    exact ⟨hc (fun v hv => h v (List.mem_append_left _ (List.mem_append_left _ hv))),
      ha (fun v hv => h v (List.mem_append_left _ (List.mem_append_right _ hv))),
      hb (fun v hv => h v (List.mem_append_right _ hv))⟩
  | forAll vs a ha | «exists» vs a ha =>
    have unbound : ∀ v ∈ a.scan, v.name ∉ vs.map Variable.name → subs.lookup v.name = none := fun v hv free =>
      h v (List.mem_filter.mpr ⟨hv, by simpa using free⟩)
    refine ⟨fun v hv free => by rwa [renamed_of_none (unbound v hv free)], ha fun v hv => ?_⟩
    rw [TExpr.lookup_removeBoundNames]
    split
    · rfl
    · rename_i free
      exact unbound v hv free
  | _ => trivial

end

theorem numbered_injective {i j : Nat} (h : "V" ++ toString i = "V" ++ toString j) : i = j :=
  Nat.repr_injective ((String.append_right_inj _).mp h)

theorem name_of_mem_numberedVariables {k : Nat} {vs : List Variable} {w : Variable} (h : w ∈ numberedVariables k vs) :
    ∃ j, k ≤ j ∧ w.name = "V" ++ toString j := by
  induction vs generalizing k with
  | nil => exact absurd h List.not_mem_nil
  | cons v vs ih =>
    rw [numberedVariables, List.mem_cons] at h
    rcases h with rfl | h
    · exact ⟨k, Nat.le_refl k, rfl⟩
    · obtain ⟨j, le, name⟩ := ih h
      exact ⟨j, Nat.le_of_succ_le le, name⟩

/-- The renaming to numbered variables from the `k`th on. -/
def normalFrom (k : Nat) (vs : List Variable) : List (String × Variable) := (vs.map Variable.name).zip (numberedVariables k vs)

theorem renamed_normalFrom_cons (k : Nat) (u : Variable) (vs : List Variable) (v : Variable) :
    renamed (normalFrom k (u :: vs)) v =
      if v.name = u.name then ⟨"V" ++ toString k, u.sort⟩ else renamed (normalFrom (k + 1) vs) v := by
  rw [renamed, normalFrom, List.map_cons, numberedVariables, List.zip_cons_cons, InsMap.lookup_cons]
  split <;> rfl

theorem renamed_normalFrom_mem {k : Nat} {vs : List Variable} {v : Variable} (h : v ∈ vs) :
    renamed (normalFrom k vs) v ∈ numberedVariables k vs := by
  induction vs generalizing k with
  | nil => exact absurd h List.not_mem_nil
  | cons u vs ih =>
    rw [renamed_normalFrom_cons, numberedVariables]
    split
    · exact List.mem_cons_self
    · rename_i other
      have later : v ∈ vs := (List.mem_cons.mp h).resolve_left fun same => other (congrArg Variable.name same)
      exact List.mem_cons_of_mem _ (ih later)

section

variable {D : Domain}

/-- The second assignment gives the new names of the variables the values that the variables have in the first. -/
def Tracked (subs : List (String × Variable)) (l : List Variable) (env env' : Env D) : Prop :=
  ∀ v ∈ l, (⟨v.sort, env v⟩ : Val D) = ⟨(renamed subs v).sort, env' (renamed subs v)⟩

theorem Tracked.mono {subs : List (String × Variable)} {l m : List Variable} {env env' : Env D}
    (h : Tracked subs l env env') (sub : m ⊆ l) : Tracked subs m env env' := fun v hv => h v (sub hv)

theorem Env.exists_off_same (env' : Env D) (vs : List Variable) (envA : Env D) :
    ∃ envB, env'.Off vs envB ∧ ∀ v ∈ vs, envB v = envA v := by
  classical
  exact ⟨fun v => if v ∈ vs then envA v else env' v, fun v hv => if_neg hv, fun v hv => if_pos hv⟩

/-- What a quantifier needs: the same values for its variables on both sides. -/
theorem Tracked.under {subs : List (String × Variable)} {vs l : List Variable} {env env' envA envB : Env D}
    (h : Tracked subs (unboundNames vs l) env env') (fits : ∀ v ∈ l, ∀ w ∈ vs, v.name = w.name → v = w)
    (clear : ∀ v ∈ l, v.name ∉ vs.map Variable.name → (renamed subs v).name ∉ vs.map Variable.name)
    (off : env.Off vs envA) (off' : env'.Off vs envB) (same : ∀ v ∈ vs, envB v = envA v) :
    Tracked (TExpr.removeBoundNames subs vs) l envA envB := by
  intro v hv
  have new := @renamed_removeBoundNames subs vs v
  by_cases bound : v.name ∈ vs.map Variable.name
  · obtain ⟨w, hw, name⟩ := List.mem_map.mp bound
    obtain rfl := fits v hv w hw name.symm
    rw [new, if_pos bound, same v hw]
  · rename' bound => free
    rw [if_neg free] at new
    have here : v ∉ vs := fun mem => free (List.mem_map_of_mem mem)
    have there : renamed subs v ∉ vs := fun mem => clear v hv free (List.mem_map_of_mem mem)
    rw [new, off v here, off' _ there]
    exact h v (List.mem_filter.mpr ⟨hv, by simpa using free⟩)

theorem Tracked.exists_off_iff {subs : List (String × Variable)} {vs l : List Variable} {env env' : Env D}
    (h : Tracked subs (unboundNames vs l) env env') (fits : ∀ v ∈ l, ∀ w ∈ vs, v.name = w.name → v = w)
    (clear : ∀ v ∈ l, v.name ∉ vs.map Variable.name → (renamed subs v).name ∉ vs.map Variable.name)
    {P Q : Env D → Prop} (body : ∀ envA envB, Tracked (TExpr.removeBoundNames subs vs) l envA envB → (Q envB ↔ P envA)) :
    (∃ envB, env'.Off vs envB ∧ Q envB) ↔ ∃ envA, env.Off vs envA ∧ P envA := by
  constructor
  · rintro ⟨envB, off', holds⟩
    obtain ⟨envA, off, same⟩ := Env.exists_off_same env vs envB
    exact ⟨envA, off, (body _ _ (h.under fits clear off off' fun v hv => (same v hv).symm)).mp holds⟩
  · rintro ⟨envA, off, holds⟩
    obtain ⟨envB, off', same⟩ := Env.exists_off_same env' vs envA
    exact ⟨envB, off', (body _ _ (h.under fits clear off off' same)).mpr holds⟩

theorem Tracked.forall_off_iff {subs : List (String × Variable)} {vs l : List Variable} {env env' : Env D}
    (h : Tracked subs (unboundNames vs l) env env') (fits : ∀ v ∈ l, ∀ w ∈ vs, v.name = w.name → v = w)
    (clear : ∀ v ∈ l, v.name ∉ vs.map Variable.name → (renamed subs v).name ∉ vs.map Variable.name)
    {P Q : Env D → Prop} (body : ∀ envA envB, Tracked (TExpr.removeBoundNames subs vs) l envA envB → (Q envB ↔ P envA)) :
    (∀ envB, env'.Off vs envB → Q envB) ↔ ∀ envA, env.Off vs envA → P envA := by
  have dual := h.exists_off_iff fits clear fun envA envB t => not_congr (body envA envB t)
  grind

theorem Env.bindArgs_self (env : Env D) (v : Variable) (vs : List Variable) (x : El D v.sort) (xs : List (Val D)) :
    env.bindArgs (v :: vs) (⟨v.sort, x⟩ :: xs) v = x :=
  dif_pos (⟨rfl, rfl⟩ : v = v ∧ v.sort = v.sort)

theorem Env.bindArgs_other (env : Env D) (v : Variable) (vs : List Variable) (x : Val D) (xs : List (Val D))
    {w : Variable} (other : w ≠ v) : env.bindArgs (v :: vs) (x :: xs) w = env.bindArgs vs xs w :=
  dif_neg fun h => other h.1

/-- The numbered variables have the values of the arguments of a binder. -/
theorem value_bindArgs {vs : List Variable} (nodup : (vs.map Variable.name).Nodup) (k : Nat) (env₀ env : Env D) :
    ∀ v ∈ vs, (⟨v.sort, env v⟩ : Val D) = ⟨(renamed (normalFrom k vs) v).sort,
      (env₀.bindArgs (numberedVariables k vs) (vs.map fun v => ⟨v.sort, env v⟩)) (renamed (normalFrom k vs) v)⟩ := by
  induction vs generalizing k with
  | nil => simp
  | cons u vs ih =>
    rw [List.map_cons, List.nodup_cons] at nodup
    intro v hv
    rw [renamed_normalFrom_cons]
    by_cases name : v.name = u.name
    · obtain rfl : v = u := (List.mem_cons.mp hv).resolve_right fun mem => nodup.1 (name ▸ List.mem_map_of_mem mem)
      rw [if_pos rfl, numberedVariables, List.map_cons]
      exact congrArg (Sigma.mk v.sort) (Env.bindArgs_self env₀ ⟨"V" ++ toString k, v.sort⟩ _ (env v) _).symm
    · have later : v ∈ vs := (List.mem_cons.mp hv).resolve_left fun same => name (congrArg Variable.name same)
      have other : renamed (normalFrom (k + 1) vs) v ≠ ⟨"V" ++ toString k, u.sort⟩ := by
        intro same
        obtain ⟨j, le, hj⟩ := name_of_mem_numberedVariables (renamed_normalFrom_mem (k := k + 1) later)
        rw [same] at hj
        have := numbered_injective hj
        omega
      rw [if_neg name, numberedVariables, List.map_cons, Env.bindArgs_other _ _ _ _ _ other]
      exact ih nodup.2 (k + 1) v later

end

section

variable {D : Domain} (M : Nat → Structure D) (W : WhenReading D)

/-- The operator that a binder stands for, with its body. -/
noncomputable def reading (name : String) (e : TExpr) (i : Nat) (env : Env D) : Val D :=
  match whenBinder name with
  | some name => W.value name (fun j => e.eval M W j env) (fun j => e.guard M W j env) i
  | none => .ofProp (∀ j, i ≤ j → (e.eval M W j env).Holds)

/-- `e'` has the value that `e` has, and as the body of a `when` binder the same condition. -/
def SameReading (e' : TExpr) (env' : Env D) (e : TExpr) (env : Env D) : Prop :=
  ∀ j, e'.eval M W j env' = e.eval M W j env ∧ (e'.guard M W j env' ↔ e.guard M W j env)

theorem SameReading.reading {e' e : TExpr} {env' env : Env D} (h : SameReading M W e' env' e env) (name : String) (i : Nat) :
    reading M W name e' i env' = reading M W name e i env := by
  have values : (fun j => e'.eval M W j env') = fun j => e.eval M W j env := funext fun j => (h j).1
  have guards : (fun j => e'.guard M W j env') = fun j => e.guard M W j env := funext fun j => propext (h j).2
  rw [Goivy.reading, Goivy.reading, values, guards]
  simp only [fun j => (h j).1]

/-- A renaming of the variables `l` in `e` is undone by an assignment. -/
def Renames (e : TExpr) (l : List Variable) (subs : List (String × Variable)) : Prop :=
  ∀ env env' : Env D, Tracked subs l env env' → SameReading M W (e.substituteByName subs) env' e env

section

variable {M W} {e : TExpr} {l : List Variable}

theorem Renames.bound (h : Renames M W e l (normalSubs (firstByName l))) (one : OneSort l) (env₀ env : Env D) :
    SameReading M W (e.substituteByName (normalSubs (firstByName l)))
      (env₀.bindArgs (numberedVariables 0 (firstByName l)) ((firstByName l).map fun v => ⟨v.sort, env v⟩)) e env := by
  refine h env _ fun v hv => ?_
  obtain ⟨w, hw, name⟩ := exists_mem_firstByName v hv
  obtain rfl := one w (mem_of_mem_firstByName w hw) v hv name
  exact value_bindArgs (nodup_firstByName l) 0 env₀ env w hw

/-- A binder over the free variables of `e`, with these renamed, is read as the operator over `e`. -/
theorem eval_substituteByName_bindFreeVariables (order : SameOrder e.occurrences l) (one : OneSort l)
    (h : Renames M W e l (normalSubs (firstByName l))) {subs : List (String × Variable)}
    (closed : l = [] → Renames M W e l subs) {env env' : Env D} (tracked : Tracked subs l env env') (name : String) (i : Nat) :
    ((bindFreeVariables name e).substituteByName subs).eval M W i env' = reading M W name e i env := by
  have bound := h.bound one env' env
  simp only [bindFreeVariables, normalizeFreeVariables, freeVariablesInOrder, show firstByName e.occurrences = firstByName l from order]
  cases vars : firstByName l with
  | nil =>
    have none := eq_nil_of_firstByName vars
    rw [numberedVariables, List.map_nil, List.zip_nil_left, substituteByName_nil, applyNamedBinder, substituteByName]
    exact (closed none env env' tracked).reading M W name i
  | cons v vs =>
    rw [vars] at bound
    have args : TExpr.evalList M W (substituteByNameList ((v :: vs).map .var) subs) i env' =
        (v :: vs).map fun v => ⟨v.sort, env v⟩ := by
      rw [substituteByNameList_eq_map, TExpr.evalList_eq_map, List.map_map, List.map_map]
      refine List.map_congr_left fun w hw => (tracked w ?_).symm
      exact mem_of_mem_firstByName w (vars ▸ hw)
    rw [applyNamedBinder, substituteByName]
    show reading M W name _ i (env'.bindArgs _ (TExpr.evalList M W _ i env')) = _
    rw [args]
    exact bound.reading M W name i

theorem tracked_nil (l : List Variable) (env : Env D) : Tracked [] l env env := fun v _ => by
  rw [renamed_of_none List.lookup_nil]

theorem eval_bindFreeVariables (order : SameOrder e.occurrences l) (one : OneSort l)
    (h : Renames M W e l (normalSubs (firstByName l))) (name : String) (i : Nat) (env : Env D) :
    (bindFreeVariables name e).eval M W i env = reading M W name e i env := by
  have closed : l = [] → Renames M W e l [] := fun none => by
    subst none
    exact h
  have value := eval_substituteByName_bindFreeVariables order one h closed (tracked_nil l env) name i
  rwa [substituteByName_nil] at value

theorem Tracked.append {subs : List (String × Variable)} {l m : List Variable} {env env' : Env D}
    (h : Tracked subs (l ++ m) env env') : Tracked subs l env env' ∧ Tracked subs m env env' :=
  ⟨h.mono (List.subset_append_left _ _), h.mono (List.subset_append_right _ _)⟩

theorem Renames.cond {a b : TExpr} {l m : List Variable} {subs : List (String × Variable)} (ha : Renames M W a l subs)
    (hb : Renames M W b m subs) : Renames M W (.cond a b) (l ++ m) subs := by
  intro env env' tracked j
  obtain ⟨left, right⟩ := tracked.append
  exact ⟨(hb env env' right j).1, iff_of_eq (congrArg Val.Holds (ha env env' left j).1)⟩

end

theorem guard_introduceBinders {u : TExpr} {s : FSort} (h : u.OfSort s) (subs : List (String × Variable)) (j : Nat)
    (env' env : Env D) : (u.introduceBinders.substituteByName subs).guard M W j env' ↔ u.introduceBinders.guard M W j env := by
  have binder : ∀ name e, ((bindFreeVariables name e).substituteByName subs).guard M W j env' ↔
      (bindFreeVariables name e).guard M W j env := by
    intro name e
    simp only [bindFreeVariables, normalizeFreeVariables]
    cases e.freeVariablesInOrder <;> exact Iff.rfl
  cases u with
  | globally environ a => exact binder _ _
  | whenOp name a b => exact binder _ _
  | cond | binder | applyBinder => exact h.elim
  | _ => exact Iff.rfl

/-- The renaming of variables in the result: no quantifier captures, and inner binders do not see it. -/
theorem renames_introduceBinders {u : TExpr} {s : FSort} (h : u.OfSort s) (fits : u.Consistent) (clear : u.CaptureFree)
    {subs : List (String × Variable)} (capture : u.NoCapture subs) : Renames M W u.introduceBinders u.scan subs := by
  suffices values : ∀ (env env' : Env D), Tracked subs u.scan env env' → ∀ j,
      (u.introduceBinders.substituteByName subs).eval M W j env' = u.introduceBinders.eval M W j env from
    fun env env' tracked j => ⟨values env env' tracked j, guard_introduceBinders M W h subs j env' env⟩
  have list {ts : List TExpr} {subs : List (String × Variable)} {env env' : Env D} (j : Nat)
      (tracked : Tracked subs (scanList ts) env env')
      (ih : ∀ t ∈ ts, Tracked subs t.scan env env' →
        (t.introduceBinders.substituteByName subs).eval M W j env' = t.introduceBinders.eval M W j env) :
      TExpr.evalList M W (substituteByNameList (introduceBindersList ts) subs) j env' =
        TExpr.evalList M W (introduceBindersList ts) j env := by
    rw [substituteByNameList_eq_map, introduceBindersList_eq_map, TExpr.evalList_eq_map, TExpr.evalList_eq_map, List.map_map, List.map_map,
      List.map_map]
    refine List.map_congr_left fun t ht => ih t ht (tracked.mono fun v hv => ?_)
    rw [scanList_eq_flatMap]
    exact List.mem_flatMap.mpr ⟨t, ht, hv⟩
  induction u generalizing s subs with
  | var v => exact fun env env' tracked j => (tracked v List.mem_cons_self).symm
  | const c => exact fun _ _ _ _ => rfl
  | apply f ts ih =>
    obtain ⟨domain, -, sorts⟩ := h
    intro env env' tracked j
    simp only [introduceBinders, substituteByName, eval]
    rw [list j tracked fun t ht tracked => ?_]
    obtain ⟨s, hs⟩ := exists_sort sorts t ht
    exact ih t ht hs (consistentList_iff.mp fits t ht) (captureFreeList_iff.mp clear t ht) (noCaptureList_iff.mp capture t ht)
      env env' tracked j
  | and ts ih | or ts ih =>
    intro env env' tracked j
    simp only [introduceBinders, substituteByName, eval]
    rw [list j tracked fun t ht tracked => ?_]
    obtain ⟨s, hs⟩ := exists_sort h.2 t ht
    exact ih t ht hs (consistentList_iff.mp fits t ht) (captureFreeList_iff.mp clear t ht) (noCaptureList_iff.mp capture t ht)
      env env' tracked j
  | not a ha =>
    intro env env' tracked j
    simp only [introduceBinders, substituteByName, eval, ha h.2 fits clear capture env env' tracked j]
  | eventually environ a ha =>
    intro env env' tracked j
    simp only [introduceBinders, substituteByName, eval, ha h.2 fits clear capture env env' tracked]
  | globally environ a ha =>
    have body {subs : List (String × Variable)} (capture : a.NoCapture subs) : Renames M W a.introduceBinders a.scan subs :=
      fun env env' tracked j => ⟨ha h.2 fits.2 clear.2 capture env env' tracked j, guard_introduceBinders M W h.2 subs j env' env⟩
    have order := sameOrder_introduceBinders h.2
    intro env env' tracked j
    have renamed := eval_substituteByName_bindFreeVariables order fits.1 (body clear.1)
      (fun none => body (noCapture_of_unchanged (by simp [none]))) tracked (globallyName environ) j
    exact renamed.trans (eval_bindFreeVariables order fits.1 (body clear.1) _ j env).symm
  | whenOp name a b ha hb =>
    have body {subs : List (String × Variable)} (capture : a.NoCapture subs) (capture' : b.NoCapture subs) :
        Renames M W (.cond b.introduceBinders a.introduceBinders) (b.scan ++ a.scan) subs :=
      Renames.cond
        (fun env env' tracked j =>
          ⟨hb h.2 fits.2.2 clear.2.2 capture' env env' tracked j, guard_introduceBinders M W h.2 subs j env' env⟩)
        fun env env' tracked j =>
          ⟨ha h.1 fits.2.1 clear.2.1 capture env env' tracked j, guard_introduceBinders M W h.1 subs j env' env⟩
    have order : SameOrder (TExpr.cond b.introduceBinders a.introduceBinders).occurrences (b.scan ++ a.scan) :=
      (sameOrder_introduceBinders h.2).append (sameOrder_introduceBinders h.1)
    intro env env' tracked j
    have renamed := eval_substituteByName_bindFreeVariables order fits.1 (body clear.1.1 clear.1.2)
      (fun none => body (noCapture_of_unchanged (by simp [(List.append_eq_nil_iff.mp none).2]))
        (noCapture_of_unchanged (by simp [(List.append_eq_nil_iff.mp none).1]))) tracked (whenName name) j
    exact renamed.trans (eval_bindFreeVariables order fits.1 (body clear.1.1 clear.1.2) _ j env).symm
  | eq a b ha hb =>
    obtain ⟨-, t, sortA, sortB⟩ := h
    intro env env' tracked j
    obtain ⟨left, right⟩ := tracked.append
    simp only [introduceBinders, substituteByName, eval, ha sortA fits.1 clear.1 capture.1 env env' left j,
      hb sortB fits.2 clear.2 capture.2 env env' right j]
  | implies a b ha hb | iff a b ha hb =>
    intro env env' tracked j
    obtain ⟨left, right⟩ := tracked.append
    simp only [introduceBinders, substituteByName, eval, ha h.2.1 fits.1 clear.1 capture.1 env env' left j,
      hb h.2.2 fits.2 clear.2 capture.2 env env' right j]
  | ite c a b hc ha hb =>
    intro env env' tracked j
    obtain ⟨rest, right⟩ := tracked.append
    obtain ⟨guard, left⟩ := rest.append
    simp only [introduceBinders, substituteByName, eval, hc h.1 fits.1 clear.1 capture.1 env env' guard j,
      ha h.2.1 fits.2.1 clear.2.1 capture.2.1 env env' left j, hb h.2.2 fits.2.2 clear.2.2 capture.2.2 env env' right j]
  | forAll vs a ha =>
    intro env env' tracked j
    have body := tracked.forall_off_iff fits.1 capture.1 fun envA envB t => iff_of_eq (congrArg Val.Holds
      (ha h.2 fits.2 clear capture.2 envA envB t j))
    exact congrArg Val.ofProp (propext body)
  | «exists» vs a ha =>
    intro env env' tracked j
    have body := tracked.exists_off_iff fits.1 capture.1 fun envA envB t => iff_of_eq (congrArg Val.Holds
      (ha h.2 fits.2 clear capture.2 envA envB t j))
    exact congrArg Val.ofProp (propext body)
  | cond | binder | applyBinder => exact h.elim

/-- The binders mean what the operators mean. -/
theorem eval_introduceBinders {u : TExpr} {s : FSort} (h : u.OfSort s) (fits : u.Consistent) (clear : u.CaptureFree)
    (i : Nat) (env : Env D) : u.introduceBinders.eval M W i env = u.eval M W i env := by
  have list {ts : List TExpr} (i : Nat) (env : Env D)
      (ih : ∀ t ∈ ts, t.introduceBinders.eval M W i env = t.eval M W i env) :
      TExpr.evalList M W (introduceBindersList ts) i env = TExpr.evalList M W ts i env := by
    rw [introduceBindersList_eq_map, TExpr.evalList_eq_map, TExpr.evalList_eq_map, List.map_map]
    exact List.map_congr_left ih
  induction u generalizing s i env with
  | var | const => rfl
  | apply f ts ih =>
    obtain ⟨domain, -, sorts⟩ := h
    simp only [introduceBinders, eval]
    rw [list i env fun t ht => ?_]
    obtain ⟨s, hs⟩ := exists_sort sorts t ht
    exact ih t ht hs (consistentList_iff.mp fits t ht) (captureFreeList_iff.mp clear t ht) i env
  | and ts ih | or ts ih =>
    simp only [introduceBinders, eval]
    rw [list i env fun t ht => ?_]
    obtain ⟨s, hs⟩ := exists_sort h.2 t ht
    exact ih t ht hs (consistentList_iff.mp fits t ht) (captureFreeList_iff.mp clear t ht) i env
  | not a ha | eventually environ a ha => simp only [introduceBinders, eval, ha h.2 fits clear]
  | globally environ a ha =>
    have body := eval_bindFreeVariables (sameOrder_introduceBinders h.2) fits.1
      (renames_introduceBinders M W h.2 fits.2 clear.2 clear.1) (globallyName environ) i env
    rw [introduceBinders, body, reading, whenBinder_globallyName]
    simp only [eval, ha h.2 fits.2 clear.2]
  | whenOp name a b ha hb =>
    have order : SameOrder (TExpr.cond b.introduceBinders a.introduceBinders).occurrences (b.scan ++ a.scan) :=
      (sameOrder_introduceBinders h.2).append (sameOrder_introduceBinders h.1)
    have body := eval_bindFreeVariables order fits.1
      ((renames_introduceBinders M W h.2 fits.2.2 clear.2.2 clear.1.2).cond
        (renames_introduceBinders M W h.1 fits.2.1 clear.2.1 clear.1.1)) (whenName name) i env
    rw [introduceBinders, body, reading, whenBinder_whenName]
    simp only [eval, TExpr.guard, ha h.1 fits.2.1 clear.2.1, hb h.2 fits.2.2 clear.2.2]
  | eq a b ha hb =>
    obtain ⟨-, t, sortA, sortB⟩ := h
    simp only [introduceBinders, eval, ha sortA fits.1 clear.1, hb sortB fits.2 clear.2]
  | implies a b ha hb | iff a b ha hb =>
    simp only [introduceBinders, eval, ha h.2.1 fits.1 clear.1, hb h.2.2 fits.2 clear.2]
  | ite c a b hc ha hb =>
    simp only [introduceBinders, eval, hc h.1 fits.1 clear.1, ha h.2.1 fits.2.1 clear.2.1, hb h.2.2 fits.2.2 clear.2.2]
  | forAll vs a ha | «exists» vs a ha => simp only [introduceBinders, eval, ha h.2 fits.2 clear]
  | cond | binder | applyBinder => exact h.elim

end

theorem normalizeNamedBindersList_eq {names : Option (List String)} {ts : List TExpr}
    (h : ∀ t ∈ ts, t.normalizeNamedBinders names = some t) : normalizeNamedBindersList names ts = some ts := by
  induction ts with
  | nil => rfl
  | cons t ts ih =>
    rw [normalizeNamedBindersList, h t List.mem_cons_self, ih fun u hu => h u (List.mem_cons_of_mem _ hu)]
    rfl

theorem numberedVariables_numberedVariables (k : Nat) (vs : List Variable) :
    numberedVariables k (numberedVariables k vs) = numberedVariables k vs := by
  induction vs generalizing k with
  | nil => rfl
  | cons v vs ih => rw [numberedVariables, numberedVariables, ih]

theorem nodup_numberedVariables (k : Nat) (vs : List Variable) : ((numberedVariables k vs).map Variable.name).Nodup := by
  induction vs generalizing k with
  | nil => exact List.nodup_nil
  | cons v vs ih =>
    rw [numberedVariables, List.map_cons, List.nodup_cons]
    refine ⟨fun mem => ?_, ih (k + 1)⟩
    obtain ⟨w, hw, same⟩ := List.mem_map.mp mem
    obtain ⟨j, le, name⟩ := name_of_mem_numberedVariables hw
    have := numbered_injective (name.symm.trans same)
    omega

theorem mem_zip_names {nvs : List Variable} : ∀ p ∈ (nvs.map Variable.name).zip nvs, p.1 = p.2.name ∧ p.2 ∈ nvs := by
  induction nvs with
  | nil => simp
  | cons v nvs ih =>
    rw [List.map_cons, List.zip_cons_cons, List.forall_mem_cons]
    exact ⟨⟨rfl, List.mem_cons_self⟩, fun p hp => ⟨(ih p hp).1, List.mem_cons_of_mem _ (ih p hp).2⟩⟩

/-- A renaming of variables to themselves. -/
theorem renamed_self {nvs : List Variable} (nodup : (nvs.map Variable.name).Nodup) {v : Variable} (hv : v ∈ nvs) :
    renamed ((nvs.map Variable.name).zip nvs).reverse v = v := by
  rw [renamed]
  cases found : ((nvs.map Variable.name).zip nvs).reverse.lookup v.name with
  | none => rfl
  | some w =>
    obtain ⟨name, mem⟩ := mem_zip_names _ (List.mem_reverse.mp (InsMap.mem_of_lookup found))
    exact List.inj_on_of_nodup_map nodup mem hv name.symm

/-- The variables that are free after a renaming. -/
theorem occurrences_substituteByName {u : TExpr} {s : FSort} (h : u.OfSort s) (subs : List (String × Variable)) :
    ∀ v ∈ (u.introduceBinders.substituteByName subs).occurrences, ∃ w ∈ u.scan, v = renamed subs w := by
  have list {ts : List TExpr} {subs : List (String × Variable)}
      (ih : ∀ t ∈ ts, ∀ v ∈ (t.introduceBinders.substituteByName subs).occurrences, ∃ w ∈ t.scan, v = renamed subs w) :
      ∀ v ∈ occurrencesList (substituteByNameList (introduceBindersList ts) subs), ∃ w ∈ scanList ts, v = renamed subs w := by
    intro v hv
    rw [occurrencesList_eq_flatMap, substituteByNameList_eq_map, introduceBindersList_eq_map, List.flatMap_map,
      List.flatMap_map, List.mem_flatMap] at hv
    obtain ⟨t, ht, hv⟩ := hv
    obtain ⟨w, hw, same⟩ := ih t ht v hv
    rw [scanList_eq_flatMap]
    exact ⟨w, List.mem_flatMap.mpr ⟨t, ht, hw⟩, same⟩
  have binder {name : String} {e : TExpr} {l : List Variable} {subs : List (String × Variable)} (order : SameOrder e.occurrences l)
      (ih : ∀ v ∈ (e.substituteByName subs).occurrences, ∃ w ∈ l, v = renamed subs w) :
      ∀ v ∈ ((bindFreeVariables name e).substituteByName subs).occurrences, ∃ w ∈ l, v = renamed subs w := by
    simp only [bindFreeVariables, normalizeFreeVariables, freeVariablesInOrder, show firstByName e.occurrences = firstByName l from order]
    cases vars : firstByName l with
    | nil =>
      rw [numberedVariables, List.map_nil, List.zip_nil_left, substituteByName_nil, applyNamedBinder, substituteByName,
        occurrences, unboundNames_nil]
      exact ih
    | cons x xs =>
      intro v hv
      rw [applyNamedBinder, substituteByName, occurrences, occurrencesList_eq_flatMap, substituteByNameList_eq_map,
        List.flatMap_map, List.flatMap_map, List.mem_flatMap] at hv
      obtain ⟨w, hw, mem⟩ := hv
      exact ⟨w, mem_of_mem_firstByName w (vars ▸ hw), List.mem_singleton.mp mem⟩
  induction u generalizing s subs with
  | var v => exact fun w hw => ⟨v, List.mem_cons_self, List.mem_singleton.mp hw⟩
  | const c => exact fun v hv => absurd hv List.not_mem_nil
  | apply f ts ih =>
    obtain ⟨domain, -, sorts⟩ := h
    refine list fun t ht => ?_
    obtain ⟨s, hs⟩ := exists_sort sorts t ht
    exact ih t ht hs subs
  | and ts ih | or ts ih =>
    refine list fun t ht => ?_
    obtain ⟨s, hs⟩ := exists_sort h.2 t ht
    exact ih t ht hs subs
  | not a ha | eventually environ a ha => exact ha h.2 subs
  | globally environ a ha => exact binder (sameOrder_introduceBinders h.2) (ha h.2 subs)
  | whenOp name a b ha hb =>
    refine binder ((sameOrder_introduceBinders h.2).append (sameOrder_introduceBinders h.1)) fun v hv => ?_
    rcases List.mem_append.mp hv with left | right
    · obtain ⟨w, hw, same⟩ := hb h.2 subs v left
      exact ⟨w, List.mem_append_left _ hw, same⟩
    · obtain ⟨w, hw, same⟩ := ha h.1 subs v right
      exact ⟨w, List.mem_append_right _ hw, same⟩
  | forAll vs a ha | «exists» vs a ha =>
    intro v hv
    obtain ⟨mem, free⟩ := List.mem_filter.mp hv
    rw [decide_eq_true_eq] at free
    obtain ⟨w, hw, same⟩ := ha h.2 (TExpr.removeBoundNames subs vs) v mem
    rw [renamed_removeBoundNames] at same
    split at same
    · rename_i bound
      exact absurd (same ▸ bound) free
    · rename_i unbound
      exact ⟨w, List.mem_filter.mpr ⟨hw, by simpa using unbound⟩, same⟩
  | eq a b ha hb =>
    obtain ⟨-, t, sortA, sortB⟩ := h
    intro v hv
    rcases List.mem_append.mp hv with left | right
    · obtain ⟨w, hw, same⟩ := ha sortA subs v left
      exact ⟨w, List.mem_append_left _ hw, same⟩
    · obtain ⟨w, hw, same⟩ := hb sortB subs v right
      exact ⟨w, List.mem_append_right _ hw, same⟩
  | implies a b ha hb | iff a b ha hb =>
    intro v hv
    rcases List.mem_append.mp hv with left | right
    · obtain ⟨w, hw, same⟩ := ha h.2.1 subs v left
      exact ⟨w, List.mem_append_left _ hw, same⟩
    · obtain ⟨w, hw, same⟩ := hb h.2.2 subs v right
      exact ⟨w, List.mem_append_right _ hw, same⟩
  | ite c a b hc ha hb =>
    intro v hv
    rcases List.mem_append.mp hv with rest | right
    · rcases List.mem_append.mp rest with guard | left
      · obtain ⟨w, hw, same⟩ := hc h.1 subs v guard
        exact ⟨w, List.mem_append_left _ (List.mem_append_left _ hw), same⟩
      · obtain ⟨w, hw, same⟩ := ha h.2.1 subs v left
        exact ⟨w, List.mem_append_left _ (List.mem_append_right _ hw), same⟩
    · obtain ⟨w, hw, same⟩ := hb h.2.2 subs v right
      exact ⟨w, List.mem_append_right _ hw, same⟩
  | cond | binder | applyBinder => exact h.elim

end Goivy
