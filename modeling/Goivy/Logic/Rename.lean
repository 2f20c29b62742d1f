import Goivy.Logic.Semantics

/-! Symbols of an expression and their renaming.
Every renaming map of the source is built by `NewConst(newName, c.CSort)`: the new
symbol has the sort of the old one, so a map is kept as symbols with new names.
The entry set last comes first. -/
namespace Goivy

abbrev Renaming := List (Const × String)

/-- The name that the map gives to a symbol. -/
def Renaming.name (ρ : Renaming) (c : Const) : String := (ρ.lookup c).getD c.name

def Renaming.const (ρ : Renaming) (c : Const) : Const := ⟨ρ.name c, c.sort⟩

mutual
/-- `SymbolsIluAst`, in traversal order and with repetitions. -/
def Expr.symbols : Expr → List Const
  | .var _ => []
  | .const c => [c]
  | .apply f ts => f :: symbolsList ts
  | .eq a b | .implies a b | .iff a b => a.symbols ++ b.symbols
  | .not a => a.symbols
  | .and ts | .or ts => symbolsList ts
  | .ite a b c => a.symbols ++ b.symbols ++ c.symbols
  | .forAll _ a | .exists _ a | .some _ a => a.symbols
  | .someElse _ a b c => a.symbols ++ b.symbols ++ c.symbols
def symbolsList : List Expr → List Const
  | [] => []
  | t :: ts => t.symbols ++ symbolsList ts
end

mutual
/-- `RenameAST`: variables and binders stay as they are. -/
def Expr.rename (ρ : Renaming) : Expr → Expr
  | .var v => .var v
  | .const c => .const (ρ.const c)
  | .apply f ts => .apply (ρ.const f) (renameList ρ ts)
  | .eq a b => .eq (a.rename ρ) (b.rename ρ)
  | .not a => .not (a.rename ρ)
  | .and ts => .and (renameList ρ ts)
  | .or ts => .or (renameList ρ ts)
  | .implies a b => .implies (a.rename ρ) (b.rename ρ)
  | .iff a b => .iff (a.rename ρ) (b.rename ρ)
  | .ite a b c => .ite (a.rename ρ) (b.rename ρ) (c.rename ρ)
  | .forAll vs a => .forAll vs (a.rename ρ)
  | .exists vs a => .exists vs (a.rename ρ)
  | .some vs a => .some vs (a.rename ρ)
  | .someElse vs a b c => .someElse vs (a.rename ρ) (b.rename ρ) (c.rename ρ)
def renameList (ρ : Renaming) : List Expr → List Expr
  | [] => []
  | t :: ts => t.rename ρ :: renameList ρ ts
end

theorem symbolsList_eq_flatMap (ts : List Expr) : symbolsList ts = ts.flatMap Expr.symbols := by
  induction ts with
  | nil => rfl
  | cons t ts ih => simp [symbolsList, ih]

theorem renameList_eq_map (ρ : Renaming) (ts : List Expr) :
    renameList ρ ts = ts.map (Expr.rename ρ) := by
  induction ts with
  | nil => rfl
  | cons t ts ih => simp [renameList, ih]

variable {D : Domain}

/-- The structure in which a symbol means what its new name means in `M`. -/
def Structure.comap (M : Structure D) (ρ : Renaming) : Structure D :=
  fun n s => M (ρ.name ⟨n, s⟩) s

/-- Two structures give a symbol the same meaning. -/
def SameAt (M N : Structure D) (c : Const) : Prop := M c.name c.sort = N c.name c.sort

theorem SameAt.value {M N : Structure D} {c : Const} (h : SameAt M N c) :
    M.value c = N.value c := by
  funext vs
  simp only [Structure.value, show M c.name c.sort = N c.name c.sort from h]

theorem SameAt.holds_const {M N : Structure D} {c : Const} (h : SameAt M N c) (env : Env D) :
    (Expr.const c).Holds M env ↔ (Expr.const c).Holds N env := by
  simp only [Expr.Holds, Expr.eval, h.value]

theorem SameAt.symm {M N : Structure D} {c : Const} (h : SameAt M N c) : SameAt N M c := Eq.symm h

theorem SameAt.trans {M N P : Structure D} {c : Const} (h : SameAt M N c) (h' : SameAt N P c) :
    SameAt M P c := Eq.trans h h'

/-- The value depends on the meaning of the symbols that occur only. -/
theorem Expr.eval_congr {M N : Structure D} {e : Expr} (same : ∀ c ∈ e.symbols, SameAt M N c) :
    e.eval M = e.eval N := by
  funext env
  induction e generalizing env with
  | var v => rfl
  | const c =>
    have h := (same c (by simp [symbols])).value
    simp only [eval, h]
  | apply f ts ih =>
    have h := (same f (by simp [symbols])).value
    have terms : ts.map (fun t => t.eval M env) = ts.map (fun t => t.eval N env) :=
      List.map_congr_left fun t ht => ih t ht
        (fun c hc => same c (by simp only [symbols, symbolsList_eq_flatMap]; grind)) env
    simp only [eval, evalList_eq_map, h, terms]
  | and ts ih | or ts ih =>
    have terms : ts.map (fun t => t.eval M env) = ts.map (fun t => t.eval N env) :=
      List.map_congr_left fun t ht => ih t ht
        (fun c hc => same c (by simp only [symbols, symbolsList_eq_flatMap]; grind)) env
    simp only [eval, evalList_eq_map, terms]
  | not a ha | forAll vs a ha | «exists» vs a ha => simp only [eval, ha same]
  | eq a b ha hb | implies a b ha hb | iff a b ha hb =>
    simp only [symbols, List.mem_append] at same
    simp only [eval, ha fun c h => same c (.inl h), hb fun c h => same c (.inr h)]
  | some vs a ha =>
    cases vs with
    | nil => rfl
    | cons x vs => simp only [eval, funext (ha same)]
  | ite a b c ha hb hc | someElse vs a b c ha hb hc =>
    simp only [symbols, List.mem_append] at same
    simp only [eval, funext (ha fun c h => same c (.inl (.inl h))),
      funext (hb fun c h => same c (.inl (.inr h))), funext (hc fun c h => same c (.inr h))]

theorem Expr.eval_rename (M : Structure D) (ρ : Renaming) (e : Expr) :
    (e.rename ρ).eval M = e.eval (M.comap ρ) := by
  funext env
  induction e generalizing env with
  | var v => rfl
  | const c => rfl
  | apply f ts ih =>
    have terms : ts.map (fun t => (t.rename ρ).eval M env) =
        ts.map (fun t => t.eval (M.comap ρ) env) :=
      List.map_congr_left fun t ht => ih t ht env
    simp only [rename, eval, evalList_eq_map, renameList_eq_map, List.map_map,
      Function.comp_def, terms]
    rfl
  | and ts ih | or ts ih =>
    have terms : ts.map (fun t => (t.rename ρ).eval M env) =
        ts.map (fun t => t.eval (M.comap ρ) env) :=
      List.map_congr_left fun t ht => ih t ht env
    simp only [rename, eval, evalList_eq_map, renameList_eq_map, List.map_map,
      Function.comp_def, terms]
  | some vs a ha =>
    cases vs with
    | nil => rfl
    | cons x vs => simp only [rename, eval, funext ha]
  | someElse vs a b c ha hb hc => simp only [rename, eval, funext ha, funext hb, funext hc]
  | _ => simp_all only [rename, eval]

theorem Expr.holds_rename (M : Structure D) (ρ : Renaming) (e : Expr) (env : Env D) :
    (e.rename ρ).Holds M env ↔ e.Holds (M.comap ρ) env :=
  holds_congr M env (congrFun (eval_rename M ρ e) env)

theorem Expr.symbols_rename (ρ : Renaming) (e : Expr) :
    (e.rename ρ).symbols = e.symbols.map ρ.const := by
  induction e with
  | apply f ts ih | and ts ih | or ts ih =>
    have terms : ts.flatMap (fun t => (t.rename ρ).symbols) =
        ts.flatMap (fun t => t.symbols.map ρ.const) :=
      List.flatMap_congr fun t ht => ih t ht
    simp [rename, symbols, symbolsList_eq_flatMap, renameList_eq_map, List.flatMap_map,
      List.map_flatMap, terms]
  | _ => simp_all [rename, symbols]

end Goivy
