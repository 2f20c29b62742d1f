import Goivy.Logic.Key
import Goivy.UnitRes.NodeStoreSpec

/-! The store of equal terms over the expressions and their keys. -/
namespace Goivy.NodeStore

/-- `nodeName`; `string` is the method `String`. -/
def nodeName (string : LogicExpr → String) : LogicExpr → String
  | .var v => v.name
  | .const name _ => name
  | t => string t

def congClosOrderKey (string : LogicExpr → String) (t : LogicExpr) : String :=
  nodeName string t ++ "\x00" ++ nodeKey t

/-- After every run, terms are found equal exactly when the unions that are not undone join them,
the found term is the least one that the store holds for the class, and a further union says
whether it changes anything. -/
theorem run_refines (string : LogicExpr → String) (script : List (Op LogicExpr)) :
    ∃ cc, run nodeKey (congClosOrderKey string) script = some cc ∧ ∀ a b,
      let live := (Unions.run script).current
      (∃ x y cc₁ cc₂, cc.find nodeKey a = some (x, cc₁) ∧ cc₁.find nodeKey b = some (y, cc₂) ∧
        (x = y ↔ Joined nodeKey live a b)) ∧
      (∃ x cc', cc.find nodeKey a = some (x, cc') ∧ x ∈ cc'.terms ∧ Joined nodeKey live a x ∧
        ∀ s, Joined nodeKey live a s → ∃ s' ∈ cc'.terms, nodeKey s' = nodeKey s ∧
          congClosOrderKey string x ≤ congClosOrderKey string s') ∧
      ∃ changed cc', cc.union nodeKey (congClosOrderKey string) a b = some (changed, cc') ∧
        (changed = true ↔ ¬ Joined nodeKey live a b) := by
  have refined : ∃ cc, run nodeKey (congClosOrderKey string) script = some cc ∧
      Inv nodeKey (congClosOrderKey string) cc (Unions.run script) := run_spec script
  obtain ⟨cc, run, inv⟩ := refined
  refine ⟨cc, run, fun a b => ⟨find_eq_iff inv a b, find_least inv a, ?_⟩⟩
  obtain ⟨changed, cc', union, iff, _⟩ := union_spec inv a b
  exact ⟨changed, cc', union, iff⟩

end Goivy.NodeStore
