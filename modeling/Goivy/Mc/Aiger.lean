import Goivy.Mc.Circuit

/-! The circuit builder and its simulator. -/
namespace Goivy

/-- The maps are total: a missing entry reads as zero. -/
structure Aiger where
  inputs : List String
  latches : List String
  outputs : List String
  gates : List (Nat × Nat × Nat)
  varMap : String → Option Nat
  nextID : Nat
  values : String → Option Nat

namespace Aiger

/-- The input that works around a fault of a model checker. -/
def bogus : String := "%%bogus%%"

/-- Gives the next literal to a name. -/
def addVar (a : Aiger) (x : String) : Aiger :=
  { a with varMap := Function.update a.varMap x (some (a.nextID * 2)), nextID := a.nextID + 1 }

/-- `NewAiger`. -/
def new (inputs latches outputs : List String) : Aiger :=
  (inputs ++ [bogus] ++ latches).foldl addVar
    ⟨inputs ++ [bogus], latches, outputs, [], fun _ => none, 1, fun _ => none⟩

def lit (a : Aiger) (x : String) : Nat := (a.varMap x).getD 0

def value (a : Aiger) (x : String) : Nat := (a.values x).getD 0

def define (a : Aiger) (sym : String) (val : Nat) : Aiger :=
  { a with varMap := Function.update a.varMap sym (some val) }

/-- `Set`. -/
def set (a : Aiger) (sym : String) (val : Nat) : Aiger :=
  { a with values := Function.update a.values sym (some val) }

def addGate (a : Aiger) (x y : Nat) : Aiger × Nat :=
  ({ a with gates := a.gates ++ [(a.nextID * 2, x, y)], nextID := a.nextID + 1 }, a.nextID * 2)

/-- The loop of `Andl` over the rest of its arguments. -/
def andlFrom (a : Aiger) (res : Nat) : List Nat → Aiger × Nat
  | [] => (a, res)
  | x :: xs => (a.addGate res x).1.andlFrom (a.addGate res x).2 xs

def andl (a : Aiger) : List Nat → Aiger × Nat
  | [] => (a, 1)
  | x :: xs => a.andlFrom x xs

def notl (arg : Nat) : Nat := 2 * (arg / 2) + (1 - arg % 2)

def orl (a : Aiger) (args : List Nat) : Aiger × Nat :=
  match args with
  | [] => (a, 0)
  | args => ((a.andl (args.map notl)).1, notl (a.andl (args.map notl)).2)

def ite (a : Aiger) (x y z : Nat) : Aiger × Nat :=
  let (a, l1) := a.andl [x, y]
  let (a, l2) := a.andl [notl x, z]
  a.orl [l1, l2]

def iff (a : Aiger) (x y : Nat) : Aiger × Nat :=
  let (a, l1) := a.andl [x, y]
  let (a, l2) := a.andl [notl x, notl y]
  a.orl [l1, l2]

def impliesL (a : Aiger) (x y : Nat) : Aiger × Nat := a.orl [notl x, y]

def xor (a : Aiger) (x y : Nat) : Aiger × Nat :=
  let (a, l) := a.iff x y
  (a, notl l)

/-- The numbers of the AAG text. -/
def circuit (a : Aiger) : Circuit where
  inputs := a.inputs.map a.lit
  latches := a.latches.map (fun x => (a.lit x, a.value x))
  outputs := a.outputs.map a.value
  gates := a.gates

/-- The counts of its first line: variables, inputs, latches, outputs and gates. -/
def header (a : Aiger) : List Nat :=
  [a.nextID - 1, a.inputs.length, a.latches.length, a.outputs.length,
    a.nextID - 1 - (a.inputs.length + a.latches.length)]

/-- A line of numbers. -/
def line (numbers : List Nat) : String := " ".intercalate (numbers.map toString) ++ "\n"

/-- `String`. -/
def string (a : Aiger) : String :=
  "aag " ++ line a.header ++
    String.join (a.circuit.inputs.map (fun l => line [l]) ++
      a.circuit.latches.map (fun p => line [p.1, p.2]) ++
      a.circuit.outputs.map (fun l => line [l]) ++
      a.circuit.gates.map (fun g => line [g.1, g.2.1, g.2.2]))

/-- The simulated bytes of the positive literals. -/
abbrev SimState := Nat → Char

def reset (a : Aiger) : SimState :=
  a.latches.foldl (fun s x => Function.update s (a.lit x) '0') (fun _ => Char.ofNat 0)

def getIn (s : SimState) (gi : Nat) : Char :=
  if gi = 0 then '0'
  else if gi = 1 then '1'
  else if gi % 2 = 1 then (if s (gi - 1) = '1' then '0' else '1')
  else s gi

/-- The value of a gate from the state so far. -/
def stepGate (s : SimState) (g : Nat × Nat × Nat) : SimState :=
  Function.update s g.1 (if getIn s g.2.1 = '1' ∧ getIn s g.2.2 = '1' then '1' else '0')

/-- `Step`, which panics on an input of another length. -/
def step (a : Aiger) (s : SimState) (inp : List Char) : Option SimState :=
  if inp.length ≠ a.inputs.length then none
  else
    some (a.gates.foldl stepGate
      ((a.inputs.zip inp).foldl (fun s p => Function.update s (a.lit p.1) p.2) s))

/-- `Advance`: the latches are updated one after the other. -/
def advance (a : Aiger) (s : SimState) : SimState :=
  a.latches.foldl (fun s x => Function.update s (a.lit x) (getIn s (a.value x))) s

/-- `SymVals`. -/
def symVals (a : Aiger) (s : SimState) (syms : List String) : List Char :=
  syms.map (fun x => getIn s (a.lit x))

/-- `SymNextVals`. -/
def symNextVals (a : Aiger) (s : SimState) (syms : List String) : List Char :=
  syms.map (fun x => getIn s (a.value x))

/-- The latch and output values that `Step`, read after each step, and `Advance` give. -/
def simulate (a : Aiger) : SimState → List (List Char) → Option (List (List Char × List Char))
  | _, [] => some []
  | s, inp :: inps => do
    let s ← a.step s inp
    let cycles ← a.simulate (a.advance s) inps
    return (a.symVals s a.latches, a.symNextVals s a.outputs) :: cycles

end Aiger

/-- An operation on a circuit that was made by `NewAiger`. -/
inductive AigerOp where
  | andl (args : List Nat)
  | orl (args : List Nat)
  | ite (x y z : Nat)
  | iff (x y : Nat)
  | impliesL (x y : Nat)
  | xor (x y : Nat)
  | define (sym : String) (val : Nat)
  | set (sym : String) (val : Nat)

/-- The literals that an operation is given. -/
def AigerOp.literals : AigerOp → List Nat
  | .andl args => args
  | .orl args => args
  | .ite x y z => [x, y, z]
  | .iff x y => [x, y]
  | .impliesL x y => [x, y]
  | .xor x y => [x, y]
  | .define _ val => [val]
  | .set _ val => [val]

namespace Aiger

def apply (a : Aiger) : AigerOp → Aiger
  | .andl args => (a.andl args).1
  | .orl args => (a.orl args).1
  | .ite x y z => (a.ite x y z).1
  | .iff x y => (a.iff x y).1
  | .impliesL x y => (a.impliesL x y).1
  | .xor x y => (a.xor x y).1
  | .define sym val => a.define sym val
  | .set sym val => a.set sym val

/-- Every operation is on literals that exist at that point. -/
def Legal : Aiger → List AigerOp → Prop
  | _, [] => True
  | a, op :: ops => (∀ l ∈ op.literals, l < 2 * a.nextID) ∧ Legal (a.apply op) ops

end Aiger

end Goivy
