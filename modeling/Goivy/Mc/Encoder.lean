import Goivy.Mc.Aiger
import Goivy.Mc.Interp

/-! Expressions of finite sorts as vectors of literals. -/
namespace Goivy

abbrev ArithOp := Aiger → Nat → List Nat → List Nat → Aiger × List Nat

structure Encoder where
  inputs : List Const
  latches : List Const
  outputs : List Const
  encoding : Const → Option (List String)
  sub : Aiger
  ops : String → Option ArithOp
  isConstructor : Const → Bool
  constructorIndexFn : Const → Nat × Nat
  interp : Interpretation

/-- What evaluating an expression gives: an encoder with more gates, and literals. -/
abbrev Evaluated := Except EvalError (Encoder × List Nat)

/-- The callback for a symbol without encoding. -/
abbrev GetDefFunc := Encoder → Const → Evaluated

namespace Encoder

def bitNames (name : String) (n : Nat) : List String :=
  (List.range n).map (fun i => name ++ "[" ++ toString i ++ "]")

def encodeVars (interp : Interpretation) :
    List Const → (Const → Option (List String)) →
      Except EvalError ((Const → Option (List String)) × List String)
  | [], encoding => .ok (encoding, [])
  | sym :: syms, encoding => do
    let n ← getEncodingBitsWithInterp sym.sort interp
    let vs := bitNames sym.name n
    let (encoding, res) ← encodeVars interp syms (Function.update encoding sym (some vs))
    return (encoding, vs ++ res)

/-- `NewEncoder`. -/
def new (inputs latches outputs : List Const) (interp : Interpretation) : Except EvalError Encoder := do
  let (encoding, subInputs) ← encodeVars interp inputs (fun _ => none)
  let (encoding, subLatches) ← encodeVars interp latches encoding
  let (encoding, subOutputs) ← encodeVars interp outputs encoding
  return ⟨inputs, latches, outputs, encoding, .new subInputs subLatches subOutputs, fun _ => none,
    fun _ => false, fun _ => (0, 1), interp⟩

def constructorIndex (interp : Interpretation) (sym : Const) : Nat × Nat :=
  match sym.sort with
  | .function _ _ => (0, 1)
  | .first s =>
    match getSortTheory s interp, s with
    | .sort (.enumerated _ extension), _ | _, .enumerated _ extension =>
      if sym.name ∈ extension then (extension.idxOf sym.name, extension.length)
      else (0, extension.length)
    | _, _ => (0, 1)

/-- The encoder that `ToAiger` makes: it knows the constructors of the signature. -/
def ofSignature (constructors : List String) (inputs latches outputs : List Const)
    (interp : Interpretation) : Except EvalError Encoder := do
  let enc ← new inputs latches outputs interp
  return { enc with isConstructor := fun sym => sym.name ∈ constructors,
                    constructorIndexFn := constructorIndex interp }

def lit (enc : Encoder) (sym : Const) : Option (List Nat) :=
  (enc.encoding sym).bind (fun names => names.mapM enc.sub.varMap)

/-- A function that adds gates, bit by bit, as far as the first argument goes. -/
def zipBits (op : Aiger → Nat → Nat → Aiger × Nat) :
    Aiger → List Nat → List Nat → Except EvalError (Aiger × List Nat)
  | a, [], _ => .ok (a, [])
  | _, _ :: _, [] => .error .outOfRange
  | a, x :: xs, y :: ys => do
    let (a', res) ← zipBits op (op a x y).1 xs ys
    return (a', (op a x y).2 :: res)

/-- A function of all arguments at each bit. A missing bit is the literal zero. -/
def foldBits (op : Aiger → List Nat → Aiger × Nat) (args : List (List Nat)) :
    Aiger → List Nat → Aiger × List Nat
  | a, [] => (a, [])
  | a, i :: is =>
    let (a, l) := op a (args.map (fun x => x.getD i 0))
    let (a, res) := foldBits op args a is
    (a, l :: res)

def andlMulti (a : Aiger) : List (List Nat) → Aiger × List Nat
  | [] => (a, [1])
  | x :: args => foldBits Aiger.andl (x :: args) a (List.range x.length)

def orlMulti (a : Aiger) : List (List Nat) → Aiger × List Nat
  | [] => (a, [0])
  | x :: args => foldBits Aiger.orl (x :: args) a (List.range x.length)

def notlMulti (arg : List Nat) : List Nat := arg.map Aiger.notl

def impliesMulti : Aiger → List Nat → List Nat → Except EvalError (Aiger × List Nat) :=
  zipBits Aiger.impliesL

def iffMulti : Aiger → List Nat → List Nat → Except EvalError (Aiger × List Nat) :=
  zipBits Aiger.iff

def encodeIte (a : Aiger) (cond : Nat) (thenBits elseBits : List Nat) :
    Except EvalError (Aiger × List Nat) :=
  zipBits (fun a x y => a.ite cond x y) a thenBits elseBits

def binEnc (m : Int) (n : Nat) : List Nat :=
  (List.range n).map (fun i => if n - 1 - i < 64 ∧ m / 2 ^ (n - 1 - i) % 2 = 1 then 1 else 0)

/-- At least `n`. The shift by a negative number panics. -/
def geBin (a : Aiger) : List Nat → Int → Except EvalError (Aiger × Nat)
  | [], n => if n = 0 then .ok (a, 1) else if 1 ≤ n then .ok (a, 0) else .error .outOfRange
  | b :: bits, n =>
    if n = 0 then .ok (a, 1)
    else if shiftOne (bits.length + 1) ≤ n then .ok (a, 0)
    else if shiftOne bits.length ≤ n then do
      let (a, l) ← geBin a bits (machineInt (n - shiftOne bits.length))
      return a.andl [b, l]
    else do
      let (a, l) ← geBin a bits n
      return a.orl [b, l]

/-- The loop over the arguments of an equality. -/
def geAll (a : Aiger) (n : Int) : List (List Nat) → Except EvalError (Aiger × List Nat)
  | [] => .ok (a, [])
  | x :: args => do
    let (a, l) ← geBin a x n
    let (a, ls) ← geAll a n args
    return (a, l :: ls)

def encodeEquality (a : Aiger) (nvals : Int) :
    List (List Nat) → Except EvalError (Aiger × List Nat)
  | x :: y :: args => do
    let (a, iffBits) ← zipBits Aiger.iff a x y
    let (a, eqs) := a.andl iffBits
    let (a, geBits) ← geAll a (machineInt (nvals - 1)) (x :: y :: args)
    let (a, alt) := a.andl geBits
    let (a, res) := a.orl [eqs, alt]
    return (a, [res])
  | _ => .ok (a, [1])

/-- A circuit with more gates and its literals, for this encoder. -/
def withSub (enc : Encoder) (r : Aiger × List Nat) : Encoder × List Nat :=
  ({ enc with sub := r.1 }, r.2)

/-- A symbol that is no constructor and no numeral. -/
def evalSymbol (enc : Encoder) (getdef : Option GetDefFunc) (sym : Const) : Evaluated :=
  match enc.lit sym, getdef with
  | some l, _ => .ok (enc, l)
  | none, some getdef => getdef enc sym
  | none, none => .error (.noDefinition sym.name)

def evalConstructor (enc : Encoder) (sym : Const) : Evaluated :=
  let (idx, total) := enc.constructorIndexFn sym
  .ok (enc, binEnc idx (ceilLog2 total))

mutual
def evalRec (getdef : Option GetDefFunc) (enc : Encoder) : Expr → Evaluated
  | .ite c t e => do
    let (enc, cond) ← evalRec getdef enc c
    let (enc, thenTerm) ← evalRec getdef enc t
    let (enc, elseTerm) ← evalRec getdef enc e
    match cond with
    | [] => .error .outOfRange
    | c :: _ => return enc.withSub (← encodeIte enc.sub c thenTerm elseTerm)
  | .apply sym ts =>
    if enc.isConstructor sym then enc.evalConstructor sym
    else if isNumeralName sym.name ∧ isInterpretedSort sym.sort then
      .ok (enc, binEnc (parseNum sym.name) (sortBits sym.sort))
    else
      match enc.ops sym.name, ts with
      | some opFn, ts => do
        let (enc, args) ← evalTerms getdef enc ts
        match args with
        | x :: y :: _ => return enc.withSub (opFn enc.sub x.length x y)
        | _ => .error (.fewArguments sym.name)
      | none, [] => enc.evalSymbol getdef sym
      | none, ts => .error (.nonNullary (.apply sym ts))
  | .const sym =>
    if enc.isConstructor sym then enc.evalConstructor sym
    else if isNumeralName sym.name then
      match sym.sort with
      | .first s => do return (enc, binEnc (parseNum sym.name) (← getEncodingBits s enc.interp))
      | .function _ s => .error (.badSort s)
    else enc.evalSymbol getdef sym
  | .and ts => do
    let (enc, args) ← evalTerms getdef enc ts
    return enc.withSub (andlMulti enc.sub args)
  | .or ts => do
    let (enc, args) ← evalTerms getdef enc ts
    return enc.withSub (orlMulti enc.sub args)
  | .not e => do
    let (enc, v) ← evalRec getdef enc e
    return (enc, notlMulti v)
  | .implies a b => do
    let (enc, lhs) ← evalRec getdef enc a
    let (enc, rhs) ← evalRec getdef enc b
    return enc.withSub (← impliesMulti enc.sub lhs rhs)
  | .iff a b => do
    let (enc, lhs) ← evalRec getdef enc a
    let (enc, rhs) ← evalRec getdef enc b
    return enc.withSub (← iffMulti enc.sub lhs rhs)
  | .eq a b => do
    let (enc, lhs) ← evalRec getdef enc a
    let (enc, rhs) ← evalRec getdef enc b
    let nvals := getSortSizeWithInterp a.nodeSort.range enc.interp
    return enc.withSub (← encodeEquality enc.sub nvals [lhs, rhs])
  | e => .error (.unimplemented e)
def evalTerms (getdef : Option GetDefFunc) (enc : Encoder) :
    List Expr → Except EvalError (Encoder × List (List Nat))
  | [] => .ok (enc, [])
  | t :: ts => do
    let (enc, v) ← evalRec getdef enc t
    let (enc, vs) ← evalTerms getdef enc ts
    return (enc, v :: vs)
end

def eval (enc : Encoder) (e : Expr) (getdef : Option GetDefFunc) : Evaluated := do
  let (enc, res) ← evalRec getdef enc e
  if res = [] then .error (.emptyResult e) else .ok (enc, res)

end Encoder

/-- `isTrueNode`. -/
def isTrueNode : Expr → Bool
  | .and [] => true
  | .const c => c.name = "true"
  | _ => false

def bitsToBoolExprs (s : List Char) : List Expr := s.map (fun b => if b = '1' then .tru else .fls)

/-- The loop of `binDecBool`. -/
def binDecFrom (res : Int) : List Expr → Int
  | [] => res
  | bit :: bits =>
    binDecFrom (if isTrueNode bit then machineInt (res + shiftOne bits.length) else res) bits

def binDecBool (bits : List Expr) : Int := binDecFrom 0 bits

/-- `DecodeVal`, which panics where it returns no expression. -/
def decodeVal (interp : Interpretation) (bits : List Expr) (v : Const) : Except EvalError Expr :=
  let num := binDecBool bits
  match v.sort with
  | .function _ _ => .error (.unexpectedSort v.name v.sort)
  | .first s =>
    match getSortTheory s interp with
    | .sort (.enumerated _ vals) =>
      let num := if vals.length ≤ num then (vals.length : Int) - 1 else num
      match if 0 ≤ num then vals[num.toNat]? else none with
      | some val => .ok (.const ⟨val, v.sort⟩)
      | none => .error .outOfRange
    | .sort (.range _ _ ub) =>
      .ok (.const ⟨itoa (if (atoi ub).1 < num then (atoi ub).1 else num), v.sort⟩)
    | .theory (.bitVector _) => .ok (.const ⟨itoa num, v.sort⟩)
    | _ =>
      if s = .boolean then
        match bits with
        | [] => .error .outOfRange
        | bit :: _ => .ok bit
      else .error (.unexpectedSort v.name v.sort)

/-- `GetSym`: the value of a symbol in a simulated state. -/
def Encoder.getSym (enc : Encoder) (s : Aiger.SimState) (v : Const) : Except EvalError (Option Expr) :=
  match enc.encoding v with
  | none | some [] => .ok none
  | some names => some <$> decodeVal enc.interp (bitsToBoolExprs (enc.sub.symVals s names)) v

end Goivy
