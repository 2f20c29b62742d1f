import Goivy.Proof.Goal
import Goivy.Util.InsMap

/-! The proof checker: its tables and the calls that admit definitions and propositions. -/
namespace Goivy

/-- `Redefinition`, `Circular`, `NoMatch` and `ProofError`, with their messages and nodes. -/
inductive ProofErr where
  | redefinition (msg : String) (node : LabeledFormula)
  | circular (msg : String) (node : LabeledFormula)
  | noMatch (msg : String) (node : LabeledFormula)
  | proofError (msg : String)

structure ProofChecker where
  axioms : List LabeledFormula
  definitions : InsMap String LabeledFormula
  schemata : InsMap String LabeledFormula
  stale : Finset String

/-- The tactics: they read the tables and do not write them. -/
abbrev Prover (Proof : Type) :=
  ProofChecker → List LabeledFormula → Proof → Except ProofErr (List LabeledFormula)

def constNames (cs : List Const) : Finset String := (cs.map Const.name).toFinset

/-- The key of a given definition: the defined symbol, or else the label. -/
def definitionKey (d : LabeledFormula) : String :=
  match d.definition? with
  | some defn =>
    match defn.defines with
    | .const c => if c.name = "" then d.labelName else c.name
    | _ => d.labelName
  | none => d.labelName

/-- `NewProofChecker`. -/
def newProofChecker (axioms definitions : List LabeledFormula)
    (schemata : List (String × LabeledFormula)) : ProofChecker where
  axioms := axioms.map .normalize
  definitions := definitions.foldl (fun m d => m.set (definitionKey d) d.normalize) .empty
  schemata :=
    (axioms.filter (·.label.isSome)).foldl (fun m ax => m.set ax.labelName ax)
      (schemata.foldl (fun m s => m.set s.1 s.2.normalize) .empty)
  stale := constNames ((axioms ++ definitions).flatMap LabeledFormula.staleSymbols) ∪
    constNames (schemata.flatMap (·.2.vocabSymbols))

namespace ProofChecker

variable {Proof : Type} (prover : Prover Proof) (pc : ProofChecker)

/-- `ApplyProof`. -/
def applyProof (goals : List LabeledFormula) (proof : Option Proof) :
    Except ProofErr (List LabeledFormula) :=
  match goals, proof with
  | [], _ => .ok []
  | _, none => .error (.proofError "nil proof supplied")
  | goals, some p => prover pc goals p

/-- The tables after the symbols of a right-hand side are marked. -/
def mark (deps : List Const) : ProofChecker := { pc with stale := pc.stale ∪ constNames deps }

/-- `AdmitDefinition`. -/
def admitDefinition (defn : LabeledFormula) (proof : Option Proof) :
    ProofChecker × Except ProofErr (List LabeledFormula) :=
  let defn := defn.normalize
  match defn.definition? with
  | none => (pc, .error (.proofError "admit_definition: formula is not a Definition"))
  | some d =>
    match d.defines with
    | .const sym =>
      if (pc.definitions.get sym.name).isSome then
        (pc, .error (.redefinition ("redefinition of " ++ sym.name) defn))
      else if sym.name ∈ pc.stale then
        (pc, .error (.circular ("symbol " ++ sym.name ++ " defined after reference") defn))
      else
        -- the symbols are marked before the proof is looked at
        let pc := pc.mark d.rhs.symbols
        let subgoals :=
          if sym.name ∈ constNames d.rhs.symbols then
            if proof.isNone then .error (.noMatch "no proof given for recursive definition" defn)
            else pc.applyProof prover [defn] proof
          else .ok []
        match subgoals with
        | .error e => (pc, .error e)
        | .ok subgoals =>
          ({ pc with definitions := pc.definitions.set sym.name defn }, .ok subgoals)
    | _ => (pc, .error (.proofError "admit_definition: defines() did not return a Symbol"))

/-- `AdmitProposition`. -/
def admitProposition (prop : LabeledFormula) (proof : Option Proof)
    (existingSubgoals : List LabeledFormula) :
    ProofChecker × Except ProofErr (List LabeledFormula) :=
  let prop := prop.normalize
  if prop.definition?.isSome then pc.admitDefinition prover prop proof
  else if proof.isNone then (pc, .error (.noMatch "no proof given for property" prop))
  else
    let subgoals := if existingSubgoals.isEmpty then [prop] else existingSubgoals
    match pc.applyProof prover subgoals proof with
    | .error e => (pc, .error e)
    | .ok subgoals =>
      ({ pc with
          axioms := pc.axioms ++ [prop]
          schemata := if prop.label.isSome then pc.schemata.set prop.labelName prop else pc.schemata
          stale := pc.stale ∪ constNames prop.vocabSymbols }, .ok subgoals)

end ProofChecker

/-- The calls on a checker. -/
inductive Call (Proof : Type) where
  | admitDefinition (defn : LabeledFormula) (proof : Option Proof)
  | admitProposition (prop : LabeledFormula) (proof : Option Proof)
      (existingSubgoals : List LabeledFormula)
  | applyProof (goals : List LabeledFormula) (proof : Option Proof)

namespace ProofChecker

variable {Proof : Type} (prover : Prover Proof) (pc : ProofChecker)

def step : Call Proof → ProofChecker × Except ProofErr (List LabeledFormula)
  | .admitDefinition defn proof => pc.admitDefinition prover defn proof
  | .admitProposition prop proof existing => pc.admitProposition prover prop proof existing
  | .applyProof goals proof => (pc, pc.applyProof prover goals proof)

def run (calls : List (Call Proof)) : ProofChecker :=
  calls.foldl (fun pc call => (pc.step prover call).1) pc

/-- The goal that a call puts into the tables. -/
def subject : Call Proof → Option LabeledFormula
  | .admitDefinition defn _ => some defn.normalize
  | .admitProposition prop _ _ =>
    if prop.normalize.definition?.isSome then some prop.normalize.normalize else some prop.normalize
  | .applyProof _ _ => none

/-- What a call admits. -/
def admits (call : Call Proof) : Option LabeledFormula :=
  match (pc.step prover call).2 with
  | .ok _ => subject call
  | .error _ => none

/-- What the calls admit, in order. -/
def history (pc : ProofChecker) : List (Call Proof) → List LabeledFormula
  | [] => []
  | call :: calls =>
    (pc.admits prover call).toList ++ history (pc.step prover call).1 calls

end ProofChecker

end Goivy
