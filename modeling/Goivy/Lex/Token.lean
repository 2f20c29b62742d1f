import Mathlib

/-! Tokens, and the words that each language version reserves. -/
namespace Goivy.Lex

inductive TokenType where
  | eof | error | comma | lparen | rparen | lcb | rcb | lb | rb | semi | colon | dot | dots
  | dotdotdot | plus | minus | times | div | eq | tildaeq | tilda | le | lt | ge | gt | and | or
  | arrow | iff | assign | pto | dollar | caret | symbol | variable | nativequote
  | kwRelation | kwIndiv | kwFunction | kwAxiom | kwConjecture | kwSchema | kwInstantiate
  | kwDerived | kwConcept | kwInit | kwAction | kwMethod | kwField | kwState | kwAssume
  | kwAssert | kwSet | kwNull | kwOld | kwFrom | kwUpdate | kwParams | kwIn | kwMatch
  | kwEnsures | kwRequires | kwModifies | kwTrue | kwFalse | kwFresh | kwModule | kwObject
  | kwClass | kwType | kwIf | kwElse | kwLocal | kwLet | kwCall | kwEntry | kwMacro
  | kwInterpret | kwForall | kwExists | kwReturns | kwMixin | kwBefore | kwAfter | kwIsolate
  | kwWith | kwExport | kwDelegate | kwImport | kwUsing | kwInclude | kwProgress | kwRely
  | kwMixord | kwExtract | kwDestructor | kwSome | kwMaximizing | kwMinimizing | kwPrivate
  | kwImplement | kwProperty | kwWhile | kwInvariant | kwStruct | kwDefinition | kwGhost
  | kwAlias | kwTrusted | kwThis | kwVar | kwAttribute | kwVariant | kwOf | kwScenario | kwProof
  | kwNamed | kwTemporal | kwGlobally | kwEventually | kwDecreases | kwSpecification
  | kwImplementation | kwGlobal | kwCommon | kwEnsure | kwRequire | kwAround | kwParameter
  | kwApply | kwTheorem | kwShowgoals | kwDefergoal | kwSpoil | kwExplicit | kwThunk | kwIsa
  | kwAutoinstance | kwConstructor | kwFinite | kwTactic | kwUnfold | kwForget | kwDebug | kwFor
  | kwSubclass | kwWhenfirst | kwWhenlast | kwWhenprev | kwWhennext | kwUnprovable | kwTrigger
deriving DecidableEq, Repr

structure Token where
  type : TokenType
  value : List UInt8
  line : Nat
  column : Nat
deriving DecidableEq, Repr

/-- The bytes of an ASCII text. -/
def bytes (text : String) : List UInt8 := text.toList.map (fun c => UInt8.ofNat c.toNat)

/-- `allReserved`. -/
def allReserved : List (String × TokenType) :=
  [("relation", .kwRelation), ("individual", .kwIndiv), ("function", .kwFunction),
   ("axiom", .kwAxiom), ("conjecture", .kwConjecture), ("schema", .kwSchema),
   ("instantiate", .kwInstantiate), ("instance", .kwInstantiate), ("derived", .kwDerived),
   ("concept", .kwConcept), ("init", .kwInit), ("action", .kwAction), ("method", .kwMethod),
   ("field", .kwField), ("state", .kwState), ("assume", .kwAssume), ("assert", .kwAssert),
   ("set", .kwSet), ("null", .kwNull), ("old", .kwOld), ("from", .kwFrom),
   ("update", .kwUpdate), ("params", .kwParams), ("in", .kwIn), ("match", .kwMatch),
   ("ensures", .kwEnsures), ("requires", .kwRequires), ("modifies", .kwModifies),
   ("true", .kwTrue), ("false", .kwFalse), ("fresh", .kwFresh), ("module", .kwModule),
   ("template", .kwModule), ("object", .kwObject), ("class", .kwClass), ("type", .kwType),
   ("if", .kwIf), ("else", .kwElse), ("local", .kwLocal), ("let", .kwLet), ("call", .kwCall),
   ("entry", .kwEntry), ("macro", .kwMacro), ("interpret", .kwInterpret), ("forall", .kwForall),
   ("exists", .kwExists), ("returns", .kwReturns), ("mixin", .kwMixin), ("execute", .kwMixin),
   ("before", .kwBefore), ("after", .kwAfter), ("isolate", .kwIsolate), ("with", .kwWith),
   ("export", .kwExport), ("delegate", .kwDelegate), ("import", .kwImport), ("using", .kwUsing),
   ("include", .kwInclude), ("progress", .kwProgress), ("rely", .kwRely), ("mixord", .kwMixord),
   ("extract", .kwExtract), ("process", .kwExtract), ("destructor", .kwDestructor),
   ("some", .kwSome), ("maximizing", .kwMaximizing), ("minimizing", .kwMinimizing),
   ("private", .kwPrivate), ("implement", .kwImplement), ("property", .kwProperty),
   ("while", .kwWhile), ("invariant", .kwInvariant), ("struct", .kwStruct),
   ("definition", .kwDefinition), ("ghost", .kwGhost), ("alias", .kwAlias),
   ("trusted", .kwTrusted), ("this", .kwThis), ("var", .kwVar), ("attribute", .kwAttribute),
   ("variant", .kwVariant), ("of", .kwOf), ("scenario", .kwScenario), ("proof", .kwProof),
   ("named", .kwNamed), ("temporal", .kwTemporal), ("globally", .kwGlobally),
   ("eventually", .kwEventually), ("decreases", .kwDecreases),
   ("specification", .kwSpecification), ("implementation", .kwImplementation),
   ("global", .kwGlobal), ("common", .kwCommon), ("ensure", .kwEnsure), ("require", .kwRequire),
   ("around", .kwAround), ("parameter", .kwParameter), ("apply", .kwApply),
   ("theorem", .kwTheorem), ("showgoals", .kwShowgoals), ("defergoal", .kwDefergoal),
   ("spoil", .kwSpoil), ("explicit", .kwExplicit), ("thunk", .kwThunk), ("isa", .kwIsa),
   ("autoinstance", .kwAutoinstance), ("constructor", .kwConstructor), ("finite", .kwFinite),
   ("tactic", .kwTactic), ("unfold", .kwUnfold), ("forget", .kwForget), ("debug", .kwDebug),
   ("for", .kwFor), ("subclass", .kwSubclass), ("whenfirst", .kwWhenfirst),
   ("whenlast", .kwWhenlast), ("whenprev", .kwWhenprev), ("whennext", .kwWhennext),
   ("unprovable", .kwUnprovable), ("trigger", .kwTrigger)]

/-- A language version like 1.7. -/
abbrev Version := Int × Int

/-- The version is at most this one: `vle` in `buildReserved`. -/
def vle (v : Version) (major minor : Int) : Bool := v.1 < major || (v.1 == major && v.2 ≤ minor)

/-- The words that `buildReserved` deletes. -/
def deletedWords (v : Version) : List String :=
  (if vle v 1 0 then
    ["state", "local"]
  else []) ++
  (if vle v 1 1 then
    ["returns", "mixin", "before", "after", "isolate", "with", "export", "delegate", "import",
     "include"]
  else
    ["state", "set", "null", "match"]) ++
  (if vle v 1 4 then
    ["function", "class", "object", "method", "execute", "destructor", "some", "maximizing",
     "minimizing", "private", "implement", "using", "property", "while", "invariant", "struct",
     "definition", "ghost", "alias", "trusted", "this", "var", "attribute", "scenario", "proof",
     "named", "fresh"]
  else []) ++
  (if vle v 1 5 then
    ["variant", "of", "globally", "eventually", "temporal"]
  else []) ++
  (if vle v 1 6 then
    ["decreases", "specification", "implementation", "require", "ensure", "around", "parameter",
     "apply", "theorem", "showgoals", "spoil", "explicit", "thunk", "isa", "autoinstance",
     "constructor", "tactic", "finite", "unfold", "forget"]
  else []) ++
  (if vle v 1 7 then
    ["global", "common", "debug", "field", "for", "process", "subclass", "template",
     "whenfirst", "whenlast", "whennext", "whenprev", "unprovable", "trigger"]
  else
    ["requires", "ensures"])

/-- `buildReserved`. -/
def buildReserved (v : Version) : List (String × TokenType) :=
  allReserved.filter (fun p => p.1 ∉ deletedWords v)

/-- The token type of a reserved word. -/
def lookupWord (reserved : List (String × TokenType)) (word : List UInt8) : Option TokenType :=
  (reserved.find? (fun p => bytes p.1 = word)).map Prod.snd

end Goivy.Lex
