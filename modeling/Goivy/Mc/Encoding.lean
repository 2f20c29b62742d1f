import Goivy.Mc.Callback
import Goivy.Util.NumberedName

/-! The bits of the symbols of an encoder, and the exact condition on the sorts under which
the circuits of all expressions are right. -/
namespace Goivy

/-- A name and a position can be read off the name of a bit. -/
theorem bitName_inj {name name' : String} {i j : Nat}
    (same : name ++ "[" ++ toString i ++ "]" = name' ++ "[" ++ toString j ++ "]") :
    name = name' ∧ i = j := by
  have opened := (String.append_left_inj _).mp same
  exact numberedName_inj (c := '[') rfl (by decide) opened

namespace Encoder

theorem mem_bitNames {n name : String} {k : Nat} (h : n ∈ bitNames name k) :
    ∃ i < k, n = name ++ "[" ++ toString i ++ "]" := by
  obtain ⟨i, hi, rfl⟩ := List.mem_map.mp h
  exact ⟨i, List.mem_range.mp hi, rfl⟩

theorem bitNames_nodup (name : String) (k : Nat) : (bitNames name k).Nodup :=
  List.nodup_range.map fun _ _ same => (bitName_inj same).2

theorem bogus_notMem (name : String) (k : Nat) : Aiger.bogus ∉ bitNames name k := by
  intro h
  obtain ⟨i, -, same⟩ := mem_bitNames h
  have last := congrArg (fun s => s.toList.reverse.head?) same
  simp [String.toList_append, Aiger.bogus] at last

/-- The names of all bits of some symbols. -/
def subNames (b : Const → Nat) (syms : List Const) : List String :=
  syms.flatMap (fun x => bitNames x.name (b x))

theorem subNames_nodup {syms : List Const} (names : (syms.map Const.name).Nodup) (b : Const → Nat) :
    (subNames b syms).Nodup := by
  rw [subNames, List.nodup_flatMap]
  refine ⟨fun x _ => bitNames_nodup x.name (b x), ?_⟩
  rw [List.Nodup, List.pairwise_map] at names
  refine names.imp fun {x y} differ n hx hy => ?_
  obtain ⟨i, -, rfl⟩ := mem_bitNames hx
  obtain ⟨j, -, same⟩ := mem_bitNames hy
  exact differ (bitName_inj same).1

theorem encodeVars_eq {interp : Interpretation} {b : Const → Nat} {syms : List Const}
    (bits : ∀ x ∈ syms, getEncodingBitsWithInterp x.sort interp = .ok (b x))
    (encoding : Const → Option (List String)) :
    encodeVars interp syms encoding =
      .ok (fun y => if y ∈ syms then some (bitNames y.name (b y)) else encoding y,
        subNames b syms) := by
  induction syms generalizing encoding with
  | nil => simp [encodeVars, subNames]
  | cons x syms ih =>
    rw [List.forall_mem_cons] at bits
    simp only [encodeVars, bits.1, bind, Except.bind, ih bits.2, pure, Except.pure, subNames,
      List.flatMap_cons, List.mem_cons]
    refine congrArg (fun f => Except.ok (f, _)) (funext fun y => ?_)
    by_cases here : y = x
    · subst here
      simp [Function.update_self]
    · simp [here]

/-- What `ToAiger` makes of symbols that have numbers of bits. -/
structure Built (enc : Encoder) (sig : Signature) (inputs latches : List Const) (b : Const → Nat) :
    Prop where
  interp : enc.interp = sig.interp
  isConstructor : ∀ x, enc.isConstructor x = decide (x.name ∈ sig.constructors)
  index : enc.constructorIndexFn = constructorIndex sig.interp
  numbered : enc.sub.Numbered
  named : enc.sub.Named
  encoding : ∀ x ∈ inputs ++ latches, enc.encoding x = some (bitNames x.name (b x))
  subInputs : enc.sub.inputs = subNames b inputs ++ [Aiger.bogus]
  subLatches : enc.sub.latches = subNames b latches

theorem ofSignature_built (sig : Signature) (inputs latches outputs : List Const) {b : Const → Nat}
    (names : ((inputs ++ latches).map Const.name).Nodup)
    (bits : ∀ x ∈ inputs ++ latches ++ outputs,
      getEncodingBitsWithInterp x.sort sig.interp = .ok (b x)) :
    ∃ enc, ofSignature sig.constructors inputs latches outputs sig.interp = .ok enc ∧
      enc.Built sig inputs latches b := by
  have distinct : (subNames b inputs ++ [Aiger.bogus] ++ subNames b latches).Nodup := by
    rw [List.append_assoc, List.singleton_append, List.nodup_middle, List.nodup_cons, subNames,
      subNames, ← List.flatMap_append]
    refine ⟨fun h => ?_, subNames_nodup names b⟩
    obtain ⟨x, -, hx⟩ := List.mem_flatMap.mp h
    exact bogus_notMem _ _ hx
  obtain ⟨subInputs, subLatches, named, numbered⟩ := Aiger.new_spec (subNames b outputs) distinct
  have ofInputs := encodeVars_eq fun x hx =>
    bits x (List.mem_append_left _ (List.mem_append_left _ hx))
  have ofLatches := encodeVars_eq fun x hx =>
    bits x (List.mem_append_left _ (List.mem_append_right _ hx))
  have ofOutputs := encodeVars_eq fun x hx => bits x (List.mem_append_right _ hx)
  simp only [ofSignature, new, ofInputs, ofLatches, ofOutputs, bind, Except.bind, pure, Except.pure]
  refine ⟨_, rfl, ⟨rfl, fun _ => rfl, rfl, numbered, named, fun x hx => ?_, subInputs, subLatches⟩⟩
  by_cases output : x ∈ outputs
  · simp only [if_pos output]
  · by_cases latch : x ∈ latches
    · simp only [if_neg output, if_pos latch]
    · have input : x ∈ inputs := (List.mem_append.mp hx).resolve_right latch
      simp only [if_neg output, if_neg latch, if_pos input]

theorem Built.lit {enc : Encoder} {sig : Signature} {inputs latches : List Const} {b : Const → Nat}
    (built : enc.Built sig inputs latches b) {x : Const} (hx : x ∈ inputs ++ latches) :
    enc.lit x = some ((bitNames x.name (b x)).map enc.sub.lit) ∧
      ∀ n ∈ bitNames x.name (b x), enc.sub.lit n < 2 * enc.sub.nextID := by
  have known : ∀ n ∈ bitNames x.name (b x), n ∈ enc.sub.inputs ++ enc.sub.latches := by
    intro n hn
    rw [built.subInputs, built.subLatches]
    obtain input | latch := List.mem_append.mp hx
    · exact List.mem_append_left _ (List.mem_append_left _ (List.mem_flatMap.mpr ⟨x, input, hn⟩))
    · exact List.mem_append_right _ (List.mem_flatMap.mpr ⟨x, latch, hn⟩)
  have entries : ∀ n ∈ bitNames x.name (b x), enc.sub.varMap n = some (enc.sub.lit n) := by
    intro n hn
    obtain ⟨i, lit, pos, -⟩ := Aiger.lit_named built.named (known n hn)
    cases entry : enc.sub.varMap n with
    | none =>
      rw [Aiger.lit, entry] at lit
      simp only [Option.getD_none] at lit
      omega
    | some l => rw [Aiger.lit, entry, Option.getD_some]
  have mapped : ∀ names : List String, (∀ n ∈ names, enc.sub.varMap n = some (enc.sub.lit n)) →
      names.mapM enc.sub.varMap = some (names.map enc.sub.lit) := by
    intro names
    induction names with
    | nil => exact fun _ => rfl
    | cons n names ih =>
      intro entries
      rw [List.forall_mem_cons] at entries
      simp [List.mapM_cons, entries.1, ih entries.2]
  refine ⟨?_, fun n hn => ?_⟩
  · rw [Encoder.lit, built.encoding x hx, Option.bind_some, mapped _ entries]
  · obtain ⟨i, lit, -, lt⟩ := Aiger.lit_named built.named (known n hn)
    have := built.numbered.nextID
    omega

end Encoder

/-- The simulated bits of literals. -/
theorem bitsToBoolExprs_eq {k : Nat} {s : Aiger.SimState} (below : Aiger.BitsBelow k s)
    {ls : List Nat} (exist : ∀ l ∈ ls, l < 2 * k) :
    bitsToBoolExprs (ls.map (Aiger.getIn s)) = (ls.map (litValue (Aiger.bits s))).map boolExpr := by
  rw [bitsToBoolExprs, List.map_map, List.map_map]
  refine List.map_congr_left fun l hl => ?_
  rw [Function.comp, Function.comp, Aiger.getIn_eq below (exist l hl)]
  cases litValue (Aiger.bits s) l <;> rfl

theorem Encoder.Built.getSym_eq {enc : Encoder} {sig : Signature} {inputs latches : List Const}
    {b : Const → Nat} (built : enc.Built sig inputs latches b) {x : Const}
    (hx : x ∈ inputs ++ latches) {s : FSort} (sort : x.sort = .first s) {th : FiniteTheory}
    (h : HasTheory s sig.interp th) (encodable : th.Encodable) (width : b x = th.width) {a : Aiger}
    (grows : enc.sub.Grows a) {st : Aiger.SimState} (below : Aiger.BitsBelow a.nextID st) :
    Encoder.getSym { enc with sub := a } st x = .ok (some (th.value s (min (binary
      (((bitNames x.name (b x)).map enc.sub.lit).map (litValue (Aiger.bits st)))) th.last))) := by
  have length : (bitNames x.name (b x)).length = th.width := by
    rw [bitNames, List.length_map, List.length_range, width]
  have read : a.symVals st (bitNames x.name (b x)) =
      ((bitNames x.name (b x)).map enc.sub.lit).map (Aiger.getIn st) := by
    rw [Aiger.symVals, List.map_map]
    exact List.map_congr_left fun n _ => by rw [Function.comp, Aiger.lit, Aiger.lit, grows.varMap]
  have exist : ∀ l ∈ (bitNames x.name (b x)).map enc.sub.lit, l < 2 * a.nextID :=
    List.forall_mem_map.mpr fun n hn => grows.exists_ ((built.lit hx).2 n hn)
  have bitCount : (((bitNames x.name (b x)).map enc.sub.lit).map
      (litValue (Aiger.bits st))).length = th.width := by
    rw [List.length_map, List.length_map, length]
  have decoded := decodeVal_eq h encodable bitCount x.name
  obtain ⟨name, rfl⟩ : ∃ name, x = ⟨name, .first s⟩ := ⟨x.name, by rw [← sort]⟩
  have entry := built.encoding _ hx
  have pos := FiniteTheory.width_pos encodable
  unfold getSym
  simp only [entry, built.interp]
  split
  · contradiction
  · rename_i empty
    rw [Option.some.inj empty] at length
    exact absurd (length ▸ pos) (by decide)
  · rename_i names _ same
    rw [← Option.some.inj same, read, bitsToBoolExprs_eq below exist, decoded]
    rfl

theorem Aiger.Grows.named {a a' : Aiger} (grows : a.Grows a') (named : a.Named) : a'.Named := by
  rw [Named, grows.inputs, grows.latches, ← named]
  exact List.map_congr_left fun x _ => by rw [lit, lit, grows.varMap]

namespace Signature

/-- The circuit of an expression is built, and in every simulated state the bits of its
result decode to a value of its sort, the one of the expression where every symbol denotes
the value of its own bits. -/
def Computes (sig : Signature) (inputs latches outputs : List Const) (getdef : Option GetDefFunc)
    (e : Expr) (s : FSort) : Prop :=
  ∃ enc enc' ls, Encoder.ofSignature sig.constructors inputs latches outputs sig.interp = .ok enc ∧
    enc.eval e getdef = .ok (enc', ls) ∧
    ∀ st, enc'.sub.LatchBits st → ∀ inp : List Bool, inp.length = enc'.sub.inputs.length →
      ∃ st', enc'.sub.step st (inp.map bitChar) = some st' ∧ ∀ name, ∃ d,
        decodeVal sig.interp (bitsToBoolExprs (ls.map (Aiger.getIn st'))) ⟨name, .first s⟩ = .ok d ∧
        (∃ th, HasTheory s sig.interp th ∧ th.IsValue s d) ∧
        ∀ (D : Domain) (M : Structure D) (number : (s : FSort) → Int → El D s) (env : Env D),
          sig.Standard M number →
          (∀ x ∈ inputs ++ latches, ∀ dx, enc'.getSym st' x = .ok (some dx) →
            (Expr.const x).eval M env = dx.eval M env) →
          e.eval M env = d.eval M env

variable {sig : Signature} {inputs latches outputs : List Const}

theorem encodingBits_eq (encodable : sig.Encodable) {x : Const}
    (sort : ∃ s ∈ .boolean :: sig.sorts, x.sort = .first s) :
    ∃ s th, s ∈ .boolean :: sig.sorts ∧ x.sort = .first s ∧ HasTheory s sig.interp th ∧
      getEncodingBitsWithInterp x.sort sig.interp = .ok th.width := by
  obtain ⟨s, mem, sort⟩ := sort
  obtain ⟨th, h⟩ := theory_of_mem mem
  refine ⟨s, th, mem, sort, h, ?_⟩
  rw [sort, getEncodingBitsWithInterp, getEncodingBits_eq h (encodable.theory mem h)]

/-- The encoder for symbols of the signature is made, and has literals for their bits. -/
theorem ofSignature_ready (encodable : sig.Encodable) (declares : sig.Declares (inputs ++ latches))
    (outputSorts : ∀ x ∈ outputs, ∃ s ∈ .boolean :: sig.sorts, x.sort = .first s) :
    ∃ enc b, Encoder.ofSignature sig.constructors inputs latches outputs sig.interp = .ok enc ∧
      enc.Built sig inputs latches b ∧ enc.Ready sig (inputs ++ latches) ∧
      (∀ x ∈ inputs ++ latches ++ outputs, getEncodingBitsWithInterp x.sort sig.interp = .ok (b x)) ∧
      ∀ x ∈ inputs ++ latches ++ outputs, ∀ s, x.sort = .first s → ∀ th, HasTheory s sig.interp th →
        b x = th.width := by
  classical
  let b : Const → Nat := fun x => ((getEncodingBitsWithInterp x.sort sig.interp).toOption).getD 0
  have bits : ∀ x ∈ inputs ++ latches ++ outputs,
      getEncodingBitsWithInterp x.sort sig.interp = .ok (b x) := by
    intro x hx
    have sort : ∃ s ∈ .boolean :: sig.sorts, x.sort = .first s := by
      obtain hx | hx := List.mem_append.mp hx
      · exact declares.sorts x hx
      · exact outputSorts x hx
    obtain ⟨-, th, -, -, -, eq⟩ := encodingBits_eq encodable sort
    simp only [b, eq]
    rfl
  obtain ⟨enc, made, built⟩ := Encoder.ofSignature_built sig inputs latches outputs declares.names bits
  have width : ∀ x ∈ inputs ++ latches ++ outputs, ∀ s, x.sort = .first s → ∀ th, HasTheory s sig.interp th →
      b x = th.width := by
    intro x hx s sort th h
    have known : ∃ s ∈ .boolean :: sig.sorts, x.sort = .first s := by
      rcases List.mem_append.mp hx with hx | hx
      · exact declares.sorts x hx
      · exact outputSorts x hx
    obtain ⟨t, th', mem, sort', h', eq⟩ := encodingBits_eq encodable known
    obtain rfl : s = t := LSort.first.inj (sort.symm.trans sort')
    rw [h.unique h']
    exact Except.ok.inj ((bits x hx).symm.trans eq)
  have ready : enc.Ready sig (inputs ++ latches) := by
    refine ⟨built.interp, built.isConstructor, built.index, built.numbered, ?_⟩
    intro x hx s sort th h
    obtain ⟨lit, exist⟩ := built.lit hx
    refine ⟨_, lit, ?_, List.forall_mem_map.mpr exist⟩
    rw [List.length_map, Encoder.bitNames, List.length_map, List.length_range, width x (List.mem_append_left _ hx) s sort th h]
  exact ⟨enc, b, made, built, ready, bits, width⟩

theorem computes (encodable : sig.Encodable) (declares : sig.Declares (inputs ++ latches))
    (outputSorts : ∀ x ∈ outputs, ∃ s ∈ .boolean :: sig.sorts, x.sort = .first s)
    (getdef : Option GetDefFunc) {e : Expr} {s : FSort}
    (ws : sig.WellSorted (inputs ++ latches) e s) :
    sig.Computes inputs latches outputs getdef e s := by
  obtain ⟨enc, b, made, built, ready, -, width⟩ := ofSignature_ready encodable declares outputSorts
  have mem := ws.theory declares
  obtain ⟨th, h⟩ := theory_of_mem mem
  have ok := encodable.theory mem h
  obtain ⟨r, here⟩ := Encoder.evaluates getdef declares encodable ready ws th h enc.sub
    (.refl built.numbered)
  have nonempty : r.2 ≠ [] := by
    intro empty
    have := FiniteTheory.width_pos ok
    rw [← here.length, empty] at this
    exact absurd this (by decide)
  have evaluated : enc.eval e getdef = .ok ({ enc with sub := r.1 }, r.2) := by
    rw [Encoder.eval, show enc = { enc with sub := enc.sub } from rfl, here.result]
    simp only [bind, Except.bind, if_neg nonempty]
  refine ⟨enc, _, _, made, evaluated, fun st latchBits inp length => ?_⟩
  obtain ⟨st', step, below, settled, -, -⟩ := Aiger.step_spec here.grows.numbered
    (here.grows.named built.named) latchBits length
  refine ⟨st', step, fun name => ⟨th.value s (min (binary (r.2.map (litValue (Aiger.bits st')))) th.last),
    ?_, ⟨th, h, value_isValue ok (Nat.min_le_right ..)⟩, ?_⟩⟩
  · rw [bitsToBoolExprs_eq below here.exists_]
    exact decodeVal_eq h ok (by rw [List.length_map, here.length]) name
  · intro D M number env standard symbols
    refine here.means _ settled D M number env standard fun x hx s sort th h ls lit => ?_
    obtain ⟨lits, exist⟩ := built.lit hx
    obtain rfl := Option.some.inj (lits.symm.trans lit)
    refine symbols x hx _ ?_
    have xMem : s ∈ .boolean :: sig.sorts := by
      obtain ⟨t, ht, sort'⟩ := declares.sorts x hx
      rwa [LSort.first.inj (sort.symm.trans sort')]
    exact built.getSym_eq hx sort h (encodable.theory xMem h) (width x (List.mem_append_left _ hx) s sort th h) here.grows below

end Signature

end Goivy
