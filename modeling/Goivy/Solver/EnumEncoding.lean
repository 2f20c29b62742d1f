import Goivy.Logic.OfSort
import Goivy.Util.Binary
import Goivy.Util.NumberedName

/-! Binary encoding of the terms of an enumerated sort for the solver.
How the translator renders conditions, arguments and sorts is a parameter: what it makes
of them is a value of `A` or `S`, or an error. -/
namespace Goivy.Solver

/-- The Boolean expressions that the encoding builds. A declaration is known by its name
and its domain. -/
inductive BitExpr (A S : Type) where
  | boolVal (b : Bool)
  | const (name : String)
  | apply (name : String) (domain : List S) (args : List A)
  | translated (cond : A)
  | eq (a b : BitExpr A S)
  | ite (c a b : BitExpr A S)
  | and (es : List (BitExpr A S))
  | or (es : List (BitExpr A S))

/-- What the translator does with expressions and sorts, and the constructors that the
signature knows. A solver without signature has none. -/
structure Translator (A S : Type) where
  translate : Expr → Except String A
  translateSort : FSort → Except String S
  constructors : List String

/-- The loop of `Z3CeilLog2`. A slice has fewer than 2^62 elements, so nothing overflows,
and `n` rounds are enough. -/
@[grind =] def ceilLog2Loop (n : Nat) : Nat → Nat → Nat → Nat
  | 0, bits, _ => bits
  | fuel + 1, bits, vals => if vals < n then ceilLog2Loop n fuel (bits + 1) (vals * 2) else bits

/-- `Z3CeilLog2`. -/
def z3CeilLog2 (n : Nat) : Nat := if n ≤ 1 then 0 else ceilLog2Loop n n 0 1

/-- The Go type that an error prints. -/
def goType : Expr → String
  | .var _ => "*goivy.LogicVariable"
  | .const _ => "*goivy.Const"
  | .apply _ _ => "*goivy.Apply"
  | .eq _ _ => "*goivy.Eq"
  | .not _ => "*goivy.LogicNot"
  | .and _ => "*goivy.LogicAnd"
  | .or _ => "*goivy.LogicOr"
  | .implies _ _ => "*goivy.LogicImplies"
  | .iff _ _ => "*goivy.LogicIff"
  | .ite _ _ _ => "*goivy.LogicIte"
  | .forAll _ _ => "*goivy.ForAll"
  | .exists _ _ => "*goivy.LogicExists"
  | .some _ _ | .someElse _ _ _ _ => "*goivy.LogicSome"

section Encoding

variable {A S : Type}

/-- `BinEncZ3`. -/
def binEncZ3 (m n : Nat) : List (BitExpr A S) :=
  (List.range n).map (fun i => .boolVal (m &&& (1 <<< (n - 1 - i)) ≠ 0))

/-- `Gebin`. -/
@[grind =] def gebin : List (BitExpr A S) → Nat → BitExpr A S
  | _, 0 => .boolVal true
  | [], _ => .boolVal false
  | bit :: bits, n =>
    if n ≥ 1 <<< (bits.length + 1) then .boolVal false
    else if 1 <<< bits.length ≤ n then .and [bit, gebin bits (n - 1 <<< bits.length)]
    else .or [bit, gebin bits n]

/-- The name of a bit: the numbers go down to 0. -/
def bitName (base : String) (n i : Nat) : String := base ++ ":" ++ toString (n - 1 - i)

/-- `EncodeTermZ3`. -/
@[grind =] def encodeTermZ3 (tr : Translator A S) (n : Nat) (name : String) (extension : List String) :
    Expr → Except String (List (BitExpr A S))
  | .ite cond thenE elseE => do
    let cond ← tr.translate cond
    let thenBits ← encodeTermZ3 tr n name extension thenE
    let elseBits ← encodeTermZ3 tr n name extension elseE
    return List.zipWith (.ite (.translated cond)) thenBits elseBits
  | .const sym =>
    if sym.name ∈ tr.constructors then
      if sym.name ∈ extension then .ok (binEncZ3 (extension.idxOf sym.name) n)
      else .error ("encode_term: constructor " ++ sym.name ++ " not in sort " ++ name)
    else .error ("encode_term: unsupported term type: " ++ goType (.const sym))
  | .var v =>
    .ok ((List.range n).map fun i => .const (bitName (v.name ++ ":" ++ name) n i))
  | .apply sym terms => do
    let args ← terms.mapM tr.translate
    match sym.sort with
    | .first _ => .error ("encode_term: expected FunctionSort for " ++ sym.name)
    | .function domain _ =>
      let domSorts ← domain.mapM tr.translateSort
      return (List.range n).map fun i => .apply (bitName sym.name n i) domSorts args
  | t => .error ("encode_term: unsupported term type: " ++ goType t)

/-- The equation that `EncodeEqualityZ3` makes of the bits of two terms of `n` values. -/
def bitEquality (n : Nat) (eterms1 eterms2 : List (BitExpr A S)) : BitExpr A S :=
  let eqs := List.zipWith .eq eterms1 eterms2
  let alts := [gebin eterms1 (n - 1), gebin eterms2 (n - 1)]
  let eqConj := if eqs.isEmpty then .boolVal true else .and eqs
  .or [eqConj, .and alts]

/-- `EncodeEqualityZ3`. -/
def encodeEqualityZ3 (tr : Translator A S) (t1 t2 : Expr) (name : String)
    (extension : List String) : Except String (BitExpr A S) := do
  let n := extension.length
  let bits := z3CeilLog2 n
  let eterms1 ← encodeTermZ3 tr bits name extension t1
  let eterms2 ← encodeTermZ3 tr bits name extension t2
  return bitEquality n eterms1 eterms2

end Encoding

/-- An interpretation of the bit constants and bit functions, and of what the translator
makes of arguments and conditions. -/
structure Interp (A S V : Type) where
  const : String → Bool
  func : String → List S → List V → Bool
  arg : A → V
  holds : A → Bool

section Meaning

variable {A S V : Type}

mutual
@[grind =] def BitExpr.eval (I : Interp A S V) : BitExpr A S → Bool
  | .boolVal b => b
  | .const name => I.const name
  | .apply name domain args => I.func name domain (args.map I.arg)
  | .translated cond => I.holds cond
  | .eq a b => a.eval I == b.eval I
  | .ite c a b => bif c.eval I then a.eval I else b.eval I
  | .and es => evalAll I es
  | .or es => evalAny I es
@[grind =] def evalAll (I : Interp A S V) : List (BitExpr A S) → Bool
  | [] => true
  | e :: es => e.eval I && evalAll I es
@[grind =] def evalAny (I : Interp A S V) : List (BitExpr A S) → Bool
  | [] => false
  | e :: es => e.eval I || evalAny I es
end

mutual
/-- The bit constants and bit functions of an expression, with their domains. -/
@[grind =] def BitExpr.decls : BitExpr A S → List (String × List S)
  | .boolVal _ | .translated _ => []
  | .const name => [(name, [])]
  | .apply name domain _ => [(name, domain)]
  | .eq a b => a.decls ++ b.decls
  | .ite c a b => c.decls ++ a.decls ++ b.decls
  | .and es | .or es => declsList es
@[grind =] def declsList : List (BitExpr A S) → List (String × List S)
  | [] => []
  | e :: es => e.decls ++ declsList es
end

/-- The bits of a term under an interpretation. -/
def evalBits (I : Interp A S V) (bits : List (BitExpr A S)) : List Bool := bits.map (BitExpr.eval I)

theorem evalAll_zipWith_eq (I : Interp A S V) (xs ys : List (BitExpr A S))
    (length : xs.length = ys.length) :
    evalAll I (List.zipWith .eq xs ys) = true ↔ evalBits I xs = evalBits I ys := by
  induction xs generalizing ys with
  | nil =>
    obtain rfl := List.length_eq_zero_iff.mp length.symm
    simp [evalAll]
  | cons x xs ih =>
    cases ys with
    | nil => cases length
    | cons y ys =>
      simp only [List.zipWith_cons_cons, evalAll, BitExpr.eval, Bool.and_eq_true, beq_iff_eq,
        ih ys (Nat.succ.inj length), evalBits, List.map_cons, List.cons.injEq]

/-- `Gebin` compares the number of the bits with a constant. -/
theorem eval_gebin (I : Interp A S V) (bits : List (BitExpr A S)) (n : Nat) :
    (gebin bits n).eval I = true ↔ n ≤ binary (evalBits I bits) := by
  induction bits generalizing n with
  | nil =>
    cases n with
    | zero => simp [gebin, BitExpr.eval]
    | succ n => simp [gebin, BitExpr.eval, evalBits]
  | cons bit bits ih =>
    cases n with
    | zero => simp [gebin, BitExpr.eval]
    | succ m =>
      have below := binary_lt (evalBits I bits)
      have number : binary (evalBits I (bit :: bits)) =
          (bit.eval I).toNat * 2 ^ bits.length + binary (evalBits I bits) := by
        rw [evalBits, List.map_cons, binary_cons, List.length_map]
        rfl
      rw [evalBits, List.length_map] at below
      change binary (evalBits I bits) < _ at below
      simp only [gebin, Nat.one_shiftLeft, number]
      have double : 2 ^ (bits.length + 1) = 2 * 2 ^ bits.length := by
        rw [Nat.pow_succ, Nat.mul_comm]
      cases hb : bit.eval I <;> split
      · simp only [BitExpr.eval, Bool.false_eq_true, Bool.toNat_false, false_iff]
        omega
      · split
        · simp only [BitExpr.eval, evalAll, hb, Bool.false_and, Bool.false_eq_true, Bool.toNat_false,
            false_iff]
          omega
        · simp only [BitExpr.eval, evalAny, hb, Bool.false_or, Bool.or_false, ih, Bool.toNat_false]
          omega
      · simp only [BitExpr.eval, Bool.false_eq_true, Bool.toNat_true, false_iff]
        omega
      · split
        · simp only [BitExpr.eval, evalAll, hb, Bool.true_and, Bool.and_true, ih, Bool.toNat_true]
          omega
        · simp only [BitExpr.eval, evalAny, hb, Bool.true_or, Bool.toNat_true, true_iff]
          omega

end Meaning

theorem ceilLog2Loop_eq {n w : Nat} (small : n ≤ 2 ^ w) (least : ∀ k < w, 2 ^ k < n)
    {fuel k : Nat} (below : k ≤ w) (enough : w ≤ k + fuel) : ceilLog2Loop n fuel k (2 ^ k) = w := by
  induction fuel generalizing k with
  | zero => exact Nat.le_antisymm below enough
  | succ fuel ih =>
    rw [ceilLog2Loop]
    obtain rfl | lt := Nat.eq_or_lt_of_le below
    · rw [if_neg (Nat.not_lt.mpr small)]
    · rw [if_pos (least k lt), ← Nat.pow_succ]
      exact ih lt (by omega)

theorem z3CeilLog2_eq (n : Nat) : z3CeilLog2 n = Nat.clog 2 n := by
  unfold z3CeilLog2
  split
  · rename_i small
    exact (Nat.clog_of_right_le_one small 2).symm
  · refine ceilLog2Loop_eq (k := 0) (Nat.le_pow_clog Nat.one_lt_two n) (fun k hk => ?_)
      (Nat.zero_le _) ?_
    · exact Nat.lt_of_not_le fun le => absurd (Nat.clog_le_of_le_pow le) (Nat.not_le.mpr hk)
    · rw [Nat.zero_add]
      exact Nat.clog_le_of_le_pow Nat.lt_two_pow_self.le

theorem exists_mapM_ok {α β ε : Type} {f : α → Except ε β} {xs : List α} :
    (∃ ys, xs.mapM f = .ok ys) ↔ ∀ x ∈ xs, ∃ y, f x = .ok y := by
  induction xs with
  | nil => simp [pure, Except.pure]
  | cons x xs ih =>
    rw [List.forall_mem_cons, ← ih, List.mapM_cons]
    cases hx : f x with
    | error e => simp [bind, Except.bind]
    | ok y => cases hxs : xs.mapM f <;> simp [bind, Except.bind, pure, Except.pure]

section Terms

variable {A S : Type} (tr : Translator A S) (n : Nat) (name : String) (extension : List String)

/-- A term of the sort that is encoded: its constants are constructors of the sort, and the
translator renders its conditions, its arguments and their sorts. -/
@[grind =] def Encodable : Expr → Prop
  | .ite cond thenE elseE =>
    (∃ x, tr.translate cond = .ok x) ∧ Encodable thenE ∧ Encodable elseE
  | .const sym => sym.name ∈ tr.constructors ∧ sym.name ∈ extension
  | .var _ => True
  | .apply sym terms => (∀ t ∈ terms, ∃ x, tr.translate t = .ok x) ∧
      ∀ s ∈ sym.sort.domain, ∃ x, tr.translateSort s = .ok x
  | _ => False

variable {tr n name extension}

theorem encodeTermZ3_ite {cond thenE elseE : Expr} {bits : List (BitExpr A S)} :
    encodeTermZ3 tr n name extension (.ite cond thenE elseE) = .ok bits ↔
      ∃ x xs ys, tr.translate cond = .ok x ∧ encodeTermZ3 tr n name extension thenE = .ok xs ∧
        encodeTermZ3 tr n name extension elseE = .ok ys ∧
        bits = List.zipWith (.ite (.translated x)) xs ys := by
  rw [encodeTermZ3]
  cases tr.translate cond <;> cases encodeTermZ3 tr n name extension thenE <;>
    cases encodeTermZ3 tr n name extension elseE <;>
    simp [bind, Except.bind, pure, Except.pure, eq_comm]

theorem encodeTermZ3_apply {sym : Const} {terms : List Expr} {domain : List FSort} {r : FSort}
    {bits : List (BitExpr A S)} (sort : sym.sort = .function domain r) :
    encodeTermZ3 tr n name extension (.apply sym terms) = .ok bits ↔
      ∃ args domSorts, terms.mapM tr.translate = .ok args ∧
        domain.mapM tr.translateSort = .ok domSorts ∧
        bits = (List.range n).map fun i => .apply (bitName sym.name n i) domSorts args := by
  simp only [encodeTermZ3, sort]
  cases terms.mapM tr.translate <;> cases domain.mapM tr.translateSort <;>
    simp [bind, Except.bind, pure, Except.pure, eq_comm]

/-- The terms of the sort that the encoder accepts. -/
theorem encodeTermZ3_ok_iff {t : Expr} (typed : t.OfSort (.enumerated name extension)) :
    (∃ bits, encodeTermZ3 tr n name extension t = .ok bits) ↔ Encodable tr extension t := by
  induction t with
  | ite cond thenE elseE _ ihThen ihElse =>
    rw [Encodable, ← ihThen typed.2.1, ← ihElse typed.2.2]
    simp only [encodeTermZ3_ite]
    constructor
    · rintro ⟨_, x, xs, ys, hx, hxs, hys, -⟩
      exact ⟨⟨x, hx⟩, ⟨xs, hxs⟩, ⟨ys, hys⟩⟩
    · rintro ⟨⟨x, hx⟩, ⟨xs, hxs⟩, ⟨ys, hys⟩⟩
      exact ⟨_, x, xs, ys, hx, hxs, hys, rfl⟩
  | const sym =>
    rw [encodeTermZ3, Encodable]
    split
    · rename_i known
      split <;> simp_all
    · simp_all
  | var v => exact ⟨fun _ => trivial, fun _ => ⟨_, rfl⟩⟩
  | apply sym terms =>
    obtain ⟨domain, sort, -⟩ := typed
    rw [Encodable, ← exists_mapM_ok, sort, ← exists_mapM_ok]
    simp only [encodeTermZ3_apply sort]
    constructor
    · rintro ⟨_, args, domSorts, hargs, hdom, -⟩
      exact ⟨⟨args, hargs⟩, ⟨domSorts, hdom⟩⟩
    · rintro ⟨⟨args, hargs⟩, ⟨domSorts, hdom⟩⟩
      exact ⟨_, args, domSorts, hargs, hdom, rfl⟩
  | _ => simp_all [Expr.OfSort]

theorem length_encodeTermZ3 {t : Expr} {bits : List (BitExpr A S)}
    (typed : t.OfSort (.enumerated name extension))
    (encoded : encodeTermZ3 tr n name extension t = .ok bits) : bits.length = n := by
  induction t generalizing bits with
  | ite cond thenE elseE _ ihThen ihElse =>
    obtain ⟨x, xs, ys, -, hxs, hys, rfl⟩ := encodeTermZ3_ite.mp encoded
    rw [List.length_zipWith, ihThen typed.2.1 hxs, ihElse typed.2.2 hys, Nat.min_self]
  | const sym =>
    rw [encodeTermZ3] at encoded
    split at encoded
    · split at encoded
      · cases encoded
        simp [binEncZ3]
      · contradiction
    · contradiction
  | var v =>
    cases encoded
    simp
  | apply sym terms =>
    obtain ⟨domain, sort, -⟩ := typed
    obtain ⟨args, domSorts, -, -, rfl⟩ := (encodeTermZ3_apply sort).mp encoded
    simp
  | _ => simp_all [Expr.OfSort]

/-- The position that a vector of bits stands for: all codes from the last position on stand
for the last one. -/
def decode (card : Nat) (bits : List Bool) : Nat := min (binary bits) (card - 1)

theorem evalBits_binEncZ3 {V : Type} (I : Interp A S V) (m n : Nat) :
    evalBits I (binEncZ3 m n) = lowBits n m := by
  rw [evalBits, binEncZ3, List.map_map, lowBits]
  refine List.map_congr_left fun i _ => ?_
  simp only [Function.comp, BitExpr.eval, Nat.one_shiftLeft, Nat.and_two_pow, Nat.testBit_eq_decide_div_mod_eq]
  have pos := Nat.two_pow_pos (n - 1 - i)
  by_cases h : m / 2 ^ (n - 1 - i) % 2 = 1 <;> simp [h]

/-- The equation says that both vectors stand for the same position. -/
theorem eval_bitEquality {V : Type} (I : Interp A S V) {b1 b2 : List (BitExpr A S)}
    (length : b1.length = b2.length) (card : Nat) :
    (bitEquality card b1 b2).eval I = true ↔
      decode card (evalBits I b1) = decode card (evalBits I b2) := by
  have eqs : (if (List.zipWith BitExpr.eq b1 b2).isEmpty then BitExpr.boolVal true
      else .and (List.zipWith .eq b1 b2)).eval I = true ↔ evalBits I b1 = evalBits I b2 := by
    rw [← evalAll_zipWith_eq I b1 b2 length]
    split
    · rename_i empty
      rw [List.isEmpty_iff.mp empty]
      rfl
    · rfl
  have lengths : (evalBits I b1).length = (evalBits I b2).length := by
    simpa [evalBits] using length
  rw [← binary_inj lengths] at eqs
  simp only [bitEquality, BitExpr.eval, evalAny, evalAll, Bool.or_false, Bool.and_true,
    Bool.or_eq_true, Bool.and_eq_true, eqs, eval_gebin, decode]
  omega

theorem mem_declsList {xs : List (BitExpr A S)} {d : String × List S} :
    d ∈ declsList xs ↔ ∃ x ∈ xs, d ∈ x.decls := by
  induction xs with
  | nil => simp [declsList]
  | cons x xs ih => simp [declsList, ih]

theorem decls_gebin (bits : List (BitExpr A S)) (n : Nat) :
    (gebin bits n).decls ⊆ declsList bits := by
  induction bits generalizing n with
  | nil => cases n <;> simp [gebin, BitExpr.decls]
  | cons bit bits ih =>
    cases n with
    | zero => simp [gebin, BitExpr.decls]
    | succ n =>
      rw [gebin]
      · have part : ∀ k, declsList [bit, gebin bits k] ⊆ declsList (bit :: bits) := by
          intro k
          simp only [declsList, List.append_nil]
          exact List.append_subset.mpr ⟨List.subset_append_left _ _,
            List.Subset.trans (ih k) (List.subset_append_right _ _)⟩
        split
        · simp [BitExpr.decls]
        · split
          · exact part _
          · exact part _
      · simp

/-- An equation introduces what the two vectors do. -/
theorem mem_decls_bitEquality {b1 b2 : List (BitExpr A S)} (length : b1.length = b2.length)
    {card : Nat} {d : String × List S} :
    d ∈ (bitEquality card b1 b2).decls ↔ d ∈ declsList b1 ∨ d ∈ declsList b2 := by
  have eqs : d ∈ (if (List.zipWith BitExpr.eq b1 b2).isEmpty then BitExpr.boolVal true
      else .and (List.zipWith .eq b1 b2)).decls ↔ d ∈ declsList b1 ∨ d ∈ declsList b2 := by
    split
    · rename_i empty
      rw [List.isEmpty_iff, List.zipWith_eq_nil_iff] at empty
      obtain rfl | rfl := empty
      · obtain rfl := List.length_eq_zero_iff.mp length.symm
        simp [BitExpr.decls, declsList]
      · obtain rfl := List.length_eq_zero_iff.mp length
        simp [BitExpr.decls, declsList]
    · rw [BitExpr.decls]
      clear * - length
      induction b1 generalizing b2 with
      | nil =>
        obtain rfl := List.length_eq_zero_iff.mp length.symm
        simp [declsList]
      | cons x xs ih =>
        cases b2 with
        | nil => cases length
        | cons y ys =>
          simp only [List.zipWith_cons_cons, declsList, List.mem_append, BitExpr.decls,
            ih (Nat.succ.inj length)]
          tauto
  have one := decls_gebin b1 (card - 1)
  have two := decls_gebin b2 (card - 1)
  simp only [bitEquality, BitExpr.decls, declsList, List.append_nil, List.mem_append, eqs]
  constructor
  · rintro (h | h | h)
    · exact h
    · exact .inl (one h)
    · exact .inr (two h)
  · exact .inl

/-- The variables and applications whose bits make up those of a term. -/
@[grind =] def leaves : Expr → List Expr
  | .ite _ thenE elseE => leaves thenE ++ leaves elseE
  | .var v => [.var v]
  | .apply f ts => [.apply f ts]
  | _ => []

/-- The variable, or the function, that a leaf is made of. -/
def symbolOf : Expr → Option (Variable ⊕ Const)
  | .var v => some (.inl v)
  | .apply f _ => some (.inr f)
  | _ => none

variable (tr name) in
/-- What the declarations of a leaf are named after, and their domain. -/
def declBase : Expr → String × Except String (List S)
  | .var v => (v.name ++ ":" ++ name, .ok [])
  | .apply f _ => (f.name, f.sort.domain.mapM tr.translateSort)
  | _ => ("", .error "")

theorem mem_declsList_encodeTermZ3 {t : Expr} {bits : List (BitExpr A S)} {d : String × List S}
    (typed : t.OfSort (.enumerated name extension))
    (encoded : encodeTermZ3 tr n name extension t = .ok bits) :
    d ∈ declsList bits ↔ ∃ u ∈ leaves t, ∃ i < n, ∃ base,
      declBase tr name u = (base, .ok d.2) ∧ d.1 = bitName base n i := by
  induction t generalizing bits with
  | ite cond thenE elseE _ ihThen ihElse =>
    obtain ⟨x, xs, ys, -, hxs, hys, rfl⟩ := encodeTermZ3_ite.mp encoded
    have length : xs.length = ys.length :=
      (length_encodeTermZ3 typed.2.1 hxs).trans (length_encodeTermZ3 typed.2.2 hys).symm
    have zipped : d ∈ declsList (List.zipWith (.ite (.translated x)) xs ys) ↔
        d ∈ declsList xs ∨ d ∈ declsList ys := by
      clear * - length
      induction xs generalizing ys with
      | nil =>
        obtain rfl := List.length_eq_zero_iff.mp length.symm
        simp [declsList]
      | cons x xs ih =>
        cases ys with
        | nil => cases length
        | cons y ys =>
          simp only [List.zipWith_cons_cons, declsList, List.mem_append, BitExpr.decls,
            List.nil_append, ih ys (Nat.succ.inj length)]
          tauto
    rw [zipped, ihThen typed.2.1 hxs, ihElse typed.2.2 hys, leaves]
    simp only [List.mem_append, or_and_right, exists_or]
  | const sym =>
    rw [encodeTermZ3] at encoded
    split at encoded
    · split at encoded
      · cases encoded
        simp [mem_declsList, binEncZ3, leaves, BitExpr.decls]
      · contradiction
    · contradiction
  | var v =>
    cases encoded
    obtain ⟨dn, dd⟩ := d
    simp only [mem_declsList, leaves, List.mem_map, List.mem_range, List.mem_singleton]
    constructor
    · rintro ⟨_, ⟨i, hi, rfl⟩, hd⟩
      obtain ⟨rfl, rfl⟩ := Prod.mk.inj (List.mem_singleton.mp hd)
      exact ⟨_, rfl, i, hi, _, rfl, rfl⟩
    · rintro ⟨_, rfl, i, hi, base, same, rfl⟩
      obtain ⟨rfl, domain⟩ := Prod.mk.inj same
      cases domain
      exact ⟨_, ⟨i, hi, rfl⟩, List.mem_singleton_self _⟩
  | apply sym terms =>
    obtain ⟨domain, sort, -⟩ := typed
    obtain ⟨args, domSorts, -, hdom, rfl⟩ := (encodeTermZ3_apply sort).mp encoded
    obtain ⟨dn, dd⟩ := d
    simp only [mem_declsList, leaves, List.mem_map, List.mem_range, List.mem_singleton]
    constructor
    · rintro ⟨_, ⟨i, hi, rfl⟩, hd⟩
      obtain ⟨rfl, rfl⟩ := Prod.mk.inj (List.mem_singleton.mp hd)
      exact ⟨_, rfl, i, hi, _, by rw [declBase, sort, ← hdom]; rfl, rfl⟩
    · rintro ⟨_, rfl, i, hi, base, same, rfl⟩
      rw [declBase, sort] at same
      obtain ⟨rfl, domain⟩ := Prod.mk.inj same
      obtain rfl : domSorts = dd := Except.ok.inj (hdom.symm.trans domain)
      exact ⟨_, ⟨i, hi, rfl⟩, List.mem_singleton_self _⟩
  | _ => simp_all [Expr.OfSort]

theorem leaf_shape {t u : Expr} (leaf : u ∈ leaves t) :
    (∃ v, u = .var v) ∨ ∃ f ts, u = .apply f ts := by
  induction t with
  | ite cond thenE elseE _ ihThen ihElse => exact (List.mem_append.mp leaf).elim ihThen ihElse
  | var v => exact .inl ⟨v, List.mem_singleton.mp leaf⟩
  | apply f ts => exact .inr ⟨f, ts, List.mem_singleton.mp leaf⟩
  | _ => cases leaf

theorem leaf_typed {t u : Expr} {s : FSort} (typed : t.OfSort s) (leaf : u ∈ leaves t) :
    u.OfSort s := by
  induction t with
  | ite cond thenE elseE _ ihThen ihElse =>
    exact (List.mem_append.mp leaf).elim (ihThen typed.2.1) (ihElse typed.2.2)
  | var v | apply f ts =>
    obtain rfl := List.mem_singleton.mp leaf
    exact typed
  | _ => cases leaf

theorem leaf_encodable {t u : Expr} (encodable : Encodable tr extension t) (leaf : u ∈ leaves t) :
    Encodable tr extension u := by
  induction t with
  | ite cond thenE elseE _ ihThen ihElse =>
    exact (List.mem_append.mp leaf).elim (ihThen encodable.2.1) (ihElse encodable.2.2)
  | var v | apply f ts =>
    obtain rfl := List.mem_singleton.mp leaf
    exact encodable
  | _ => cases leaf

/-- The declarations of a leaf, one for each bit. -/
theorem decls_leaf {t u : Expr} {bits : List (BitExpr A S)} {d : String × List S}
    (typed : t.OfSort (.enumerated name extension)) (leaf : u ∈ leaves t)
    (encoded : encodeTermZ3 tr n name extension u = .ok bits) :
    d ∈ declsList bits ↔ ∃ i < n, ∃ base, declBase tr name u = (base, .ok d.2) ∧
      d.1 = bitName base n i := by
  have single : leaves u = [u] := by
    obtain ⟨v, rfl⟩ | ⟨f, ts, rfl⟩ := leaf_shape leaf <;> rfl
  rw [mem_declsList_encodeTermZ3 (leaf_typed typed leaf) encoded, single]
  simp only [List.mem_singleton, exists_eq_left]

theorem declBase_ok {t u : Expr} (encodable : Encodable tr extension t) (leaf : u ∈ leaves t) :
    ∃ base domain, declBase tr name u = (base, .ok domain) := by
  have encodable := leaf_encodable encodable leaf
  obtain ⟨v, rfl⟩ | ⟨f, ts, rfl⟩ := leaf_shape leaf
  · exact ⟨_, _, rfl⟩
  · obtain ⟨domain, ok⟩ := exists_mapM_ok.mpr encodable.2
    exact ⟨_, domain, congrArg _ ok⟩

variable (tr name extension)

/-- The number of bits of the sort. -/
def width : Nat := z3CeilLog2 extension.length

/-- The bits of a leaf of one of the terms introduce a declaration for its symbol. -/
def Introduces (t1 t2 : Expr) (symbol : Option (Variable ⊕ Const)) (d : String × List S) : Prop :=
  ∃ u ∈ leaves t1 ++ leaves t2, symbolOf u = symbol ∧
    ∃ bits, encodeTermZ3 tr (width extension) name extension u = .ok bits ∧ d ∈ declsList bits

/-- A decoding of the bits of the sort into positions of its extension. -/
structure Decodes (decode : List Bool → Nat) : Prop where
  value : ∀ bits, decode bits < extension.length
  constructor : ∀ sym : Const, sym.name ∈ tr.constructors → sym.name ∈ extension →
    ∃ bits, encodeTermZ3 tr (width extension) name extension (.const sym) = .ok bits ∧
      ∀ {V : Type} (I : Interp A S V), decode (evalBits I bits) = extension.idxOf sym.name
  reachable : ∀ (v : Variable) (k : Nat), k < extension.length →
    ∃ bits, encodeTermZ3 tr (width extension) name extension (.var v) = .ok bits ∧
      ∃ I : Interp A S Unit, decode (evalBits I bits) = k
  ite : ∀ (cond thenE elseE : Expr) (bits : List (BitExpr A S)),
    thenE.OfSort (.enumerated name extension) → elseE.OfSort (.enumerated name extension) →
    encodeTermZ3 tr (width extension) name extension (.ite cond thenE elseE) = .ok bits →
    ∃ x xs ys, tr.translate cond = .ok x ∧
      encodeTermZ3 tr (width extension) name extension thenE = .ok xs ∧
      encodeTermZ3 tr (width extension) name extension elseE = .ok ys ∧
      ∀ {V : Type} (I : Interp A S V), decode (evalBits I bits) =
        if I.holds x then decode (evalBits I xs) else decode (evalBits I ys)

/-- Both terms have bits, the formula says that these decode alike, and every declaration
it introduces belongs to one symbol. -/
def EncodesEquality (decode : List Bool → Nat) (t1 t2 : Expr) : Prop :=
  ∃ b1 b2 φ, encodeTermZ3 tr (width extension) name extension t1 = .ok b1 ∧
    encodeTermZ3 tr (width extension) name extension t2 = .ok b2 ∧
    encodeEqualityZ3 tr t1 t2 name extension = .ok φ ∧
    (∀ {V : Type} (I : Interp A S V),
      φ.eval I = true ↔ decode (evalBits I b1) = decode (evalBits I b2)) ∧
    ∀ d ∈ φ.decls, ∃! symbol, Introduces tr name extension t1 t2 symbol d

/-- No two symbols of the terms have a name and a rendered domain in common, unless the sort
has no bits. -/
def NoClash (t1 t2 : Expr) : Prop :=
  width extension = 0 ∨ ∀ u ∈ leaves t1 ++ leaves t2, ∀ u' ∈ leaves t1 ++ leaves t2,
    declBase tr name u = declBase tr name u' → symbolOf u = symbolOf u'

variable {tr name extension}

theorem length_le_two_pow_width (extension : List String) :
    extension.length ≤ 2 ^ width extension := by
  rw [width, z3CeilLog2_eq]
  exact Nat.le_pow_clog Nat.one_lt_two _

/-- Bits of different numbers have different names. -/
theorem bitName_inj {base base' : String} {n i j : Nat} (hi : i < n) (hj : j < n)
    (same : bitName base n i = bitName base' n j) : base = base' ∧ i = j := by
  obtain ⟨bases, numbers⟩ := numberedName_inj (c := ':') rfl (by decide) same
  exact ⟨bases, by omega⟩

theorem evalBits_ite {V : Type} (I : Interp A S V) (x : A) {xs ys : List (BitExpr A S)}
    (length : xs.length = ys.length) :
    evalBits I (List.zipWith (.ite (.translated x)) xs ys) =
      if I.holds x then evalBits I xs else evalBits I ys := by
  induction xs generalizing ys with
  | nil =>
    obtain rfl := List.length_eq_zero_iff.mp length.symm
    simp [evalBits]
  | cons b xs ih =>
    cases ys with
    | nil => cases length
    | cons c ys =>
      have rest := ih (Nat.succ.inj length)
      simp only [evalBits, List.zipWith_cons_cons, List.map_cons, BitExpr.eval] at rest ⊢
      rw [rest]
      cases I.holds x <;> rfl

open Classical in
/-- The bits of a variable can have any values. -/
theorem exists_bits (n : Nat) (name : String) (v : Variable) (k : Nat) : ∃ I : Interp A S Unit,
    evalBits I ((List.range n).map fun i => .const (bitName (v.name ++ ":" ++ name) n i)) =
      lowBits n k := by
  let base := v.name ++ ":" ++ name
  refine ⟨⟨fun s => decide (∃ i < n, s = bitName base n i ∧ k / 2 ^ (n - 1 - i) % 2 = 1),
    fun _ _ _ => false, fun _ => (), fun _ => false⟩, ?_⟩
  rw [evalBits, List.map_map, lowBits]
  refine List.map_congr_left fun i hi => ?_
  rw [List.mem_range] at hi
  simp only [Function.comp, BitExpr.eval, decide_eq_decide]
  constructor
  · rintro ⟨j, hj, same, bit⟩
    rwa [(bitName_inj hi hj same).2]
  · exact fun bit => ⟨i, hi, rfl, bit⟩

theorem decode_decodes (nonempty : extension ≠ []) :
    Decodes tr name extension (decode extension.length) := by
  have pos := List.length_pos_iff.mpr nonempty
  have position : ∀ k < extension.length,
      decode extension.length (lowBits (width extension) k) = k := by
    intro k below
    have enough := length_le_two_pow_width extension
    rw [decode, binary_lowBits, Nat.mod_eq_of_lt (Nat.lt_of_lt_of_le below enough)]
    omega
  refine ⟨fun bits => ?_, fun sym known mem => ?_, fun v k below => ?_,
    fun cond thenE elseE bits typed typed' encoded => ?_⟩
  · exact Nat.lt_of_le_of_lt (Nat.min_le_right _ _) (Nat.sub_lt pos Nat.one_pos)
  · refine ⟨_, by rw [encodeTermZ3, if_pos known, if_pos mem], fun I => ?_⟩
    rw [evalBits_binEncZ3]
    exact position _ (List.idxOf_lt_length_iff.mpr mem)
  · obtain ⟨I, bits⟩ := exists_bits (A := A) (S := S) (width extension) name v k
    exact ⟨_, rfl, I, by rw [bits, position k below]⟩
  · obtain ⟨x, xs, ys, hx, hxs, hys, rfl⟩ := encodeTermZ3_ite.mp encoded
    have length : xs.length = ys.length :=
      (length_encodeTermZ3 typed hxs).trans (length_encodeTermZ3 typed' hys).symm
    refine ⟨x, xs, ys, hx, hxs, hys, fun I => ?_⟩
    rw [evalBits_ite I x length]
    split <;> rfl

theorem encodeEqualityZ3_ok {t1 t2 : Expr} {b1 b2 : List (BitExpr A S)} {φ : BitExpr A S}
    (first : encodeTermZ3 tr (width extension) name extension t1 = .ok b1)
    (second : encodeTermZ3 tr (width extension) name extension t2 = .ok b2) :
    encodeEqualityZ3 tr t1 t2 name extension = .ok φ ↔ φ = bitEquality extension.length b1 b2 := by
  rw [width] at first second
  simp [encodeEqualityZ3, first, second, bind, Except.bind, pure, Except.pure, eq_comm]

section Equation

variable {t1 t2 : Expr} (typed1 : t1.OfSort (.enumerated name extension))
  (typed2 : t2.OfSort (.enumerated name extension))

include typed1 typed2 in
theorem leaf_of_terms {u : Expr} (leaf : u ∈ leaves t1 ++ leaves t2) :
    ∃ t, t.OfSort (.enumerated name extension) ∧ (t = t1 ∨ t = t2) ∧ u ∈ leaves t :=
  (List.mem_append.mp leaf).elim (fun h => ⟨t1, typed1, .inl rfl, h⟩) fun h => ⟨t2, typed2, .inr rfl, h⟩

include typed1 typed2 in
theorem introduces_iff (encodable1 : Encodable tr extension t1)
    (encodable2 : Encodable tr extension t2) (symbol : Option (Variable ⊕ Const))
    (d : String × List S) :
    Introduces tr name extension t1 t2 symbol d ↔ ∃ u ∈ leaves t1 ++ leaves t2,
      symbolOf u = symbol ∧ ∃ i < width extension, ∃ base,
        declBase tr name u = (base, .ok d.2) ∧ d.1 = bitName base (width extension) i := by
  refine exists_congr fun u => and_congr_right fun leaf => and_congr_right fun _ => ?_
  obtain ⟨t, typed, same, leaf⟩ := leaf_of_terms typed1 typed2 leaf
  have encodable : Encodable tr extension t := by
    obtain rfl | rfl := same <;> assumption
  obtain ⟨bits, encoded⟩ := (encodeTermZ3_ok_iff (n := width extension) (leaf_typed typed leaf)).mpr
    (leaf_encodable encodable leaf)
  rw [← decls_leaf typed leaf encoded]
  exact ⟨fun ⟨bits', encoded', mem⟩ => Except.ok.inj (encoded.symm.trans encoded') ▸ mem,
    fun mem => ⟨bits, encoded, mem⟩⟩

include typed1 typed2 in
/-- The declarations of the equation are the ones its leaves introduce. -/
theorem mem_decls_iff {b1 b2 : List (BitExpr A S)} {d : String × List S}
    (first : encodeTermZ3 tr (width extension) name extension t1 = .ok b1)
    (second : encodeTermZ3 tr (width extension) name extension t2 = .ok b2) :
    d ∈ (bitEquality extension.length b1 b2).decls ↔
      ∃ symbol, Introduces tr name extension t1 t2 symbol d := by
  have encodable1 := (encodeTermZ3_ok_iff typed1).mp ⟨b1, first⟩
  have encodable2 := (encodeTermZ3_ok_iff typed2).mp ⟨b2, second⟩
  have length := (length_encodeTermZ3 typed1 first).trans (length_encodeTermZ3 typed2 second).symm
  simp only [introduces_iff typed1 typed2 encodable1 encodable2]
  rw [mem_decls_bitEquality length, mem_declsList_encodeTermZ3 typed1 first,
    mem_declsList_encodeTermZ3 typed2 second]
  constructor
  · rintro (⟨u, leaf, rest⟩ | ⟨u, leaf, rest⟩)
    · exact ⟨_, u, List.mem_append_left _ leaf, rfl, rest⟩
    · exact ⟨_, u, List.mem_append_right _ leaf, rfl, rest⟩
  · rintro ⟨_, u, leaf, -, rest⟩
    exact (List.mem_append.mp leaf).imp (fun h => ⟨u, h, rest⟩) fun h => ⟨u, h, rest⟩

include typed1 typed2 in
/-- Every declaration belongs to one symbol exactly where no two symbols clash. -/
theorem separate_iff {b1 b2 : List (BitExpr A S)}
    (first : encodeTermZ3 tr (width extension) name extension t1 = .ok b1)
    (second : encodeTermZ3 tr (width extension) name extension t2 = .ok b2) :
    (∀ d ∈ (bitEquality extension.length b1 b2).decls,
        ∃! symbol, Introduces tr name extension t1 t2 symbol d) ↔
      NoClash tr name extension t1 t2 := by
  have encodable1 := (encodeTermZ3_ok_iff typed1).mp ⟨b1, first⟩
  have encodable2 := (encodeTermZ3_ok_iff typed2).mp ⟨b2, second⟩
  simp only [mem_decls_iff typed1 typed2 first second]
  have introduces := @introduces_iff _ _ tr name extension _ _ typed1 typed2 encodable1 encodable2
  constructor
  · intro unique
    obtain zero | pos := Nat.eq_zero_or_pos (width extension)
    · exact .inl zero
    · refine .inr fun u leaf u' leaf' same => ?_
      obtain ⟨base, domain, ok⟩ : ∃ base domain, declBase tr name u = (base, .ok domain) :=
        (List.mem_append.mp leaf).elim (declBase_ok encodable1) (declBase_ok encodable2)
      -- both introduce the first bit
      have here : ∀ {v}, v ∈ leaves t1 ++ leaves t2 → declBase tr name v = (base, .ok domain) →
          Introduces tr name extension t1 t2 (symbolOf v) (bitName base (width extension) 0, domain) :=
        fun mem eq => (introduces _ _).mpr ⟨_, mem, rfl, 0, pos, base, eq, rfl⟩
      exact (unique _ ⟨_, here leaf ok⟩).unique (here leaf ok) (here leaf' (same ▸ ok))
  · rintro apart d ⟨symbol, introduced⟩
    refine ⟨symbol, introduced, fun symbol' introduced' => ?_⟩
    obtain ⟨u, leaf, rfl, i, hi, base, ok, name_eq⟩ := (introduces _ _).mp introduced
    obtain ⟨u', leaf', rfl, j, hj, base', ok', name_eq'⟩ := (introduces _ _).mp introduced'
    obtain zero | apart := apart
    · omega
    · obtain ⟨rfl, -⟩ := bitName_inj hi hj (name_eq.symm.trans name_eq')
      exact apart u' leaf' u leaf (ok'.trans ok.symm)

end Equation

/-- The encoding of equations over a sort with at least one value is faithful for the terms
it accepts, unless two of their symbols have a name and a domain in common. -/
theorem encodeEqualityZ3_spec (tr : Translator A S) (name : String) (extension : List String)
    (nonempty : extension ≠ []) :
    ∃ decode, Decodes tr name extension decode ∧
      ∀ t1 t2 : Expr, t1.OfSort (.enumerated name extension) →
        t2.OfSort (.enumerated name extension) →
          (EncodesEquality tr name extension decode t1 t2 ↔
            Encodable tr extension t1 ∧ Encodable tr extension t2 ∧
              NoClash tr name extension t1 t2) := by
  refine ⟨decode extension.length, decode_decodes nonempty, fun t1 t2 typed1 typed2 => ⟨?_, ?_⟩⟩
  · rintro ⟨b1, b2, φ, first, second, result, -, separate⟩
    rw [(encodeEqualityZ3_ok first second).mp result] at separate
    exact ⟨(encodeTermZ3_ok_iff typed1).mp ⟨b1, first⟩, (encodeTermZ3_ok_iff typed2).mp ⟨b2, second⟩,
      (separate_iff typed1 typed2 first second).mp separate⟩
  · rintro ⟨encodable1, encodable2, apart⟩
    obtain ⟨b1, first⟩ := (encodeTermZ3_ok_iff (n := width extension) typed1).mpr encodable1
    obtain ⟨b2, second⟩ := (encodeTermZ3_ok_iff (n := width extension) typed2).mpr encodable2
    have length := (length_encodeTermZ3 typed1 first).trans (length_encodeTermZ3 typed2 second).symm
    exact ⟨b1, b2, _, first, second, (encodeEqualityZ3_ok first second).mpr rfl,
      fun I => eval_bitEquality I length extension.length,
      (separate_iff typed1 typed2 first second).mpr apart⟩

end Terms

/-- A translator that renders everything as the same value. -/
def plainTranslator (constructors : List String) : Translator Unit Unit :=
  ⟨fun _ => .ok (), fun _ => .ok (), constructors⟩

theorem encodeEqualityZ3_spec_color : ∃ decode,
    Decodes (plainTranslator ["red", "green", "blue"]) "color" ["red", "green", "blue"] decode ∧
      ∀ t1 t2 : Expr, t1.OfSort (.enumerated "color" ["red", "green", "blue"]) →
        t2.OfSort (.enumerated "color" ["red", "green", "blue"]) →
          (EncodesEquality (plainTranslator ["red", "green", "blue"]) "color"
              ["red", "green", "blue"] decode t1 t2 ↔
            Encodable (plainTranslator ["red", "green", "blue"]) ["red", "green", "blue"] t1 ∧
            Encodable (plainTranslator ["red", "green", "blue"]) ["red", "green", "blue"] t2 ∧
            NoClash (plainTranslator ["red", "green", "blue"]) "color" ["red", "green", "blue"] t1 t2) :=
  encodeEqualityZ3_spec _ _ _ (by decide)

/-- A constant that is no constructor has no case. -/
theorem encodeEqualityZ3_spec_fails :
    let color := FSort.enumerated "color" ["red", "green"]
    let favorite := Expr.const ⟨"favorite", .first color⟩
    let red := Expr.const ⟨"red", .first color⟩
    favorite.OfSort color ∧ red.OfSort color ∧
      encodeEqualityZ3 (plainTranslator ["red", "green"]) favorite red "color" ["red", "green"] =
        .error "encode_term: unsupported term type: *goivy.Const" ∧
      ¬ ∃ decode, EncodesEquality (plainTranslator ["red", "green"]) "color" ["red", "green"] decode
        favorite red := by
  refine ⟨rfl, rfl, rfl, ?_⟩
  rintro ⟨decode, b1, b2, φ, -, -, result, -⟩
  cases result

end Goivy.Solver
