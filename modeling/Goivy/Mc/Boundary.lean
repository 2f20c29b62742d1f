import Goivy.Mc.Encoding

/-! The sorts that the encoding is wrong for: sorts with one value, ranges that do not begin at
zero, and sorts too large for machine integers. -/
namespace Goivy

theorem mcCeilLog2_one {n : Int} (h : n ≤ 1) : mcCeilLog2 n = .ok 0 := by
  rw [mcCeilLog2, ceilLog2From, if_neg (by omega)]

theorem atoi_bounds {s : String} {k : Int} (h : atoi s = (k, true)) : -2 ^ 63 ≤ k ∧ k < 2 ^ 63 := by
  unfold atoi at h
  generalize splitSign s.toList = parts at h
  obtain ⟨negative, digits⟩ := parts
  simp only at h
  split at h
  · cases h
  · split at h
    · cases h
    · split at h
      · cases h
      · cases h
        omega

/-- The numbers of bits of a sort that is not encoded right. -/
theorem bits_of_not_encodable {s : FSort} {interp : Interpretation} {th : FiniteTheory}
    (h : HasTheory s interp th) (bad : ¬ th.Encodable) :
    getEncodingBits s interp = .error .diverges ∨ getEncodingBits s interp = .ok 0 ∨
      (∃ lb ub : Int, th = .range lb ub ∧ lb ≠ 0 ∧ 1 ≤ ub ∧ ub < 2 ^ 62) ∨
      ∃ n, th = .bitVector n ∧ 64 ≤ n := by
  unfold getEncodingBits
  cases h with
  | boolean => exact absurd trivial bad
  | @enumerated name extension sort =>
    rw [sort]
    simp only
    by_cases small : extension.length ≤ 1
    · exact .inr (.inl (mcCeilLog2_one (by omega)))
    · refine .inl (mcCeilLog2_diverges ?_)
      by_contra le
      exact bad ⟨by omega, by omega⟩
  | @range name lb ub l u sort lower upper =>
    obtain ⟨low, high⟩ := atoi_bounds upper
    simp only [sort, upper, if_true]
    by_cases small : u ≤ 0
    · refine .inr (.inl (mcCeilLog2_one ?_))
      rw [machineInt_eq (by omega) (by omega)]
      omega
    by_cases fits : u < 2 ^ 62
    · refine .inr (.inr (.inl ⟨l, u, rfl, fun zero => bad ⟨zero, by omega, fits⟩, by omega, fits⟩))
    · by_cases top : u = 2 ^ 63 - 1
      · refine .inr (.inl (mcCeilLog2_one ?_))
        subst top
        decide
      · refine .inl (mcCeilLog2_diverges ?_)
        rw [machineInt_eq (by omega) (by omega)]
        omega
  | @bitVector n sort =>
    rw [sort]
    obtain rfl | pos := Nat.eq_zero_or_pos n
    · exact .inr (.inl rfl)
    · refine .inr (.inr (.inr ⟨n, rfl, ?_⟩))
      by_contra lt
      exact bad ⟨pos, by omega⟩

theorem exists_fresh_name (names : List String) : ∃ n, n ∉ names ∧ isNumeralName n = false := by
  let f : Nat → String := fun k => String.ofList ('x' :: List.replicate k 'x')
  have inj : Function.Injective f := by
    intro i j same
    have lengths := congrArg (fun s => s.toList.length) same
    simpa [f] using lengths
  obtain ⟨n, ⟨k, rfl⟩, fresh⟩ :=
    (Set.infinite_range_of_injective inj).exists_notMem_finset names.toFinset
  refine ⟨f k, fun h => fresh (List.mem_toFinset.mpr h), ?_⟩
  simp [f, isNumeralName]

namespace Signature

variable {sig : Signature}

theorem declares_single {n : String} {s : FSort} (hs : s ∈ sig.sorts)
    (fresh : n ∉ sig.constructors ∧ isNumeralName n = false) : sig.Declares [⟨n, .first s⟩] := by
  refine ⟨List.nodup_singleton _, fun x hx => ?_, fun x hx => ?_⟩
  · rw [List.mem_singleton.mp hx]
    exact ⟨s, List.mem_cons_of_mem _ hs, rfl⟩
  · rw [List.mem_singleton.mp hx]
    exact fresh

/-- A symbol is evaluated to its own bits, which can be all zero and all one. -/
theorem symbol_decodes {n : String} {s : FSort}
    (fresh : n ∉ sig.constructors ∧ isNumeralName n = false)
    (computes : sig.Computes [⟨n, .first s⟩] [] [] none (.const ⟨n, .first s⟩) s) :
    ∃ w, getEncodingBitsWithInterp (.first s) sig.interp = .ok w ∧ w ≠ 0 ∧ ∀ v : Bool, ∃ d,
      decodeVal sig.interp ((List.replicate w v).map boolExpr) ⟨"", .first s⟩ = .ok d ∧
      ∃ th, HasTheory s sig.interp th ∧ th.IsValue s d := by
  obtain ⟨enc, enc', ls, made, evaluated, run⟩ := computes
  cases bits : getEncodingBitsWithInterp (.first s) sig.interp with
  | error err =>
    simp [Encoder.ofSignature, Encoder.new, Encoder.encodeVars, bits, bind, Except.bind] at made
  | ok w =>
    obtain ⟨enc₀, made₀, built⟩ := Encoder.ofSignature_built sig [⟨n, .first s⟩] [] []
      (b := fun _ => w) (List.nodup_singleton _)
      (fun x hx => by
        obtain rfl : x = ⟨n, .first s⟩ := by simpa using hx
        exact bits)
    obtain rfl := Except.ok.inj (made.symm.trans made₀)
    obtain ⟨lit, exist⟩ := built.lit (x := ⟨n, .first s⟩) (List.mem_singleton_self _)
    have isConstructor := built.isConstructor ⟨n, .first s⟩
    rw [decide_eq_false fresh.1] at isConstructor
    have result : Encoder.evalRec none enc (.const ⟨n, .first s⟩) =
        .ok (enc, (Encoder.bitNames n w).map enc.sub.lit) := by
      simp [Encoder.evalRec, isConstructor, fresh.2, Encoder.evalSymbol, lit]
    rw [Encoder.eval, result] at evaluated
    simp only [bind, Except.bind] at evaluated
    split at evaluated
    · cases evaluated
    · rename_i nonempty
      cases evaluated
      refine ⟨w, rfl, ?_, fun v => ?_⟩
      · rintro rfl
        exact nonempty rfl
      have noLatches : enc.sub.LatchBits (fun _ => '0') := by
        intro x hx
        rw [built.subLatches] at hx
        exact absurd hx List.not_mem_nil
      have length := List.length_replicate (n := enc.sub.inputs.length) (a := v)
      obtain ⟨st, step, decodes⟩ := run _ noLatches _ length
      obtain ⟨st', step', below, -, taken, -⟩ :=
        Aiger.step_spec built.numbered built.named noLatches length
      obtain rfl := Option.some.inj (step.symm.trans step')
      have bit : ∀ m ∈ Encoder.bitNames n w, litValue (Aiger.bits st) (enc.sub.lit m) = v := by
        intro m hm
        have input : m ∈ enc.sub.inputs := by
          rw [built.subInputs]
          exact List.mem_append_left _ (List.mem_flatMap.mpr ⟨_, List.mem_singleton_self _, hm⟩)
        refine List.eq_of_mem_replicate (n := enc.sub.inputs.length) ?_
        rw [← taken]
        exact List.mem_map_of_mem (List.mem_map_of_mem input)
      have all : ((Encoder.bitNames n w).map enc.sub.lit).map (litValue (Aiger.bits st)) =
          List.replicate w v := by
        rw [List.map_map, List.eq_replicate_iff]
        refine ⟨by simp [Encoder.bitNames], fun c hc => ?_⟩
        obtain ⟨m, hm, rfl⟩ := List.mem_map.mp hc
        exact bit m hm
      obtain ⟨d, decoded, value, -⟩ := decodes ""
      rw [bitsToBoolExprs_eq below (List.forall_mem_map.mpr exist), all] at decoded
      exact ⟨d, decoded, value⟩

end Signature

theorem itoa_inj {m : Nat} {k : Int} (hm : m < 2 ^ 63) (low : 0 ≤ k) (high : k < 2 ^ 63)
    (same : itoa k = itoa m) : k = m := by
  obtain ⟨k, rfl⟩ : ∃ k' : Nat, k = k' := ⟨k.toNat, by omega⟩
  have := (atoi_itoa (n := k) (by omega)).symm.trans ((congrArg atoi same).trans (atoi_itoa hm))
  exact (Prod.mk.inj this).1

/-- A range from above zero has zero among its decoded values. -/
theorem range_decodes_zero {s : FSort} {interp : Interpretation} {lb ub : Int} {w : Nat}
    (h : HasTheory s interp (.range lb ub)) (low : 0 < lb) (pos : 1 ≤ ub) (small : ub < 2 ^ 62)
    {d : Expr} (decoded : decodeVal interp ((List.replicate w false).map boolExpr) ⟨"", .first s⟩ = .ok d) :
    ¬ (FiniteTheory.range lb ub).IsValue s d := by
  rintro ⟨k, ⟨ge, le⟩, rfl⟩
  unfold decodeVal at decoded
  rw [binDecBool_eq, binary_replicate_false] at decoded
  cases h with
  | range sort lower upper =>
    have least : (if ub < machineInt ((0 : Nat) : Int) then ub else machineInt ((0 : Nat) : Int)) =
        ((0 : Nat) : Int) := if_neg (by have : machineInt ((0 : Nat) : Int) = 0 := rfl; omega)
    simp only [sort, upper, least, Except.ok.injEq, Expr.const.injEq, Const.mk.injEq, and_true]
      at decoded
    have := itoa_inj (by decide) (by omega) (by omega) decoded.symm
    omega

/-- A code of a range with at least two values is read as a natural number. -/
theorem range_decodes_natural {s : FSort} {interp : Interpretation} {lb ub : Int}
    (h : HasTheory s interp (.range lb ub)) (pos : 1 ≤ ub) (small : ub < 2 ^ 62) {bits : List Bool}
    (width : bits.length ≤ 62) {d : Expr}
    (decoded : decodeVal interp (bits.map boolExpr) ⟨"", .first s⟩ = .ok d) :
    ∃ m : Nat, (m : Int) ≤ ub ∧ d = .const ⟨itoa m, .first s⟩ := by
  have lt := binary_lt bits
  have bound : 2 ^ bits.length ≤ 2 ^ 62 := Nat.pow_le_pow_right Nat.zero_lt_two width
  have exact_ : machineInt (binary bits) = binary bits := machineInt_eq (by omega) (by omega)
  unfold decodeVal at decoded
  rw [binDecBool_eq, exact_] at decoded
  cases h with
  | range sort lower upper =>
    have least : (if ub < (binary bits : Int) then ub else binary bits) =
        ((min (binary bits) ub.toNat : Nat) : Int) := by
      split <;> omega
    simp only [sort, upper, least, Except.ok.injEq] at decoded
    exact ⟨_, by omega, decoded.symm⟩

/-- A vector of at least 64 ones decodes to minus one. -/
theorem bitVector_decodes_negative {s : FSort} {interp : Interpretation} {n : Nat}
    (h : HasTheory s interp (.bitVector n)) (large : 64 ≤ n) {d : Expr}
    (decoded : decodeVal interp ((List.replicate n true).map boolExpr) ⟨"", .first s⟩ = .ok d) :
    ¬ (FiniteTheory.bitVector n).IsValue s d := by
  rintro ⟨k, ⟨ge, -⟩, rfl⟩
  have minus : machineInt ((2 ^ n - 1 : Nat) : Int) = -1 := by
    obtain ⟨m, rfl⟩ : ∃ m, n = 64 + m := ⟨n - 64, by omega⟩
    have pos := Nat.two_pow_pos (64 + m)
    have split : ((2 ^ (64 + m) - 1 : Nat) : Int) = -1 + (2 ^ 64 : Nat) * (2 ^ m : Nat) := by
      rw [Nat.cast_sub pos, Nat.pow_add]
      push_cast
      ring
    rw [split, machineInt, Int.add_mul_bmod_self_left]
    decide
  unfold decodeVal at decoded
  rw [binDecBool_eq, binary_replicate_true, minus] at decoded
  cases h with
  | bitVector sort =>
    simp only [sort, Except.ok.injEq, Expr.const.injEq, Const.mk.injEq, and_true] at decoded
    obtain ⟨k, rfl⟩ : ∃ k' : Nat, k = k' := ⟨k.toNat, by omega⟩
    have sign : '-' ∈ (itoa k).toList := by
      rw [← decoded]
      decide
    rw [toList_itoa] at sign
    exact absurd (Nat.isDigit_of_mem_toDigits (by decide) (by decide) sign) (by decide)

/-- The structure of the integers. -/
def Domain.int : Domain := ⟨fun _ => Int, fun _ => ⟨0⟩⟩

def El.ofInt (i : Int) : (s : FSort) → El Domain.int s
  | .boolean => decide (i = 1)
  | .uninterpreted _ | .enumerated _ _ | .range _ _ _ | .top _ => i

namespace Signature

variable (sig : Signature)

/-- The position of a constructor in its sort. -/
def position (n : String) (s : FSort) : Nat :=
  match finiteTheory s sig.interp with
  | some (.enumerated ext) => ext.idxOf n
  | _ => 0

def standardStructure : Structure Domain.int := fun n s _ =>
  El.ofInt (if n ∈ sig.constructors then sig.position n s.range else (atoi n).1) s.range

theorem standardStructure_standard : sig.Standard sig.standardStructure (fun s i => El.ofInt i s) where
  injective := by
    intro s _ th h i j hi _ same
    cases s with
    | boolean =>
      rw [h.unique sig.hasTheory_boolean] at hi
      exact absurd hi id
    | _ => exact same
  constructor := by
    intro s hs ext h i n entry
    obtain ⟨distinct, constructors⟩ := sig.extension s hs ext h
    obtain ⟨inside, rfl⟩ := List.getElem?_eq_some_iff.mp entry
    have position : sig.position ext[i] s = i := by
      rw [position, hasTheory_iff.mp h]
      exact distinct.idxOf_getElem i inside
    simp only [standardStructure, LSort.range, if_pos (constructors _ (List.getElem_mem inside)), position]
  numeral := by
    intro s _ th _ n k numeral value _
    have notConstructor : n ∉ sig.constructors := fun hn => by
      rw [sig.symbolic n hn] at numeral
      cases numeral
    simp only [standardStructure, LSort.range, if_neg notConstructor, value]

/-- A negative number has no code. -/
theorem not_computes_negative {sig : Signature} {s : FSort} {lb ub : Int} (hs : s ∈ sig.sorts)
    (h : HasTheory s sig.interp (.range lb ub)) (low : lb < 0) (pos : 1 ≤ ub) (small : ub < 2 ^ 62) :
    ¬ sig.Computes [] [] [] none (.const ⟨"-1", .first s⟩) s := by
  rintro ⟨enc, enc', ls, made, evaluated, run⟩
  obtain ⟨enc₀, made₀, built⟩ := Encoder.ofSignature_built sig [] [] [] (b := fun _ => 0) List.nodup_nil (fun x hx => absurd hx List.not_mem_nil)
  obtain rfl := Except.ok.inj (made.symm.trans made₀)
  have notConstructor : "-1" ∉ sig.constructors := fun hn => absurd (sig.symbolic _ hn) (by decide)
  have isConstructor := built.isConstructor ⟨"-1", .first s⟩
  rw [decide_eq_false notConstructor] at isConstructor
  have bits : getEncodingBits s enc.interp = .ok (Nat.clog 2 (ub.toNat + 1)) := by
    rw [built.interp]
    cases h with
    | range sort lower upper =>
      have next : machineInt (ub + 1) = ((ub.toNat + 1 : Nat) : Int) := by
        rw [machineInt_eq (by omega) (by omega)]
        omega
      simp only [getEncodingBits, sort, upper, if_true, next]
      exact mcCeilLog2_eq (by omega)
  have width : Nat.clog 2 (ub.toNat + 1) ≤ 62 := Nat.clog_le_of_le_pow (by omega)
  have numeral : isNumeralName "-1" = true := by decide
  have result : Encoder.evalRec none enc (.const ⟨"-1", .first s⟩) =
      .ok (enc, Encoder.binEnc (parseNum "-1") (Nat.clog 2 (ub.toNat + 1))) := by
    simp [Encoder.evalRec, isConstructor, numeral, bits, bind, Except.bind, pure, Except.pure]
  rw [Encoder.eval, result] at evaluated
  simp only [bind, Except.bind] at evaluated
  split at evaluated
  · cases evaluated
  · cases evaluated
    have noLatches : enc.sub.LatchBits (fun _ => '0') := by
      intro x hx
      rw [built.subLatches] at hx
      exact absurd hx List.not_mem_nil
    have length := List.length_replicate (n := enc.sub.inputs.length) (a := false)
    obtain ⟨st, step, decodes⟩ := run _ noLatches _ length
    obtain ⟨st', step', below, -⟩ := Aiger.step_spec built.numbered built.named noLatches length
    obtain rfl := Option.some.inj (step.symm.trans step')
    obtain ⟨d, decoded, -, means⟩ := decodes ""
    rw [bitsToBoolExprs_eq below fun l hl => Encoder.binEnc_exists built.numbered hl] at decoded
    -- the code denotes a natural number
    obtain ⟨m, le, rfl⟩ := range_decodes_natural h pos small (by simpa [Encoder.binEnc]) decoded
    have standard := sig.standardStructure_standard
    have negative : (FiniteTheory.range lb ub).InRange (-1) := ⟨by omega, by omega⟩
    have natural : (FiniteTheory.range lb ub).InRange m := ⟨by omega, le⟩
    have env : Env Domain.int := fun v => Classical.arbitrary _
    have same := means Domain.int sig.standardStructure _ env standard
      (fun x hx => absurd hx List.not_mem_nil)
    rw [eval_const, eval_const, standard.numeral s hs _ h "-1" (-1) numeral (by decide) negative,
      standard.numeral s hs _ h (itoa m) m (isNumeralName_itoa m) (atoi_itoa (by omega)) natural] at same
    have := standard.injective s hs _ h (-1) m negative natural (eq_of_heq (Sigma.mk.inj same).2)
    omega

theorem not_computes_symbol {sig : Signature} {n : String} {s : FSort} {th : FiniteTheory}
    (h : HasTheory s sig.interp th) (bad : ¬ th.Encodable)
    (notNegative : ∀ lb ub, th = .range lb ub → 1 ≤ ub → ub < 2 ^ 62 → ¬ lb < 0)
    (fresh : n ∉ sig.constructors ∧ isNumeralName n = false) :
    ¬ sig.Computes [⟨n, .first s⟩] [] [] none (.const ⟨n, .first s⟩) s := by
  intro computes
  obtain ⟨w, bits, nonzero, decodes⟩ := symbol_decodes fresh computes
  rw [getEncodingBitsWithInterp] at bits
  obtain diverges | zero | ⟨lb, ub, rfl, ne, pos, small⟩ | ⟨m, rfl, large⟩ := bits_of_not_encodable h bad
  · rw [diverges] at bits
    cases bits
  · rw [zero] at bits
    exact nonzero (Except.ok.inj bits).symm
  · obtain ⟨d, decoded, th, h', value⟩ := decodes false
    obtain rfl := h'.unique h
    have := notNegative lb ub rfl pos small
    exact range_decodes_zero h (by omega) pos small decoded value
  · obtain ⟨d, decoded, th, h', value⟩ := decodes true
    obtain rfl := h'.unique h
    have width : w = m := by
      cases h with
      | bitVector sort =>
        rw [getEncodingBits, sort] at bits
        exact (Except.ok.inj bits).symm
    rw [width] at decoded
    exact bitVector_decodes_negative h large decoded value

/-- The circuits of all expressions over a signature are right exactly where every sort is
Boolean, an enumeration of at least two constructors, a range from zero with at least two
values, or a bit vector of 1 to 63 bits, and no sort has more than 2^62 values otherwise. -/
theorem computes_iff_encodable (sig : Signature) :
    (∀ inputs latches outputs, sig.Declares (inputs ++ latches) →
      (∀ x ∈ outputs, ∃ s ∈ .boolean :: sig.sorts, x.sort = .first s) →
      ∀ getdef e s, sig.WellSorted (inputs ++ latches) e s →
        sig.Computes inputs latches outputs getdef e s) ↔ sig.Encodable := by
  constructor
  · intro all s hs th h
    by_contra bad
    obtain ⟨n, fresh⟩ := exists_fresh_name sig.constructors
    by_cases negative : ∃ lb ub, th = .range lb ub ∧ 1 ≤ ub ∧ ub < 2 ^ 62 ∧ lb < 0
    · obtain ⟨lb, ub, rfl, pos, small, low⟩ := negative
      refine not_computes_negative hs h low pos small (all [] [] [] ⟨List.nodup_nil, ?_, ?_⟩ ?_ none _ s
        (.numeral hs h (by decide) (k := -1) (by decide) ⟨by omega, by omega⟩))
      · exact fun x hx => absurd hx List.not_mem_nil
      · exact fun x hx => absurd hx List.not_mem_nil
      · exact fun x hx => absurd hx List.not_mem_nil
    · refine not_computes_symbol h bad (fun lb ub same pos small low =>
        negative ⟨lb, ub, same, pos, small, low⟩) fresh ?_
      exact all [⟨n, .first s⟩] [] [] (declares_single hs fresh) (fun x hx => absurd hx List.not_mem_nil)
        none _ s (.symbol (List.mem_singleton_self _) rfl)
  · intro encodable inputs latches outputs declares outputSorts getdef e s ws
    exact computes encodable declares outputSorts getdef ws

/-- One enumeration with one constructor. -/
def oneConstructor : Signature where
  sorts := [.enumerated "t" ["c"]]
  interp := fun _ => none
  constructors := ["c"]
  bool := rfl
  finite := by
    intro s hs
    rw [List.mem_singleton.mp hs]
    exact ⟨_, .enumerated rfl⟩
  extension := by
    intro s hs ext h
    rw [List.mem_singleton.mp hs] at h
    obtain rfl := FiniteTheory.enumerated.inj (h.unique (.enumerated rfl))
    exact ⟨by decide, fun n hn => hn⟩
  symbolic := by decide

/-- A symbol of the sort has no bits, and its evaluation is an error. -/
theorem oneConstructor_not_computes : ¬ ∀ (sig : Signature) (inputs latches outputs : List Const),
    sig.Declares (inputs ++ latches) →
    (∀ x ∈ outputs, ∃ s ∈ .boolean :: sig.sorts, x.sort = .first s) →
    ∀ getdef e s, sig.WellSorted (inputs ++ latches) e s →
      sig.Computes inputs latches outputs getdef e s := by
  intro claim
  have sort : FSort.enumerated "t" ["c"] ∈ oneConstructor.sorts := List.mem_singleton_self _
  obtain ⟨w, bits, nonzero, -⟩ := symbol_decodes (n := "x") (by decide)
    (claim oneConstructor [⟨"x", .first (.enumerated "t" ["c"])⟩] [] []
      (declares_single sort (by decide)) (fun x hx => absurd hx List.not_mem_nil) none _ _
      (.symbol (List.mem_singleton_self _) rfl))
  exact nonzero (Except.ok.inj bits).symm

end Signature

end Goivy
