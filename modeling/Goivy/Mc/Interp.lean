import Goivy.Logic.Syntax

/-! Interpretations of sorts, and the numbers of bits that encode their values. -/
namespace Goivy

/-- The machine integer that a computation with this exact result gives. -/
def machineInt (x : Int) : Int := x.bmod (2 ^ 64)

theorem machineInt_eq {x : Int} (low : -2 ^ 63 ≤ x) (high : x < 2 ^ 63) : machineInt x = x := by
  unfold machineInt
  rw [Int.bmod_eq_iff (by decide)]
  omega

/-- `1 << n`. -/
def shiftOne (n : Nat) : Int := machineInt (2 ^ n)

theorem shiftOne_eq {n : Nat} (h : n ≤ 62) : shiftOne n = (2 ^ n : Nat) := by
  have le : 2 ^ n ≤ 2 ^ 62 := Nat.pow_le_pow_right Nat.zero_lt_two h
  have cast : ((2 ^ n : Nat) : Int) = 2 ^ n := Nat.cast_pow 2 n
  rw [shiftOne, ← cast]
  generalize 2 ^ n = m at le
  exact machineInt_eq (by omega) (by omega)

/-- The sign and the digits after it. -/
def splitSign : List Char → Bool × List Char
  | '-' :: cs => (true, cs)
  | '+' :: cs => (false, cs)
  | cs => (false, cs)

def signedValue (negative : Bool) (digits : List Char) : Int :=
  if negative then -(Nat.ofDigitChars 10 digits 0 : Int) else Nat.ofDigitChars 10 digits 0

/-- `strconv.Atoi`: a number, and whether there was no error. -/
def atoi (s : String) : Int × Bool :=
  let (negative, digits) := splitSign s.toList
  if digits = [] ∨ ¬ digits.all Char.isDigit then (0, false)
  else if signedValue negative digits < -2 ^ 63 then (-2 ^ 63, false)
  else if 2 ^ 63 ≤ signedValue negative digits then (2 ^ 63 - 1, false)
  else (signedValue negative digits, true)

def parseNum (s : String) : Int :=
  let (negative, rest) := splitSign s.toList
  let digits := rest.takeWhile Char.isDigit
  if digits = [] ∨ signedValue negative digits < -2 ^ 63 ∨ 2 ^ 63 ≤ signedValue negative digits then 0
  else signedValue negative digits

/-- `strconv.Itoa`. -/
def itoa (x : Int) : String := toString x

theorem parseNum_atoi {s : String} {k : Int} (h : atoi s = (k, true)) : parseNum s = k := by
  unfold atoi at h
  unfold parseNum
  generalize splitSign s.toList = parts at h ⊢
  obtain ⟨negative, digits⟩ := parts
  simp only at h ⊢
  split at h
  · cases h
  · rename_i proper
    rw [not_or, not_not] at proper
    have whole : digits.takeWhile Char.isDigit = digits :=
      List.takeWhile_eq_self_iff.mpr (List.all_eq_true.mp proper.2)
    split at h
    · cases h
    · split at h
      · cases h
      · cases h
        rw [whole, if_neg]
        rintro (empty | low | high)
        · exact proper.1 empty
        · contradiction
        · contradiction

theorem splitSign_digits {cs : List Char} (h : ∀ c ∈ cs, c.isDigit = true) :
    splitSign cs = (false, cs) := by
  cases cs with
  | nil => rfl
  | cons c cs =>
    have digit := h c List.mem_cons_self
    unfold splitSign
    split
    · rename_i eq
      cases eq
      exact absurd digit (by decide)
    · rename_i eq
      cases eq
      exact absurd digit (by decide)
    · rfl

theorem toList_itoa (n : Nat) : (itoa n).toList = Nat.toDigits 10 n := by
  change (Nat.repr n).toList = _
  exact Nat.toList_repr

theorem atoi_itoa {n : Nat} (h : n < 2 ^ 63) : atoi (itoa n) = ((n : Int), true) := by
  have digits : ∀ c ∈ Nat.toDigits 10 n, c.isDigit = true := fun c hc =>
    Nat.isDigit_of_mem_toDigits (by decide) (by decide) hc
  have all : (Nat.toDigits 10 n).all Char.isDigit = true := List.all_eq_true.mpr digits
  have value : signedValue false (Nat.toDigits 10 n) = n := by
    rw [signedValue, Nat.ofDigitChars_ten_toDigits]
    simp
  have low : ¬ (n : Int) < -2 ^ 63 := by omega
  have high : ¬ (2 : Int) ^ 63 ≤ n := by omega
  unfold atoi
  rw [toList_itoa, splitSign_digits digits]
  simp only [Nat.toDigits_ne_nil, all, value, not_true_eq_false, or_self, if_false, if_neg low,
    if_neg high]

/-- `IsNumeralName`. -/
def isNumeralName (s : String) : Bool :=
  match s.toList with
  | [] => false
  | '-' :: c :: _ => c.isDigit
  | c :: _ => c.isDigit || c = '"'

inductive Theory where
  | integer
  | natural
  | bitVector (bits : Nat)
deriving DecidableEq, Repr

/-- What a sort can be interpreted as. A string is kept as the theory that it parses to. -/
inductive SortInterp where
  | enumerated (name : String) (extension : List String)
  | range (name lb ub : String)
  | theory (t : Theory)
deriving DecidableEq, Repr

abbrev Interpretation := String → Option SortInterp

/-- `SortName`. -/
def sortName : FSort → String
  | .boolean => "bool"
  | .uninterpreted name | .enumerated name _ | .top name => name
  | .range _ lb ub => "\x7b" ++ lb ++ " .. " ++ ub ++ "\x7d"

inductive SortTheory where
  | sort (s : FSort)
  | theory (t : Theory)
deriving DecidableEq, Repr

def SortInterp.toTheory : SortInterp → SortTheory
  | .enumerated name extension => .sort (.enumerated name extension)
  | .range name lb ub => .sort (.range name lb ub)
  | .theory t => .theory t

def getSortTheory (s : FSort) (interp : Interpretation) : SortTheory :=
  match interp (sortName s) with
  | some i => i.toTheory
  | none => .sort s

/-- What goes wrong, with what the message prints. The last two are a run-time panic and a
loop that does not end. -/
inductive EvalError where
  | emptyResult (e : Expr)
  | noDefinition (name : String)
  | fewArguments (name : String)
  | nonNullary (e : Expr)
  | unimplemented (e : Expr)
  | badBound (ub : String)
  | badTheory (t : Theory)
  | badSort (s : FSort)
  | unexpectedSort (name : String) (s : LSort)
  | outOfRange
  | diverges
deriving Repr

/-- The loop of `MCCeilLog2`. Its bound is zero after 64 doublings and stays so. -/
def ceilLog2From : Nat → Nat → Int → Int → Except EvalError Nat
  | 0, _, _, _ => .error .diverges
  | fuel + 1, bits, vals, n =>
    if vals < n then ceilLog2From fuel (bits + 1) (machineInt (vals * 2)) n else .ok bits

/-- `MCCeilLog2`. -/
def mcCeilLog2 (n : Int) : Except EvalError Nat := ceilLog2From 65 0 1 n

/-- `ceilLog2`. -/
def ceilLog2 (n : Nat) : Nat := if n ≤ 1 then 1 else Nat.clog 2 n

/-- `GetEncodingBits`. -/
def getEncodingBits (s : FSort) (interp : Interpretation) : Except EvalError Nat :=
  match getSortTheory s interp with
  | .sort (.enumerated _ extension) => mcCeilLog2 extension.length
  | .sort (.range _ _ ub) =>
    if (atoi ub).2 then mcCeilLog2 (machineInt ((atoi ub).1 + 1)) else .error (.badBound ub)
  | .sort .boolean => .ok 1
  | .theory (.bitVector bits) => .ok bits
  | .theory t => .error (.badTheory t)
  | .sort _ => .error (.badSort s)

/-- `getEncodingBits`, which knows no interpretations. -/
def sortBits : LSort → Nat
  | .first (.enumerated _ extension) => ceilLog2 extension.length
  | _ => 1

/-- `getEncodingBitsWithInterp`. -/
def getEncodingBitsWithInterp (s : LSort) (interp : Interpretation) : Except EvalError Nat :=
  match s with
  | .function _ _ => .ok (sortBits s)
  | .first t =>
    match getEncodingBits t interp with
    | .ok n => .ok n
    | .error .diverges => .error .diverges
    | .error _ => .ok (sortBits s)

/-- `getSortSize`. -/
def getSortSize : FSort → Int
  | .enumerated _ extension => extension.length
  | _ => 2

def getSortSizeWithInterp (s : FSort) (interp : Interpretation) : Int :=
  match getSortTheory s interp with
  | .sort (.enumerated _ extension) => extension.length
  | .sort (.range _ _ ub) => if (atoi ub).2 then machineInt ((atoi ub).1 + 1) else getSortSize s
  | .sort .boolean => 2
  | .theory (.bitVector bits) => shiftOne bits
  | _ => getSortSize s

def isInterpretedSort : LSort → Bool
  | .first (.enumerated _ _) => true
  | .first (.uninterpreted name) | .first (.top name) => name ∈ ["int", "nat", "bool", "bv"]
  | _ => false

/-- After `bits` doublings the loop counts up to the first power of two that is not below. -/
theorem ceilLog2From_eq {n w : Nat} (small : n ≤ 2 ^ w) (least : ∀ k < w, 2 ^ k < n) (hw : w ≤ 62)
    {k fuel : Nat} (hk : k ≤ w) (enough : w < fuel + k) :
    ceilLog2From fuel k (2 ^ k) n = .ok w := by
  induction fuel generalizing k with
  | zero => omega
  | succ fuel ih =>
    obtain lt | rfl := Nat.lt_or_eq_of_le hk
    · have below : ((2 : Int) ^ k < n) := by exact_mod_cast least k lt
      have double : machineInt (2 ^ k * 2) = 2 ^ (k + 1) := by
        rw [← pow_succ]
        exact (shiftOne_eq (by omega)).trans (Nat.cast_pow 2 _)
      rw [ceilLog2From, if_pos below, double]
      exact ih lt (by omega)
    · have above : ¬ ((2 : Int) ^ k < n) := by
        rw [not_lt]
        exact_mod_cast small
      rw [ceilLog2From, if_neg above]

theorem mcCeilLog2_eq {n : Nat} (h : n ≤ 2 ^ 62) : mcCeilLog2 n = .ok (Nat.clog 2 n) :=
  ceilLog2From_eq (Nat.le_pow_clog Nat.one_lt_two n) (fun _ hk => Nat.pow_lt_of_lt_clog hk)
    (Nat.clog_le_of_le_pow h) (Nat.zero_le _)
    (Nat.lt_of_le_of_lt (Nat.clog_le_of_le_pow h) (by decide))

/-- The loop does not end on more values than the largest positive power of two. -/
theorem mcCeilLog2_diverges {n : Int} (h : 2 ^ 62 < n) : mcCeilLog2 n = .error .diverges := by
  have grows : ∀ fuel k : Nat, 65 = fuel + k →
      ceilLog2From fuel k (shiftOne k) n = .error .diverges := by
    intro fuel
    induction fuel with
    | zero => exact fun _ _ => rfl
    | succ fuel ih =>
      intro k hk
      have le : ∀ k : Fin 65, shiftOne k ≤ 2 ^ 62 := by decide
      have double : ∀ k : Fin 65, machineInt (shiftOne k * 2) = shiftOne (k + 1 : Nat) := by decide
      have below := lt_of_le_of_lt (le ⟨k, by omega⟩) h
      rw [ceilLog2From, if_pos below, double ⟨k, by omega⟩]
      exact ih (k + 1) (by omega)
  exact grows 65 0 rfl

end Goivy
