import Goivy.Lex.Position
import Goivy.Util.NumberedName

/-! The token classes as languages of byte strings, and the longest lexeme of a class at the
start of an input. -/
namespace Goivy.Lex

open Utf8 Lexer

/-- A character of a word. -/
def isWordByte (b : UInt8) : Bool := isWordRune b.toNat

/-- A word starts with a lower-case letter, a digit or an underscore. -/
def startsWord (b : UInt8) : Bool :=
  b.toNat = '_'.toNat || isASCIILowerRune b.toNat || isASCIIDigitRune b.toNat

/-- What follows the first letter of a variable: characters of a word, and subscripts. -/
inductive VariableTail : List UInt8 → Prop
  | nil : VariableTail []
  | byte {b : UInt8} {bs : List UInt8} : isWordByte b = true → VariableTail bs →
      VariableTail (b :: bs)
  | subscript {body bs : List UInt8} : (∀ b ∈ body, isWordByte b = true) → VariableTail bs →
      VariableTail (91 :: (body ++ 93 :: bs))

/-- The operators and separators. -/
def operators : List (TokenType × List UInt8) :=
  [(.dot, bytes "."), (.dots, bytes ".."), (.dotdotdot, bytes "..."), (.lt, bytes "<"),
   (.le, bytes "<="), (.iff, bytes "<->"), (.minus, bytes "-"), (.arrow, bytes "->"),
   (.gt, bytes ">"), (.ge, bytes ">="), (.tilda, bytes "~"), (.tildaeq, bytes "~="),
   (.times, bytes "*"), (.pto, bytes "*>"), (.colon, bytes ":"), (.assign, bytes ":="),
   (.comma, bytes ","), (.lparen, bytes "("), (.rparen, bytes ")"), (.lcb, [123]), (.rcb, [125]),
   (.lb, bytes "["), (.rb, bytes "]"), (.plus, bytes "+"), (.div, bytes "/"), (.and, bytes "&"),
   (.or, bytes "|"), (.eq, bytes "="), (.semi, bytes ";"), (.dollar, bytes "$"),
   (.caret, bytes "^"), (.kwGlobally, [0xE2, 0x96, 0xA1]), (.kwEventually, [0xE2, 0x97, 0x87])]

/-- The lexemes of the token classes. A native quote ends at its first closing brackets. -/
inductive Lexeme : TokenType → List UInt8 → Prop
  | operator {type : TokenType} {text : List UInt8} : (type, text) ∈ operators → Lexeme type text
  | word {b : UInt8} {bs : List UInt8} : startsWord b = true → (∀ c ∈ bs, isWordByte c = true) →
      Lexeme .symbol (b :: bs)
  | quoted {body : List UInt8} : 34 ∉ body → Lexeme .symbol (34 :: (body ++ [34]))
  | capital {b : UInt8} {bs : List UInt8} : isASCIIUpperRune b.toNat = true → VariableTail bs →
      Lexeme .variable (b :: bs)
  | native {body : List UInt8} :
      (∀ i < body.length, ¬ bytes ">>>" <+: (body ++ bytes ">>>").drop i) →
      Lexeme .nativequote (bytes "<<<" ++ (body ++ bytes ">>>"))

/-- No lexeme at the start of the input is longer. -/
def Longest (text rest : List UInt8) : Prop :=
  ∀ (type : TokenType) (p : List UInt8), Lexeme type p → p <+: text ++ rest → p.length ≤ text.length

/-- The words: the lexemes that can be reserved. -/
def IsWord (text : List UInt8) : Prop :=
  ∃ b bs, text = b :: bs ∧
    (startsWord b = true ∧ (∀ c ∈ bs, isWordByte c = true) ∨
      isASCIIUpperRune b.toNat = true ∧ VariableTail bs)

/-- Skipped bytes: white space, and comments that go to the end of their line. -/
inductive Blank : List UInt8 → List UInt8 → Prop
  | nil (rest : List UInt8) : Blank [] rest
  | space {b : UInt8} {skip rest : List UInt8} : b ∈ bytes " \t\r\n" → Blank skip rest →
      Blank (b :: skip) rest
  | comment {body skip rest : List UInt8} : 10 ∉ body →
      (skip ++ rest = [] ∨ (skip ++ rest).head? = some 10) → Blank skip rest →
      Blank (35 :: (body ++ skip)) rest

theorem isPythonVariableSubscriptByte_eq (b : UInt8) :
    isPythonVariableSubscriptByte b = isWordByte b := by
  simp only [isPythonVariableSubscriptByte, isWordByte, isWordRune, isASCIILetterRune,
    isASCIILowerRune, isASCIIUpperRune, isASCIIDigitRune, Bool.or_assoc]

theorem isWordByte_ascii {b : UInt8} (h : isWordByte b = true) : b.toNat < 0x80 :=
  isWordRune_ascii _ h

theorem isWordByte_ne {b c : UInt8} (h : isWordByte b = true) (hc : isWordByte c = false) : b ≠ c := by
  rintro rfl
  rw [h] at hc
  contradiction

/-- The subscript that the look-ahead finds. -/
theorem validVariableSubscriptEnd_iff {bs : List UInt8} {k : Nat} :
    validVariableSubscriptEnd bs = some k ↔ ∃ body rest, bs = 91 :: (body ++ 93 :: rest) ∧
      (∀ b ∈ body, isWordByte b = true) ∧ k = body.length + 2 := by
  constructor
  · intro h
    cases bs with
    | nil => contradiction
    | cons b bs =>
      simp only [validVariableSubscriptEnd] at h
      split at h
      · contradiction
      · rename_i opening
        split at h
        · rename_i c rest after
          split at h
          · rename_i closing
            cases h
            refine ⟨bs.takeWhile isPythonVariableSubscriptByte, rest, ?_, fun d hd => ?_, rfl⟩
            · rw [byte_eq (by decide) (not_not.mp opening)]
              refine congrArg _ ?_
              conv_lhs => rw [← List.take_append_drop
                (bs.takeWhile isPythonVariableSubscriptByte).length bs]
              rw [after, byte_eq (by decide) closing]
              refine congrArg (· ++ _) ?_
              exact List.prefix_iff_eq_take.mp (List.takeWhile_prefix _) |>.symm
            · rw [← isPythonVariableSubscriptByte_eq]
              exact List.mem_takeWhile_imp hd
          · contradiction
        · contradiction
  · rintro ⟨body, rest, rfl, all, rfl⟩
    have taken : (body ++ 93 :: rest).takeWhile isPythonVariableSubscriptByte = body := by
      rw [List.takeWhile_append_of_pos fun b hb => by
        rw [isPythonVariableSubscriptByte_eq]
        exact all b hb]
      rw [List.takeWhile_cons_of_neg (by decide), List.append_nil]
    simp only [validVariableSubscriptEnd, taken, List.drop_left]
    rfl

theorem advanceUntil_reads {text : List UInt8} (ascii : ∀ b ∈ text, b.toNat < 0x80) {l : Lexer}
    {rest : List UInt8} (eq : l.rest = text ++ rest) :
    Passes l text (l.advanceUntil rest.length) ∧ (l.advanceUntil rest.length).rest = rest := by
  induction text generalizing l with
  | nil =>
    rw [List.nil_append] at eq
    rw [advanceUntil, dif_neg (by rw [eq]; exact Nat.lt_irrefl _)]
    exact ⟨.refl l, eq⟩
  | cons b text ih =>
    rw [List.forall_mem_cons] at ascii
    rw [List.cons_append] at eq
    obtain ⟨first, after⟩ := advance_ascii eq ascii.1
    rw [advanceUntil, dif_pos (by rw [eq, List.length_cons, List.length_append]; omega)]
    obtain ⟨reads, final⟩ := ih ascii.2 after
    exact ⟨first.trans reads, final⟩

/-- The loop of a variable reads the longest tail. -/
theorem scanVariableLoop_reads (l : Lexer) : ∃ text, Passes l text l.scanVariableLoop ∧
    VariableTail text ∧ ∀ p, VariableTail p → p <+: l.rest → p.length ≤ text.length := by
  induction l using scanVariableLoop.induct with
  | case1 l h =>
    rw [scanVariableLoop, dif_pos h, h]
    exact ⟨[], .refl l, .nil, fun p _ start => by rw [List.prefix_nil.mp start]⟩
  | case2 l h word ih =>
    rw [scanVariableLoop, dif_neg h, if_pos word]
    obtain ⟨b, bs, eq⟩ := List.exists_cons_of_ne_nil h
    rw [peekRune_eq eq, rune_test isWordRune_ascii] at word
    obtain ⟨first, after⟩ := advance_ascii eq (isWordRune_ascii _ word)
    obtain ⟨text, reads, tail, longest⟩ := ih
    refine ⟨b :: text, first.trans reads, .byte word tail, fun p hp start => ?_⟩
    rw [eq] at start
    rw [after] at longest
    cases hp with
    | nil => exact Nat.zero_le _
    | byte _ rest => exact Nat.succ_le_succ (longest _ rest (List.cons_prefix_cons.mp start).2)
    | subscript => exact absurd (List.cons_prefix_cons.mp start).1.symm (isWordByte_ne word (by decide))
  | case3 l h word bracket noEnd =>
    rw [scanVariableLoop, dif_neg h, if_neg word, if_pos bracket]
    split
    · obtain ⟨b, bs, eq⟩ := List.exists_cons_of_ne_nil h
      rw [peekRune_eq eq, rune_test isWordRune_ascii] at word
      refine ⟨[], .refl l, .nil, fun p hp start => ?_⟩
      cases hp with
      | nil => exact Nat.zero_le _
      | byte first _ =>
        rw [eq] at start
        rw [(List.cons_prefix_cons.mp start).1] at first
        exact absurd first word
      | @subscript body bs' all _ =>
        obtain ⟨rest, start⟩ := start
        have valid : validVariableSubscriptEnd l.rest = some (body.length + 2) :=
          validVariableSubscriptEnd_iff.mpr ⟨body, bs' ++ rest, by rw [← start]; simp, all, rfl⟩
        rw [noEnd] at valid
        contradiction
    · rename_i k hk
      rw [noEnd] at hk
      contradiction
  | case4 l h word bracket k hk ih =>
    rw [scanVariableLoop, dif_neg h, if_neg word, if_pos bracket]
    split
    · rename_i hk'
      rw [hk] at hk'
      contradiction
    · rename_i k' hk'
      obtain rfl : k = k' := Option.some.inj (hk.symm.trans hk')
      obtain ⟨body, rest, eq, all, rfl⟩ := validVariableSubscriptEnd_iff.mp hk
      have split : l.rest = (91 :: (body ++ [93])) ++ rest := by
        rw [eq]
        simp
      have length : l.rest.length - (body.length + 2) = rest.length := by
        rw [eq]
        simp only [List.length_cons, List.length_append]
        omega
      have ascii : ∀ b ∈ (91 : UInt8) :: (body ++ [93]), b.toNat < 0x80 := by
        simp only [List.mem_cons, List.mem_append, List.not_mem_nil, or_false]
        rintro b (rfl | hb | rfl)
        · decide
        · exact isWordByte_ascii (all b hb)
        · decide
      rw [length] at ih ⊢
      obtain ⟨first, after⟩ := advanceUntil_reads ascii split
      obtain ⟨text, reads, tail, longest⟩ := ih
      rw [after] at longest
      refine ⟨_, first.trans reads, ?_, fun p hp start => ?_⟩
      · simpa using VariableTail.subscript all tail
      · rw [eq] at start
        cases hp with
        | nil => exact Nat.zero_le _
        | byte word _ =>
          exact absurd (List.cons_prefix_cons.mp start).1 (isWordByte_ne word (by decide))
        | @subscript body' bs' all' tail' =>
          obtain ⟨more, start⟩ := start
          simp only [List.cons_append, List.append_assoc, List.cons.injEq, true_and] at start
          have closing : ∀ {bs : List UInt8}, (∀ b ∈ bs, isWordByte b = true) → (93 : UInt8) ∉ bs :=
            fun all mem => absurd (all 93 mem) (by decide)
          obtain ⟨rfl, later⟩ := split_unique (closing all') (closing all) start
          have := longest bs' tail' ⟨more, later⟩
          simp only [List.length_cons, List.length_append, List.length_singleton]
          omega
  | case5 l h word bracket =>
    rw [scanVariableLoop, dif_neg h, if_neg word, if_neg bracket]
    obtain ⟨b, bs, eq⟩ := List.exists_cons_of_ne_nil h
    rw [peekRune_eq eq, rune_test isWordRune_ascii] at word
    rw [peekRune_eq eq, rune_eq_iff (by decide)] at bracket
    refine ⟨[], .refl l, .nil, fun p hp start => ?_⟩
    rw [eq] at start
    cases hp with
    | nil => exact Nat.zero_le _
    | byte first _ =>
      rw [(List.cons_prefix_cons.mp start).1] at first
      exact absurd first word
    | subscript =>
      rw [← (List.cons_prefix_cons.mp start).1] at bracket
      exact absurd rfl bracket

end Goivy.Lex
