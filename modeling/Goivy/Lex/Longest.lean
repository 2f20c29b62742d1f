import Goivy.Lex.Lexemes

/-! Every branch of the scanner reads the longest lexeme. -/
namespace Goivy.Lex

open Utf8 Lexer

/-- An operator starts with no character of a word, and no quote. -/
theorem operator_first {q : TokenType × List UInt8} (mem : q ∈ operators) : ∃ b bs, q.2 = b :: bs ∧
    startsWord b = false ∧ isASCIIUpperRune b.toNat = false ∧ b ≠ 34 := by
  have all : ∀ q ∈ operators, q.2.head?.any (fun b => !startsWord b && !isASCIIUpperRune b.toNat && b != 34) = true := by decide
  have first := all q mem
  cases eq : q.2 with
  | nil =>
    rw [eq] at first
    contradiction
  | cons b bs =>
    rw [eq, List.head?_cons, Option.any_some] at first
    simp only [Bool.and_eq_true, Bool.not_eq_true', bne_iff_ne] at first
    exact ⟨b, bs, rfl, first.1.1, first.1.2, first.2⟩

theorem startsWord_not_upper {b : UInt8} (h : startsWord b = true) : isASCIIUpperRune b.toNat = false := by
  simp only [startsWord, isASCIILowerRune, isASCIIDigitRune, isASCIIUpperRune, Bool.or_eq_true,
    decide_eq_true_eq, decide_eq_false_iff_not, Char.reduceToNat] at h ⊢
  omega

theorem startsWord_isWordByte {b : UInt8} (h : startsWord b = true) : isWordByte b = true := by
  simp only [startsWord, isWordByte, isWordRune, isASCIILetterRune, Bool.or_eq_true] at h ⊢
  tauto

theorem bytes_native : bytes "<<<" = [60, 60, 60] := by decide

/-- The longest operator is the longest lexeme, unless a native quote starts here. -/
theorem longest_operator {type : TokenType} {text rest : List UInt8} (mem : (type, text) ∈ operators)
    (quote : ¬ bytes "<<<" <+: text ++ rest)
    (longest : ∀ q ∈ operators, q.2 <+: text ++ rest → q.2.length ≤ text.length) :
    Longest text rest := by
  obtain ⟨b, bs, rfl, notWord, notUpper, notQuote⟩ := operator_first mem
  intro type' p lexeme start
  cases lexeme with
  | operator mem' => exact longest _ mem' start
  | @word c cs starts _ =>
    obtain rfl : c = b := (List.cons_prefix_cons.mp start).1
    rw [notWord] at starts
    contradiction
  | quoted _ => exact absurd (List.cons_prefix_cons.mp start).1.symm notQuote
  | @capital c cs upper _ =>
    obtain rfl : c = b := (List.cons_prefix_cons.mp start).1
    rw [notUpper] at upper
    contradiction
  | native _ => exact absurd ((List.prefix_append _ _).trans start) quote

/-- A word is the longest lexeme where its last character is not followed by another one. -/
theorem longest_word {b : UInt8} {bs rest : List UInt8} (starts : startsWord b = true)
    (stop : ∀ c cs, rest = c :: cs → isWordByte c = false) : Longest (b :: bs) rest := by
  intro type p lexeme start
  cases lexeme with
  | operator mem =>
    obtain ⟨c, cs, rfl, notWord, -⟩ := operator_first mem
    rw [← (List.cons_prefix_cons.mp start).1, notWord] at starts
    contradiction
  | @word c cs _ all =>
    rw [List.cons_append] at start
    obtain ⟨more, same⟩ := (List.cons_prefix_cons.mp start).2
    by_contra longer
    have lt : bs.length < cs.length := by
      simp only [List.length_cons] at longer
      omega
    cases rest with
    | nil =>
      have := congrArg List.length same
      simp only [List.append_nil, List.length_append] at this
      omega
    | cons d ds =>
      have next := congrArg (fun xs => xs[bs.length]?) same
      simp only [List.getElem?_append_left lt, List.getElem?_append_right (Nat.le_refl _),
        Nat.sub_self, List.getElem?_cons_zero] at next
      have := all d (List.mem_of_getElem? next)
      rw [stop d ds rfl] at this
      contradiction
  | quoted _ =>
    rw [← (List.cons_prefix_cons.mp start).1] at starts
    exact absurd starts (by decide)
  | @capital c cs upper _ =>
    rw [(List.cons_prefix_cons.mp start).1, startsWord_not_upper starts] at upper
    contradiction
  | native _ =>
    rw [bytes_native] at start
    rw [← (List.cons_prefix_cons.mp start).1] at starts
    exact absurd starts (by decide)

theorem longest_variable {b : UInt8} {bs rest : List UInt8} (upper : isASCIIUpperRune b.toNat = true)
    (tail : ∀ p, VariableTail p → p <+: bs ++ rest → p.length ≤ bs.length) : Longest (b :: bs) rest := by
  intro type p lexeme start
  cases lexeme with
  | operator mem =>
    obtain ⟨c, cs, rfl, -, notUpper, -⟩ := operator_first mem
    rw [← (List.cons_prefix_cons.mp start).1, notUpper] at upper
    contradiction
  | @word c cs starts _ =>
    rw [← (List.cons_prefix_cons.mp start).1, startsWord_not_upper starts] at upper
    contradiction
  | quoted _ =>
    rw [← (List.cons_prefix_cons.mp start).1] at upper
    exact absurd upper (by decide)
  | @capital c cs _ hp => exact Nat.succ_le_succ (tail cs hp (List.cons_prefix_cons.mp start).2)
  | native _ =>
    rw [bytes_native] at start
    rw [← (List.cons_prefix_cons.mp start).1] at upper
    exact absurd upper (by decide)

theorem longest_quoted {body rest : List UInt8} (free : 34 ∉ body) :
    Longest (34 :: (body ++ [34])) rest := by
  intro type p lexeme start
  cases lexeme with
  | operator mem =>
    obtain ⟨c, cs, rfl, -, -, notQuote⟩ := operator_first mem
    exact absurd (List.cons_prefix_cons.mp start).1 notQuote
  | @word c cs starts _ =>
    rw [(List.cons_prefix_cons.mp start).1] at starts
    exact absurd starts (by decide)
  | @quoted body' free' =>
    rw [List.cons_append] at start
    obtain ⟨more, same⟩ := (List.cons_prefix_cons.mp start).2
    simp only [List.append_assoc, List.singleton_append] at same
    obtain ⟨rfl, -⟩ := split_unique free' free same
    exact Nat.le_refl _
  | @capital c cs upper _ =>
    rw [(List.cons_prefix_cons.mp start).1] at upper
    exact absurd upper (by decide)
  | native _ =>
    rw [bytes_native] at start
    exact absurd (List.cons_prefix_cons.mp start).1 (by decide)

theorem longest_native {body rest : List UInt8}
    (first : ∀ i < body.length, ¬ bytes ">>>" <+: (body ++ (bytes ">>>" ++ rest)).drop i) :
    Longest (bytes "<<<" ++ (body ++ bytes ">>>")) rest := by
  intro type p lexeme start
  have size : (bytes "<<<").length = 3 ∧ (bytes ">>>").length = 3 := by decide
  cases lexeme with
  | operator mem =>
    have short : ∀ q ∈ operators, q.2.length ≤ 3 := by decide
    have : p.length ≤ 3 := short _ mem
    simp only [List.length_append, size]
    omega
  | @word c cs starts _ =>
    rw [bytes_native] at start
    rw [(List.cons_prefix_cons.mp start).1] at starts
    exact absurd starts (by decide)
  | quoted _ =>
    rw [bytes_native] at start
    exact absurd (List.cons_prefix_cons.mp start).1 (by decide)
  | @capital c cs upper _ =>
    rw [bytes_native] at start
    rw [(List.cons_prefix_cons.mp start).1] at upper
    exact absurd upper (by decide)
  | @native body' first' =>
    rw [List.append_assoc, List.prefix_append_right_inj, List.append_assoc] at start
    have le : body'.length ≤ body.length := by
      by_contra longer
      -- the first closing brackets of the input end the shorter quote
      refine first' body.length (Nat.lt_of_not_le longer) ?_
      have close : bytes ">>>" <+: (body ++ (bytes ">>>" ++ rest)).drop body.length := by
        rw [List.drop_left]
        exact List.prefix_append _ _
      refine List.prefix_of_prefix_length_le close (start.drop body.length) ?_
      rw [List.length_drop, List.length_append, size.2]
      omega
    simp only [List.length_append]
    omega

end Goivy.Lex
