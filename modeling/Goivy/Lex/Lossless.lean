import Goivy.Lex.Longest

/-! The tokens of an input are its lexemes, in order and at their positions. -/
namespace Goivy.Lex

open Utf8 Lexer

/-- The part of the input that a token stands for. -/
def Token.text (tok : Token) : List UInt8 :=
  if tok.type = .nativequote then bytes "<<<" ++ (tok.value ++ bytes ">>>") else tok.value

/-- One token, read from a lexer that is past all blanks. -/
structure Scanned (l : Lexer) (tok : Token) (text : List UInt8) (l' : Lexer) : Prop where
  lexeme : ∃ type, Lexeme type text ∧ tok.type = (lookupWord l.reserved text).getD type
  longest : Longest text l'.rest
  text_eq : tok.text = text
  reads : Passes l text l'
  line : tok.line = l.line
  column : tok.column = l.col

/-- The reserved words are some of the complete table. -/
def Known (l : Lexer) : Prop := ∀ p ∈ l.reserved, p ∈ allReserved

set_option maxRecDepth 4000 in
theorem reserved_first : ∀ p ∈ allReserved, ∃ b bs, bytes p.1 = b :: bs ∧
    isASCIILowerRune b.toNat = true := by
  have all : ∀ p ∈ allReserved, (bytes p.1).head?.any (fun b => isASCIILowerRune b.toNat) = true := by decide +kernel
  intro p mem
  have first := all p mem
  cases eq : bytes p.1 with
  | nil =>
    rw [eq] at first
    contradiction
  | cons b bs =>
    rw [eq, List.head?_cons, Option.any_some] at first
    exact ⟨b, bs, rfl, first⟩

/-- Only texts that start with a lower-case letter are reserved. -/
theorem lookupWord_none {l : Lexer} (known : Known l) {b : UInt8} {bs : List UInt8}
    (other : isASCIILowerRune b.toNat = false) : lookupWord l.reserved (b :: bs) = none := by
  rw [lookupWord, Option.map_eq_none_iff, List.find?_eq_none]
  intro p mem same
  obtain ⟨c, cs, eq, lower⟩ := reserved_first p (known p mem)
  rw [decide_eq_true_eq, eq] at same
  rw [(List.cons.inj same).1, other] at lower
  contradiction

theorem lower_startsWord {b : UInt8} (h : startsWord b = false) : isASCIILowerRune b.toNat = false := by
  simp only [startsWord, Bool.or_eq_false_iff] at h
  exact h.1.2

/-- A branch that reads the longest operator. -/
theorem scanned_operator {l l' : Lexer} (known : Known l) {type : TokenType} {text : List UInt8}
    (mem : (type, text) ∈ operators) (quote : ¬ bytes "<<<" <+: l.rest) (reads : Passes l text l')
    (longest : ∀ q ∈ operators, q.2 <+: l.rest → q.2.length ≤ text.length) :
    Scanned l ⟨type, text, l.line, l.col⟩ text l' := by
  have plain : ∀ q ∈ operators, q.1 ≠ .nativequote := by decide
  obtain ⟨b, bs, eq, notWord, -⟩ := operator_first mem
  have notReserved : lookupWord l.reserved text = none := by
    rw [show text = b :: bs from eq]
    exact lookupWord_none known (lower_startsWord notWord)
  rw [reads.rest] at quote longest
  exact ⟨⟨type, .operator mem, by rw [notReserved]; rfl⟩, longest_operator mem quote longest,
    if_neg (plain _ mem), reads, rfl, rfl⟩

theorem operator_head {q : TokenType × List UInt8} (mem : q ∈ operators) {b : UInt8}
    {bs : List UInt8} (start : q.2 <+: b :: bs) : q.2.head? = some b := by
  obtain ⟨c, cs, eq, -⟩ := operator_first mem
  rw [eq] at start ⊢
  rw [(List.cons_prefix_cons.mp start).1]
  rfl

theorem between_reads {l l' : Lexer} {text : List UInt8} (reads : Passes l text l') :
    between l l' = text := by
  rw [between, reads.rest, List.length_append, Nat.add_sub_cancel, List.take_left]

theorem atByte_false {l : Lexer} {c : Char} {d : UInt8} (same : d.toNat = c.toNat)
    (h : ¬ l.atByte c = true) (bs : List UInt8) : l.rest ≠ d :: bs := fun eq =>
  h (atByte_iff.mpr ⟨d, bs, eq, same⟩)

theorem scanDots_scanned {l : Lexer} (known : Known l) {bs : List UInt8} (eq : l.rest = 46 :: bs)
    (quote : ¬ bytes "<<<" <+: l.rest) :
    ∃ text, Scanned l (l.scanDots l.line l.col).1 text (l.scanDots l.line l.col).2 := by
  have candidates : ∀ q ∈ operators, q.2.head? = some 46 →
      q.2 = [46] ∨ q.2 = [46, 46] ∨ q.2 = [46, 46, 46] := by decide
  obtain ⟨first, after⟩ := advance_ascii eq (by decide)
  unfold scanDots
  dsimp only
  split
  · rename_i second
    obtain ⟨b, bs', eq', hb⟩ := atByte_iff.mp second
    obtain rfl : b = 46 := byte_eq (by decide) hb
    obtain ⟨reads, after'⟩ := advance_ascii eq' (by decide)
    split
    · rename_i third
      obtain ⟨b, bs'', eq'', hb⟩ := atByte_iff.mp third
      obtain rfl : b = 46 := byte_eq (by decide) hb
      obtain ⟨reads', -⟩ := advance_ascii eq'' (by decide)
      refine ⟨[46, 46, 46], scanned_operator known (by decide) quote
        ((first.trans reads).trans reads') fun q mem start => ?_⟩
      rw [eq] at start
      obtain h | h | h := candidates q mem (operator_head mem start) <;> rw [h] <;> decide
    · rename_i third
      refine ⟨[46, 46], scanned_operator known (by decide) quote (first.trans reads)
        fun q mem start => ?_⟩
      rw [eq] at start
      obtain h | h | h := candidates q mem (operator_head mem start)
      · rw [h]; decide
      · rw [h]; decide
      · obtain ⟨more, same⟩ := h ▸ start
        refine absurd ?_ (atByte_false (d := 46) rfl third more)
        rw [after']
        rw [← after, eq'] at same
        simpa using same.symm
  · rename_i second
    refine ⟨[46], scanned_operator known (by decide) quote first fun q mem start => ?_⟩
    rw [eq] at start
    have single : ∀ more, [46, 46] ++ more ≠ 46 :: bs := by
      intro more same
      refine atByte_false (d := 46) rfl second more ?_
      rw [after]
      simpa using same.symm
    obtain h | h | h := candidates q mem (operator_head mem start)
    · rw [h]; decide
    · obtain ⟨more, same⟩ := h ▸ start
      exact absurd same (single more)
    · obtain ⟨more, same⟩ := h ▸ start
      exact absurd same (single (46 :: more))

/-- Putting back the '-' undoes the step over it. -/
theorem putBack {l : Lexer} {bs : List UInt8} (eq : l.rest = 45 :: bs) :
    ({ l.advance with rest := bytes "-" ++ l.advance.rest, col := l.advance.col - 1 } : Lexer) = l := by
  have rest : l.advance.rest = bs := (advance_ascii eq (by decide)).2
  have rune : (decodeRune l.rest).1 = 45 := by rw [eq, decodeRune_ascii bs (by decide)]; rfl
  have line : l.advance.line = l.line := by rw [advance_line, rune]; rfl
  have col : l.advance.col = l.col + 1 := by rw [advance_col, rune]; rfl
  have reads := advance_reads eq
  obtain ⟨rest', line', col', reserved', peeked'⟩ := l
  simp only [Lexer.mk.injEq]
  refine ⟨?_, line, ?_, reads.reserved, reads.peeked⟩
  · rw [rest]
    exact eq.symm
  · rw [col]
    rfl

theorem scanLess_scanned {l : Lexer} (known : Known l) {bs : List UInt8} (eq : l.rest = 60 :: bs)
    (quote : ¬ bytes "<<<" <+: l.rest) :
    ∃ text, Scanned l (l.scanLess l.line l.col).1 text (l.scanLess l.line l.col).2 := by
  have candidates : ∀ q ∈ operators, q.2.head? = some 60 →
      q.2 = [60] ∨ q.2 = [60, 61] ∨ q.2 = [60, 45, 62] := by decide
  obtain ⟨first, after⟩ := advance_ascii eq (by decide)
  unfold scanLess
  dsimp only
  split
  · rename_i second
    obtain ⟨b, bs', eq', hb⟩ := atByte_iff.mp second
    obtain rfl : b = 45 := byte_eq (by decide) hb
    obtain ⟨reads, after'⟩ := advance_ascii eq' (by decide)
    split
    · rename_i third
      obtain ⟨b, bs'', eq'', hb⟩ := atByte_iff.mp third
      obtain rfl : b = 62 := byte_eq (by decide) hb
      obtain ⟨reads', -⟩ := advance_ascii eq'' (by decide)
      refine ⟨[60, 45, 62], scanned_operator known (by decide) quote
        ((first.trans reads).trans reads') fun q mem start => ?_⟩
      rw [eq] at start
      obtain h | h | h := candidates q mem (operator_head mem start) <;> rw [h] <;> decide
    · rename_i third
      rw [putBack eq']
      refine ⟨[60], scanned_operator known (by decide) quote first fun q mem start => ?_⟩
      rw [eq] at start
      obtain h | h | h := candidates q mem (operator_head mem start)
      · rw [h]; decide
      · obtain ⟨more, same⟩ := h ▸ start
        rw [← after, eq'] at same
        simp at same
      · obtain ⟨more, same⟩ := h ▸ start
        refine absurd ?_ (atByte_false (d := 62) rfl third more)
        rw [after']
        rw [← after, eq'] at same
        simpa using same.symm
  · rename_i second
    have noMinus : ∀ more, [60, 45, 62] ++ more ≠ 60 :: bs := by
      intro more same
      refine atByte_false (d := 45) rfl second (62 :: more) ?_
      rw [after]
      simpa using same.symm
    split
    · rename_i third
      obtain ⟨b, bs', eq', hb⟩ := atByte_iff.mp third
      obtain rfl : b = 61 := byte_eq (by decide) hb
      obtain ⟨reads, -⟩ := advance_ascii eq' (by decide)
      refine ⟨[60, 61], scanned_operator known (by decide) quote (first.trans reads)
        fun q mem start => ?_⟩
      rw [eq] at start
      obtain h | h | h := candidates q mem (operator_head mem start)
      · rw [h]; decide
      · rw [h]; decide
      · obtain ⟨more, same⟩ := h ▸ start
        exact absurd same (noMinus more)
    · rename_i third
      refine ⟨[60], scanned_operator known (by decide) quote first fun q mem start => ?_⟩
      rw [eq] at start
      obtain h | h | h := candidates q mem (operator_head mem start)
      · rw [h]; decide
      · obtain ⟨more, same⟩ := h ▸ start
        refine absurd ?_ (atByte_false (d := 61) rfl third more)
        rw [after]
        simpa using same.symm
      · obtain ⟨more, same⟩ := h ▸ start
        exact absurd same (noMinus more)

/-- The byte of an ASCII character. -/
def byteOf (c : Char) : UInt8 := UInt8.ofNat c.toNat

theorem pairRule_scanned {l : Lexer} (known : Known l) {rule : PairRule} (mem : rule ∈ pairRules)
    {b : UInt8} {bs : List UInt8} (eq : l.rest = b :: bs) (here : b.toNat = rule.first.toNat)
    (quote : ¬ bytes "<<<" <+: l.rest) :
    ∃ text, Scanned l (rule.scan l l.line l.col).1 text (rule.scan l l.line l.col).2 := by
  have table : ∀ rule ∈ pairRules, rule.first.toNat < 0x80 ∧ rule.second.toNat < 0x80 ∧
      bytes (String.ofList [rule.first]) = [byteOf rule.first] ∧
      bytes (String.ofList [rule.first, rule.second]) = [byteOf rule.first, byteOf rule.second] ∧
      (rule.one, [byteOf rule.first]) ∈ operators ∧
      (rule.two, [byteOf rule.first, byteOf rule.second]) ∈ operators ∧
      ∀ q ∈ operators, q.2.head? = some (byteOf rule.first) →
        q.2 = [byteOf rule.first] ∨ q.2 = [byteOf rule.first, byteOf rule.second] := by decide
  obtain ⟨ascii, ascii', text, text', one, two, candidates⟩ := table rule mem
  obtain rfl : b = byteOf rule.first := byte_eq (by omega) here
  obtain ⟨first, after⟩ := advance_ascii eq (by omega)
  unfold PairRule.scan
  dsimp only
  split
  · rename_i second
    obtain ⟨c, bs', eq', hc⟩ := atByte_iff.mp second
    obtain rfl : c = byteOf rule.second := byte_eq (by omega) hc
    obtain ⟨reads, -⟩ := advance_ascii eq' (by omega)
    rw [text']
    refine ⟨_, scanned_operator known two quote (first.trans reads) fun q mem start => ?_⟩
    rw [eq] at start
    obtain h | h := candidates q mem (operator_head mem start) <;> simp [h]
  · rename_i second
    rw [text]
    refine ⟨_, scanned_operator known one quote first fun q mem start => ?_⟩
    rw [eq] at start
    obtain h | h := candidates q mem (operator_head mem start)
    · simp [h]
    · obtain ⟨more, same⟩ := h ▸ start
      refine absurd ?_ (atByte_false (d := byteOf rule.second) ?_ second more)
      · rw [after]
        simpa using same.symm
      · rw [byteOf, UInt8.toNat_ofNat', Nat.mod_eq_of_lt (by omega)]

theorem single_scanned {l : Lexer} (known : Known l) {p : Char × TokenType} (mem : p ∈ singles)
    {b : UInt8} {bs : List UInt8} (eq : l.rest = b :: bs) (here : b.toNat = p.1.toNat)
    (quote : ¬ bytes "<<<" <+: l.rest) :
    ∃ text, Scanned l ⟨p.2, bytes (String.ofList [p.1]), l.line, l.col⟩ text l.advance := by
  have table : ∀ p ∈ singles, p.1.toNat < 0x80 ∧ bytes (String.ofList [p.1]) = [byteOf p.1] ∧
      (p.2, [byteOf p.1]) ∈ operators ∧
      ∀ q ∈ operators, q.2.head? = some (byteOf p.1) → q.2 = [byteOf p.1] := by decide
  obtain ⟨ascii, text, one, candidates⟩ := table p mem
  obtain rfl : b = byteOf p.1 := byte_eq (by omega) here
  rw [text]
  refine ⟨_, scanned_operator known one quote (advance_ascii eq (by omega)).1 fun q mem start => ?_⟩
  rw [eq] at start
  rw [candidates q mem (operator_head mem start)]

theorem temporal_scanned {l : Lexer} (known : Known l) {p : Nat × TokenType × List UInt8}
    (mem : p ∈ temporalOperators) {b : UInt8} {bs : List UInt8} (eq : l.rest = b :: bs)
    (here : (decodeRune (b :: bs)).1 = p.1) (quote : ¬ bytes "<<<" <+: l.rest) :
    ∃ text, Scanned l ⟨p.2.1, p.2.2, l.line, l.col⟩ text l.advance := by
  have table : ∀ p ∈ temporalOperators, 0x800 ≤ p.1 ∧ p.1 < 0x10000 ∧ p.1 ≠ runeError ∧
      [0xE0 + p.1 / 4096, 0x80 + p.1 / 64 % 64, 0x80 + p.1 % 64] = p.2.2.map UInt8.toNat ∧
      p.2 ∈ operators ∧ ∀ q ∈ operators, q.2.head? = p.2.2.head? → q.2.length ≤ p.2.2.length := by
    decide
  obtain ⟨low, high, proper, spelling, operator, candidates⟩ := table p mem
  have chunk := decodeRune_three low high proper here
  rw [spelling] at chunk
  have text := List.map_injective_iff.mpr (fun a b h => UInt8.toNat_inj.mp h) chunk
  have reads := advance_reads eq
  rw [text] at reads
  refine ⟨_, scanned_operator known operator quote reads fun q mem start => ?_⟩
  rw [eq] at start
  refine candidates q mem ((operator_head mem start).trans ?_)
  have rest := reads.rest
  obtain ⟨c, cs, eq', -⟩ := operator_first operator
  rw [eq, eq'] at rest
  rw [eq', (List.cons.inj rest).1]
  rfl

theorem scanQuotedString_scanned {l : Lexer} (known : Known l) {bs : List UInt8}
    (eq : l.rest = 34 :: bs) :
    ((l.scanQuotedString l.line l.col).1.type = .error ∧
      ∃ text, Passes l text (l.scanQuotedString l.line l.col).2) ∨
      ∃ text, Scanned l (l.scanQuotedString l.line l.col).1 text (l.scanQuotedString l.line l.col).2 := by
  obtain ⟨first, after⟩ := advance_ascii eq (by decide)
  obtain ⟨body, reads, free, final⟩ := scanQuotedStringLoop_reads l.advance
  unfold scanQuotedString
  dsimp only
  split
  · exact .inl ⟨rfl, _, first.trans reads⟩
  · rename_i more
    refine .inr ⟨34 :: (body ++ [34]), ?_⟩
    obtain empty | closing := final
    · rw [empty] at more
      exact absurd rfl more
    · obtain ⟨rest, eq'⟩ := List.head?_eq_some_iff.mp closing
      have last := (advance_ascii eq' (by decide)).1
      have whole : Passes l (34 :: (body ++ [34])) l.advance.scanQuotedStringLoop.advance :=
        first.trans (reads.trans last)
      rw [between_reads reads]
      refine ⟨⟨.symbol, .quoted free, ?_⟩, longest_quoted free, rfl, whole, rfl, rfl⟩
      rw [lookupWord_none known (by decide)]
      rfl

theorem advance_three {l : Lexer} {a b c : UInt8} {rest : List UInt8} (eq : l.rest = a :: b :: c :: rest)
    (ascii : a.toNat < 0x80 ∧ b.toNat < 0x80 ∧ c.toNat < 0x80) :
    Passes l [a, b, c] l.advance.advance.advance ∧ l.advance.advance.advance.rest = rest := by
  obtain ⟨first, eq⟩ := advance_ascii eq ascii.1
  obtain ⟨second, eq⟩ := advance_ascii eq ascii.2.1
  obtain ⟨third, eq⟩ := advance_ascii eq ascii.2.2
  exact ⟨(first.trans second).trans third, eq⟩

theorem scanNativeQuote_scanned {l : Lexer} (known : Known l) (quote : bytes "<<<" <+: l.rest) :
    ((l.scanNativeQuote l.line l.col).1.type = .error ∧
      ∃ text, Passes l text (l.scanNativeQuote l.line l.col).2) ∨
      ∃ text, Scanned l (l.scanNativeQuote l.line l.col).1 text (l.scanNativeQuote l.line l.col).2 := by
  obtain ⟨rest, eq⟩ := quote
  rw [bytes_native] at eq
  obtain ⟨first, after⟩ := advance_three eq.symm (by decide)
  obtain ⟨body, reads, before, final⟩ := scanNativeQuoteLoop_reads l.advance.advance.advance
  unfold scanNativeQuote
  dsimp only
  split
  · exact .inl ⟨rfl, _, first.trans reads⟩
  · rename_i more
    refine .inr ⟨bytes "<<<" ++ (body ++ bytes ">>>"), ?_⟩
    have closing_bytes : bytes ">>>" = [62, 62, 62] := by decide
    obtain empty | ⟨later, closing⟩ := final
    · rw [empty] at more
      exact absurd rfl more
    · obtain ⟨last, final⟩ := advance_three (by rw [← closing, closing_bytes]; rfl) (by decide)
      have whole : Passes l (bytes "<<<" ++ (body ++ bytes ">>>"))
          l.advance.advance.advance.scanNativeQuoteLoop.advance.advance.advance := by
        rw [bytes_native, closing_bytes]
        exact first.trans (reads.trans last)
      have noClose : ∀ i < body.length,
          ¬ bytes ">>>" <+: (body ++ (bytes ">>>" ++ later)).drop i := by
        intro i hi start
        refine before i hi ?_
        rwa [reads.rest, ← closing]
      rw [between_reads reads]
      refine ⟨⟨.nativequote, .native fun i hi start => noClose i hi ?_, ?_⟩, ?_, rfl, whole, rfl, rfl⟩
      · have inside : i ≤ (body ++ bytes ">>>").length := by
          rw [List.length_append]
          omega
        rw [← List.append_assoc, List.drop_append_of_le_length inside]
        exact start.trans (List.prefix_append _ _)
      · rw [bytes_native, List.cons_append, lookupWord_none known (by decide)]
        rfl
      · rw [final]
        exact longest_native noClose

set_option maxRecDepth 4000 in
theorem reserved_types : ∀ p ∈ allReserved, p.2 ≠ .eof ∧ p.2 ≠ .error ∧ p.2 ≠ .symbol ∧
    p.2 ≠ .variable ∧ p.2 ≠ .nativequote := by
  decide

theorem lookupWord_some {l : Lexer} {word : List UInt8} {type : TokenType}
    (h : lookupWord l.reserved word = some type) :
    ∃ p ∈ l.reserved, bytes p.1 = word ∧ p.2 = type := by
  obtain ⟨p, found, same⟩ := Option.map_eq_some_iff.mp h
  exact ⟨p, List.mem_of_find?_eq_some found, by simpa using List.find?_some found, same⟩

/-- The text of a word is the word. -/
theorem text_wordToken {l : Lexer} (known : Known l) (word : List UInt8) {type : TokenType}
    (plain : type ≠ .nativequote) : (l.wordToken word type l.line l.col).text = word := by
  refine if_neg ?_
  show (lookupWord l.reserved word).getD type ≠ .nativequote
  cases h : lookupWord l.reserved word with
  | none => exact plain
  | some t =>
    obtain ⟨p, mem, -, same⟩ := lookupWord_some h
    rw [Option.getD_some, ← same]
    exact (reserved_types p (known p mem)).2.2.2.2

theorem scanSymbol_scanned {l : Lexer} (known : Known l) {b : UInt8} {bs : List UInt8}
    (eq : l.rest = b :: bs) (starts : startsWord b = true) :
    ∃ text, Scanned l (l.scanSymbol l.line l.col).1 text (l.scanSymbol l.line l.col).2 := by
  obtain ⟨text, reads, all, stop⟩ := scanSymbolLoop_reads l
  have rest := reads.rest
  rw [eq] at rest
  cases text with
  | nil =>
    have word := startsWord_isWordByte starts
    rw [isWordByte, stop b bs rest.symm] at word
    exact absurd word Bool.false_ne_true
  | cons c cs =>
    obtain rfl : b = c := (List.cons.inj rest).1
    rw [List.forall_mem_cons] at all
    unfold scanSymbol
    dsimp only
    rw [between_reads reads]
    exact ⟨b :: cs, ⟨.symbol, .word starts all.2, rfl⟩, longest_word starts stop,
      text_wordToken known _ (by decide), reads, rfl, rfl⟩

theorem scanVariable_scanned {l : Lexer} (known : Known l) {b : UInt8} {bs : List UInt8}
    (eq : l.rest = b :: bs) (upper : isASCIIUpperRune b.toNat = true) :
    ∃ text, Scanned l (l.scanVariable l.line l.col).1 text (l.scanVariable l.line l.col).2 := by
  have ascii : b.toNat < 0x80 := by
    simp only [isASCIIUpperRune, decide_eq_true_eq, Char.reduceToNat] at upper
    omega
  obtain ⟨first, after⟩ := advance_ascii eq ascii
  obtain ⟨text, reads, tail, longest⟩ := scanVariableLoop_reads l.advance
  have whole : Passes l (b :: text) l.advance.scanVariableLoop := first.trans reads
  rw [reads.rest] at longest
  unfold scanVariable
  dsimp only
  rw [between_reads whole]
  exact ⟨b :: text, ⟨.variable, .capital upper tail, rfl⟩, longest_variable upper longest,
    text_wordToken known _ (by decide), whole, rfl, rfl⟩

end Goivy.Lex
