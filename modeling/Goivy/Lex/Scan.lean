import Goivy.Lex.Token
import Goivy.Util.Utf8

/-! The scanner. Its state keeps the input from the current position on. -/
namespace Goivy.Lex

open Utf8

structure Lexer where
  rest : List UInt8
  line : Nat
  col : Nat
  reserved : List (String × TokenType)
  peeked : Option Token

namespace Lexer

/-- `NewLexer`. -/
def new (input : List UInt8) (version : Version) : Lexer :=
  ⟨input, 1, 1, buildReserved version, none⟩

/-- `peekRune`. -/
def peekRune (l : Lexer) : Nat × Nat := if l.rest.isEmpty then (0, 0) else decodeRune l.rest

/-- `advance`. -/
def advance (l : Lexer) : Lexer :=
  let (r, size) := decodeRune l.rest
  if r = '\n'.toNat then { l with rest := l.rest.drop size, line := l.line + 1, col := 1 }
  else { l with rest := l.rest.drop size, col := l.col + 1 }

theorem advance_rest (l : Lexer) : l.advance.rest = l.rest.drop (decodeRune l.rest).2 := by
  unfold advance
  split
  split <;> simp_all

theorem advance_lt {l : Lexer} (more : l.rest ≠ []) : l.advance.rest.length < l.rest.length := by
  obtain ⟨b, bs, eq⟩ := List.exists_cons_of_ne_nil more
  have := (decodeRune_size b bs).1
  rw [advance_rest, eq, List.length_drop, List.length_cons]
  omega

/-- The rest of a comment, up to the end of its line. -/
def skipComment (l : Lexer) : Lexer :=
  if h : l.rest = [] then l
  else if l.peekRune.1 = '\n'.toNat then l
  else skipComment l.advance
termination_by l.rest.length
decreasing_by exact advance_lt h

theorem skipComment_le (l : Lexer) : l.skipComment.rest.length ≤ l.rest.length := by
  induction l using skipComment.induct with
  | case1 l h => rw [skipComment, dif_pos h]
  | case2 l h newline => rw [skipComment, dif_neg h, if_pos newline]
  | case3 l h newline ih =>
    rw [skipComment, dif_neg h, if_neg newline]
    exact ih.trans (advance_lt h).le

theorem skipComment_lt {l : Lexer} (more : l.rest ≠ []) (hash : l.peekRune.1 = '#'.toNat) :
    l.skipComment.rest.length < l.rest.length := by
  rw [skipComment, dif_neg more, if_neg (by rw [hash]; decide)]
  exact Nat.lt_of_le_of_lt (skipComment_le _) (advance_lt more)

/-- `skipWhitespaceAndComments`. -/
def skipWhitespaceAndComments (l : Lexer) : Lexer :=
  if h : l.rest = [] then l
  else
    let r := l.peekRune.1
    if r = ' '.toNat ∨ r = '\t'.toNat ∨ r = '\r'.toNat ∨ r = '\n'.toNat then
      skipWhitespaceAndComments l.advance
    else if hash : r = '#'.toNat then skipWhitespaceAndComments l.skipComment
    else l
termination_by l.rest.length
decreasing_by
  · exact advance_lt h
  · exact skipComment_lt h hash

def isASCIILowerRune (r : Nat) : Bool := 'a'.toNat ≤ r ∧ r ≤ 'z'.toNat

def isASCIIUpperRune (r : Nat) : Bool := 'A'.toNat ≤ r ∧ r ≤ 'Z'.toNat

def isASCIIDigitRune (r : Nat) : Bool := '0'.toNat ≤ r ∧ r ≤ '9'.toNat

def isASCIILetterRune (r : Nat) : Bool := isASCIILowerRune r || isASCIIUpperRune r

/-- The characters that continue a word. -/
def isWordRune (r : Nat) : Bool := r = '_'.toNat || isASCIILetterRune r || isASCIIDigitRune r

/-- `isPythonVariableSubscriptByte`. -/
def isPythonVariableSubscriptByte (b : UInt8) : Bool :=
  b.toNat = '_'.toNat || ('a'.toNat ≤ b.toNat ∧ b.toNat ≤ 'z'.toNat) ||
    ('A'.toNat ≤ b.toNat ∧ b.toNat ≤ 'Z'.toNat) || ('0'.toNat ≤ b.toNat ∧ b.toNat ≤ '9'.toNat)

/-- `validVariableSubscriptEnd`, as the number of bytes up to the end. -/
def validVariableSubscriptEnd : List UInt8 → Option Nat
  | [] => none
  | b :: bs =>
    if b.toNat ≠ '['.toNat then none
    else
      let i := (bs.takeWhile isPythonVariableSubscriptByte).length
      match bs.drop i with
      | c :: _ => if c.toNat = ']'.toNat then some (i + 2) else none
      | [] => none

/-- `advance` as long as more than the given number of bytes remain. -/
def advanceUntil (l : Lexer) (remaining : Nat) : Lexer :=
  if h : remaining < l.rest.length then advanceUntil l.advance remaining else l
termination_by l.rest.length
decreasing_by exact advance_lt fun empty => by simp [empty] at h

theorem advanceUntil_le (l : Lexer) (remaining : Nat) :
    (l.advanceUntil remaining).rest.length ≤ l.rest.length := by
  induction l using advanceUntil.induct remaining with
  | case1 l h ih =>
    rw [advanceUntil, dif_pos h]
    exact ih.trans (advance_lt fun empty => by simp [empty] at h).le
  | case2 l h => rw [advanceUntil, dif_neg h]

theorem advanceUntil_lt {l : Lexer} {remaining : Nat} (more : remaining < l.rest.length) :
    (l.advanceUntil remaining).rest.length < l.rest.length := by
  rw [advanceUntil, dif_pos more]
  exact Nat.lt_of_le_of_lt (advanceUntil_le _ _) (advance_lt fun empty => by simp [empty] at more)

theorem validVariableSubscriptEnd_pos {bs : List UInt8} {k : Nat}
    (h : validVariableSubscriptEnd bs = some k) : 2 ≤ k ∧ bs ≠ [] := by
  cases bs with
  | nil => contradiction
  | cons b bs =>
    simp only [validVariableSubscriptEnd] at h
    split at h
    · contradiction
    · split at h
      · split at h
        · cases h
          exact ⟨Nat.le_add_left 2 _, List.cons_ne_nil b bs⟩
        · contradiction
      · contradiction

/-- The loop of `scanSymbol`. -/
def scanSymbolLoop (l : Lexer) : Lexer :=
  if h : l.rest = [] then l
  else if isWordRune l.peekRune.1 then scanSymbolLoop l.advance
  else l
termination_by l.rest.length
decreasing_by exact advance_lt h

/-- The loop of `scanVariable`. -/
def scanVariableLoop (l : Lexer) : Lexer :=
  if h : l.rest = [] then l
  else if isWordRune l.peekRune.1 then scanVariableLoop l.advance
  else if l.peekRune.1 = '['.toNat then
    match hk : validVariableSubscriptEnd l.rest with
    | none => l
    | some k => scanVariableLoop (l.advanceUntil (l.rest.length - k))
  else l
termination_by l.rest.length
decreasing_by
  · exact advance_lt h
  · obtain ⟨two, more⟩ := validVariableSubscriptEnd_pos hk
    have := List.length_pos_iff.mpr more
    exact advanceUntil_lt (by omega)

/-- The loop of `scanQuotedString`: it stops at the closing quote or at the end. -/
def scanQuotedStringLoop (l : Lexer) : Lexer :=
  if h : l.rest = [] then l
  else if l.peekRune.1 = '"'.toNat then l
  else scanQuotedStringLoop l.advance
termination_by l.rest.length
decreasing_by exact advance_lt h

/-- The loop of `scanNativeQuote`: it stops at the closing brackets or at the end. -/
def scanNativeQuoteLoop (l : Lexer) : Lexer :=
  if h : l.rest = [] then l
  else if bytes ">>>" <+: l.rest then l
  else scanNativeQuoteLoop l.advance
termination_by l.rest.length
decreasing_by exact advance_lt h

/-- The input between two positions. -/
def between (start stop : Lexer) : List UInt8 :=
  start.rest.take (start.rest.length - stop.rest.length)

/-- `scanQuotedString`. -/
def scanQuotedString (l : Lexer) (line col : Nat) : Token × Lexer :=
  let start := l.advance
  let stop := start.scanQuotedStringLoop
  if stop.rest.isEmpty then (⟨.error, bytes "unterminated string", line, col⟩, stop)
  else (⟨.symbol, bytes "\"" ++ between start stop ++ bytes "\"", line, col⟩, stop.advance)

/-- `scanNativeQuote`. -/
def scanNativeQuote (l : Lexer) (line col : Nat) : Token × Lexer :=
  let start := l.advance.advance.advance
  let stop := start.scanNativeQuoteLoop
  if stop.rest.isEmpty then (⟨.error, bytes "unterminated native quote", line, col⟩, stop)
  else (⟨.nativequote, between start stop, line, col⟩, stop.advance.advance.advance)

/-- The token of a word: its reserved type, or the given one. -/
def wordToken (l : Lexer) (word : List UInt8) (type : TokenType) (line col : Nat) : Token :=
  ⟨(lookupWord l.reserved word).getD type, word, line, col⟩

/-- `scanSymbol`. -/
def scanSymbol (l : Lexer) (line col : Nat) : Token × Lexer :=
  let stop := l.scanSymbolLoop
  (l.wordToken (between l stop) .symbol line col, stop)

/-- `scanVariable`. -/
def scanVariable (l : Lexer) (line col : Nat) : Token × Lexer :=
  let stop := l.advance.scanVariableLoop
  (l.wordToken (between l stop) .variable line col, stop)

/-- The next byte is the given character. -/
def atByte (l : Lexer) (c : Char) : Bool := l.rest.head?.any (fun b => b.toNat = c.toNat)

/-- The branch of `scan` for dots. -/
def scanDots (l : Lexer) (line col : Nat) : Token × Lexer :=
  let l := l.advance
  if l.atByte '.' then
    let l := l.advance
    if l.atByte '.' then (⟨.dotdotdot, bytes "...", line, col⟩, l.advance)
    else (⟨.dots, bytes "..", line, col⟩, l)
  else (⟨.dot, bytes ".", line, col⟩, l)

/-- The branch of `scan` for `<`. -/
def scanLess (l : Lexer) (line col : Nat) : Token × Lexer :=
  let l := l.advance
  if l.atByte '-' then
    let l := l.advance
    if l.atByte '>' then (⟨.iff, bytes "<->", line, col⟩, l.advance)
    -- the '-' is put back
    else (⟨.lt, bytes "<", line, col⟩, { l with rest := bytes "-" ++ l.rest, col := l.col - 1 })
  else if l.atByte '=' then (⟨.le, bytes "<=", line, col⟩, l.advance)
  else (⟨.lt, bytes "<", line, col⟩, l)

/-- A branch of `scan` for a character that forms another token together with a second one. -/
structure PairRule where
  first : Char
  second : Char
  two : TokenType
  one : TokenType

def PairRule.scan (rule : PairRule) (l : Lexer) (line col : Nat) : Token × Lexer :=
  let l := l.advance
  if l.atByte rule.second then
    (⟨rule.two, bytes (String.ofList [rule.first, rule.second]), line, col⟩, l.advance)
  else (⟨rule.one, bytes (String.ofList [rule.first]), line, col⟩, l)

def pairRules : List PairRule :=
  [⟨'-', '>', .arrow, .minus⟩, ⟨'>', '=', .ge, .gt⟩, ⟨'~', '=', .tildaeq, .tilda⟩,
   ⟨'*', '>', .pto, .times⟩, ⟨':', '=', .assign, .colon⟩]

/-- The characters that are tokens of their own. -/
def singles : List (Char × TokenType) :=
  [(',', .comma), ('(', .lparen), (')', .rparen), ('{', .lcb), ('}', .rcb), ('[', .lb), (']', .rb),
   ('+', .plus), ('/', .div), ('&', .and), ('|', .or), ('=', .eq), (';', .semi), ('$', .dollar),
   ('^', .caret)]

/-- The temporal operators outside ASCII, with their bytes. -/
def temporalOperators : List (Nat × TokenType × List UInt8) :=
  [(0x25A1, .kwGlobally, [0xE2, 0x96, 0xA1]), (0x25C7, .kwEventually, [0xE2, 0x97, 0x87])]

/-- The UTF-8 bytes of the rune in an error: an invalid byte prints as U+FFFD. -/
def runeBytes (r : Nat) : List UInt8 := (String.singleton (Char.ofNat r)).toUTF8.toList

/-- `scan`. -/
def scan (l : Lexer) : Token × Lexer :=
  let l := l.skipWhitespaceAndComments
  if l.rest.isEmpty then (⟨.eof, [], l.line, l.col⟩, l)
  else
    let r := l.peekRune.1
    if bytes "<<<" <+: l.rest then l.scanNativeQuote l.line l.col
    else if r = '.'.toNat then l.scanDots l.line l.col
    else if r = '<'.toNat then l.scanLess l.line l.col
    else match pairRules.find? (fun rule => r = rule.first.toNat) with
      | some rule => rule.scan l l.line l.col
      | none => match singles.find? (fun p => r = p.1.toNat) with
        | some p => (⟨p.2, bytes (String.ofList [p.1]), l.line, l.col⟩, l.advance)
        | none => match temporalOperators.find? (fun p => r = p.1) with
          | some p => (⟨p.2.1, p.2.2, l.line, l.col⟩, l.advance)
          | none =>
            if r = '"'.toNat then l.scanQuotedString l.line l.col
            else if isASCIIUpperRune r then l.scanVariable l.line l.col
            else if r = '_'.toNat || isASCIILowerRune r || isASCIIDigitRune r then
              l.scanSymbol l.line l.col
            else
              (⟨.error, bytes "illegal character '" ++ runeBytes r ++ bytes "'", l.line, l.col⟩,
                l.advance)

/-- `NextToken`. -/
def nextToken (l : Lexer) : Token × Lexer :=
  match l.peeked with
  | some tok => (tok, { l with peeked := none })
  | none => l.scan

/-- `Peek`. -/
def peek (l : Lexer) : Token × Lexer :=
  match l.peeked with
  | some tok => (tok, l)
  | none => (l.scan.1, { l.scan.2 with peeked := some l.scan.1 })

end Lexer

end Goivy.Lex
