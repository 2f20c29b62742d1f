import Goivy.Lex.Scan

/-! Positions in runes, and what the scanner's loops read. -/
namespace Goivy.Lex

open Utf8

/-- The line of the position after some bytes. -/
def lineOf (before : List UInt8) : Nat := 1 + (runes before).count [10]

/-- The column of that position, counted in runes. -/
def columnOf (before : List UInt8) : Nat :=
  1 + ((runes before).reverse.takeWhile (· ≠ [10])).length

/-- A rune below 0x80 is the byte itself. -/
theorem rune_eq_iff {b : UInt8} {bs : List UInt8} {n : Nat} (ascii : n < 0x80) :
    (decodeRune (b :: bs)).1 = n ↔ b.toNat = n := by
  by_cases h : b.toNat < 0x80
  · rw [decodeRune_ascii bs h]
  · have := (decodeRune_not_ascii bs (Nat.le_of_not_lt h)).1
    exact ⟨fun eq => by omega, fun eq => by omega⟩

/-- A test that only ASCII characters pass looks at the byte. -/
theorem rune_test {P : Nat → Bool} (ascii : ∀ n, P n = true → n < 0x80) (b : UInt8)
    (bs : List UInt8) : P (decodeRune (b :: bs)).1 = P b.toNat := by
  by_cases h : b.toNat < 0x80
  · rw [decodeRune_ascii bs h]
  · have high := (decodeRune_not_ascii bs (Nat.le_of_not_lt h)).1
    have no : ∀ n, 0x80 ≤ n → P n = false := fun n hn => by
      by_contra yes
      have := ascii n (by simpa using yes)
      omega
    rw [no _ high, no _ (Nat.le_of_not_lt h)]

theorem size_ascii {b : UInt8} {bs : List UInt8} (ascii : b.toNat < 0x80) :
    (decodeRune (b :: bs)).2 = 1 := by
  rw [decodeRune_ascii bs ascii]

theorem byte_eq {b : UInt8} {n : Nat} (small : n < 256) (h : b.toNat = n) : b = UInt8.ofNat n := by
  rw [← h, UInt8.ofNat_toNat]

namespace Lexer

/-- The state of a lexer that has read some bytes of the input. -/
structure At (input before : List UInt8) (l : Lexer) : Prop where
  input_eq : before ++ l.rest = input
  boundary : runes input = runes before ++ runes l.rest
  line : l.line = lineOf before
  col : l.col = columnOf before

/-- Reading some bytes, all runes of them. -/
structure Passes (l : Lexer) (text : List UInt8) (l' : Lexer) : Prop where
  rest : l.rest = text ++ l'.rest
  moves : ∀ input before, At input before l → At input (before ++ text) l'
  reserved : l'.reserved = l.reserved
  peeked : l'.peeked = l.peeked

theorem Passes.refl (l : Lexer) : Passes l [] l :=
  ⟨rfl, fun _ before h => (List.append_nil before).symm ▸ h, rfl, rfl⟩

theorem Passes.trans {l l' l'' : Lexer} {text text' : List UInt8} (h : Passes l text l')
    (h' : Passes l' text' l'') : Passes l (text ++ text') l'' where
  rest := by rw [h.rest, h'.rest, List.append_assoc]
  moves input before start := by
    rw [← List.append_assoc]
    exact h'.moves _ _ (h.moves _ _ start)
  reserved := h'.reserved.trans h.reserved
  peeked := h'.peeked.trans h.peeked

theorem at_new (input : List UInt8) (version : Version) : At input [] (new input version) :=
  ⟨rfl, by simp [new], by simp [new, lineOf], by simp [new, columnOf]⟩

theorem peekRune_eq {l : Lexer} {b : UInt8} {bs : List UInt8} (eq : l.rest = b :: bs) :
    l.peekRune = decodeRune (b :: bs) := by
  rw [peekRune, eq]
  rfl

/-- The chunk that one rune takes is a newline exactly where the rune is. -/
theorem chunk_newline (b : UInt8) (bs : List UInt8) :
    (b :: bs).take (decodeRune (b :: bs)).2 = [10] ↔ (decodeRune (b :: bs)).1 = '\n'.toNat := by
  rw [rune_eq_iff (by decide)]
  by_cases h : b.toNat < 0x80
  · rw [size_ascii h]
    constructor
    · intro eq
      obtain rfl := (List.cons.inj eq).1
      rfl
    · intro eq
      rw [byte_eq (by decide) eq]
      rfl
  · refine ⟨fun eq => ?_, fun eq => absurd eq (by simp only [Char.reduceToNat]; omega)⟩
    have := (decodeRune_not_ascii bs (Nat.le_of_not_lt h)).2 10 (by rw [eq]; exact List.mem_singleton_self _)
    exact absurd this (by decide)

theorem lineOf_rune {before chunk : List UInt8} (read : runes (before ++ chunk) = runes before ++ [chunk]) :
    lineOf (before ++ chunk) = if chunk = [10] then lineOf before + 1 else lineOf before := by
  rw [lineOf, read, List.count_append, List.count_singleton]
  by_cases newline : chunk = [10] <;> simp [newline, lineOf, Nat.add_assoc]

theorem columnOf_rune {before chunk : List UInt8} (read : runes (before ++ chunk) = runes before ++ [chunk]) :
    columnOf (before ++ chunk) = if chunk = [10] then 1 else columnOf before + 1 := by
  rw [columnOf, read, List.reverse_append, List.reverse_singleton, List.singleton_append,
    List.takeWhile_cons]
  by_cases newline : chunk = [10] <;> simp [newline, columnOf, Nat.add_assoc]

theorem advance_line (l : Lexer) : l.advance.line =
    if (decodeRune l.rest).1 = '\n'.toNat then l.line + 1 else l.line := by
  unfold advance
  dsimp only
  split <;> rfl

theorem advance_col (l : Lexer) : l.advance.col =
    if (decodeRune l.rest).1 = '\n'.toNat then 1 else l.col + 1 := by
  unfold advance
  dsimp only
  split <;> rfl

theorem advance_reads {l : Lexer} {b : UInt8} {bs : List UInt8} (eq : l.rest = b :: bs) :
    Passes l ((b :: bs).take (decodeRune (b :: bs)).2) l.advance := by
  have rest : l.advance.rest = (b :: bs).drop (decodeRune (b :: bs)).2 := by rw [advance_rest, eq]
  have newline := chunk_newline b bs
  have line := advance_line l
  have col := advance_col l
  have split : (b :: bs).take (decodeRune (b :: bs)).2 ++ l.advance.rest = l.rest := by
    rw [rest, List.take_append_drop, eq]
  have first : runes l.rest = (b :: bs).take (decodeRune (b :: bs)).2 :: runes l.advance.rest := by
    rw [eq, runes_cons, rest]
  simp only [eq, ← newline] at line col
  revert split first line col
  generalize (b :: bs).take (decodeRune (b :: bs)).2 = chunk
  intro split first line col
  refine ⟨split.symm, fun input before start => ?_, ?_, ?_⟩
  · have input_eq : (before ++ chunk) ++ l.advance.rest = input := by
      rw [List.append_assoc, split, start.input_eq]
    have chunks : runes ((before ++ chunk) ++ l.advance.rest) =
        (runes before ++ [chunk]) ++ runes l.advance.rest := by
      rw [input_eq, start.boundary, first, List.append_assoc]
      rfl
    have read : runes (before ++ chunk) = runes before ++ [chunk] :=
      runes_append chunks (by rw [List.flatten_append, flatten_runes, List.flatten_singleton])
    refine ⟨input_eq, by rw [read, ← chunks, input_eq], ?_, ?_⟩
    · rw [line, lineOf_rune read, start.line]
    · rw [col, columnOf_rune read, start.col]
  · unfold advance
    dsimp only
    split <;> rfl
  · unfold advance
    dsimp only
    split <;> rfl

theorem advance_ascii {l : Lexer} {b : UInt8} {bs : List UInt8} (eq : l.rest = b :: bs)
    (ascii : b.toNat < 0x80) : Passes l [b] l.advance ∧ l.advance.rest = bs := by
  have reads := advance_reads eq
  rw [size_ascii ascii, List.take_succ_cons, List.take_zero] at reads
  refine ⟨reads, ?_⟩
  have := reads.rest
  rw [eq] at this
  exact (List.cons.inj this).2.symm

theorem atByte_iff {l : Lexer} {c : Char} : l.atByte c = true ↔
    ∃ b bs, l.rest = b :: bs ∧ b.toNat = c.toNat := by
  unfold atByte
  cases l.rest <;> simp

/-- One character of a rune that is not `c` brings no byte `c`. -/
theorem not_mem_chunk {b c : UInt8} {bs : List UInt8} (ascii : c.toNat < 0x80)
    (other : (decodeRune (b :: bs)).1 ≠ c.toNat) : c ∉ (b :: bs).take (decodeRune (b :: bs)).2 := by
  intro mem
  by_cases h : b.toNat < 0x80
  · rw [size_ascii h, List.take_succ_cons, List.take_zero, List.mem_singleton] at mem
    rw [mem] at other
    exact other ((rune_eq_iff (by omega)).mpr rfl)
  · have := (decodeRune_not_ascii bs (Nat.le_of_not_lt h)).2 c mem
    omega

/-- A loop that advances up to a given ASCII character. -/
theorem readsUpTo {loop : Lexer → Lexer} {c : UInt8} (ascii : c.toNat < 0x80)
    (empty : ∀ l : Lexer, l.rest = [] → loop l = l)
    (stop : ∀ l : Lexer, l.rest ≠ [] → l.peekRune.1 = c.toNat → loop l = l)
    (step : ∀ l : Lexer, l.rest ≠ [] → l.peekRune.1 ≠ c.toNat → loop l = loop l.advance)
    (l : Lexer) : ∃ text, Passes l text (loop l) ∧ c ∉ text ∧
      ((loop l).rest = [] ∨ (loop l).rest.head? = some c) := by
  induction hn : l.rest.length using Nat.strong_induction_on generalizing l with
  | _ n ih =>
    cases eq : l.rest with
    | nil => exact ⟨[], by rw [empty l eq]; exact .refl l, List.not_mem_nil, .inl (by rw [empty l eq, eq])⟩
    | cons b bs =>
      have more : l.rest ≠ [] := by rw [eq]; exact List.cons_ne_nil b bs
      by_cases here : l.peekRune.1 = c.toNat
      · rw [stop l more here]
        refine ⟨[], .refl l, List.not_mem_nil, .inr ?_⟩
        rw [peekRune_eq eq, rune_eq_iff ascii] at here
        rw [eq, List.head?_cons, UInt8.toNat_inj.mp here]
      · rw [step l more here]
        obtain ⟨text, reads, free, final⟩ := ih _ (hn ▸ advance_lt more) l.advance rfl
        rw [peekRune_eq eq] at here
        refine ⟨_, (advance_reads eq).trans reads, ?_, final⟩
        rw [List.mem_append, not_or]
        exact ⟨not_mem_chunk ascii here, free⟩

theorem skipComment_reads (l : Lexer) : ∃ text, Passes l text l.skipComment ∧ 10 ∉ text ∧
    (l.skipComment.rest = [] ∨ l.skipComment.rest.head? = some 10) :=
  readsUpTo (by decide) (fun l h => by rw [skipComment, dif_pos h])
    (fun l h here => by rw [skipComment, dif_neg h]; exact if_pos here)
    (fun l h other => by rw [skipComment, dif_neg h]; exact if_neg other) l

theorem scanQuotedStringLoop_reads (l : Lexer) : ∃ text, Passes l text l.scanQuotedStringLoop ∧
    34 ∉ text ∧ (l.scanQuotedStringLoop.rest = [] ∨ l.scanQuotedStringLoop.rest.head? = some 34) :=
  readsUpTo (by decide) (fun l h => by rw [scanQuotedStringLoop, dif_pos h])
    (fun l h here => by rw [scanQuotedStringLoop, dif_neg h]; exact if_pos here)
    (fun l h other => by rw [scanQuotedStringLoop, dif_neg h]; exact if_neg other) l

theorem isWordRune_ascii : ∀ n, isWordRune n = true → n < 0x80 := by
  intro n h
  simp only [isWordRune, isASCIILetterRune, isASCIILowerRune, isASCIIUpperRune, isASCIIDigitRune,
    Bool.or_eq_true, decide_eq_true_eq, Char.reduceToNat] at h
  omega

/-- A word goes on as far as its characters do. -/
theorem scanSymbolLoop_reads (l : Lexer) : ∃ text, Passes l text l.scanSymbolLoop ∧
    (∀ b ∈ text, isWordRune b.toNat = true) ∧
    ∀ b bs, l.scanSymbolLoop.rest = b :: bs → isWordRune b.toNat = false := by
  induction l using scanSymbolLoop.induct with
  | case1 l h =>
    rw [scanSymbolLoop, dif_pos h]
    exact ⟨[], .refl l, by simp, fun b bs eq => absurd (h.symm.trans eq) (by simp)⟩
  | case2 l h word ih =>
    rw [scanSymbolLoop, dif_neg h, if_pos word]
    obtain ⟨b, bs, eq⟩ := List.exists_cons_of_ne_nil h
    rw [peekRune_eq eq, rune_test isWordRune_ascii] at word
    obtain ⟨text, reads, all, final⟩ := ih
    refine ⟨b :: text, (advance_ascii eq (isWordRune_ascii _ word)).1.trans reads, ?_, final⟩
    rw [List.forall_mem_cons]
    exact ⟨word, all⟩
  | case3 l h word =>
    rw [scanSymbolLoop, dif_neg h, if_neg word]
    refine ⟨[], .refl l, by simp, fun b bs eq => ?_⟩
    rw [peekRune_eq eq, rune_test isWordRune_ascii] at word
    simpa using word

/-- The loop of a native quote stops at the first closing brackets. -/
theorem scanNativeQuoteLoop_reads (l : Lexer) : ∃ text, Passes l text l.scanNativeQuoteLoop ∧
    (∀ i < text.length, ¬ bytes ">>>" <+: l.rest.drop i) ∧
    (l.scanNativeQuoteLoop.rest = [] ∨ bytes ">>>" <+: l.scanNativeQuoteLoop.rest) := by
  induction l using scanNativeQuoteLoop.induct with
  | case1 l h =>
    rw [scanNativeQuoteLoop, dif_pos h]
    exact ⟨[], .refl l, by simp, .inl h⟩
  | case2 l h close =>
    rw [scanNativeQuoteLoop, dif_neg h, if_pos close]
    exact ⟨[], .refl l, by simp, .inr close⟩
  | case3 l h close ih =>
    rw [scanNativeQuoteLoop, dif_neg h, if_neg close]
    obtain ⟨b, bs, eq⟩ := List.exists_cons_of_ne_nil h
    obtain ⟨text, reads, none, final⟩ := ih
    have first := advance_reads eq
    refine ⟨_, first.trans reads, fun i hi starts => ?_, final⟩
    by_cases inside : i < ((b :: bs).take (decodeRune (b :: bs)).2).length
    · -- a bracket can only be the first byte of the chunk
      obtain ⟨c, cs, eq'⟩ : ∃ c cs, l.rest.drop i = c :: cs := by
        refine List.exists_cons_of_ne_nil fun empty => ?_
        rw [empty] at starts
        exact absurd (List.prefix_nil.mp starts) (by decide)
      have bracket : c = 62 := by
        rw [eq'] at starts
        exact (List.cons_prefix_cons.mp starts).1.symm
      cases i with
      | zero => exact close starts
      | succ i =>
        have mem : c ∈ (b :: bs).take (decodeRune (b :: bs)).2 := by
          have get := congrArg List.head? eq'
          rw [List.head?_drop, first.rest, List.getElem?_append_left inside] at get
          exact List.mem_of_getElem? get
        by_cases ascii : b.toNat < 0x80
        · rw [size_ascii ascii] at inside
          simp at inside
        · have := (decodeRune_not_ascii bs (Nat.le_of_not_lt ascii)).2 c mem
          rw [bracket] at this
          exact absurd this (by decide)
    · refine none (i - ((b :: bs).take (decodeRune (b :: bs)).2).length) ?_ ?_
      · rw [List.length_append] at hi
        omega
      · rw [first.rest, List.drop_append, List.drop_of_length_le (Nat.le_of_not_lt inside),
          List.nil_append] at starts
        exact starts

end Lexer

end Goivy.Lex
