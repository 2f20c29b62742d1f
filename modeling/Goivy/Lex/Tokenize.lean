import Goivy.Lex.Lossless

/-! All tokens of an input, and how reading ahead interleaves with reading. -/
namespace Goivy.Lex

open Utf8 Lexer

/-- What the scanner skips. -/
theorem skipWhitespaceAndComments_reads (l : Lexer) :
    ∃ skip, Passes l skip l.skipWhitespaceAndComments ∧ Blank skip l.skipWhitespaceAndComments.rest := by
  induction l using skipWhitespaceAndComments.induct with
  | case1 l h =>
    rw [skipWhitespaceAndComments, dif_pos h]
    exact ⟨[], .refl l, .nil _⟩
  | case2 l h r space ih =>
    rw [skipWhitespaceAndComments, dif_neg h]
    dsimp only
    rw [if_pos space]
    obtain ⟨b, bs, eq⟩ := List.exists_cons_of_ne_nil h
    simp only [r, peekRune_eq eq] at space
    rw [rune_eq_iff (by decide), rune_eq_iff (by decide), rune_eq_iff (by decide),
      rune_eq_iff (by decide)] at space
    simp only [Char.reduceToNat] at space
    have byte : b ∈ bytes " \t\r\n" := by
      rw [show bytes " \t\r\n" = [32, 9, 13, 10] by decide]
      simp only [List.mem_cons, List.not_mem_nil, or_false, ← UInt8.toNat_inj]
      exact space
    have ascii : b.toNat < 0x80 := by omega
    obtain ⟨skip, reads, blank⟩ := ih
    exact ⟨b :: skip, (advance_ascii eq ascii).1.trans reads, .space byte blank⟩
  | case3 l h r space hash ih =>
    rw [skipWhitespaceAndComments, dif_neg h]
    dsimp only
    rw [if_neg space, dif_pos hash]
    obtain ⟨b, bs, eq⟩ := List.exists_cons_of_ne_nil h
    have first : b = 35 := by
      have : (decodeRune (b :: bs)).1 = 35 := by rw [← peekRune_eq eq]; exact hash
      rw [rune_eq_iff (by decide)] at this
      exact byte_eq (by decide) this
    obtain ⟨text, comment, free, final⟩ := skipComment_reads l
    obtain ⟨skip, reads, blank⟩ := ih
    have rest := comment.rest
    rw [eq, first] at rest
    cases text with
    | nil =>
      rw [List.nil_append] at rest
      rw [← rest] at final
      obtain h | h := final
      · cases h
      · exact absurd (Option.some.inj h) (by decide)
    | cons c body =>
      obtain rfl : c = 35 := (List.cons.inj rest).1.symm
      refine ⟨_, comment.trans reads, .comment (fun mem => free (List.mem_cons_of_mem _ mem)) ?_ blank⟩
      rwa [← reads.rest]
  | case4 l h r space hash =>
    rw [skipWhitespaceAndComments, dif_neg h]
    dsimp only
    rw [if_neg space, dif_neg hash]
    exact ⟨[], .refl l, .nil _⟩

theorem isASCIIUpperRune_ascii : ∀ n, isASCIIUpperRune n = true → n < 0x80 := by
  intro n h
  simp only [isASCIIUpperRune, decide_eq_true_eq, Char.reduceToNat] at h
  omega

theorem startsWord_ascii : ∀ n, (n = '_'.toNat || isASCIILowerRune n || isASCIIDigitRune n) = true →
    n < 0x80 := by
  intro n h
  simp only [isASCIILowerRune, isASCIIDigitRune, Bool.or_eq_true, decide_eq_true_eq,
    Char.reduceToNat] at h
  omega

/-- One call of the scanner: after the blanks it reports an error, the end of the input,
or the longest lexeme. -/
theorem scan_spec {l : Lexer} (known : Known l) : ∃ skip l', Passes l skip l' ∧ Blank skip l'.rest ∧
    ((l.scan.1.type = .error ∧ ∃ text, Passes l' text l.scan.2) ∨
      l'.rest = [] ∧ l.scan = (⟨.eof, [], l'.line, l'.col⟩, l') ∨
        ∃ text, Scanned l' l.scan.1 text l.scan.2) := by
  obtain ⟨skip, reads, blank⟩ := skipWhitespaceAndComments_reads l
  refine ⟨skip, _, reads, blank, ?_⟩
  have known' : Known l.skipWhitespaceAndComments := fun p mem => known p (reads.reserved ▸ mem)
  unfold scan
  revert known'
  generalize l.skipWhitespaceAndComments = l
  intro known
  dsimp only
  split
  · rename_i empty
    exact .inr (.inl ⟨List.isEmpty_iff.mp empty, rfl⟩)
  · rename_i more
    rw [List.isEmpty_iff] at more
    obtain ⟨b, bs, eq⟩ := List.exists_cons_of_ne_nil more
    rw [peekRune_eq eq]
    split
    · rename_i quote
      exact (scanNativeQuote_scanned known quote).imp_right .inr
    · rename_i quote
      split
      · rename_i dot
        rw [rune_eq_iff (by decide)] at dot
        exact .inr (.inr (scanDots_scanned known (byte_eq (by decide) dot ▸ eq) quote))
      · split
        · rename_i less
          rw [rune_eq_iff (by decide)] at less
          exact .inr (.inr (scanLess_scanned known (byte_eq (by decide) less ▸ eq) quote))
        · split
          · rename_i rule found
            have mem := List.mem_of_find?_eq_some found
            have ascii : ∀ rule ∈ pairRules, rule.first.toNat < 0x80 := by decide
            have here := List.find?_some found
            rw [decide_eq_true_eq, rune_eq_iff (ascii rule mem)] at here
            exact .inr (.inr (pairRule_scanned known mem eq here quote))
          · split
            · rename_i p found
              have mem := List.mem_of_find?_eq_some found
              have ascii : ∀ p ∈ singles, p.1.toNat < 0x80 := by decide
              have here := List.find?_some found
              rw [decide_eq_true_eq, rune_eq_iff (ascii p mem)] at here
              exact .inr (.inr (single_scanned known mem eq here quote))
            · split
              · rename_i p found
                have here := List.find?_some found
                rw [decide_eq_true_eq] at here
                exact .inr (.inr (temporal_scanned known (List.mem_of_find?_eq_some found) eq here quote))
              · split
                · rename_i quoted
                  rw [rune_eq_iff (by decide)] at quoted
                  exact (scanQuotedString_scanned known (byte_eq (by decide) quoted ▸ eq)).imp_right .inr
                · split
                  · rename_i upper
                    rw [rune_test isASCIIUpperRune_ascii] at upper
                    exact .inr (.inr (scanVariable_scanned known eq upper))
                  · split
                    · rename_i starts
                      have byte := rune_test (P := fun r => r = '_'.toNat || isASCIILowerRune r ||
                        isASCIIDigitRune r) startsWord_ascii b bs
                      exact .inr (.inr (scanSymbol_scanned known eq (byte.symm.trans starts)))
                    · exact .inl ⟨rfl, _, advance_reads eq⟩

/-- The loop of `Tokenize`, for a number of rounds. -/
def tokenizeLoop : Nat → Lexer → List Token
  | 0, _ => []
  | rounds + 1, l =>
    let (tok, l) := l.nextToken
    if tok.type = .eof ∨ tok.type = .error then [tok] else tok :: tokenizeLoop rounds l

/-- `Tokenize`: every token takes a byte, so one round more than there are bytes is enough. -/
def tokenize (input : List UInt8) (version : Version) : List Token :=
  tokenizeLoop (input.length + 1) (new input version)

/-- A token that stands for some bytes of the input. -/
structure TokenAt (version : Version) (before text rest : List UInt8) (tok : Token) : Prop where
  lexeme : ∃ type, Lexeme type text ∧ tok.type = (lookupWord (buildReserved version) text).getD type
  longest : Longest text rest
  text_eq : tok.text = text
  keyword : IsWord text → ((tok.type ≠ .symbol ∧ tok.type ≠ .variable) ↔
    ∃ p ∈ buildReserved version, bytes p.1 = text)
  line : tok.line = lineOf before
  column : tok.column = columnOf before

/-- The tokens of the rest of an input, up to its end. -/
inductive Lexes (version : Version) : List UInt8 → List UInt8 → List Token → Prop
  | eof {before skip : List UInt8} : Blank skip [] →
      Lexes version before skip [⟨.eof, [], lineOf (before ++ skip), columnOf (before ++ skip)⟩]
  | token {before skip text rest : List UInt8} {tok : Token} {toks : List Token} :
      Blank skip (text ++ rest) → TokenAt version (before ++ skip) text rest tok →
      Lexes version (before ++ skip ++ text) rest toks →
      Lexes version before (skip ++ (text ++ rest)) (tok :: toks)

theorem lexeme_type {type : TokenType} {text : List UInt8} (lexeme : Lexeme type text) :
    type ≠ .eof ∧ type ≠ .error ∧ text ≠ [] := by
  cases lexeme with
  | operator mem =>
    have plain : ∀ q ∈ operators, q.1 ≠ .eof ∧ q.1 ≠ .error ∧ q.2 ≠ [] := by decide
    exact plain _ mem
  | native _ => exact ⟨by decide, by decide, by rw [bytes_native]; exact List.cons_ne_nil _ _⟩
  | _ => exact ⟨by decide, by decide, List.cons_ne_nil _ _⟩

theorem lexeme_of_word {type : TokenType} {text : List UInt8} (word : IsWord text)
    (lexeme : Lexeme type text) : type = .symbol ∨ type = .variable := by
  obtain ⟨b, bs, eq, word⟩ := word
  cases lexeme with
  | operator mem =>
    obtain ⟨c, cs, eq', notWord, notUpper, -⟩ := operator_first mem
    obtain rfl : c = b := (List.cons.inj (eq'.symm.trans eq)).1
    obtain ⟨h, -⟩ | ⟨h, -⟩ := word
    · rw [notWord] at h
      contradiction
    · rw [notUpper] at h
      contradiction
  | native _ =>
    rw [bytes_native] at eq
    obtain rfl : 60 = b := (List.cons.inj eq).1
    obtain ⟨h, -⟩ | ⟨h, -⟩ := word <;> exact absurd h (by decide)
  | word => exact .inl rfl
  | quoted => exact .inl rfl
  | capital => exact .inr rfl

theorem mem_allReserved {version : Version} {p : String × TokenType}
    (mem : p ∈ buildReserved version) : p ∈ allReserved := (List.mem_filter.mp mem).1

theorem known_new (input : List UInt8) (version : Version) : Known (new input version) :=
  fun _ mem => mem_allReserved mem

theorem lookupWord_isSome (l : Lexer) (word : List UInt8) :
    (lookupWord l.reserved word).isSome ↔ ∃ p ∈ l.reserved, bytes p.1 = word := by
  simp [lookupWord, List.find?_isSome]

/-- A scanned token, described by the version and the position. -/
theorem tokenAt_of_scanned {version : Version} {input before : List UInt8} {l l' : Lexer}
    {tok : Token} {text : List UInt8} (start : At input before l)
    (reserved : l.reserved = buildReserved version) (scanned : Scanned l tok text l') :
    TokenAt version before text l'.rest tok ∧ tok.type ≠ .eof ∧ tok.type ≠ .error := by
  obtain ⟨type, lexeme, eq⟩ := scanned.lexeme
  have known : Known l := fun p mem => mem_allReserved (reserved ▸ mem)
  have isSome := lookupWord_isSome l text
  have plain := lexeme_type lexeme
  cases h : lookupWord l.reserved text with
  | none =>
    rw [h] at eq isSome
    rw [Option.getD_none] at eq
    refine ⟨⟨⟨type, lexeme, ?_⟩, scanned.longest, scanned.text_eq, fun word => ?_,
      scanned.line.trans start.line, scanned.column.trans start.col⟩, eq ▸ plain.1, eq ▸ plain.2.1⟩
    · rw [← reserved, h, eq]
      rfl
    · rw [← reserved, ← isSome, eq]
      have := lexeme_of_word word lexeme
      simp only [Option.isSome_none, Bool.false_eq_true, iff_false]
      tauto
  | some t =>
    obtain ⟨p, mem, -, rfl⟩ := lookupWord_some h
    have types := reserved_types p (known p mem)
    rw [h] at eq isSome
    rw [Option.getD_some] at eq
    refine ⟨⟨⟨type, lexeme, ?_⟩, scanned.longest, scanned.text_eq, fun word => ?_,
      scanned.line.trans start.line, scanned.column.trans start.col⟩, eq ▸ types.1, eq ▸ types.2.1⟩
    · rw [← reserved, h, eq]
      rfl
    · rw [← reserved, ← isSome, eq]
      simp [types]

/-- The loop returns with the end of the input or with an error, and what it returns at the
end of the input are the lexemes. -/
theorem tokenizeLoop_spec {version : Version} {input before : List UInt8} {rounds : Nat} {l : Lexer}
    (start : At input before l) (reserved : l.reserved = buildReserved version)
    (peeked : l.peeked = none) (enough : l.rest.length < rounds) :
    ∃ last, (tokenizeLoop rounds l).getLast? = some last ∧
      (last.type = .eof ∧ Lexes version before l.rest (tokenizeLoop rounds l) ∨ last.type = .error) := by
  induction rounds generalizing l before with
  | zero => exact absurd enough (Nat.not_lt_zero _)
  | succ rounds ih =>
    have known : Known l := fun p mem => mem_allReserved (reserved ▸ mem)
    obtain ⟨skip, l', reads, blank, cases⟩ := scan_spec known
    have start' := reads.moves _ _ start
    have next : l.nextToken = l.scan := by rw [nextToken, peeked]
    rw [tokenizeLoop, next]
    dsimp only
    obtain ⟨error, -⟩ | ⟨empty, eof⟩ | ⟨text, scanned⟩ := cases
    · rw [if_pos (.inr error)]
      exact ⟨_, rfl, .inr error⟩
    · rw [eof, if_pos (.inl rfl), reads.rest, empty, List.append_nil]
      refine ⟨_, rfl, .inl ⟨rfl, ?_⟩⟩
      rw [start'.line, start'.col]
      rw [empty] at blank
      exact .eof blank
    · have reserved' := reads.reserved.trans reserved
      obtain ⟨tokenAt, notEof, notError⟩ := tokenAt_of_scanned start' reserved' scanned
      have taken := scanned.reads.rest
      have shorter : l.scan.2.rest.length < rounds := by
        obtain ⟨type, lexeme, -⟩ := scanned.lexeme
        have := List.length_pos_iff.mpr (lexeme_type lexeme).2.2
        rw [reads.rest, taken, List.length_append, List.length_append] at enough
        omega
      obtain ⟨last, getLast, result⟩ := ih (scanned.reads.moves _ _ start')
        (scanned.reads.reserved.trans reserved') ((scanned.reads.peeked.trans reads.peeked).trans peeked)
        shorter
      rw [if_neg (not_or.mpr ⟨notEof, notError⟩)]
      refine ⟨last, ?_, result.imp_left fun ⟨eof, lexes⟩ => ⟨eof, ?_⟩⟩
      · rw [List.getLast?_cons, getLast]
        rfl
      · rw [reads.rest, taken]
        rw [taken] at blank
        exact .token blank tokenAt lexes

/-- The calls that a parser makes. -/
inductive Call where
  | nextToken
  | peek

/-- The tokens that a sequence of calls returns. -/
def answers : Lexer → List Call → List Token
  | _, [] => []
  | l, .nextToken :: calls => l.nextToken.1 :: answers l.nextToken.2 calls
  | l, .peek :: calls => l.peek.1 :: answers l.peek.2 calls

/-- The token that the scanner finds in its `n`th call. -/
def scanned (l : Lexer) : Nat → Token
  | 0 => l.scan.1
  | n + 1 => scanned l.scan.2 n

/-- Calls over a fixed sequence of tokens: `Peek` stays, `NextToken` moves on. -/
def readFrom (s : Nat → Token) : Nat → List Call → List Token
  | _, [] => []
  | k, .nextToken :: calls => s k :: readFrom s (k + 1) calls
  | k, .peek :: calls => s k :: readFrom s k calls

theorem scan_keeps {l : Lexer} (known : Known l) :
    Known l.scan.2 ∧ l.scan.2.peeked = l.peeked := by
  obtain ⟨skip, l', reads, -, cases⟩ := scan_spec known
  have kept : ∀ {text}, Passes l' text l.scan.2 → Known l.scan.2 ∧ l.scan.2.peeked = l.peeked :=
    fun h => ⟨fun p mem => known p (by rwa [h.reserved, reads.reserved] at mem),
      h.peeked.trans reads.peeked⟩
  obtain ⟨-, text, h⟩ | ⟨-, eof⟩ | ⟨text, h⟩ := cases
  · exact kept h
  · have stays : Passes l' [] l.scan.2 := by
      rw [eof]
      exact .refl l'
    exact kept stays
  · exact kept h.reads

/-- A lexer that will return the tokens of `s` from the `k`th on: it has scanned the next one,
or not. -/
def Continues (s : Nat → Token) (k : Nat) (l : Lexer) : Prop :=
  Known l ∧ (l.peeked = none ∧ scanned l = (fun n => s (k + n)) ∨
    l.peeked = some (s k) ∧ scanned { l with peeked := none } = fun n => s (k + 1 + n))

theorem peek_continues {s : Nat → Token} {k : Nat} {l : Lexer} (h : Continues s k l) :
    l.peek.1 = s k ∧ Continues s k l.peek.2 := by
  obtain ⟨known, ⟨empty, same⟩ | ⟨full, same⟩⟩ := h
  · have first : l.scan.1 = s k := congrFun same 0
    obtain ⟨known', peeked⟩ := scan_keeps known
    rw [peek, empty]
    refine ⟨first, known', .inr ⟨congrArg some first, ?_⟩⟩
    have unchanged : ({ l.scan.2 with peeked := none } : Lexer) = l.scan.2 := by
      rw [← empty, ← peeked]
    funext n
    show scanned { l.scan.2 with peeked := none } n = s (k + 1 + n)
    rw [unchanged, Nat.add_assoc, Nat.add_comm 1 n]
    exact congrFun same (n + 1)
  · rw [peek, full]
    exact ⟨rfl, known, .inr ⟨full, same⟩⟩

theorem nextToken_continues {s : Nat → Token} {k : Nat} {l : Lexer} (h : Continues s k l) :
    l.nextToken.1 = s k ∧ Continues s (k + 1) l.nextToken.2 := by
  obtain ⟨known, ⟨empty, same⟩ | ⟨full, same⟩⟩ := h
  · obtain ⟨known', peeked⟩ := scan_keeps known
    rw [nextToken, empty]
    refine ⟨congrFun same 0, known', .inl ⟨peeked.trans empty, ?_⟩⟩
    funext n
    rw [Nat.add_assoc, Nat.add_comm 1 n]
    exact congrFun same (n + 1)
  · rw [nextToken, full]
    exact ⟨rfl, known, .inl ⟨rfl, same⟩⟩

theorem answers_eq {s : Nat → Token} {k : Nat} {l : Lexer} (h : Continues s k l) (calls : List Call) :
    answers l calls = readFrom s k calls := by
  induction calls generalizing k l with
  | nil => rfl
  | cons call calls ih =>
    cases call with
    | nextToken =>
      obtain ⟨first, rest⟩ := nextToken_continues h
      rw [answers, readFrom, first, ih rest]
    | peek =>
      obtain ⟨first, rest⟩ := peek_continues h
      rw [answers, readFrom, first, ih rest]

/-- Lexing terminates, is lossless and takes the longest lexemes, and reading ahead does not
change the tokens. -/
theorem tokenize_spec (input : List UInt8) (version : Version) :
    (∃ last, (tokenize input version).getLast? = some last ∧
      (last.type = .eof ∧ Lexes version [] input (tokenize input version) ∨ last.type = .error)) ∧
    ∀ calls, answers (new input version) calls = readFrom (scanned (new input version)) 0 calls := by
  refine ⟨tokenizeLoop_spec (at_new input version) rfl rfl (Nat.lt_succ_self _), fun calls => ?_⟩
  refine answers_eq ⟨known_new input version, .inl ⟨rfl, ?_⟩⟩ calls
  funext n
  rw [Nat.zero_add]

end Goivy.Lex
