import MiniLisp.Proofs.Lexing
import MiniLisp.Reader.Scannerless

/-!
Plain texts: well-formed, and with no other white space than spaces, tabs and line
ends.  The token reader and the scannerless reader see the same parts in a plain
text, glyph by glyph: every lexeme but a comment is a part of the grammar, and a
comment is part of a gap.
-/

namespace MiniLisp

/-- No white space but a space, a tab or a line end. -/
def PlainChar (c : Char) : Prop :=
  isBlank c = true → c = ' ' ∨ c = '\t' ∨ c = '\r' ∨ c = '\n'

/-- A text of characters with no white space but spaces, tabs and line ends. -/
def Plain (text : List Glyph) : Prop :=
  ∀ glyph ∈ text, ∃ c, glyph = .char c ∧ PlainChar c

theorem isBlank_eq_isGap {c : Char} (hplain : PlainChar c) :
    isBlank c = Grammar.isGap c := by
  rw [Bool.eq_iff_iff]
  constructor
  · intro hblank
    rcases hplain hblank with rfl | rfl | rfl | rfl <;> rfl
  · intro hgap
    simp only [Grammar.isGap, Bool.or_eq_true, beq_iff_eq] at hgap
    rcases hgap with ((rfl | rfl) | rfl) | rfl <;> rfl

theorem isAsciiBlank_eq_isGap {c : Char} (hplain : PlainChar c) :
    isAsciiBlank c = Grammar.isGap c := by
  rw [Bool.eq_iff_iff]
  constructor
  · intro hblank
    rw [← isBlank_eq_isGap hplain]
    exact isBlank_of_isAsciiBlank hblank
  · intro hgap
    simp only [Grammar.isGap, Bool.or_eq_true, beq_iff_eq] at hgap
    rcases hgap with ((rfl | rfl) | rfl) | rfl <;> rfl

/-- A form feed is white space, so it is no plain character. -/
theorem toNat_ne_formFeed {c : Char} (hplain : PlainChar c) : c.toNat ≠ 12 := by
  intro hcode
  have hblank : isBlank c = true := by simp [isBlank, isAsciiBlank, hcode]
  rcases hplain hblank with rfl | rfl | rfl | rfl <;> exact absurd hcode (by decide)

theorem isSymbolGlyph_eq {c : Char} (hplain : PlainChar c) :
    Grammar.isSymbolGlyph (.char c) = Glyph.satisfies Lexer.isSymbolChar (.char c) := by
  have hcode : (c.toNat == 12) = false := by simpa using toNat_ne_formFeed hplain
  simp only [Grammar.isSymbolGlyph, Glyph.satisfies, Grammar.endsSymbol, Lexer.isSymbolChar,
    Lexer.isDelimiter, hcode, isBlank_eq_isGap hplain]
  cases Grammar.isGap c <;> simp

/-- Two classes that agree on the glyphs of a text split it at the same place. -/
theorem takeWhile_dropWhile_congr {p q : Glyph → Bool} {text : List Glyph}
    (hagree : ∀ glyph ∈ text, p glyph = q glyph) :
    text.takeWhile p = text.takeWhile q ∧ text.dropWhile p = text.dropWhile q := by
  induction text with
  | nil => exact ⟨rfl, rfl⟩
  | cons glyph text ih =>
      have hhead := hagree glyph (by simp)
      obtain ⟨htake, hdrop⟩ := ih fun later hmem => hagree later (by simp [hmem])
      by_cases hq : q glyph = true
      · simp [hhead, hq, htake, hdrop]
      · simp [hhead, hq]

namespace Plain

theorem tail {glyph : Glyph} {text : List Glyph} (hplain : Plain (glyph :: text)) :
    Plain text :=
  fun later hmem => hplain later (by simp [hmem])

theorem head {c : Char} {text : List Glyph} (hplain : Plain (.char c :: text)) :
    PlainChar c := by
  obtain ⟨c', heq, hc⟩ := hplain (.char c) (by simp)
  cases heq
  exact hc

theorem chars {text : List Glyph} (hplain : Plain text) :
    ∀ glyph ∈ text, ∃ c, glyph = .char c := by
  intro glyph hmem
  obtain ⟨c, hglyph, _⟩ := hplain glyph hmem
  exact ⟨c, hglyph⟩

theorem of_suffix {text rest : List Glyph} (hplain : Plain text) (hsuffix : rest <:+ text) :
    Plain rest :=
  fun glyph hmem => hplain glyph (hsuffix.mem hmem)

theorem satisfies_isSymbolChar {text : List Glyph} (hplain : Plain text) :
    ∀ glyph ∈ text,
      Glyph.satisfies Lexer.isSymbolChar glyph = Grammar.isSymbolGlyph glyph := by
  intro glyph hmem
  obtain ⟨c, rfl, hc⟩ := hplain glyph hmem
  exact (isSymbolGlyph_eq hc).symm

end Plain

/-! ### Gaps -/

namespace Grammar

theorem skipGaps_dropWhile_isBlank {text : List Glyph} (hplain : Plain text) :
    skipGaps (text.dropWhile (Glyph.satisfies isBlank)) = skipGaps text := by
  induction text with
  | nil => rfl
  | cons glyph text ih =>
      obtain ⟨c, rfl, hc⟩ := hplain glyph (by simp)
      by_cases hblank : isBlank c = true
      · have hgap : isGap c = true := by rw [← isBlank_eq_isGap hc, hblank]
        simpa [Glyph.satisfies, hblank, skipGaps, skipGapsOver, hgap] using ih hplain.tail
      · simp [Glyph.satisfies, hblank]

/-- A character that is neither white space nor the beginning of a comment ends a gap. -/
theorem skipGaps_char {c : Char} {rest : List Glyph} (hplain : PlainChar c)
    (hblank : isBlank c = false) (hcomment : c ≠ ';') :
    skipGaps (.char c :: rest) = .char c :: rest := by
  have hgap : isGap c = false := by rw [← isBlank_eq_isGap hplain, hblank]
  simp [skipGaps, skipGapsOver, Glyph.satisfies, Glyph.isChar, hgap, hcomment]

/-- A comment goes on to the end of its line, which is a gap. -/
theorem skipGapsOver_comment {text : List Glyph} (hplain : Plain text) :
    skipGapsOver true text =
      skipGaps (text.dropWhile (Glyph.satisfies (· != '\n'))) := by
  induction text with
  | nil => rfl
  | cons glyph text ih =>
      obtain ⟨c, rfl, hc⟩ := hplain glyph (by simp)
      by_cases hline : c = '\n'
      · subst hline
        simp [skipGapsOver, skipGaps, Glyph.satisfies, Glyph.isChar, isGap]
      · have hnext : (c == '\n') = false := by simpa using hline
        simpa [skipGapsOver, Glyph.satisfies, Glyph.isChar, hnext, bne] using ih hplain.tail

end Grammar

namespace Scannerless

theorem skipTriviaOver_eq_skipGapsOver {text : List Glyph} (hplain : Plain text)
    (inComment : Bool) :
    skipTriviaOver inComment text = Grammar.skipGapsOver inComment text := by
  induction text generalizing inComment with
  | nil => rfl
  | cons glyph text ih =>
      obtain ⟨c, rfl, hc⟩ := hplain glyph (by simp)
      cases inComment with
      | true => exact ih hplain.tail _
      | false =>
          have hblank : Glyph.isAsciiBlank (.char c) =
              Glyph.satisfies Grammar.isGap (.char c) := isAsciiBlank_eq_isGap hc
          rw [skipTriviaOver, Grammar.skipGapsOver, hblank, ih hplain.tail, ih hplain.tail]

end Scannerless

/-! ### Parts -/

theorem glyphBytes_cons_eq_dot {c : Char} {more : List Glyph}
    (hdot : glyphBytes (.char c :: more) = utf8 ".") : c = '.' ∧ more = [] := by
  have hcons : glyphBytes (.char c :: more) =
      String.utf8EncodeChar c ++ glyphBytes more := by
    simp [glyphBytes, Glyph.bytes]
  have hsingle : utf8 "." = String.utf8EncodeChar '.' ++ [] := by decide
  rw [hcons, hsingle] at hdot
  -- Decoding the first character of both sides gives the same one.
  have hleft := @ByteArray.utf8DecodeChar?_utf8EncodeChar_append
    (glyphBytes more).toByteArray c
  have hright := @ByteArray.utf8DecodeChar?_utf8EncodeChar_append
    ([] : Bytes).toByteArray '.'
  rw [← List.toByteArray_append, hdot, List.toByteArray_append, hright] at hleft
  cases hleft
  rw [List.append_cancel_left_eq] at hdot
  refine ⟨rfl, ?_⟩
  cases more with
  | nil => rfl
  | cons glyph more => cases glyph <;> simp [glyphBytes, Glyph.bytes] at hdot

namespace Grammar

def partOf (kind : Token.Kind) (taken : List Glyph) : Part :=
  match kind with
  | .openParen => .openParen
  | .closeParen => .closeParen
  | .quote => .quote
  | .dot => .dot
  | .int => .atom (intNode taken)
  | .string => .atom (stringNode taken)
  | _ => .atom (symbolNode taken)

theorem stringOver_eq_literalOver {text : List Glyph}
    (hchars : ∀ glyph ∈ text, ∃ c, glyph = .char c) (done : List Glyph) (escaped : Bool) :
    stringOver done escaped text = (Lexer.literalOver done escaped text).toOption := by
  induction text generalizing done escaped with
  | nil => rfl
  | cons glyph text ih =>
      obtain ⟨⟨c, rfl⟩, hlater⟩ := List.forall_mem_cons.mp hchars
      cases escaped with
      | true => simpa [stringOver, Lexer.literalOver] using ih hlater _ _
      | false =>
          by_cases hquote : c = '"'
          · simp [stringOver, Lexer.literalOver, Glyph.isChar, Glyph.satisfies, hquote,
              Except.toOption]
          · have hslash : Glyph.isChar '\\' (.char c) = decide (c = '\\') := rfl
            rw [stringOver, Lexer.literalOver, hslash]
            simpa [Glyph.isChar, Glyph.satisfies, hquote] using ih hlater _ _

theorem part?_string {rest : List Glyph} (hplain : Plain rest) :
    part? (.char '"' :: rest) =
      match Lexer.literalOver [.char '"'] false rest with
      | .ok (literal, rest) => some (.atom (stringNode literal), rest)
      | .error _ => none := by
  have hwalk := stringOver_eq_literalOver hplain.chars [.char '"'] false
  simp only [part?, Glyph.isChar, Glyph.satisfies, hwalk]
  cases Lexer.literalOver [.char '"'] false rest <;> rfl

theorem head?_any_isSymbolGlyph (rest : List Glyph) :
    rest.head?.any isSymbolGlyph = !(rest.takeWhile isSymbolGlyph).isEmpty := by
  cases rest with
  | nil => rfl
  | cons glyph rest => cases hglyph : isSymbolGlyph glyph <;> simp [hglyph]

/-- A character that is no mark starts a number or a symbol. -/
theorem part?_of_isMark {c : Char} {rest : List Glyph} (hmark : Lexer.isMark c = false) :
    part? (.char c :: rest) =
      if Lexer.startsInt c rest then some (intFrom (.char c) rest)
      else if c = '.' then
        if rest.head?.any isSymbolGlyph then some (symbolFrom (.char c) rest)
        else some (.dot, rest)
      else if isSymbolGlyph (.char c) then some (symbolFrom (.char c) rest)
      else none := by
  have hchar : ∀ c', Glyph.isChar c' (.char c) = (c == c') := fun _ => rfl
  have hint : (isDigit (.char c) || c == '-' && rest.head?.any isDigit) =
      Lexer.startsInt c rest := rfl
  simp only [Lexer.isMark, Bool.or_eq_false_iff, beq_eq_false_iff_ne] at hmark
  obtain ⟨⟨⟨⟨hopen, hclose⟩, hquote⟩, _⟩, hstring⟩ := hmark
  simp only [part?, hchar, hint, beq_iff_eq, hopen, hclose, hquote, hstring, ↓reduceIte]

/-- A character that starts no number starts a symbol, unless it is a dot that stands
alone. -/
theorem part?_symbol {c : Char} {rest : List Glyph} (hplain : PlainChar c)
    (hblank : isBlank c = false) (hmark : Lexer.isMark c = false)
    (hint : Lexer.startsInt c rest = false) :
    part? (.char c :: rest) =
      if c = '.' ∧ rest.takeWhile isSymbolGlyph = [] then some (.dot, rest)
      else some (symbolFrom (.char c) rest) := by
  have hsymbol : isSymbolGlyph (.char c) = true := by
    simp only [Lexer.isMark, Bool.or_eq_false_iff] at hmark
    rw [isSymbolGlyph_eq hplain]
    simp [Glyph.satisfies, Lexer.isSymbolChar, Lexer.isDelimiter, hmark, hblank]
  rw [part?_of_isMark hmark, hint, hsymbol, head?_any_isSymbolGlyph]
  by_cases hdot : c = '.'
  · cases htake : rest.takeWhile isSymbolGlyph <;> simp [hdot]
  · simp [hdot]

/-- A token that is no comment is the part at the same place. -/
theorem part?_of_starts {c : Char} {behind taken rest : List Glyph} {kind : Token.Kind}
    (hplain : Plain (.char c :: behind)) (hblank : isBlank c = false)
    (hstarts : Lexer.Starts c behind kind taken rest) (hcomment : kind ≠ .comment) :
    part? (.char c :: behind) = some (partOf kind taken, rest) := by
  have hagree := takeWhile_dropWhile_congr hplain.tail.satisfies_isSymbolChar
  cases hstarts with
  | openParen hc => simp [part?, partOf, Glyph.isChar, Glyph.satisfies, hc]
  | closeParen hc => simp [part?, partOf, Glyph.isChar, Glyph.satisfies, hc]
  | quote hc => simp [part?, partOf, Glyph.isChar, Glyph.satisfies, hc]
  | comment => exact absurd rfl hcomment
  | string hc hliteral =>
      subst hc
      rw [part?_string hplain.tail, hliteral]
      rfl
  | int hmark hint =>
      rw [part?_of_isMark hmark, hint]
      rfl
  | dot hmark hint hdot =>
      obtain ⟨rfl, hnone⟩ := glyphBytes_cons_eq_dot hdot
      have hall : behind.dropWhile (Glyph.satisfies Lexer.isSymbolChar) = behind := by
        have hsplit := List.takeWhile_append_dropWhile
          (p := Glyph.satisfies Lexer.isSymbolChar) (l := behind)
        rwa [hnone, List.nil_append] at hsplit
      rw [part?_symbol hplain.head hblank hmark hint, ← hagree.1, if_pos ⟨rfl, hnone⟩, hall]
      rfl
  | symbol hmark hint hdot =>
      have hmore : ¬(c = '.' ∧
          behind.takeWhile (Glyph.satisfies Lexer.isSymbolChar) = []) := by
        rintro ⟨rfl, hnone⟩
        rw [hnone] at hdot
        exact hdot (by decide)
      rw [part?_symbol hplain.head hblank hmark hint, symbolFrom, ← hagree.1, ← hagree.2,
        if_neg hmore]
      rfl

/-- The text at a lexeme, which starts with no white space. -/
theorem plain_at_lexeme {text behind : List Glyph} {c : Char} (hplain : Plain text)
    (hdrop : text.dropWhile (Glyph.satisfies isBlank) = .char c :: behind) :
    Plain (.char c :: behind) ∧ isBlank c = false := by
  refine ⟨?_, eq_false_of_dropWhile hdrop⟩
  rw [← hdrop]
  exact hplain.of_suffix (List.dropWhile_suffix _)

/-- A comment is part of a gap. -/
theorem skipGaps_comment {text taken rest : List Glyph} (hplain : Plain text)
    (hlexeme : Lexer.lexeme text = .token .comment taken rest) :
    skipGaps text = skipGaps rest := by
  obtain ⟨c, behind, hdrop, hstarts⟩ := Lexer.starts_of_lexeme hlexeme
  obtain ⟨hplain', _⟩ := plain_at_lexeme hplain hdrop
  cases hstarts with
  | comment hc =>
      subst hc
      rw [← skipGaps_dropWhile_isBlank hplain, hdrop, ← skipGapsOver_comment hplain'.tail]
      rfl

/-- Every other lexeme stands behind a gap. -/
theorem skipGaps_lexeme {text taken rest : List Glyph} {kind : Token.Kind}
    (hplain : Plain text) (hlexeme : Lexer.lexeme text = .token kind taken rest)
    (hcomment : kind ≠ .comment) :
    ∃ c behind, skipGaps text = .char c :: behind ∧
      part? (.char c :: behind) = some (partOf kind taken, rest) ∧
      Lexer.Starts c behind kind taken rest := by
  obtain ⟨c, behind, hdrop, hstarts⟩ := Lexer.starts_of_lexeme hlexeme
  obtain ⟨hplain', hblank⟩ := plain_at_lexeme hplain hdrop
  have hsemicolon : c ≠ ';' := by
    rintro rfl
    cases hstarts with
    | comment => exact hcomment rfl
    | _ => simp_all [Lexer.isMark]
  refine ⟨c, behind, ?_, part?_of_starts hplain' hblank hstarts hcomment, hstarts⟩
  rw [← skipGaps_dropWhile_isBlank hplain, hdrop]
  exact skipGaps_char hplain'.head hblank hsemicolon

theorem skipGaps_ended {text : List Glyph} (hplain : Plain text)
    (hlexeme : Lexer.lexeme text = .ended) : skipGaps text = [] := by
  rw [← skipGaps_dropWhile_isBlank hplain, Lexer.dropWhile_of_ended hlexeme]
  rfl

/-- Only a string literal without its end stops the lexer in a plain text, and it is no
part of an expression either. -/
theorem skipGaps_stopped {text : List Glyph} {fault : Lexer.Fault} (hplain : Plain text)
    (hlexeme : Lexer.lexeme text = .stopped fault) :
    ∃ behind, skipGaps text = .char '"' :: behind ∧ part? (.char '"' :: behind) = none := by
  rcases Lexer.dropWhile_of_stopped hlexeme with ⟨byte, rest, hdrop, _⟩ | ⟨behind, hdrop, hliteral⟩
  · have hmem : Glyph.stray byte ∈ text :=
      (List.dropWhile_suffix (Glyph.satisfies isBlank)).mem (by rw [hdrop]; simp)
    obtain ⟨c, heq, _⟩ := hplain _ hmem
    cases heq
  · obtain ⟨hplain', hblank⟩ := plain_at_lexeme hplain hdrop
    refine ⟨behind, ?_, ?_⟩
    · rw [← skipGaps_dropWhile_isBlank hplain, hdrop]
      exact skipGaps_char hplain'.head hblank (by decide)
    · rw [part?_string hplain'.tail, hliteral]

/-- Behind the tail of a list, the end of the list is seen for what it is. -/
theorem partAfterTail?_close {text rest : List Glyph}
    (hpart : part? text = some (.closeParen, rest)) :
    partAfterTail? text = some (.closeParen, rest) := by
  cases text with
  | nil => cases hpart
  | cons first behind =>
      rw [part?] at hpart
      split_ifs at hpart with hopen hclose hquote hstring hint hdot hword hsymbol
      · cases hpart
      · cases hpart
        simp [partAfterTail?, hclose]
      · cases hpart
      · simp only [Option.map_eq_some_iff, Prod.mk.injEq] at hpart
        obtain ⟨_, _, hatom, _⟩ := hpart
        cases hatom
      all_goals cases hpart

/-- Behind the tail of a list, everything else is a dot or nothing. -/
theorem partAfterTail?_other {text rest : List Glyph} {part : Part}
    (hpart : part? text = some (part, rest)) (hclose : part ≠ .closeParen) :
    partAfterTail? text = none ∨ ∃ behind, partAfterTail? text = some (.dot, behind) := by
  cases text with
  | nil => exact .inl rfl
  | cons first behind =>
      rw [partAfterTail?]
      split_ifs with hparen hdot
      · have hopen : first.isChar '(' = false := by
          cases first with
          | stray byte => rfl
          | char c =>
              simp only [Glyph.isChar, Glyph.satisfies, beq_iff_eq] at hparen
              subst hparen
              rfl
        simp only [part?, hopen, hparen, Bool.false_eq_true, ↓reduceIte,
          Option.some.injEq, Prod.mk.injEq] at hpart
        exact absurd hpart.1.symm hclose
      · exact .inr ⟨behind, rfl⟩
      · exact .inl rfl

end Grammar

end MiniLisp
