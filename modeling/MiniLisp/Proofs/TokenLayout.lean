import MiniLisp.Proofs.LocatedFaults

/-!
The layout of a text in tokens.  The tokens that repeated calls give stand in the text one
behind the other, each at its own offset, with nothing but white space between them.  The last
one stands at the end of the text, at a byte that is no part of well-formed UTF-8 or at a
literal that is cut off, and every further call repeats it.
-/

namespace MiniLisp

def IsBlankText (text : Bytes) : Prop :=
  ∃ chars, text = encode chars ∧ ∀ c ∈ chars, isBlank c = true

/-- Behind characters, a stray byte is the first one. -/
theorem strayOffset_eq {text : Bytes} {chars : List Char} {byte : UInt8} {rest : List Glyph}
    (hglyphs : glyphs text = chars.map .char ++ .stray byte :: rest) :
    strayOffset text = (encode chars).length := by
  have hvalid : ∀ glyph ∈ chars.map Glyph.char, glyph.isValid = true := by
    simp [Glyph.isValid, Glyph.satisfies]
  have hstop : (Glyph.stray byte).isValid = false := rfl
  rw [strayOffset, hglyphs, List.takeWhile_append_of_pos hvalid, List.takeWhile_cons, hstop,
    glyphWidth_eq_length, ← glyphBytes_map_char]
  simp

namespace Literal

/-- A quote that opens a literal, and text in which no quote closes it. -/
def Unclosed (text : Bytes) : Prop :=
  ∃ chars, text = encode ('"' :: chars) ∧
    ∀ body rest, Body body → chars ≠ body ++ '"' :: rest

end Literal

namespace Lexer

/-! ### Literals that are cut off -/

/-- What makes a walk along a literal fail stands behind characters: the end of the text or a
stray byte. -/
theorem chars_of_literalOver {done text : List Glyph} {escaped : Bool} {fault : Fault}
    (herror : literalOver done escaped text = .error fault) :
    ∃ (chars : List Char) (rest : List Glyph), text = chars.map .char ++ rest ∧
      (fault = .unterminatedString ∧ rest = [] ∨
        ∃ byte more, fault = .strayByte byte ∧ rest = .stray byte :: more) := by
  induction text generalizing done escaped with
  | nil =>
      cases herror
      exact ⟨[], [], rfl, .inl ⟨rfl, rfl⟩⟩
  | cons glyph text ih =>
      cases glyph with
      | stray byte =>
          cases herror
          exact ⟨[], _, rfl, .inr ⟨byte, text, rfl, rfl⟩⟩
      | char c =>
          rw [literalOver] at herror
          split_ifs at herror
          · obtain ⟨chars, rest, rfl, hrest⟩ := ih herror
            exact ⟨c :: chars, rest, rfl, hrest⟩
          · obtain ⟨chars, rest, rfl, hrest⟩ := ih herror
            exact ⟨c :: chars, rest, rfl, hrest⟩

/-- Nothing closes a literal that cannot be read. -/
theorem unclosed_of_literalOver {chars : List Char} {rest : List Glyph} {fault : Fault}
    (herror : literalOver [.char '"'] false (chars.map .char ++ rest) = .error fault) :
    Literal.Unclosed (encode ('"' :: chars)) := by
  refine ⟨chars, rfl, ?_⟩
  rintro body more hbody rfl
  have hclosed := literalOver_body hbody [.char '"'] (more.map .char ++ rest)
  simp [hclosed] at herror

/-! ### Repeated calls -/

/-- The tokens that the first calls of `next` give. -/
def answers : (calls : Nat) → Lexer → List Token
  | 0, _ => []
  | calls + 1, lexer => lexer.next.1 :: answers calls lexer.next.2

/-- A stopped lexer repeats its fault. -/
theorem answers_of_fault {lexer : Lexer} {fault : Fault} (hfault : lexer.fault = some fault)
    (calls : Nat) :
    ∀ token ∈ answers calls lexer, token.kind = .error ∧ token.text = fault.message := by
  induction calls generalizing lexer with
  | zero => simp [answers]
  | succ calls ih =>
      have hnext : lexer.next = stop lexer.scanner fault := by rw [next, hfault]
      rw [answers, hnext]
      exact List.forall_mem_cons.mpr ⟨⟨rfl, rfl⟩, ih rfl⟩

/-- At the end of the text a lexer stays there. -/
theorem answers_of_nil {lexer : Lexer} (hfault : lexer.fault = none)
    (hahead : lexer.front.ahead = []) (calls : Nat) :
    ∀ token ∈ answers calls lexer, token.kind = .endOfInput ∧ token.text = [] := by
  induction calls generalizing lexer with
  | zero => simp [answers]
  | succ calls ih =>
      have hnext : lexer.next = resume (lexer.front.emitText .endOfInput []) := by
        rw [next_eq_front hfault, hahead]
      have hstays : lexer.next.2.front.ahead = [] := by
        rw [front_ahead, hnext]
        change lexer.front.ahead.dropWhile _ = []
        rw [hahead]
        rfl
      rw [answers]
      refine List.forall_mem_cons.mpr ⟨?_, ih ?_ hstays⟩
      · rw [hnext]
        exact ⟨rfl, rfl⟩
      · rw [hnext]
        rfl

/-- A token that stops the lexer is the fault. -/
theorem next_of_fault {lexer : Lexer} {fault : Fault} (hfault : lexer.fault = none)
    (hstopped : lexer.next.2.fault = some fault) :
    lexer.next.1.kind = .error ∧ lexer.next.1.text = fault.message := by
  rw [next_eq_front hfault] at hstopped ⊢
  cases hahead : lexer.front.ahead with
  | nil => simp [hahead, resume] at hstopped
  | cons glyph rest =>
      cases glyph with
      | stray byte =>
          simp only [hahead] at hstopped ⊢
          cases hstopped
          exact ⟨rfl, rfl⟩
      | char c =>
          simp only [hahead] at hstopped ⊢
          have hquote : c = '"' := eq_quote_of_fault (by rw [hstopped]; simp)
          subst hquote
          change (nextString _).2.fault = some fault at hstopped
          change (nextString _).1.kind = .error ∧ (nextString _).1.text = fault.message
          rw [nextString] at hstopped ⊢
          split at hstopped
          · cases hstopped
          · cases hstopped
            exact ⟨rfl, rfl⟩

/-- Every call behind the last token of a stream repeats it. -/
theorem answers_of_final {lexer : Lexer} (hfault : lexer.fault = none)
    (hfinal : lexer.next.1.kind.isFinal = true) (calls : Nat) :
    ∀ token ∈ answers calls lexer.next.2,
      token.kind = lexer.next.1.kind ∧ token.text = lexer.next.1.text := by
  rcases lexeme_of_final hfault hfinal with ⟨hended, _⟩ | ⟨fault, _, _, hstopped⟩
  · have hahead : lexer.front.ahead = [] := by
      rw [front_ahead]
      exact dropWhile_of_ended hended
    have hanswers := answers_of_nil hfault hahead (calls + 1)
    rw [answers] at hanswers
    obtain ⟨hfirst, hlater⟩ := List.forall_mem_cons.mp hanswers
    rw [hfirst.1, hfirst.2]
    exact hlater
  · obtain ⟨hkind, htext⟩ := next_of_fault hfault hstopped
    rw [hkind, htext]
    exact answers_of_fault hstopped calls

/-- Repeated calls give the tokens of the stream, then the last one, and then that again. -/
theorem Yields.answers {lexer : Lexer} {tokens : List Token} {last : Token}
    (hyields : Yields lexer tokens last) (hfault : lexer.fault = none) (further : Nat) :
    ∃ repeats, answers (tokens.length + 1 + further) lexer = tokens ++ last :: repeats ∧
      ∀ token ∈ repeats, token.kind = last.kind ∧ token.text = last.text := by
  induction hyields with
  | @last lexer hfinal =>
      refine ⟨Lexer.answers further lexer.next.2, ?_, answers_of_final hfault hfinal further⟩
      rw [List.length_nil, Nat.zero_add, Nat.add_comm]
      rfl
  | @more lexer tokens last hfinal _ ih =>
      obtain ⟨repeats, hanswers, hrepeats⟩ := ih (next_shortens hfault hfinal).1
      refine ⟨repeats, ?_, hrepeats⟩
      rw [List.length_cons, Nat.add_right_comm tokens.length 1 1, Nat.add_right_comm _ 1 further,
        Lexer.answers, hanswers]
      rfl

/-! ### The layout -/

/-- Tokens that stand in a text, the first bytes of which have the offset `offset`: white
space, the bytes of the first token at its own offset, and so on up to the last token, which
stands behind white space where `left` begins. -/
inductive Covers : (offset : Nat) → (text : Bytes) → (tokens : List Token) → (last : Token) →
    (left : Bytes) → Prop
  | last {offset : Nat} {gap left : Bytes} {last : Token} (hgap : IsBlankText gap)
      (hpos : last.source.pos = offset + gap.length) : Covers offset (gap ++ left) [] last left
  | token {offset : Nat} {gap rest left : Bytes} {token last : Token} {tokens : List Token}
      (hgap : IsBlankText gap) (hpos : token.source.pos = offset + gap.length)
      (htext : token.text ≠ [])
      (hrest : Covers (offset + gap.length + token.text.length) rest tokens last left) :
      Covers offset (gap ++ token.text ++ rest) (token :: tokens) last left

/-- How the tokens of a text end when `left` is what follows them: at the end of the text, at
the first byte that is no part of well-formed UTF-8, which may stand in a literal that is not
closed before it, or at a literal that is not closed at all. -/
inductive Ends (text : Bytes) (last : Token) : (left : Bytes) → Prop
  | endOfInput (hkind : last.kind = .endOfInput) (hpos : last.source.pos = text.length) :
      Ends text last []
  | stray {opened rest : Bytes} {byte : UInt8} (hkind : last.kind = .error)
      (htext : last.text = (Fault.strayByte byte).message)
      (hopened : opened = [] ∨ Literal.Unclosed opened)
      (hstray : (strayOffset text : Int) = last.source.pos + opened.length) :
      Ends text last (opened ++ byte :: rest)
  | unclosed {left : Bytes} (hkind : last.kind = .error)
      (htext : last.text = Fault.unterminatedString.message)
      (hleft : Literal.Unclosed left) : Ends text last left

/-- There are no more tokens than bytes. -/
theorem Covers.length_le {offset : Nat} {text left : Bytes} {tokens : List Token} {last : Token}
    (hcovers : Covers offset text tokens last left) : tokens.length ≤ text.length := by
  induction hcovers with
  | last hgap hpos => exact Nat.zero_le _
  | token hgap hpos htext hrest ih =>
      have hbytes := List.length_pos_iff.mpr htext
      simp only [List.length_cons, List.length_append]
      omega

/-- What a token takes are characters. -/
theorem Starts.chars {c : Char} {behind taken rest : List Glyph} {kind : Token.Kind}
    (hstarts : Starts c behind kind taken rest) :
    ∃ more : List Char, taken = (c :: more).map .char := by
  have hrun : ∀ p, ∃ more : List Char,
      Glyph.char c :: behind.takeWhile (Glyph.satisfies p) = (c :: more).map .char := by
    intro p
    obtain ⟨more, htake, _⟩ := exists_chars_takeWhile p behind
    exact ⟨more, by rw [htake, List.map_cons]⟩
  cases hstarts with
  | openParen => exact ⟨[], rfl⟩
  | closeParen => exact ⟨[], rfl⟩
  | quote => exact ⟨[], rfl⟩
  | comment => exact hrun _
  | string hc hliteral =>
      subst hc
      obtain ⟨body, _, rfl⟩ := body_of_literal hliteral
      exact ⟨body ++ ['"'], rfl⟩
  | int => exact hrun _
  | dot => exact hrun _
  | symbol => exact hrun _

/-- A lexer stands between two tokens of a text, behind the characters `passed`. -/
structure Between (text : Bytes) (passed : List Char) (lexer : Lexer) : Prop where
  fault : lexer.fault = none
  split : glyphs text = passed.map .char ++ lexer.scanner.ahead
  extent : lexer.scanner.extent = text.length

section

variable {text : Bytes} {passed : List Char} {lexer : Lexer}

theorem between_ofBytes (file text : Bytes) : Between text [] (ofBytes file text) where
  fault := rfl
  split := rfl
  extent := (Nat.zero_add _).trans (glyphWidth_glyphs text)

/-- The next token stands behind white space, at its own offset. -/
theorem Between.front (hbetween : Between text passed lexer) :
    ∃ blanks : List Char, (∀ c ∈ blanks, isBlank c = true) ∧
      lexer.scanner.ahead = blanks.map .char ++ lexer.front.ahead ∧
      lexer.next.1.source.pos = (encode passed).length + (encode blanks).length := by
  obtain ⟨blanks, htake, hblank⟩ := exists_chars_takeWhile isBlank lexer.scanner.ahead
  have hahead : lexer.scanner.ahead = blanks.map .char ++ lexer.front.ahead := by
    rw [front_ahead, ← htake, List.takeWhile_append_dropWhile]
  refine ⟨blanks, hblank, hahead, ?_⟩
  have hpos : lexer.next.1.source.pos = lexer.front.here.pos := by
    rw [(cutAt_next hbetween.fault).source]
    rfl
  have hextent := lexer.extent_front.trans hbetween.extent
  have htext := congrArg List.length (eq_encode_append hbetween.split)
  rw [Scanner.extent, glyphWidth_eq_length] at hextent
  rw [hahead, glyphBytes_append, glyphBytes_map_char, List.length_append,
    List.length_append] at htext
  omega

/-- A token takes characters, and the lexer stands between two tokens again. -/
theorem Between.next (hbetween : Between text passed lexer) {blanks : List Char}
    (hahead : lexer.scanner.ahead = blanks.map .char ++ lexer.front.ahead)
    (hfinal : lexer.next.1.kind.isFinal = false) :
    ∃ chars, chars ≠ [] ∧ lexer.next.1.text = encode chars ∧
      lexer.front.ahead = chars.map .char ++ lexer.next.2.scanner.ahead ∧
      Between text (passed ++ blanks ++ chars) lexer.next.2 := by
  obtain ⟨taken, hlexeme, htext, hfault⟩ := lexeme_of_next hbetween.fault hfinal
  obtain ⟨c, behind, hdrop, hstarts⟩ := starts_of_lexeme hlexeme
  obtain ⟨more, htaken⟩ := hstarts.chars
  obtain ⟨others, hothers, hbehind⟩ := hstarts.append
  have hfront : lexer.front.ahead = (c :: more).map .char ++ lexer.next.2.scanner.ahead := by
    rw [front_ahead, hdrop, ← hbehind, ← htaken, hothers, List.cons_append]
  refine ⟨c :: more, by simp, by rw [htext, htaken, glyphBytes_map_char], hfront, hfault, ?_,
    (cutAt_next hbetween.fault).extent.trans (lexer.extent_front.trans hbetween.extent)⟩
  rw [hbetween.split, hahead, hfront]
  simp

/-- At the last token nothing is left, or what is left cannot be read. -/
theorem Between.ends (hbetween : Between text passed lexer) {blanks : List Char}
    (hahead : lexer.scanner.ahead = blanks.map .char ++ lexer.front.ahead)
    (hpos : lexer.next.1.source.pos = (encode passed).length + (encode blanks).length)
    (hfinal : lexer.next.1.kind.isFinal = true) :
    Ends text lexer.next.1 (glyphBytes lexer.front.ahead) := by
  have hglyphs : glyphs text = (passed ++ blanks).map .char ++ lexer.front.ahead := by
    rw [hbetween.split, hahead]
    simp
  rw [← Int.natCast_add, ← List.length_append, ← encode_append] at hpos
  rcases lexeme_of_final hbetween.fault hfinal with
    ⟨hended, hkind, _⟩ | ⟨fault, hlexeme, hkind, hfault⟩
  · have hfront : lexer.front.ahead = [] := by
      rw [front_ahead]
      exact dropWhile_of_ended hended
    rw [hfront] at hglyphs ⊢
    have htext := eq_encode_append hglyphs
    refine .endOfInput hkind ?_
    rw [hpos, htext]
    simp [glyphBytes]
  · have hmessage := (next_of_fault hbetween.fault hfault).2
    rcases dropWhile_of_stopped hlexeme with ⟨byte, rest, hdrop, rfl⟩ | ⟨behind, hdrop, hliteral⟩
    · rw [front_ahead, hdrop] at hglyphs ⊢
      have hstray : (strayOffset text : Int) = lexer.next.1.source.pos + ([] : Bytes).length := by
        rw [strayOffset_eq hglyphs, hpos]
        simp
      exact .stray hkind hmessage (.inl rfl) hstray
    · obtain ⟨chars, rest, rfl, hrest⟩ := chars_of_literalOver hliteral
      have hunclosed := unclosed_of_literalOver hliteral
      have hfront : lexer.front.ahead = ('"' :: chars).map .char ++ rest := by
        rw [front_ahead, hdrop]
        rfl
      rw [hfront] at hglyphs ⊢
      rw [glyphBytes_append, glyphBytes_map_char]
      rcases hrest with ⟨rfl, rfl⟩ | ⟨byte, more, rfl, rfl⟩
      · rw [show glyphBytes [] = [] from rfl, List.append_nil]
        exact .unclosed hkind hmessage hunclosed
      · refine Ends.stray hkind hmessage (.inr hunclosed) ?_
        rw [← List.append_assoc, ← List.map_append] at hglyphs
        rw [strayOffset_eq hglyphs, hpos, encode_append, List.length_append, Int.natCast_add]

/-- The tokens of a stream cover the text up to where it ends. -/
theorem Between.covers {tokens : List Token} {last : Token}
    (hbetween : Between text passed lexer) (hyields : Yields lexer tokens last) :
    ∃ left, Covers (encode passed).length (glyphBytes lexer.scanner.ahead) tokens last left ∧
      Ends text last left := by
  induction hyields generalizing passed with
  | @last lexer hfinal =>
      obtain ⟨blanks, hblank, hahead, hpos⟩ := hbetween.front
      refine ⟨_, ?_, hbetween.ends hahead hpos hfinal⟩
      rw [hahead, glyphBytes_append, glyphBytes_map_char]
      exact .last ⟨blanks, rfl, hblank⟩ hpos
  | @more lexer tokens last hfinal _ ih =>
      obtain ⟨blanks, hblank, hahead, hpos⟩ := hbetween.front
      obtain ⟨chars, hchars, htext, hfront, hlater⟩ := hbetween.next hahead hfinal
      obtain ⟨left, hcovers, hends⟩ := ih hlater
      refine ⟨left, ?_, hends⟩
      have hsource : glyphBytes lexer.scanner.ahead =
          encode blanks ++ lexer.next.1.text ++ glyphBytes lexer.next.2.scanner.ahead := by
        rw [hahead, hfront, glyphBytes_append, glyphBytes_append, glyphBytes_map_char,
          glyphBytes_map_char, htext, List.append_assoc]
      rw [hsource]
      refine .token ⟨blanks, rfl, hblank⟩ hpos ?_ ?_
      · rw [htext]
        exact encode_ne_nil hchars
      · simpa [encode_append, htext, Nat.add_assoc] using hcovers

end

/-- The lexer loses nothing and invents nothing.  On every byte string, repeated calls give
tokens that do not end the stream and then a last one, which comes within one call more than
there are bytes, and which every further call repeats in kind and text.  None of the tokens is
empty; they stand in the text one behind the other, each at its own offset, with nothing but
white space in front of and between them and in front of the last one.  The last one is the end
of the input behind all of the text, a stop at the first byte that is no part of well-formed
UTF-8, or a stop at the quote of a literal that nothing closes. -/
theorem tokens_cover_text (file text : Bytes) :
    ∃ tokens last left,
      (∀ further, ∃ repeats,
        answers (tokens.length + 1 + further) (ofBytes file text) = tokens ++ last :: repeats ∧
          ∀ token ∈ repeats, token.kind = last.kind ∧ token.text = last.text) ∧
      tokens.length ≤ text.length ∧ (∀ token ∈ tokens, token.kind.isFinal = false) ∧
      Covers 0 text tokens last left ∧ Ends text last left := by
  obtain ⟨hyields, hcuts, _⟩ := tokens_ofBytes file text
  obtain ⟨left, hcovers, hends⟩ := (between_ofBytes file text).covers hyields
  have htext : glyphBytes (ofBytes file text).scanner.ahead = text := glyphBytes_glyphs text
  rw [htext] at hcovers
  exact ⟨_, _, left, hyields.answers rfl, hcovers.length_le, hcuts.isFinal, hcovers, hends⟩

end Lexer

end MiniLisp
