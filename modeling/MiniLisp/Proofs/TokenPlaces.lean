import MiniLisp.Proofs.LaterLine

/-!
Where tokens stand.  A scanner counts the bytes of what it passes, and these and the bytes
ahead are all that there are.  So every token is located at its first byte.
-/

namespace MiniLisp

theorem glyphWidth_cons (glyph : Glyph) (rest : List Glyph) :
    glyphWidth (glyph :: rest) = glyph.width + glyphWidth rest := by
  have hfold : ∀ (text : List Glyph) (start : Nat),
      text.foldl (fun total glyph => total + glyph.width) start =
        start + text.foldl (fun total glyph => total + glyph.width) 0 := by
    intro text
    induction text with
    | nil => exact fun start => rfl
    | cons glyph text ih =>
        intro start
        rw [List.foldl_cons, List.foldl_cons, ih, ih (0 + glyph.width)]
        omega
  rw [glyphWidth, List.foldl_cons, hfold, glyphWidth]
  omega

theorem glyphWidth_eq_length (text : List Glyph) :
    glyphWidth text = (glyphBytes text).length := by
  induction text with
  | nil => rfl
  | cons glyph text ih =>
      rw [glyphWidth_cons, ih, ← Glyph.length_bytes, ← List.length_append]
      rfl

namespace Scanner

/-- The number of bytes in the whole text: those passed and those ahead. -/
def extent (s : Scanner) : Nat :=
  s.here.pos + glyphWidth s.ahead

theorem extent_pass {s : Scanner} {c : Char} {rest : List Glyph}
    (hahead : s.ahead = .char c :: rest) : (s.pass c rest).extent = s.extent := by
  have hpos : (s.here.past (.char c)).pos = s.here.pos + (Glyph.char c).width := by
    rw [Place.past]
    split <;> rfl
  rw [extent, extent, hahead, glyphWidth_cons]
  change (s.here.past (.char c)).pos + glyphWidth rest = _
  rw [hpos, Nat.add_assoc]

theorem extent_advanceOver (p : Char → Bool) {ahead : List Glyph} {s : Scanner}
    (hahead : s.ahead = ahead) : (advanceOver p ahead s).extent = s.extent := by
  induction ahead generalizing s with
  | nil => rfl
  | cons glyph rest ih =>
      cases glyph with
      | stray byte => rfl
      | char c =>
          rw [advanceOver]
          split_ifs
          · exact (ih rfl).trans (extent_pass hahead)
          · rfl

theorem startLocation_advanceOver (p : Char → Bool) (ahead : List Glyph) (s : Scanner) :
    (advanceOver p ahead s).startLocation = s.startLocation := by
  induction ahead generalizing s with
  | nil => rfl
  | cons glyph rest ih =>
      cases glyph with
      | stray byte => rfl
      | char c =>
          rw [advanceOver]
          split_ifs
          · exact ih (s.pass c rest)
          · rfl

end Scanner

namespace Lexer

theorem extent_stringOver {ahead : List Glyph} (escaped : Bool) {s : Scanner}
    (hahead : s.ahead = ahead) : (stringOver ahead escaped s).2.extent = s.extent := by
  induction ahead generalizing escaped s with
  | nil => rfl
  | cons glyph rest ih =>
      cases glyph with
      | stray byte => rfl
      | char c =>
          have hpass := Scanner.extent_pass hahead
          rw [stringOver]
          split_ifs
          · exact (ih false rfl).trans hpass
          · exact hpass
          · exact (ih (c = '\\') rfl).trans hpass

/-- A token cut off by a scanner starts where the scanner's token does, and no byte is
lost. -/
structure CutAt (s : Scanner) (cut : Token × Lexer) : Prop where
  source : cut.1.source = s.startLocation
  extent : cut.2.scanner.extent = s.extent

theorem cutAt_emit (s : Scanner) (kind : Token.Kind) : CutAt s (resume (s.emit kind)) :=
  ⟨rfl, rfl⟩

theorem cutAt_advanceWhile (s : Scanner) (p : Char → Bool) (kind : Token.Kind) :
    CutAt s (resume ((s.advanceWhile p).emit kind)) :=
  ⟨Scanner.startLocation_advanceOver p s.ahead s, Scanner.extent_advanceOver p rfl⟩

theorem cutAt_nextString (s : Scanner) : CutAt s (nextString s) := by
  have hextent := extent_stringOver false (Eq.refl s.ahead)
  refine ⟨(nextString_spec s).1, ?_⟩
  rw [nextString]
  split
  · next hwalk =>
      rw [hwalk] at hextent
      exact hextent
  · next hwalk =>
      rw [hwalk] at hextent
      exact hextent

theorem cutAt_nextFrom (c : Char) (s : Scanner) : CutAt s (nextFrom c s) := by
  rw [nextFrom]
  split_ifs
  · exact cutAt_emit s .openParen
  · exact cutAt_emit s .closeParen
  · exact cutAt_emit s .quote
  · exact cutAt_advanceWhile s _ .comment
  · exact cutAt_nextString s
  · exact cutAt_advanceWhile s isDigit .int
  · exact cutAt_advanceWhile s isSymbolChar _

/-- The next token starts behind the white space. -/
theorem cutAt_next {lexer : Lexer} (hfault : lexer.fault = none) :
    CutAt lexer.front lexer.next := by
  rw [next_eq_front hfault]
  split
  · exact ⟨rfl, rfl⟩
  · exact ⟨rfl, rfl⟩
  · next c rest hahead =>
      obtain ⟨hsource, hextent⟩ := cutAt_nextFrom c (lexer.front.pass c rest)
      exact ⟨hsource, hextent.trans (Scanner.extent_pass hahead)⟩

theorem extent_front (lexer : Lexer) : lexer.front.extent = lexer.scanner.extent :=
  Scanner.extent_advanceOver isBlank rfl

/-- The tokens are cut from the text one after the other, each located at its first byte in
a source of `extent` bytes that ends with the text. -/
inductive Placed (extent : Nat) : (text : List Glyph) → (tokens : List Token) → Prop
  | nil (text : List Glyph) : Placed extent text []
  | token {text taken rest : List Glyph} {token : Token} {tokens : List Token}
      (hlexeme : lexeme text = .token token.kind taken rest)
      (hpos : token.source.pos + glyphWidth (text.dropWhile (Glyph.satisfies isBlank)) = extent)
      (hrest : Placed extent rest tokens) : Placed extent text (token :: tokens)

theorem Placed.of_token {extent : Nat} {text taken rest : List Glyph} {kind : Token.Kind}
    {token : Token} {tokens : List Token} (hplaced : Placed extent text (token :: tokens))
    (hlexeme : lexeme text = .token kind taken rest) :
    token.source.pos + glyphWidth (text.dropWhile (Glyph.satisfies isBlank)) = extent ∧
      Placed extent rest tokens := by
  cases hplaced with
  | token hlexeme' hpos hrest =>
      rw [hlexeme'] at hlexeme
      cases hlexeme
      exact ⟨hpos, hrest⟩

theorem placed_of_yields {lexer : Lexer} {tokens : List Token} {last : Token}
    (hyields : Yields lexer tokens last) (hfault : lexer.fault = none) :
    Placed lexer.scanner.extent lexer.scanner.ahead tokens := by
  induction hyields with
  | last hfinal => exact .nil _
  | @more lexer tokens last hfinal _ ih =>
      obtain ⟨taken, hlexeme, _, hclear⟩ := lexeme_of_next hfault hfinal
      obtain ⟨hsource, hextent⟩ := cutAt_next hfault
      rw [extent_front] at hextent
      have hrest := ih hclear
      rw [hextent] at hrest
      refine .token hlexeme ?_ hrest
      rw [hsource, ← front_ahead, ← extent_front]
      rfl

/-- The tokens of a text are located at their first bytes. -/
theorem placed_tokens (file text : Bytes) :
    Placed (glyphWidth (glyphs text)) (glyphs text) (ofBytes file text).tokens.1 := by
  have hplaced := placed_of_yields (tokens_ofBytes file text).1 rfl
  have hextent : (ofBytes file text).scanner.extent = glyphWidth (glyphs text) :=
    Nat.zero_add _
  rw [hextent] at hplaced
  exact hplaced

end Lexer

end MiniLisp
