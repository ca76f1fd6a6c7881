import Mathlib.Data.List.Forall2
import MiniLisp.Proofs.CaseFolding
import MiniLisp.Proofs.LaterLine
import MiniLisp.Proofs.Lexing
import MiniLisp.Reader.Tokens

/-!
The token reader on a text in upper case.  Outside of string literals, the scanner stops at
the same places, so that the tokens differ at most in the case of names and in comments.
The reader sees the name of a symbol only once it is interned, and comments not at all.
-/

namespace MiniLisp

/-! ### Classes of characters -/

theorem Lexer.caseless_isBlank : Caseless isBlank :=
  caseless_of_letters (by decide)

theorem Lexer.caseless_isDigit : Caseless isDigit :=
  caseless_of_letters (by decide)

theorem Lexer.caseless_isSymbolChar : Caseless isSymbolChar :=
  caseless_of_letters (by decide)

theorem Lexer.caseless_ne_line : Caseless (· != '\n') :=
  caseless_of_letters (by decide)

/-! ### Tokens -/

/-- Two tokens differ at most in the case of a name or in what a comment says. -/
inductive Token.Alike (token : Token) : Token → Prop
  | same : Alike token token
  | comment (text : Bytes) (hkind : token.kind = .comment) :
      Alike token { token with text := text }
  | symbol (text : Bytes) (hkind : token.kind = .symbol)
      (hname : Symbol.intern text = Symbol.intern token.text) :
      Alike token { token with text := text }

theorem Token.Alike.kind_eq {token token' : Token} (halike : token.Alike token') :
    token'.kind = token.kind := by
  cases halike <;> rfl

theorem Token.Alike.source_eq {token token' : Token} (halike : token.Alike token') :
    token'.source = token.source := by
  cases halike <;> rfl

namespace Scanner

/-- The scanner when all of the text is in upper case. -/
def upper (s : Scanner) : Scanner :=
  { s with
    taken := s.taken.map Glyph.upper
    ahead := s.ahead.map Glyph.upper
    last := s.last.toUpper }

theorem pass_upper (s : Scanner) (c : Char) (rest : List Glyph) :
    s.upper.pass c.toUpper (rest.map Glyph.upper) = (s.pass c rest).upper := by
  have hpast : s.here.past (.char c.toUpper) = s.here.past (.char c) := by
    have hline : (Glyph.char c.toUpper).isChar '\n' = (Glyph.char c).isChar '\n' :=
      Glyph.isChar_upper rfl (.char c)
    have hwidth : (Glyph.char c.toUpper).width = (Glyph.char c).width :=
      Glyph.width_upper (.char c)
    rw [Place.past, Place.past, hline, hwidth]
  simp only [pass, upper, hpast, List.map_cons, Glyph.upper_char]

theorem advanceOver_upper {p : Char → Bool} (hp : Caseless p) (ahead : List Glyph)
    (s : Scanner) :
    advanceOver p (ahead.map Glyph.upper) s.upper = (advanceOver p ahead s).upper := by
  induction ahead generalizing s with
  | nil => rfl
  | cons glyph ahead ih =>
      cases glyph with
      | stray byte => rfl
      | char c =>
          rw [List.map_cons, Glyph.upper_char, advanceOver, advanceOver, hp c, pass_upper]
          split_ifs
          · exact ih _
          · rfl

theorem advanceWhile_upper {p : Char → Bool} (hp : Caseless p) (s : Scanner) :
    s.upper.advanceWhile p = (s.advanceWhile p).upper :=
  advanceOver_upper hp s.ahead s

theorem peekIs_upper {p : Char → Bool} (hp : Caseless p) (s : Scanner) :
    s.upper.peekIs p = s.peekIs p := by
  obtain ⟨file, start, here, taken, ahead, last⟩ := s
  cases ahead with
  | nil => rfl
  | cons glyph ahead => exact Glyph.satisfies_upper hp glyph

theorem text_upper_of_fixed {s : Scanner} (hfixed : ∀ glyph ∈ s.taken, glyph.upper = glyph) :
    s.upper.text = s.text := by
  rw [text, text, upper, (List.map_congr_left hfixed).trans (List.map_id' s.taken)]

theorem text_upper (s : Scanner) : s.upper.text = glyphBytes (s.taken.reverse.map Glyph.upper) := by
  rw [text, upper, List.map_reverse]

theorem text_upper_eq_dot_iff (s : Scanner) : s.upper.text = utf8 "." ↔ s.text = utf8 "." := by
  have hdot : ∀ text : Bytes, text.map upperByte = utf8 "." ↔ text = utf8 "." := by
    intro text
    rw [show utf8 "." = [46] by decide, List.map_eq_singleton_iff]
    simp only [upperByte_eq_iff (show (46 : UInt8).toNat < 65 by decide)]
    constructor
    · rintro ⟨byte, rfl, rfl⟩
      rfl
    · rintro rfl
      exact ⟨46, rfl, rfl⟩
  rw [← hdot, text_upper, glyphBytes_map_upper, hdot]
  rfl

end Scanner

namespace Lexer

def upper (lexer : Lexer) : Lexer :=
  ⟨lexer.scanner.upper, lexer.fault⟩

/-- In upper case, a lexer gives a token that is alike and goes on in upper case. -/
structure AlikeCut (cut cut' : Token × Lexer) : Prop where
  token : cut.1.Alike cut'.1
  lexer : cut'.2 = cut.2.upper

theorem AlikeCut.fault_eq {cut cut' : Token × Lexer} (hcut : AlikeCut cut cut') :
    cut'.2.fault = cut.2.fault := by
  rw [hcut.lexer]
  rfl

theorem alikeCut_stop (s : Scanner) (fault : Fault) :
    AlikeCut (stop s fault) (stop s.upper fault) :=
  ⟨.same, rfl⟩

theorem alikeCut_emitText (s : Scanner) (kind : Token.Kind) (text : Bytes) :
    AlikeCut (resume (s.emitText kind text)) (resume (s.upper.emitText kind text)) :=
  ⟨.same, rfl⟩

theorem alikeCut_emit_same {s : Scanner} (htext : s.upper.text = s.text) (kind : Token.Kind) :
    AlikeCut (resume (s.emit kind)) (resume (s.upper.emit kind)) := by
  rw [Scanner.emit, Scanner.emit, htext]
  exact alikeCut_emitText s kind s.text

theorem alikeCut_emit_comment (s : Scanner) :
    AlikeCut (resume (s.emit .comment)) (resume (s.upper.emit .comment)) :=
  ⟨.comment _ rfl, rfl⟩

theorem alikeCut_emit_symbol (s : Scanner) :
    AlikeCut (resume (s.emit .symbol)) (resume (s.upper.emit .symbol)) := by
  refine ⟨.symbol _ rfl ?_, rfl⟩
  rw [Scanner.text_upper]
  exact intern_map_upper s.taken.reverse

theorem alikeCut_nextSymbol (s : Scanner) : AlikeCut (nextSymbol s) (nextSymbol s.upper) := by
  rw [nextSymbol, nextSymbol, s.advanceWhile_upper caseless_isSymbolChar]
  generalize s.advanceWhile isSymbolChar = s
  by_cases hdot : s.text = utf8 "."
  · have hdot' := s.text_upper_eq_dot_iff.mpr hdot
    simp only [hdot, hdot', ↓reduceIte]
    exact alikeCut_emit_same (hdot'.trans hdot.symm) .dot
  · have hdot' := mt s.text_upper_eq_dot_iff.mp hdot
    simp only [hdot, hdot', ↓reduceIte]
    exact alikeCut_emit_symbol s

theorem toUpper_of_isDigit {c : Char} (hdigit : isDigit c = true) : c.toUpper = c := by
  apply toUpper_of_not_lower
  rintro ⟨hlow, -⟩
  simp only [isDigit, Bool.and_eq_true, decide_eq_true_eq] at hdigit
  have hhigh : c.toNat ≤ 57 := hdigit.2
  omega

theorem alikeCut_nextNumber {s : Scanner} (hfixed : ∀ glyph ∈ s.taken, glyph.upper = glyph) :
    AlikeCut (nextNumber s) (nextNumber s.upper) := by
  rw [nextNumber, nextNumber, s.advanceWhile_upper caseless_isDigit]
  apply alikeCut_emit_same
  apply Scanner.text_upper_of_fixed
  intro glyph hmem
  rw [s.advanceWhile_taken, List.mem_append, List.mem_reverse] at hmem
  rcases hmem with hmem | hmem
  · obtain ⟨chars, htake, hchars⟩ := exists_chars_takeWhile isDigit s.ahead
    rw [htake, List.mem_map] at hmem
    obtain ⟨c, hc, rfl⟩ := hmem
    exact congrArg Glyph.char (toUpper_of_isDigit (hchars c hc))
  · exact hfixed glyph hmem

theorem alikeCut_nextFrom {c : Char} {s : Scanner} (htaken : s.taken = [.char c])
    (hquote : c ≠ '"') : AlikeCut (nextFrom c s) (nextFrom c.toUpper s.upper) := by
  have hfixed : c.toUpper = c → ∀ glyph ∈ s.taken, glyph.upper = glyph := by
    intro hc glyph hmem
    rw [htaken, List.mem_singleton] at hmem
    rw [hmem, Glyph.upper_char, hc]
  have hsingle : c.toUpper = c → ∀ kind,
      AlikeCut (resume (s.emit kind)) (resume (s.upper.emit kind)) :=
    fun hc => alikeCut_emit_same (Scanner.text_upper_of_fixed (hfixed hc))
  have hsign : (c.toUpper == '-') = (c == '-') := by
    rw [Bool.eq_iff_iff, beq_iff_eq, beq_iff_eq, toUpper_eq_iff '-' rfl]
  rw [nextFrom, nextFrom, caseless_isDigit c, hsign, s.peekIs_upper caseless_isDigit]
  simp only [toUpper_eq_iff '(' rfl, toUpper_eq_iff ')' rfl, toUpper_eq_iff '\'' rfl,
    toUpper_eq_iff ';' rfl, toUpper_eq_iff '"' rfl, hquote, ↓reduceIte]
  split_ifs with hopen hclose hmark hsemicolon hnumber
  · exact hsingle (by rw [hopen]; rfl) .openParen
  · exact hsingle (by rw [hclose]; rfl) .closeParen
  · exact hsingle (by rw [hmark]; rfl) .quote
  · rw [s.advanceWhile_upper caseless_ne_line]
    exact alikeCut_emit_comment _
  · apply alikeCut_nextNumber
    apply hfixed
    simp only [Bool.or_eq_true, Bool.and_eq_true, beq_iff_eq] at hnumber
    rcases hnumber with hdigit | ⟨rfl, -⟩
    · exact toUpper_of_isDigit hdigit
    · rfl
  · exact alikeCut_nextSymbol s

/-- One token of a text without literals is alike in upper case. -/
theorem alikeCut_next {lexer : Lexer} (hfault : lexer.fault = none)
    (hunquoted : Unquoted lexer.scanner.ahead) : AlikeCut lexer.next lexer.upper.next := by
  have hfault' : lexer.upper.fault = none := hfault
  have hfront : lexer.upper.front = lexer.front.upper := by
    rw [front, upper, Scanner.advanceWhile_upper caseless_isBlank]
    rfl
  have hahead : lexer.front.upper.ahead = lexer.front.ahead.map Glyph.upper := rfl
  rw [next_eq_front hfault, next_eq_front hfault', hfront, hahead]
  have hsuffix : lexer.front.ahead <:+ lexer.scanner.ahead := by
    rw [front_ahead]
    exact List.dropWhile_suffix _
  rcases hrest : lexer.front.ahead with _ | ⟨c | byte, rest⟩
  · exact alikeCut_emitText lexer.front .endOfInput []
  · have hquote : (Glyph.char c).isChar '"' = false :=
      hunquoted _ (hsuffix.subset (by rw [hrest]; exact .head _))
    simp only [List.map_cons, Glyph.upper_char, Scanner.pass_upper]
    apply alikeCut_nextFrom rfl
    rintro rfl
    cases hquote
  · exact alikeCut_stop lexer.front (.strayByte byte)

theorem Unquoted.next {lexer : Lexer} (hfault : lexer.fault = none)
    (hfinal : lexer.next.1.kind.isFinal = false) (hunquoted : Unquoted lexer.scanner.ahead) :
    Unquoted lexer.next.2.scanner.ahead := by
  obtain ⟨taken, hlexeme, _, _⟩ := lexeme_of_next hfault hfinal
  exact hunquoted.of_suffix (lexeme_suffix hlexeme).1

/-- The tokens of a text without literals are alike in upper case, and the stream ends in
the same way at the same place. -/
theorem tokensOnto_upper (fuel : Nat) {found found' : List Token}
    (hfound : List.Forall₂ Token.Alike found found') {lexer : Lexer}
    (hfault : lexer.fault = none) (hunquoted : Unquoted lexer.scanner.ahead) :
    List.Forall₂ Token.Alike (tokensOnto fuel found lexer).1
        (tokensOnto fuel found' lexer.upper).1 ∧
      (tokensOnto fuel found lexer).2.1.token.Alike
        (tokensOnto fuel found' lexer.upper).2.1.token ∧
      (tokensOnto fuel found' lexer.upper).2.1.fault =
        (tokensOnto fuel found lexer).2.1.fault := by
  induction fuel generalizing found found' lexer with
  | zero =>
      have hcut := alikeCut_next hfault hunquoted
      exact ⟨List.rel_reverse hfound, hcut.token, hcut.fault_eq⟩
  | succ fuel ih =>
      have hcut := alikeCut_next hfault hunquoted
      simp only [tokensOnto, hcut.token.kind_eq]
      cases hfinal : lexer.next.1.kind.isFinal with
      | true =>
          simp only [↓reduceIte]
          exact ⟨List.rel_reverse hfound, hcut.token, hcut.fault_eq⟩
      | false =>
          obtain ⟨_, _, _, hclear⟩ := lexeme_of_next hfault hfinal
          simp only [Bool.false_eq_true, ↓reduceIte, hcut.lexer]
          exact ih (.cons hcut.token hfound) hclear (Unquoted.next hfault hfinal hunquoted)

end Lexer

/-! ### The token reader -/

namespace Nest

theorem step_alike {token token' : Token} (halike : token.Alike token') (limit : Int)
    (nest : Nest) : nest.step limit token' = nest.step limit token := by
  obtain ⟨depth, forms⟩ := nest
  obtain ⟨kind, text, source⟩ := token
  cases halike with
  | same => rfl
  | comment text' hkind =>
      cases hkind
      rcases forms with _ | ⟨_ | _ | _ | _, outer⟩ <;> rfl
  | symbol text' hkind hname =>
      cases hkind
      rcases forms with _ | ⟨_ | _ | _ | _, outer⟩ <;> simp [step, expression, hname]

theorem unfinished_alike {ending ending' : Lexer.Ending}
    (htoken : ending.token.Alike ending'.token) (hfault : ending'.fault = ending.fault)
    (nest : Nest) : nest.unfinished ending' = nest.unfinished ending := by
  rw [unfinished, unfinished, hfault, htoken.source_eq]

end Nest

namespace TokenReader

theorem readAllOver_alike {reader reader' : TokenReader} (hlimit : reader'.limit = reader.limit)
    (htoken : reader.ending.token.Alike reader'.ending.token)
    (hfault : reader'.ending.fault = reader.ending.fault) {ahead ahead' : List Token}
    (hahead : List.Forall₂ Token.Alike ahead ahead') (nest : Nest) (found : List Value) :
    (readAllOver reader' ahead' nest found).1 = (readAllOver reader ahead nest found).1 := by
  induction hahead generalizing nest found with
  | nil =>
      rw [readAllOver, readAllOver, hfault, nest.unfinished_alike htoken hfault]
      split_ifs <;> rfl
  | cons halike _ ih =>
      rw [readAllOver, readAllOver, hlimit, nest.step_alike halike]
      split
      · exact ih _ _
      · exact ih _ _
      · rfl

theorem readAll_map_upperByte (file : Bytes) {text : Bytes} (hquote : 34 ∉ text) (limit : Int) :
    (ofBytes file (text.map upperByte) limit).readAll.1 = (ofBytes file text limit).readAll.1 := by
  have hupper : Lexer.ofBytes file (text.map upperByte) = (Lexer.ofBytes file text).upper := by
    rw [Lexer.ofBytes, Lexer.ofBytes, Scanner.ofBytes, glyphs_map_upperByte]
    rfl
  have hcount : (Lexer.ofBytes file text).upper.scanner.ahead.length =
      (Lexer.ofBytes file text).scanner.ahead.length := List.length_map ..
  have hunquoted : Unquoted (Lexer.ofBytes file text).scanner.ahead := unquoted_glyphs hquote
  obtain ⟨hahead, htoken, hfault⟩ := Lexer.tokensOnto_upper
    (Lexer.ofBytes file text).scanner.ahead.length .nil rfl hunquoted
  rw [readAll, readAll, ofBytes, ofBytes, hupper, Lexer.tokens, Lexer.tokens, hcount]
  apply readAllOver_alike
  · rfl
  · exact htoken
  · exact hfault
  · exact hahead

end TokenReader

end MiniLisp
