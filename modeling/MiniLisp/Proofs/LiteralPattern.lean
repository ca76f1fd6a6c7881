import Mathlib.Computability.Language
import MiniLisp.Proofs.RoundTrip
import MiniLisp.Proofs.TokenLayout

/-!
String literals of the lexer and of the grammar.  The grammar describes a literal by a
pattern, the lexer walks along it, and writing and reading a literal have their own rules for
what is escaped.  All four agree on where the literal of a text ends and on what it denotes,
whatever follows it.
-/

namespace MiniLisp

/-- Well-formed text is the encoding of characters. -/
theorem exists_encode_of_isWellFormed {text : Bytes} (hformed : isWellFormed text = true) :
    ∃ chars, text = encode chars := by
  obtain ⟨chars, htake, _⟩ := exists_chars_takeWhile (fun _ => true) (glyphs text)
  have hall : (glyphs text).takeWhile Glyph.isValid = glyphs text :=
    List.takeWhile_eq_self_iff.mpr (List.all_eq_true.mp hformed)
  have hglyphs : glyphs text = chars.map .char ++ [] := by
    rw [List.append_nil, ← htake]
    exact hall.symm
  refine ⟨chars, (eq_encode_append hglyphs).trans ?_⟩
  exact List.append_nil _

/-! ### The pattern of a literal -/

namespace Grammar

open scoped Computability

/-- A glyph that is neither a quote nor a backslash. -/
def plainPiece : Language Glyph :=
  {piece | ∃ glyph : Glyph, glyph.isChar '"' = false ∧ glyph.isChar '\\' = false ∧
    piece = [glyph]}

/-- A backslash and any glyph. -/
def escapedPiece : Language Glyph :=
  {piece | ∃ glyph, piece = [.char '\\', glyph]}

/-- What can stand between the quotes of a literal, as often as need be. -/
def stringPiece : Language Glyph :=
  plainPiece + escapedPiece

/-- The pattern `"(?:[^"\\]|\\[\s\S])*"` of a literal. -/
def stringPattern : Language Glyph :=
  {[.char '"']} * stringPiece∗ * {[.char '"']}

theorem plain_mem_stringPiece {glyph : Glyph} (hquote : glyph.isChar '"' = false)
    (hslash : glyph.isChar '\\' = false) : [glyph] ∈ stringPiece :=
  Or.inl ⟨glyph, hquote, hslash, rfl⟩

theorem escaped_mem_stringPiece (glyph : Glyph) : [.char '\\', glyph] ∈ stringPiece :=
  Or.inr ⟨glyph, rfl⟩

theorem piece_append_mem {piece body : List Glyph} (hpiece : piece ∈ stringPiece)
    (hbody : body ∈ stringPiece∗) : piece ++ body ∈ stringPiece∗ := by
  obtain ⟨pieces, rfl, hpieces⟩ := Language.mem_kstar.mp hbody
  exact Language.mem_kstar.mpr ⟨piece :: pieces, rfl, List.forall_mem_cons.mpr ⟨hpiece, hpieces⟩⟩

theorem mem_stringPattern {literal : List Glyph} :
    literal ∈ stringPattern ↔
      ∃ body ∈ stringPiece∗, literal = .char '"' :: (body ++ [.char '"']) := by
  constructor
  · intro hliteral
    obtain ⟨front, hfront, close, hclose, rfl⟩ := Language.mem_mul.mp hliteral
    obtain ⟨first, hopen, body, hbody, rfl⟩ := Language.mem_mul.mp hfront
    cases Set.mem_singleton_iff.mp hopen
    cases Set.mem_singleton_iff.mp hclose
    exact ⟨body, hbody, rfl⟩
  · rintro ⟨body, hbody, rfl⟩
    have hquote : [Glyph.char '"'] ∈ ({[.char '"']} : Language Glyph) := Set.mem_singleton _
    exact Language.append_mem_mul (Language.append_mem_mul hquote hbody) hquote

/-- A walk that ends has passed over pieces and a closing quote. -/
theorem pieces_of_stringOver {done text literal rest : List Glyph} {escaped : Bool}
    (hwalk : stringOver done escaped text = some (literal, rest)) :
    ∃ body, (if escaped then .char '\\' :: body else body) ∈ stringPiece∗ ∧
      literal = done.reverse ++ (body ++ [.char '"']) ∧ text = body ++ .char '"' :: rest := by
  induction text generalizing done escaped with
  | nil => cases escaped <;> cases hwalk
  | cons glyph text ih =>
      cases escaped with
      | true =>
          obtain ⟨body, hbody, rfl, rfl⟩ := ih hwalk
          refine ⟨glyph :: body, ?_, by simp, rfl⟩
          exact piece_append_mem (escaped_mem_stringPiece glyph) hbody
      | false =>
          rw [stringOver] at hwalk
          split_ifs at hwalk with hquote
          · cases hwalk
            rw [Rule.eq_of_isChar hquote]
            exact ⟨[], Language.nil_mem_kstar _, by simp, rfl⟩
          · obtain ⟨body, hbody, rfl, rfl⟩ := ih hwalk
            refine ⟨glyph :: body, ?_, by simp, rfl⟩
            cases hslash : glyph.isChar '\\' with
            | true =>
                rw [hslash] at hbody
                rw [Rule.eq_of_isChar hslash]
                exact hbody
            | false =>
                rw [hslash] at hbody
                exact piece_append_mem (plain_mem_stringPiece (by simpa using hquote) hslash) hbody

/-- Behind pieces, the closing quote ends the walk. -/
theorem stringOver_pieces {pieces : List (List Glyph)} (hpieces : ∀ piece ∈ pieces,
    piece ∈ stringPiece) (done rest : List Glyph) :
    stringOver done false (pieces.flatten ++ .char '"' :: rest) =
      some (done.reverse ++ (pieces.flatten ++ [.char '"']), rest) := by
  induction pieces generalizing done with
  | nil => simp [stringOver, Glyph.isChar, Glyph.satisfies]
  | cons piece pieces ih =>
      obtain ⟨hpiece, hlater⟩ := List.forall_mem_cons.mp hpieces
      rcases hpiece with ⟨glyph, hquote, hslash, rfl⟩ | ⟨glyph, rfl⟩
      · simp [stringOver, hquote, hslash, ih hlater]
      · simp [stringOver, Glyph.isChar, Glyph.satisfies, ih hlater]

/-- The walk behind an opening quote finds what the pattern describes. -/
theorem stringOver_eq_some_iff {text literal rest : List Glyph} :
    stringOver [.char '"'] false text = some (literal, rest) ↔
      literal ∈ stringPattern ∧ .char '"' :: text = literal ++ rest := by
  rw [mem_stringPattern]
  constructor
  · intro hwalk
    obtain ⟨body, hbody, rfl, rfl⟩ := pieces_of_stringOver hwalk
    exact ⟨⟨body, hbody, rfl⟩, by simp⟩
  · rintro ⟨⟨body, hbody, rfl⟩, htext⟩
    obtain ⟨pieces, rfl, hpieces⟩ := Language.mem_kstar.mp hbody
    have hrest : text = pieces.flatten ++ .char '"' :: rest := by simpa using htext
    rw [hrest]
    exact stringOver_pieces hpieces [.char '"'] rest

/-- The pattern matches one beginning of a text that starts with the literal of some
characters, and that is the literal. -/
theorem mem_stringPattern_iff_eq_enclose {body : List Char} (hbody : Literal.Body body)
    {later literal rest : List Glyph}
    (htext : (Literal.enclose body).map .char ++ later = literal ++ rest) :
    literal ∈ stringPattern ↔ literal = (Literal.enclose body).map .char := by
  have hquote : (Literal.enclose body).map Glyph.char ++ later =
      .char '"' :: (body.map .char ++ .char '"' :: later) := by
    simp [Literal.enclose]
  have hwalk := stringOver_body hbody [.char '"'] later
  rw [hquote] at htext
  constructor
  · intro hliteral
    have hfound := stringOver_eq_some_iff.mpr ⟨hliteral, htext⟩
    rw [hwalk] at hfound
    cases hfound
    rfl
  · rintro rfl
    exact (stringOver_eq_some_iff.mp hwalk).1

end Grammar

/-! ### Tokens and their literals -/

namespace Lexer

/-- A string token is a literal with a value, whatever was read before it. -/
theorem unquote_next (lexer : Lexer) (hkind : lexer.next.1.kind = .string) :
    ∃ content, Literal.unquote lexer.next.1.text = .ok content := by
  cases hfault : lexer.fault with
  | some fault =>
      rw [next, hfault] at hkind
      cases hkind
  | none =>
      have hfinal : lexer.next.1.kind.isFinal = false := by rw [hkind]; rfl
      obtain ⟨taken, hlexeme, htext, _⟩ := lexeme_of_next hfault hfinal
      rw [hkind] at hlexeme
      obtain ⟨body, hbody, rfl⟩ := body_of_lexeme hlexeme
      obtain ⟨chars, hchars⟩ := Literal.unquote_body hbody
      rw [htext, glyphBytes_map_char]
      exact ⟨_, hchars⟩

theorem unquote_answers (lexer : Lexer) (calls : Nat) :
    ∀ token ∈ answers calls lexer, token.kind = .string →
      ∃ content, Literal.unquote token.text = .ok content := by
  induction calls generalizing lexer with
  | zero => simp [answers]
  | succ calls ih => exact List.forall_mem_cons.mpr ⟨lexer.unquote_next, ih lexer.next.2⟩

end Lexer

namespace Literal

/-- String literals round-trip.  Take the literal of a well-formed text, and any byte string
that follows it.  The first token is a string with exactly the bytes of the literal, and what
follows is left; the pattern of the grammar matches the same bytes and no others, so that the
grammar takes the literal for the text and leaves the same; and what the literal denotes is
the text.  Conversely, of every byte string, every string token that the lexer gives in any
number of calls denotes something. -/
theorem literals_round_trip (file : Bytes) :
    (∀ content following : Bytes, isWellFormed content = true →
      let literal := quote content
      let cut := (Lexer.ofBytes file (literal ++ following)).next
      (cut.1.kind = .string ∧ cut.1.text = literal ∧
          cut.2.scanner.ahead = glyphs following) ∧
        (∀ matched rest, glyphs (literal ++ following) = matched ++ rest →
          (matched ∈ Grammar.stringPattern ↔ matched = glyphs literal)) ∧
        Grammar.part? (glyphs (literal ++ following)) =
          some (.atom (.ok (.text content)), glyphs following) ∧
        unquote literal = .ok content) ∧
      ∀ text calls, ∀ token ∈ Lexer.answers calls (.ofBytes file text),
        token.kind = .string → ∃ content, unquote token.text = .ok content := by
  refine ⟨fun content following hformed => ?_, fun text calls => Lexer.unquote_answers _ calls⟩
  obtain ⟨chars, rfl⟩ := exists_encode_of_isWellFormed hformed
  intro literal cut
  have hbody := body_flatMap_escapeChar chars
  have hliteral : literal = encode (enclose (chars.flatMap escapeChar)) := quote_encode chars
  have hglyphs : glyphs literal = (enclose (chars.flatMap escapeChar)).map .char := by
    rw [hliteral, glyphs_encode]
  have htext : glyphs (literal ++ following) =
      (enclose (chars.flatMap escapeChar)).map .char ++ glyphs following := by
    rw [hliteral, glyphs_encode_append]
  refine ⟨?_, ?_, ?_, unquote_quote chars⟩
  · have hclear : (Lexer.ofBytes file (literal ++ following)).fault = none := rfl
    have hcut := Lexer.describes_next hclear
    have hahead : (Lexer.ofBytes file (literal ++ following)).scanner.ahead =
        glyphs (literal ++ following) := rfl
    rw [hahead, htext, Lexer.lexeme_enclose hbody] at hcut
    obtain ⟨hkind, hbytes, _, hrest⟩ := hcut
    refine ⟨hkind, hbytes.trans ?_, hrest⟩
    rw [glyphBytes_map_char, hliteral]
  · intro matched rest hsplit
    rw [htext] at hsplit
    rw [hglyphs]
    exact Grammar.mem_stringPattern_iff_eq_enclose hbody hsplit
  · rw [htext]
    exact Grammar.part?_literal chars (glyphs following)

/-- A text of which every character but one is escaped, with a stray byte and a quote behind
its literal. -/
theorem literals_round_trip_escapes :
    let content := utf8 "\\\"é\n"
    let literal := utf8 "\"\\\\\\\"é\\n\""
    isWellFormed content = true ∧
      (Lexer.ofBytes [] (literal ++ [255, 34])).next.1.text = literal ∧
      glyphs literal ∈ Grammar.stringPattern ∧ unquote literal = .ok content ∧
      ∃ token ∈ Lexer.answers 1 (.ofBytes [] literal), token.kind = .string ∧
        ∃ content, unquote token.text = .ok content := by
  intro content literal
  have hformed : isWellFormed content = true := by decide +kernel
  have hliteral : quote content = literal := by decide +kernel
  have hglyphs : glyphs (literal ++ [255, 34]) = glyphs literal ++ glyphs [255, 34] := by
    decide +kernel
  obtain ⟨hround, htokens⟩ := literals_round_trip []
  obtain ⟨⟨_, htext, _⟩, hpattern, _, hunquote⟩ := hround content [255, 34] hformed
  rw [hliteral] at htext hpattern hunquote
  have hstring : (Lexer.ofBytes [] literal).next.1.kind = .string := by decide +kernel
  exact ⟨hformed, htext, (hpattern _ _ hglyphs).mpr rfl, hunquote, _, List.mem_singleton_self _,
    hstring, htokens literal 1 _ (List.mem_singleton_self _) hstring⟩

end Literal

end MiniLisp
