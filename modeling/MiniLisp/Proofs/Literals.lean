import MiniLisp.Proofs.Encoding
import MiniLisp.Proofs.Lexing
import MiniLisp.Reader.Grammar

/-!
String literals.  What stands between the quotes of a literal is a `Literal.Body`: no
quote in it is bare and no backslash is the last character.  Both readers end a
literal at the same quote, every literal that ends can be decoded, and the literal of
a text is decoded to that text.
-/

namespace MiniLisp

namespace Literal

/-- The characters between the quotes of a literal. -/
inductive Body : List Char → Prop
  | nil : Body []
  | plain {c : Char} {rest : List Char} (hquote : c ≠ '"') (hslash : c ≠ '\\')
      (hrest : Body rest) : Body (c :: rest)
  | escaped {c : Char} {rest : List Char} (hrest : Body rest) : Body ('\\' :: c :: rest)

def enclose (body : List Char) : List Char :=
  '"' :: (body ++ ['"'])

end Literal

/-! ### Where a literal ends -/

namespace Lexer

/-- A walk that ends has passed over a body and its closing quote. -/
theorem body_of_literalOver {done text literal rest : List Glyph} {escaped : Bool}
    (hliteral : literalOver done escaped text = .ok (literal, rest)) :
    ∃ body, Literal.Body (if escaped then '\\' :: body else body) ∧
      literal = done.reverse ++ (body ++ ['"']).map .char ∧
      text = (body ++ ['"']).map .char ++ rest := by
  induction text generalizing done escaped with
  | nil => simp [literalOver] at hliteral
  | cons glyph text ih =>
      rcases glyph with c | byte
      · rw [literalOver] at hliteral
        split_ifs at hliteral with hescaped hquote
        · obtain ⟨body, hbody, rfl, rfl⟩ := ih hliteral
          exact ⟨c :: body, by simpa [hescaped] using .escaped hbody, by simp, by simp⟩
        · cases hliteral
          exact ⟨[], by simpa [hescaped] using .nil, by simp [hquote], by simp [hquote]⟩
        · obtain ⟨body, hbody, rfl, rfl⟩ := ih hliteral
          refine ⟨c :: body, ?_, by simp, by simp⟩
          by_cases hslash : c = '\\'
          · simpa [hescaped, hslash] using hbody
          · simpa [hescaped, hslash] using .plain hquote hslash (by simpa [hslash] using hbody)
      · simp [literalOver] at hliteral

/-- A literal is a body with its quotes. -/
theorem body_of_literal {behind literal rest : List Glyph}
    (hliteral : literalOver [.char '"'] false behind = .ok (literal, rest)) :
    ∃ body, Literal.Body body ∧ literal = (Literal.enclose body).map .char := by
  obtain ⟨body, hbody, hquoted, _⟩ := body_of_literalOver hliteral
  exact ⟨body, hbody, hquoted⟩

/-- Behind a body, the closing quote ends the literal. -/
theorem literalOver_body {body : List Char} (hbody : Literal.Body body)
    (done rest : List Glyph) :
    literalOver done false (body.map .char ++ .char '"' :: rest) =
      .ok (done.reverse ++ (body ++ ['"']).map .char, rest) := by
  induction hbody generalizing done with
  | nil => simp [literalOver]
  | plain hquote hslash hrest ih => simp [literalOver, hquote, hslash, ih]
  | escaped hrest ih => simp [literalOver, ih]

/-- A body with its quotes is lexed as a string, whatever follows. -/
theorem lexeme_enclose {body : List Char} (hbody : Literal.Body body) (rest : List Glyph) :
    lexeme ((Literal.enclose body).map .char ++ rest) =
      .token .string ((Literal.enclose body).map .char) rest := by
  have hliteral := literalOver_body hbody [.char '"'] rest
  have htext : (Literal.enclose body).map Glyph.char ++ rest =
      .char '"' :: (body.map .char ++ .char '"' :: rest) := by
    simp [Literal.enclose]
  rw [htext, lexeme_char rfl]
  change stringLexeme '"' _ = _
  rw [stringLexeme, hliteral]
  rfl

/-- What is lexed as a string is a body with its quotes. -/
theorem body_of_lexeme {text taken rest : List Glyph}
    (hlexeme : lexeme text = .token .string taken rest) :
    ∃ body, Literal.Body body ∧ taken = (Literal.enclose body).map .char := by
  obtain ⟨c, behind, _, hstarts⟩ := starts_of_lexeme hlexeme
  cases hstarts with
  | string hc hliteral =>
      rw [hc] at hliteral
      exact body_of_literal hliteral

/-- A literal that is cut off can be closed on the next line.  The line feed uses up a
backslash at the end. -/
theorem literalOver_closed {done text : List Glyph} {escaped : Bool}
    (hopen : literalOver done escaped text = .error .unterminatedString)
    (rest : List Glyph) :
    ∃ literal, literalOver done escaped (text ++ .char '\n' :: .char '"' :: rest) =
      .ok (literal, rest) := by
  induction text generalizing done escaped with
  | nil => cases escaped <;> simp [literalOver]
  | cons glyph text ih =>
      rcases glyph with c | byte
      · simp only [literalOver, List.cons_append] at hopen ⊢
        split_ifs at hopen ⊢ with hescaped hquote
        · exact ih hopen
        · exact ih hopen
      · simp [literalOver] at hopen

end Lexer

namespace Grammar

theorem stringOver_body {body : List Char} (hbody : Literal.Body body)
    (done rest : List Glyph) :
    stringOver done false (body.map .char ++ .char '"' :: rest) =
      some (done.reverse ++ (body ++ ['"']).map .char, rest) := by
  induction hbody generalizing done with
  | nil => simp [stringOver, Glyph.isChar, Glyph.satisfies]
  | @plain c rest hquote hslash hrest ih =>
      have hnext : (c == '\\') = false := by simpa using hslash
      simp [stringOver, Glyph.isChar, Glyph.satisfies, hquote, hnext, ih]
  | escaped hrest ih => simp [stringOver, Glyph.isChar, Glyph.satisfies, ih]

end Grammar

/-! ### What a literal denotes -/

namespace Literal

theorem unescapeOnto_plain {c : Char} (hslash : c ≠ '\\') (done rest : List Char) :
    unescapeOnto done (c :: rest) = unescapeOnto (c :: done) rest := by
  rw [unescapeOnto]
  · rintro rfl _
    exact hslash rfl
  · rintro _ _ rfl _
    exact hslash rfl

/-- No backslash of a body dangles. -/
theorem unescapeOnto_body {body : List Char} (hbody : Body body) (done : List Char) :
    ∃ chars, unescapeOnto done body = some chars := by
  induction hbody generalizing done with
  | nil => exact ⟨_, rfl⟩
  | plain hquote hslash hrest ih =>
      rw [unescapeOnto_plain hslash]
      exact ih _
  | escaped hrest ih => exact ih _

theorem unquote_enclose (body : List Char) :
    unquote (encode (enclose body)) = unescape (encode body) := by
  have hbytes : encode (enclose body) = 34 :: (encode body ++ [34]) := by
    rw [enclose, encode_cons, encode_append]
    rfl
  have hlast : (34 :: (encode body ++ [34])).getLast? = some (34 : UInt8) := by
    rw [← List.cons_append, List.getLast?_concat]
  rw [hbytes, unquote, if_pos ⟨by simp, rfl, hlast⟩, List.tail_cons, List.dropLast_concat]

theorem unescape_encode (body : List Char) :
    unescape (encode body) =
      if (encode body).contains 92 then
        match unescapeOnto [] body with
        | some chars => .ok (encode chars)
        | none => .error .danglingEscape
      else .ok (encode body) := by
  have hback : (glyphs (encode body)).map Glyph.toChar = body := by
    simp [glyphs_encode, Function.comp_def, Glyph.toChar]
  rw [unescape, hback]
  rfl

/-- Every literal that ends can be decoded, to well-formed text. -/
theorem unquote_body {body : List Char} (hbody : Body body) :
    ∃ chars, unquote (encode (enclose body)) = .ok (encode chars) := by
  rw [unquote_enclose, unescape_encode]
  split_ifs
  · obtain ⟨chars, hchars⟩ := unescapeOnto_body hbody []
    exact ⟨chars, by rw [hchars]⟩
  · exact ⟨body, rfl⟩

/-! ### The literal of a text -/

def escapeChar (c : Char) : List Char :=
  if c = '\\' then ['\\', '\\']
  else if c = '"' then ['\\', '"']
  else if c = '\n' then ['\\', 'n']
  else if c = '\t' then ['\\', 't']
  else if c = '\r' then ['\\', 'r']
  else [c]

theorem flatMap_eq_self {α : Type} {f : α → List α} {items : List α}
    (hself : ∀ item ∈ items, f item = [item]) : items.flatMap f = items := by
  rw [List.flatMap_def, List.map_congr_left hself, ← List.flatMap_def, List.flatMap_singleton']

theorem escape_of_high {byte : UInt8} (hhigh : 128 ≤ byte.toNat) : escape byte = [byte] := by
  have hne : ∀ low : UInt8, low.toNat < 128 → byte ≠ low := by
    rintro low hlow rfl
    omega
  simp [escape, hne 92 (by decide), hne 34 (by decide), hne 10 (by decide),
    hne 9 (by decide), hne 13 (by decide)]

theorem escapeChar_of_high {c : Char} (hhigh : 128 ≤ c.toNat) : escapeChar c = [c] := by
  have hne : ∀ low : Char, low.toNat < 128 → c ≠ low := by
    rintro low hlow rfl
    omega
  simp [escapeChar, hne '\\' (by decide), hne '"' (by decide), hne '\n' (by decide),
    hne '\t' (by decide), hne '\r' (by decide)]

/-- Every byte that is escaped is a character by itself. -/
theorem flatMap_escape_utf8EncodeChar (c : Char) :
    (String.utf8EncodeChar c).flatMap escape = encode (escapeChar c) := by
  rcases utf8EncodeChar_ascii_or_high c with ⟨hascii, _⟩ | ⟨hhigh, hbytes⟩
  · have hall : ∀ code < 128, (String.utf8EncodeChar (Char.ofNat code)).flatMap escape =
        encode (escapeChar (Char.ofNat code)) := by decide +kernel
    simpa using hall c.toNat hascii
  · rw [flatMap_eq_self fun byte hmem => escape_of_high (hbytes byte hmem),
      escapeChar_of_high hhigh]
    simp [encode]

theorem flatMap_escape_encode (chars : List Char) :
    (encode chars).flatMap escape = encode (chars.flatMap escapeChar) := by
  induction chars with
  | nil => rfl
  | cons c chars ih =>
      rw [encode_cons, List.flatMap_append, flatMap_escape_utf8EncodeChar, ih,
        List.flatMap_cons, encode_append]

theorem quote_encode (chars : List Char) :
    quote (encode chars) = encode (enclose (chars.flatMap escapeChar)) := by
  rw [quote, flatMap_escape_encode, enclose, encode_cons, encode_append]
  rfl

theorem body_escapeChar_append (c : Char) {rest : List Char} (hrest : Body rest) :
    Body (escapeChar c ++ rest) := by
  rw [escapeChar]
  split_ifs with hslash hquote
  · exact .escaped hrest
  · exact .escaped hrest
  · exact .escaped hrest
  · exact .escaped hrest
  · exact .escaped hrest
  · exact .plain hquote hslash hrest

theorem body_flatMap_escapeChar (chars : List Char) : Body (chars.flatMap escapeChar) := by
  induction chars with
  | nil => exact .nil
  | cons c chars ih => exact body_escapeChar_append c ih

theorem unescapeOnto_escapeChar_append (c : Char) (done rest : List Char) :
    unescapeOnto done (escapeChar c ++ rest) = unescapeOnto (c :: done) rest := by
  rw [escapeChar]
  split_ifs with hslash hquote hline htab hreturn
  · subst hslash
    rfl
  · subst hquote
    rfl
  · subst hline
    rfl
  · subst htab
    rfl
  · subst hreturn
    rfl
  · exact unescapeOnto_plain hslash done rest

theorem unescapeOnto_flatMap_escapeChar (done chars : List Char) :
    unescapeOnto done (chars.flatMap escapeChar) = some (done.reverse ++ chars) := by
  induction chars generalizing done with
  | nil => simp [unescapeOnto]
  | cons c chars ih =>
      rw [List.flatMap_cons, unescapeOnto_escapeChar_append, ih]
      simp

/-- Where nothing is escaped, a text stands in its literal as it is. -/
theorem flatMap_escapeChar_eq {chars : List Char} (hnone : '\\' ∉ chars.flatMap escapeChar) :
    chars.flatMap escapeChar = chars := by
  have hself : ∀ c ∈ chars, escapeChar c = [c] := by
    intro c hmem
    have hc : '\\' ∉ escapeChar c := fun hslash =>
      hnone (List.mem_flatMap.mpr ⟨c, hmem, hslash⟩)
    rw [escapeChar] at hc ⊢
    split_ifs at hc ⊢ <;> simp_all
  exact flatMap_eq_self hself

/-- Reading the literal of a text gives the text back. -/
theorem unquote_quote (chars : List Char) :
    unquote (quote (encode chars)) = .ok (encode chars) := by
  rw [quote_encode, unquote_enclose, unescape_encode, unescapeOnto_flatMap_escapeChar]
  split_ifs with hslash
  · rfl
  · have hnone : '\\' ∉ chars.flatMap escapeChar := by
      intro hmem
      apply hslash
      rw [List.contains_iff_mem, encode, List.mem_flatMap]
      exact ⟨'\\', hmem, by decide⟩
    rw [flatMap_escapeChar_eq hnone]

end Literal

end MiniLisp
