import MiniLisp.Text.Glyph

/-!
String literals of the source language: a text between double quotes in which a
backslash escapes the character after it.  Reading a literal inverts writing it.
-/

namespace MiniLisp

namespace Literal

/-- How a byte of a text is written inside a literal. -/
def escape (byte : UInt8) : Bytes :=
  if byte = 92 then utf8 "\\\\"
  else if byte = 34 then utf8 "\\\""
  else if byte = 10 then utf8 "\\n"
  else if byte = 9 then utf8 "\\t"
  else if byte = 13 then utf8 "\\r"
  else [byte]

/-- The literal of a text. -/
def quote (text : Bytes) : Bytes :=
  utf8 "\"" ++ text.flatMap escape ++ utf8 "\""

/-- What a character stands for after a backslash. -/
def escaped (c : Char) : Char :=
  if c = 'n' then '\n' else if c = 't' then '\t' else if c = 'r' then '\r' else c

/-- Why a byte string is no literal. -/
inductive Fault where
  /-- It does not stand between double quotes. -/
  | unquoted (text : Bytes)
  /-- Its last backslash escapes nothing. -/
  | danglingEscape
deriving DecidableEq, Repr

def Fault.message : Fault → Bytes
  | .unquoted text => utf8 "invalid string literal: " ++ text
  | .danglingEscape => utf8 "unterminated escape sequence in string literal"

/-- Decode the characters of a literal in front of `done` (latest first). -/
def unescapeOnto (done : List Char) : List Char → Option (List Char)
  | [] => some done.reverse
  | '\\' :: [] => none
  | '\\' :: c :: rest => unescapeOnto (escaped c :: done) rest
  | c :: rest => unescapeOnto (c :: done) rest

/-- The text between the quotes of a literal.  Stray bytes stay as they are
unless something is escaped, and else become replacement characters. -/
def unescape (body : Bytes) : Except Fault Bytes :=
  if body.contains 92 then
    match unescapeOnto [] ((glyphs body).map Glyph.toChar) with
    | some chars => .ok (chars.flatMap String.utf8EncodeChar)
    | none => .error .danglingEscape
  else
    .ok body

def unquote (text : Bytes) : Except Fault Bytes :=
  if 2 ≤ text.length ∧ text.head? = some 34 ∧ text.getLast? = some 34 then
    unescape text.tail.dropLast
  else
    .error (.unquoted text)

end Literal

end MiniLisp
