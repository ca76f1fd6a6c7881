import MiniLisp.Text.Glyph
import MiniLisp.Text.Printable

/-!
Quoting in diagnostics.  A quoted text stands on one line and shows every byte:
printable characters as they are, the rest as backslash escapes.
-/

namespace MiniLisp

namespace Diagnostic

def hexDigit (value : Nat) : UInt8 :=
  if value < 10 then UInt8.ofNat (48 + value) else UInt8.ofNat (87 + value)

/-- The last `width` hexadecimal digits of a number. -/
def hex : (width : Nat) → Nat → Bytes
  | 0, _ => []
  | width + 1, value => hex width (value / 16) ++ [hexDigit (value % 16)]

/-- The letter that escapes a control character. -/
def controlLetter? (c : Char) : Option String :=
  match c.toNat with
  | 7 => some "a"
  | 8 => some "b"
  | 9 => some "t"
  | 10 => some "n"
  | 11 => some "v"
  | 12 => some "f"
  | 13 => some "r"
  | _ => none

/-- How a character is shown between marks `mark`. -/
def showChar (mark c : Char) : Bytes :=
  if c = mark ∨ c = '\\' then utf8 "\\" ++ String.utf8EncodeChar c
  else if isPrintable c then String.utf8EncodeChar c
  else
    match controlLetter? c with
    | some letter => utf8 "\\" ++ utf8 letter
    | none =>
        if c.toNat < 32 ∨ c.toNat = 127 then utf8 "\\x" ++ hex 2 c.toNat
        else if c.toNat < 0x10000 then utf8 "\\u" ++ hex 4 c.toNat
        else utf8 "\\U" ++ hex 8 c.toNat

/-- How a glyph is shown between marks `mark`. -/
def showGlyph (mark : Char) : Glyph → Bytes
  | .char c => showChar mark c
  | .stray byte => utf8 "\\x" ++ hex 2 byte.toNat

def quoted (text : Bytes) : Bytes :=
  utf8 "\"" ++ (glyphs text).flatMap (showGlyph '"') ++ utf8 "\""

/-- A byte in single quotes, shown as the character with its number. -/
def quotedByte (byte : UInt8) : Bytes :=
  utf8 "'" ++ showChar '\'' (Char.ofNat byte.toNat) ++ utf8 "'"

end Diagnostic

end MiniLisp
