import MiniLisp.Text.Bytes

/-!
Glyphs: the units in which a byte string is read.  A glyph is a character in
well-formed UTF-8 or a single stray byte that starts no well-formed sequence.
Reading bytes as glyphs and writing them back loses nothing.
-/

namespace MiniLisp

/-- One unit of a byte string. -/
inductive Glyph where
  /-- A character in its shortest UTF-8 form. -/
  | char (c : Char)
  /-- A byte that starts no well-formed sequence. -/
  | stray (byte : UInt8)
deriving DecidableEq, Repr, Inhabited

namespace Glyph

/-- The bytes that the glyph was read from. -/
def bytes : Glyph → Bytes
  | .char c => String.utf8EncodeChar c
  | .stray byte => [byte]

def width : Glyph → Nat
  | .char c => c.utf8Size
  | .stray _ => 1

/-- The character of the glyph, the replacement character for a stray byte. -/
def toChar : Glyph → Char
  | .char c => c
  | .stray _ => Char.ofNat 0xFFFD

/-- Whether the glyph is a character of the class `p`. -/
def satisfies (p : Char → Bool) : Glyph → Bool
  | .char c => p c
  | .stray _ => false

def isChar (c : Char) (glyph : Glyph) : Bool :=
  glyph.satisfies (· == c)

def isValid (glyph : Glyph) : Bool :=
  glyph.satisfies fun _ => true

/-- A continuation byte carries six bits. -/
def continuation? (byte : UInt8) : Option Nat :=
  if 0x80 ≤ byte ∧ byte ≤ 0xBF then some (byte.toNat - 0x80) else none

def pair? (lead : UInt8) : Bytes → Option Char
  | b₁ :: _ => do
      let x₁ ← continuation? b₁
      let code := (lead.toNat - 0xC0) * 64 + x₁
      if 0x80 ≤ code then some (Char.ofNat code) else none
  | _ => none

/-- A character in three bytes: neither a shorter form nor a surrogate. -/
def triple? (lead : UInt8) : Bytes → Option Char
  | b₁ :: b₂ :: _ => do
      let x₁ ← continuation? b₁
      let x₂ ← continuation? b₂
      let code := ((lead.toNat - 0xE0) * 64 + x₁) * 64 + x₂
      if 0x800 ≤ code ∧ ¬(0xD800 ≤ code ∧ code ≤ 0xDFFF) then
        some (Char.ofNat code)
      else
        none
  | _ => none

/-- A character in four bytes: neither a shorter form nor past the last code
point. -/
def quadruple? (lead : UInt8) : Bytes → Option Char
  | b₁ :: b₂ :: b₃ :: _ => do
      let x₁ ← continuation? b₁
      let x₂ ← continuation? b₂
      let x₃ ← continuation? b₃
      let code := (((lead.toNat - 0xF0) * 64 + x₁) * 64 + x₂) * 64 + x₃
      if 0x10000 ≤ code ∧ code ≤ 0x10FFFF then some (Char.ofNat code) else none
  | _ => none

/-- The glyph that starts with the byte `lead` when `rest` follows it. -/
def starting (lead : UInt8) (rest : Bytes) : Glyph :=
  let char? :=
    if lead < 0x80 then some (Char.ofNat lead.toNat)
    else if 0xC0 ≤ lead ∧ lead < 0xE0 then pair? lead rest
    else if 0xE0 ≤ lead ∧ lead < 0xF0 then triple? lead rest
    else if 0xF0 ≤ lead ∧ lead < 0xF8 then quadruple? lead rest
    else none
  match char? with
  | some c => .char c
  | none => .stray lead

end Glyph

/-- Read glyphs in front of `found` (latest first), after passing over `skip`
bytes that belong to the latest one. -/
def glyphsOnto (found : List Glyph) : Nat → Bytes → List Glyph
  | _, [] => found
  | skip + 1, _ :: rest => glyphsOnto found skip rest
  | 0, lead :: rest =>
      let glyph := Glyph.starting lead rest
      glyphsOnto (glyph :: found) (glyph.width - 1) rest

def glyphs (text : Bytes) : List Glyph :=
  (glyphsOnto [] 0 text).reverse

/-- The bytes that a sequence of glyphs was read from. -/
def glyphBytes (text : List Glyph) : Bytes :=
  text.flatMap Glyph.bytes

/-- The number of bytes that a sequence of glyphs was read from. -/
def glyphWidth (text : List Glyph) : Nat :=
  text.foldl (fun total glyph => total + glyph.width) 0

/-- Whether a byte string is well-formed UTF-8. -/
def isWellFormed (text : Bytes) : Bool :=
  (glyphs text).all Glyph.isValid

/-- The offset of the first byte that is not part of well-formed UTF-8, or
the length of the text. -/
def strayOffset (text : Bytes) : Nat :=
  glyphWidth ((glyphs text).takeWhile Glyph.isValid)

/-- Replace every character by its image; a stray byte counts as the
replacement character. -/
def mapChars (f : Char → Char) (text : Bytes) : Bytes :=
  (glyphs text).flatMap fun glyph => String.utf8EncodeChar (f glyph.toChar)

end MiniLisp
