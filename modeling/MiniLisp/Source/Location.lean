import MiniLisp.Text.Glyph

/-!
Source locations.  A place counts bytes, lines and columns while text is read; a
location is a place in a named source.  `locate` finds the location of an offset
from the bytes alone, without reading the text step by step.
-/

namespace MiniLisp

/-- A location in a named source.  Lines and columns start at one; zero means
that they are not tracked. -/
structure Location where
  file : Bytes
  pos : Int
  line : Int
  col : Int
deriving DecidableEq, Repr, Inhabited

namespace Location

/-- The text of a location: as much of line and column as is tracked, else the
offset. -/
def render (loc : Location) : Bytes :=
  if loc.line = 0 then
    loc.file ++ utf8 "[" ++ decimal loc.pos ++ utf8 "]"
  else if loc.col = 0 then
    loc.file ++ utf8 ":" ++ decimal loc.line
  else
    loc.file ++ utf8 ":" ++ decimal loc.line ++ utf8 ":" ++ decimal loc.col

def render? : Option Location → Bytes
  | none => utf8 "<unknown>"
  | some loc => loc.render

end Location

/-- How far reading has come: bytes read, line and column of the next glyph. -/
structure Place where
  pos : Nat
  line : Nat
  col : Nat
deriving DecidableEq, Repr, Inhabited

namespace Place

def start : Place :=
  ⟨0, 1, 1⟩

/-- The place behind one more glyph. -/
def past (place : Place) (glyph : Glyph) : Place :=
  if glyph.isChar '\n' then
    ⟨place.pos + glyph.width, place.line + 1, 1⟩
  else
    ⟨place.pos + glyph.width, place.line, place.col + 1⟩

def inFile (file : Bytes) (place : Place) : Location :=
  ⟨file, place.pos, place.line, place.col⟩

end Place

/-- The location of the byte offset `offset`: its line is one more than the line
feeds before it, its column one more than the glyphs since the last of them. -/
def locate (file text : Bytes) (offset : Nat) : Location :=
  let before := text.take offset
  let lastLine := (before.reverse.takeWhile (· != 10)).reverse
  ⟨file, offset, 1 + before.count 10, 1 + (glyphs lastLine).length⟩

end MiniLisp
