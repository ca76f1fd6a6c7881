import MiniLisp.Reader.Completion
import MiniLisp.Reader.Grammar

/-!
The scannerless reader.  It matches the grammar of expressions on the text itself,
after it has checked the encoding and the nesting of the whole text.
-/

namespace MiniLisp

namespace Scannerless

/-- Skip white space and comments; `inComment` says that a comment has begun. -/
def skipTriviaOver : (inComment : Bool) → List Glyph → List Glyph
  | _, [] => []
  | true, glyph :: rest => skipTriviaOver (!glyph.isChar '\n') rest
  | false, glyph :: rest =>
      if glyph.isAsciiBlank then skipTriviaOver false rest
      else if glyph.isChar ';' then skipTriviaOver true rest
      else glyph :: rest

def skipTrivia (text : List Glyph) : List Glyph :=
  skipTriviaOver false text

/-- The offset of the first byte from `offset` on that is not white space and not in
a comment. -/
def triviaEnd (text : Bytes) (offset : Nat) : Nat :=
  let ahead := glyphs (text.drop offset)
  offset + (glyphWidth ahead - glyphWidth (skipTrivia ahead))

/-- Why no expression starts at the beginning of a text.  If the completed text is an
expression, only more text is wanting. -/
def diagnose (text : List Glyph) : ReadFault :=
  if text.head?.any (Glyph.isChar ')') then .unmatchedClose
  else
    match (completion? text).bind Grammar.match? with
    | none => .noExpression
    | some (.error fault, _) => fault
    | some (.ok _, _) => .incompleteExpression

/-- A fault and the text from there on. -/
structure FaultAt where
  fault : ReadFault
  text : List Glyph
deriving DecidableEq, Repr

/-- The next expression and what follows it, if there is one. -/
def next? (fuel : Nat) (text : List Glyph) :
    Except FaultAt (Option (Value × List Glyph)) :=
  match skipTrivia text with
  | [] => .ok none
  | start =>
      match Grammar.matchOver fuel [] text with
      | none => .error ⟨diagnose start, start⟩
      | some (.error fault, _) => .error ⟨fault, start⟩
      | some (.ok value, rest) => .ok (some (value, rest))

/-- Read at most `count` expressions behind those found (latest first), each with
the same fuel. -/
def readAllOver (fuel : Nat) : (count : Nat) → (found : List Value) → List Glyph →
    Except FaultAt (List Value)
  | 0, found, _ => .ok found.reverse
  | count + 1, found, text =>
      match next? fuel text with
      | .error fault => .error fault
      | .ok none => .ok found.reverse
      | .ok (some (value, rest)) => readAllOver fuel count (value :: found) rest

def check (limit : Int) (file text : Bytes) : Except ReadError Unit :=
  let all := glyphs text
  match all.dropWhile Glyph.isValid with
  | .stray byte :: _ =>
      .error ⟨.lexical (.strayByte byte), locate file text (strayOffset text)⟩
  | _ =>
      match Nesting.overflow? limit all with
      | some offset => .error ⟨.tooDeep limit, locate file text offset⟩
      | none => .ok ()

def FaultAt.error (file text : Bytes) (found : FaultAt) : ReadError :=
  ⟨found.fault, locate file text (text.length - glyphWidth found.text)⟩

/-- Read every expression of a text.  Every part of an expression takes at least one
glyph, so the glyphs bound both the parts and the expressions. -/
def readAll (limit : Int) (file text : Bytes) : Except ReadError (List Value) := do
  check limit file text
  let all := glyphs text
  let fuel := all.length + 1
  (readAllOver fuel fuel [] all).mapError (FaultAt.error file text)

/-- Read the first expression of a text.  Text without any reads as the empty list. -/
def readFirst (limit : Int) (file text : Bytes) : Except ReadError Value := do
  check limit file text
  let all := glyphs text
  match next? (all.length + 1) all with
  | .error fault => .error (fault.error file text)
  | .ok none => .ok .empty
  | .ok (some (value, _)) => .ok value

end Scannerless

end MiniLisp
