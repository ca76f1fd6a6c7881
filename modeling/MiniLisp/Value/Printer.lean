import MiniLisp.Sink
import MiniLisp.Text.Literal
import MiniLisp.Value

/-!
The external form of values: lists in parentheses, a dot before an improper tail,
text as a literal that reads back.  The form is made of pieces, and formatting
writes one piece at a time.
-/

namespace MiniLisp

namespace Value

/-- The external form of a value that is no pair. -/
def atomForm : Value → Bytes
  | .symbol s => s.name
  | .int n => decimal n.toInt
  | .text content => Literal.quote content
  | .pair _ _ => []
  | .primitive p => utf8 "#<primitive:" ++ p.name ++ utf8 ">"
  | .closure name _ _ _ => utf8 "#<closure:" ++ name.name ++ utf8 ">"
  | .foreign kind _ => utf8 "#<" ++ kind.name ++ utf8 ">"
  | .absent => utf8 "#<invalid>"

/-- The pieces of a value behind `done` (latest first), where `inList` says that
the value is the tail of a list whose earlier items are written. -/
def piecesOnto : (value : Value) → (inList : Bool) → (done : List Bytes) → List Bytes
  | .pair head tail, false, done =>
      utf8 ")" :: piecesOnto tail true (piecesOnto head false (utf8 "(" :: done))
  | .pair head tail, true, done =>
      piecesOnto tail true (piecesOnto head false (utf8 " " :: done))
  | atom, false, done => atom.atomForm :: done
  | atom, true, done =>
      if atom.isEmpty then done else atom.atomForm :: utf8 " . " :: done

def pieces (value : Value) : List Bytes :=
  (piecesOnto value false []).reverse

def render (value : Value) : Bytes :=
  value.pieces.flatten

/-- Write a value behind what was written already, one piece at a time, where `inList`
says that the value is the tail of a list whose earlier items are written.  The walk
does not look whether a piece was refused: it goes on to the end of the value. -/
def writeTo : (value : Value) → (inList : Bool) → (tally : Tally) → Tally
  | .pair head tail, false, tally =>
      (tail.writeTo true (head.writeTo false (tally.write (utf8 "(")))).write (utf8 ")")
  | .pair head tail, true, tally =>
      tail.writeTo true (head.writeTo false (tally.write (utf8 " ")))
  | atom, false, tally => tally.write atom.atomForm
  | atom, true, tally =>
      if atom.isEmpty then tally else (tally.write (utf8 " . ")).write atom.atomForm

def format (sink : Sink) (value : Value) : Tally :=
  value.writeTo false (.on sink)

/-- The text that a value gives of itself. -/
def form : Value → Bytes
  | .foreign _ label => label
  | value => value.render

/-- The text of a value in a message. -/
def display : Value → Bytes
  | .absent => utf8 "<nil>"
  | value => value.form

end Value

end MiniLisp
