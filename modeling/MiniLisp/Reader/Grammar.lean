import MiniLisp.Reader.Fault
import MiniLisp.Reader.Nesting
import MiniLisp.Value.Spine

/-!
The grammar of expressions, matched on the text itself:

    expr    := comment* (string | int | symbol | list | quoted)
    list    := '(' expr* tail* comment* ')'
    tail    := comment* '.' expr
    quoted  := '\'' expr

Blanks may stand before every part.  A number that is too large and a list with a
misplaced dot match all the same; they are faults of the expression that they are
part of, and the first fault counts.
-/

namespace MiniLisp

namespace Grammar

/-- The blanks that may stand before every part of an expression. -/
def isGap (c : Char) : Bool :=
  c == ' ' || c == '\t' || c == '\r' || c == '\n'

/-- The characters that end a symbol.  A form feed is one, although it is no gap. -/
def endsSymbol (c : Char) : Bool :=
  isGap c || c.toNat == 12 || c == '(' || c == ')' || c == '\'' || c == '"'

/-- A glyph that a symbol can continue with. -/
def isSymbolGlyph (glyph : Glyph) : Bool :=
  !glyph.satisfies endsSymbol

/-- Skip gaps and comments; `inComment` says that a comment has begun. -/
def skipGapsOver : (inComment : Bool) → List Glyph → List Glyph
  | _, [] => []
  | true, glyph :: rest => skipGapsOver (!glyph.isChar '\n') rest
  | false, glyph :: rest =>
      if glyph.satisfies isGap then skipGapsOver false rest
      else if glyph.isChar ';' then skipGapsOver true rest
      else glyph :: rest

/-- Skip the gaps and comments before a part of an expression. -/
def skipGaps (text : List Glyph) : List Glyph :=
  skipGapsOver false text

def isDigit (glyph : Glyph) : Bool :=
  glyph.satisfies Lexer.isDigit

/-- The value of a part of an expression, or the fault in it. -/
abbrev Node := Except ReadFault Value

def intNode (digits : List Glyph) : Node :=
  match readInt64? (glyphBytes digits) with
  | some n => .ok (.int n)
  | none => .error (.overflow (glyphBytes digits))

/-- The node of a string literal, quotes included. -/
def stringNode (literal : List Glyph) : Node :=
  match Literal.unquote (glyphBytes literal) with
  | .ok content => .ok (.text content)
  | .error fault => .error (.literal fault)

def symbolNode (name : List Glyph) : Node :=
  .ok (.symbol (.intern (glyphBytes name)))

inductive Part where
  | openParen
  | closeParen
  | quote
  | dot
  | atom (node : Node)
deriving Repr

/-- The rest of a string literal behind `done` (latest first), up to its closing
quote; `escaped` says that the next glyph is escaped. -/
def stringOver (done : List Glyph) : (escaped : Bool) → List Glyph →
    Option (List Glyph × List Glyph)
  | _, [] => none
  | true, glyph :: rest => stringOver (glyph :: done) false rest
  | false, glyph :: rest =>
      if glyph.isChar '"' then some ((glyph :: done).reverse, rest)
      else stringOver (glyph :: done) (glyph.isChar '\\') rest

def symbolFrom (first : Glyph) (rest : List Glyph) : Part × List Glyph :=
  (.atom (symbolNode (first :: rest.takeWhile isSymbolGlyph)),
    rest.dropWhile isSymbolGlyph)

def intFrom (first : Glyph) (rest : List Glyph) : Part × List Glyph :=
  (.atom (intNode (first :: rest.takeWhile isDigit)), rest.dropWhile isDigit)

/-- The part at the beginning of a text and what follows it.  A dot before a symbol
character starts a symbol. -/
def part? : List Glyph → Option (Part × List Glyph)
  | [] => none
  | first :: rest =>
      if first.isChar '(' then some (.openParen, rest)
      else if first.isChar ')' then some (.closeParen, rest)
      else if first.isChar '\'' then some (.quote, rest)
      else if first.isChar '"' then
        (stringOver [first] false rest).map fun (literal, rest) =>
          (.atom (stringNode literal), rest)
      else if isDigit first || first.isChar '-' && rest.head?.any isDigit then
        some (intFrom first rest)
      else if first.isChar '.' then
        if rest.head?.any isSymbolGlyph then some (symbolFrom first rest)
        else some (.dot, rest)
      else if isSymbolGlyph first then some (symbolFrom first rest)
      else none

/-- The part at the beginning of a text behind the tail of a list: the list ends, or
another tail follows. -/
def partAfterTail? : List Glyph → Option (Part × List Glyph)
  | [] => none
  | first :: rest =>
      if first.isChar ')' then some (.closeParen, rest)
      else if first.isChar '.' then some (.dot, rest)
      else none

/-- A list that is not closed yet.  Items and tails stand latest first. -/
structure OpenList where
  items : List Value
  tails : List Value
  /-- Whether a tail has begun. -/
  dotted : Bool
  /-- The first fault among the items and tails. -/
  fault : Option ReadFault
deriving DecidableEq, Repr

namespace OpenList

def new : OpenList :=
  ⟨[], [], false, none⟩

/-- Record a fault, unless there is an earlier one. -/
def note (list : OpenList) (fault : ReadFault) : OpenList :=
  { list with fault := list.fault.or (some fault) }

def addItem (list : OpenList) : Node → OpenList
  | .ok value => { list with items := value :: list.items }
  | .error fault => list.note fault

def addTail (list : OpenList) : Node → OpenList
  | .ok value => { list with tails := value :: list.tails }
  | .error fault => list.note fault

/-- The node of a closed list.  It has at most one tail, and that behind an item. -/
def close (list : OpenList) : Node :=
  match list.fault, list.tails, list.items with
  | some fault, _, _ => .error fault
  | none, [], items => .ok (.ofList items.reverse)
  | none, _ :: _, [] => .error .leadingDot
  | none, [tail], items => .ok (.ofSpine items.reverse tail)
  | none, _ :: _ :: _, _ => .error .afterTail

end OpenList

/-- A part of an expression that waits for more. -/
inductive Open where
  /-- A quote waits for its expression. -/
  | quote
  /-- A list waits for an item, a dot or its end. -/
  | list (list : OpenList)
  /-- A list waits for the expression behind its dot. -/
  | tail (list : OpenList)
deriving DecidableEq, Repr

/-- Whether the innermost open part is a list that has a tail already. -/
def afterTail : List Open → Bool
  | .list list :: _ => list.dotted
  | _ => false

/-- Where a complete node leads. -/
inductive Progress where
  | more (waiting : List Open)
  | done (node : Node)
deriving Repr

/-- Supply a complete node to the innermost of the waiting parts. -/
def supply : (waiting : List Open) → Node → Progress
  | [], node => .done node
  | .quote :: outer, node => supply outer (node.map Value.quote)
  | .list list :: outer, node => .more (.list (list.addItem node) :: outer)
  | .tail list :: outer, node => .more (.list (list.addTail node) :: outer)

/-- Take one part; there is no such expression if it cannot stand here. -/
def take : (waiting : List Open) → Part → Option Progress
  | waiting, .openParen => some (.more (.list .new :: waiting))
  | waiting, .quote => some (.more (.quote :: waiting))
  | .list list :: outer, .closeParen => some (supply outer list.close)
  | .list list :: outer, .dot => some (.more (.tail { list with dotted := true } :: outer))
  | waiting, .atom node => some (supply waiting node)
  | _, .closeParen => none
  | _, .dot => none

/-- Match an expression that has begun.  Every part takes at least one glyph, so the
glyphs ahead are fuel enough. -/
def matchOver : (fuel : Nat) → (waiting : List Open) → List Glyph →
    Option (Node × List Glyph)
  | 0, _, _ => none
  | fuel + 1, waiting, text =>
      let text := skipGaps text
      let part := if afterTail waiting then partAfterTail? text else part? text
      match part with
      | none => none
      | some (part, rest) =>
          match take waiting part with
          | none => none
          | some (.done node) => some (node, rest)
          | some (.more waiting) => matchOver fuel waiting rest

/-- Match one expression at the beginning of a text: its node and what follows it. -/
def match? (text : List Glyph) : Option (Node × List Glyph) :=
  matchOver (text.length + 1) [] text

end Grammar

end MiniLisp
