import MiniLisp.Text.Blank
import MiniLisp.Text.Glyph

/-!
How deeply a text nests, found without reading it.  Lists nest until they are
closed, and a quote nests until the expression behind it ends.
-/

namespace MiniLisp

/-- A glyph that is white space in the first 128 characters. -/
def Glyph.isAsciiBlank (glyph : Glyph) : Bool :=
  glyph.satisfies MiniLisp.isAsciiBlank

/-- A glyph that ends a word: a parenthesis, a quote or white space. -/
def Glyph.endsWord (glyph : Glyph) : Bool :=
  glyph.isAsciiBlank ||
    glyph.satisfies fun c => c == '(' || c == ')' || c == '\'' || c == '"'

namespace Nesting

/-- What the walk along the text is inside of. -/
inductive Mode where
  | between
  | word
  | comment
  /-- A string literal; `escaped` says that the next glyph is escaped. -/
  | string (escaped : Bool)
deriving DecidableEq, Repr

/-- The state of the walk: the quotes that wait for their expression in each open
list, innermost first, with those outside of all lists apart. -/
structure State where
  mode : Mode
  depth : Nat
  outside : Nat
  lists : List Nat
deriving DecidableEq, Repr

namespace State

def top : State :=
  ⟨.between, 0, 0, []⟩

/-- An expression ends, and the quotes before it with it. -/
def endExpression (state : State) : State :=
  match state.lists with
  | quotes :: outer =>
      { state with mode := .between, depth := state.depth - quotes, lists := 0 :: outer }
  | [] =>
      { state with mode := .between, depth := state.depth - state.outside, outside := 0 }

def openList (state : State) : State :=
  { state with depth := state.depth + 1, lists := 0 :: state.lists }

/-- A quote waits for its expression. -/
def openQuote (state : State) : State :=
  match state.lists with
  | quotes :: outer =>
      { state with depth := state.depth + 1, lists := (quotes + 1) :: outer }
  | [] => { state with depth := state.depth + 1, outside := state.outside + 1 }

end State

/-- What one glyph leads to. -/
inductive Step where
  | next (state : State)
  /-- The glyph opens a form below the limit. -/
  | overflow
  /-- The glyph closes a list that was never opened. -/
  | unmatched
deriving DecidableEq, Repr

/-- Take a glyph between expressions. -/
def between (limit : Nat) (state : State) (glyph : Glyph) : Step :=
  if glyph.isAsciiBlank then .next state
  else if glyph.isChar ';' then .next { state with mode := .comment }
  else if glyph.isChar '"' then .next { state with mode := .string false }
  else if glyph.isChar '(' then
    if limit < state.depth + 1 then .overflow else .next state.openList
  else if glyph.isChar '\'' then
    if limit < state.depth + 1 then .overflow else .next state.openQuote
  else if glyph.isChar ')' then
    match state.lists with
    | [] => .unmatched
    | quotes :: outer =>
        .next { state with depth := state.depth - (quotes + 1), lists := outer }.endExpression
  else .next { state with mode := .word }

def step (limit : Nat) (state : State) (glyph : Glyph) : Step :=
  match state.mode with
  | .between => between limit state glyph
  | .word =>
      if glyph.endsWord then between limit state.endExpression glyph else .next state
  | .comment =>
      .next (if glyph.isChar '\n' then { state with mode := .between } else state)
  | .string true => .next { state with mode := .string false }
  | .string false =>
      if glyph.isChar '"' then .next state.endExpression
      else .next { state with mode := .string (glyph.isChar '\\') }

/-- The offset of the first glyph from `offset` on that nests below the limit. -/
def overflowOver (limit : Nat) : (ahead : List Glyph) → (offset : Nat) → State → Option Nat
  | [], _, _ => none
  | glyph :: rest, offset, state =>
      match step limit state glyph with
      | .next state => overflowOver limit rest (offset + glyph.width) state
      | .overflow => some offset
      | .unmatched => none

/-- The offset of the first parenthesis or quote that nests below the limit.  A limit
of zero or less is none, and nothing is checked behind an unmatched parenthesis. -/
def overflow? (limit : Int) (text : List Glyph) : Option Nat :=
  if limit ≤ 0 then none else overflowOver limit.toNat text 0 .top

end Nesting

end MiniLisp
