import MiniLisp.Reader.Nesting

/-!
Completing a text.  The shortest way to find out whether a text is the beginning of
an expression is to finish it: close its string and its lists, and give a value to a
quote or dot at its end.
-/

namespace MiniLisp

namespace Completion

/-- The word being read. -/
inductive Word where
  | none
  /-- A single dot. -/
  | dot
  | some
deriving DecidableEq, Repr

/-- What the walk along the text is inside of, apart from lists and words. -/
inductive Mode where
  | code
  | comment
  /-- A string literal; `escaped` says that the next glyph is escaped. -/
  | string (escaped : Bool)
deriving DecidableEq, Repr

/-- What the text has left open so far. -/
structure State where
  mode : Mode
  /-- The lists opened less those closed. -/
  depth : Int
  /-- Whether a quote or dot waits for an expression. -/
  pending : Bool
  word : Word
deriving DecidableEq, Repr

def State.top : State :=
  ⟨.code, 0, false, .none⟩

/-- A word ends; a dot waits for an expression. -/
def State.endWord (state : State) : State :=
  match state.word with
  | .none => state
  | .dot => { state with pending := true, word := .none }
  | .some => { state with pending := false, word := .none }

def State.extendWord (state : State) (glyph : Glyph) : State :=
  match state.word with
  | .none => { state with word := if glyph.isChar '.' then .dot else .some }
  | _ => { state with word := .some }

/-- Take a glyph that ends a word. -/
def State.delimit (state : State) (glyph : Glyph) : State :=
  let state := state.endWord
  if glyph.isChar '(' then { state with depth := state.depth + 1, pending := false }
  else if glyph.isChar ')' then { state with depth := state.depth - 1, pending := false }
  else if glyph.isChar '\'' then { state with pending := true }
  else if glyph.isChar '"' then { state with mode := .string false, pending := false }
  else state

def State.step (state : State) (glyph : Glyph) : State :=
  match state.mode with
  | .comment => if glyph.isChar '\n' then { state with mode := .code } else state
  | .string true => { state with mode := .string false }
  | .string false =>
      if glyph.isChar '"' then { state with mode := .code }
      else { state with mode := .string (glyph.isChar '\\') }
  | .code =>
      if glyph.isChar ';' && state.word = .none then { state with mode := .comment }
      else if glyph.endsWord then state.delimit glyph
      else state.extendWord glyph

def closeString : Mode → List Glyph
  | .string true => [.char 'x', .char '"']
  | .string false => [.char '"']
  | _ => []

/-- The text that gives a value to a quote or dot at the end. -/
def closePending (state : State) : List Glyph :=
  match state.mode with
  | .string _ => []
  | _ => if state.pending then [.char 'x', .char ' '] else []

def closing (state : State) : List Glyph :=
  closeString state.mode ++ [.char '\n'] ++ closePending state ++
    List.replicate state.depth.toNat (.char ')')

end Completion

/-- A text finished with what closes it, unless it closes more lists than it opens. -/
def completion? (text : List Glyph) : Option (List Glyph) :=
  let state := (text.foldl Completion.State.step .top).endWord
  if state.depth < 0 then none else some (text ++ Completion.closing state)

end MiniLisp
