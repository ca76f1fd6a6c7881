import MiniLisp.Interpreter
import MiniLisp.Text.Blank

/-!
Interactive sessions.  A session evaluates lines as they come.  Lines that end inside
an expression wait for a later line to complete it.
-/

namespace MiniLisp

/-- Drop white space at both ends of a text. -/
def trimBlank (text : Bytes) : Bytes :=
  let front := (glyphs text).dropWhile (Glyph.satisfies isBlank)
  glyphBytes (front.reverse.dropWhile (Glyph.satisfies isBlank)).reverse

/-- An interactive session. -/
structure Session where
  interpreter : Interpreter
  /-- The lines of an incomplete expression. -/
  buffer : Bytes
  /-- Where errors are reported. -/
  errors : Sink
  /-- Whether reports show the call stack. -/
  printStack : Bool
deriving DecidableEq, Repr

namespace Session

/-- What a session waits for after a line. -/
inductive Status where
  /-- A new expression. -/
  | ready
  /-- The rest of an expression. -/
  | more
  /-- Nothing: the user asked to end it. -/
  | exit
  /-- Nothing: it could not read at all. -/
  | crashed
deriving DecidableEq, Repr

/-- A session that has seen no line yet. -/
def new (interpreter : Interpreter) (printStack : Bool) : Session :=
  ⟨interpreter, [], .unlimited, printStack⟩

def isPending (session : Session) : Bool :=
  !session.buffer.isEmpty

def reset (session : Session) : Session :=
  { session with buffer := [] }

def sourceName : Bytes :=
  utf8 "<repl>"

def writeError (session : Session) (text : Bytes) : Session :=
  { session with errors := (session.errors.write text).2 }

def report (session : Session) (failure : Failure) : Session :=
  let session := session.writeError (failure.message ++ utf8 "\n")
  match session.printStack, failure.stack? with
  | true, some stack => { session with errors := (stack.print session.errors).sink }
  | _, _ => session

/-- Evaluate complete expressions and write the value of each. -/
def evaluate (session : Session) (exprs : List Value) : Status × Session :=
  match Interpreter.evalAll Interpreter.writeValue session.interpreter exprs .empty with
  | (.failed failure, interpreter) =>
      (.ready, { session with interpreter := interpreter }.report failure)
  | (.value _, interpreter) => (.ready, { session with interpreter := interpreter })
  | (_, interpreter) => (.crashed, { session with interpreter := interpreter })

/-- Read and evaluate the buffered lines if they are complete. -/
def process (session : Session) : Status × Session :=
  match session.interpreter.reader with
  | none => (.crashed, session)
  | some reader =>
      match reader.readAll sourceName session.buffer with
      | .ok exprs => session.reset.evaluate exprs
      | .error error =>
          if error.fault.isIncomplete then (.more, session)
          else (.ready, session.reset.report (.ofReadError error))

/-- The words that end a session. -/
def isExitWord (word : Bytes) : Bool :=
  word == utf8 "exit" || word == utf8 "quit"

def continueLine (session : Session) (line : Bytes) : Status × Session :=
  { session with buffer := session.buffer ++ utf8 "\n" ++ line }.process

def startLine (session : Session) (line : Bytes) : Status × Session :=
  let word := downcase (trimBlank line)
  if word.isEmpty then (.ready, session)
  else if isExitWord word then (.exit, session)
  else { session with buffer := line }.process

def line (session : Session) (line : Bytes) : Status × Session :=
  if session.isPending then session.continueLine line else session.startLine line

end Session

end MiniLisp
