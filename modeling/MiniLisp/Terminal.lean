import MiniLisp.Session

/-!
The terminal loop feeds what is typed to a session, line by line.
-/

namespace MiniLisp

/-- A terminal: its session and what is typed on the current line, latest first. -/
structure Terminal where
  session : Session
  typed : Bytes
  /-- Whether the session has ended. -/
  ended : Bool
deriving DecidableEq, Repr

namespace Terminal

def interrupt : UInt8 :=
  3

/-- The bytes that end a line: a line feed and a carriage return. -/
def isLineEnd (byte : UInt8) : Bool :=
  byte == 10 || byte == 13

/-- A terminal on which nothing is typed yet. -/
def new (session : Session) : Terminal :=
  ⟨session, [], false⟩

/-- Enter the typed line. -/
def enter (terminal : Terminal) : Terminal :=
  let (status, session) := terminal.session.line terminal.typed.reverse
  ⟨session, [], status == .exit⟩

/-- Type one byte.  An interrupt discards the typed line and the incomplete expression
before it. -/
def type (terminal : Terminal) (byte : UInt8) : Terminal :=
  if terminal.ended then terminal
  else if isLineEnd byte then terminal.enter
  else if byte = interrupt then ⟨terminal.session.reset, [], false⟩
  else { terminal with typed := byte :: terminal.typed }

/-- Close the input: a last line without an end still counts. -/
def close (terminal : Terminal) : Terminal :=
  let terminal :=
    if terminal.ended || terminal.typed.isEmpty then terminal else terminal.enter
  if terminal.ended then terminal
  else { terminal with session := terminal.session.writeError (utf8 "done\n") }

def run (session : Session) (input : Bytes) : Except Failure Session :=
  match session.interpreter.reader with
  | none => .error (.plain (utf8 "runtime has no reader"))
  | some _ => .ok (input.foldl type (.new session)).close.session

end Terminal

end MiniLisp
