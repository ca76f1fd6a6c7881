import MiniLisp.CommandLine.Arguments
import MiniLisp.Terminal

/-!
The command line.  Arguments name a command and its options; the commands evaluate an
expression, run programs, or start a session.
-/

namespace MiniLisp

namespace CommandLine

/-- What the command line works on: files by name, and what is typed in a session. -/
structure Inputs where
  file? : Bytes → Option Bytes
  typed : Bytes

/-- What a command has done. -/
structure Report where
  output : Bytes
  messages : Bytes
  /-- What a session wrote. -/
  sessionOutput : Bytes
  sessionErrors : Bytes
  failure : Option Failure
deriving DecidableEq, Repr

namespace Report

/-- A command that failed before it did anything. -/
def ofFailure (failure : Failure) : Report :=
  ⟨[], [], [], [], some failure⟩

end Report

/-- What stands before every line of the log. -/
def logLabel : Bytes :=
  utf8 "tinylisp: "

def interpreter (options : Options) : Except Failure Interpreter := do
  let reader ← Reader.ofName options.reader
  let settings :=
    [.reader (some reader), .output (some .unlimited), .messages true,
      .maxDepth options.maxDepth, .surplus options.surplus]
  Interpreter.new (settings ++ if options.verbose then [.log (some logLabel)] else [])

/-- The failure of an outcome that is no value. -/
def failure? : Outcome → Option Failure
  | .value _ => none
  | .failed failure => some failure
  | .crashed => some (.plain (utf8 "missing value"))
  | .exhausted => some (.plain (utf8 "out of fuel"))

def reportOn (options : Options) (failure : Option Failure) (it : Interpreter) : Report :=
  let trace := match options.stack, failure.bind Failure.stack? with
    | true, some stack => stack.trace.flatten
    | _, _ => []
  ⟨it.drainOutput.1, it.drainLog.1 ++ trace, [], [], failure⟩

/-- Evaluate words as one expression and write its value. -/
def evaluate (options : Options) (words : List Bytes) (it : Interpreter) : Report :=
  match it.evalText (joinWith (utf8 " ") words) with
  | (.value value, it) => reportOn options none (it.writeValue value)
  | (outcome, it) => reportOn options (failure? outcome) it

/-- The name and text of a program: the argument itself under a common name, or the
file that it names. -/
def program (inputs : Inputs) (options : Options) (argument : Bytes) :
    Except Failure (Bytes × Bytes) :=
  if options.expression then .ok (utf8 "<expression>", argument)
  else
    match inputs.file? argument with
    | some content => .ok (argument, content)
    | none =>
        .error (.plain (utf8 "open " ++ argument ++ utf8 ": no such file or directory"))

def programExpressions (inputs : Inputs) (options : Options) (it : Interpreter)
    (argument : Bytes) : Except Failure (List Value) := do
  let (name, content) ← program inputs options argument
  match it.reader with
  | none => .error Interpreter.noReader
  | some reader => reader.readProgram name (.ofBytes content)

/-- Run one program, and write the values of its expressions if that is chosen. -/
def runProgram (inputs : Inputs) (options : Options) (it : Interpreter) (argument : Bytes) :
    Option Failure × Interpreter :=
  match programExpressions inputs options it argument with
  | .error failure => (some failure, it)
  | .ok exprs =>
      let each := if options.print then Interpreter.writeValue else fun it _ => it
      let (outcome, it) := Interpreter.evalAll each it exprs .empty
      (failure? outcome, it)

/-- Run programs in order up to the first that fails. -/
def runPrograms (inputs : Inputs) (options : Options) :
    Interpreter → List Bytes → Option Failure × Interpreter
  | it, [] => (none, it)
  | it, argument :: rest =>
      match runProgram inputs options it argument with
      | (none, it) => runPrograms inputs options it rest
      | (some failure, it) => (some failure, it)

def runSession (inputs : Inputs) (options : Options) (it : Interpreter) : Report :=
  match Terminal.run (.new it options.stack) inputs.typed with
  | .error failure => .ofFailure failure
  | .ok session =>
      ⟨[], session.interpreter.drainLog.1, session.interpreter.drainOutput.1,
        session.errors.text, none⟩

def checkWords : Command → List Bytes → Except Failure Unit
  | .run, [] => .error (.plain (utf8 "requires at least 1 arg(s), only received 0"))
  | .session, word :: _ =>
      .error (.plain (utf8 "unknown command " ++ Diagnostic.quoted word ++
        utf8 " for \"tinylisp repl\""))
  | _, _ => .ok ()

def startsSession (command : Command) (words : List Bytes) : Bool :=
  match command with
  | .evaluate => words.isEmpty
  | .run => false
  | .session => true

def execute (inputs : Inputs) (command : Command) (options : Options) (words : List Bytes)
    (it : Interpreter) : Report :=
  if startsSession command words then runSession inputs options it
  else
    match command with
    | .run =>
        let (failure, it) := runPrograms inputs options it words
        reportOn options failure it
    | _ => evaluate options words it

/-- What the arguments ask for: a command with options, words and an interpreter. -/
def plan (arguments : List Bytes) :
    Except Failure (Command × Options × List Bytes × Interpreter) := do
  let (command, rest) := Arguments.command arguments
  let (options, words) ← (Arguments.read command.flags rest).mapError .plain
  checkWords command words
  let it ← interpreter options
  return (command, options, words, it)

def run (inputs : Inputs) (arguments : List Bytes) : Report :=
  match plan arguments with
  | .error failure => .ofFailure failure
  | .ok (command, options, words, it) => execute inputs command options words it

end CommandLine

end MiniLisp
