import MiniLisp.CommandLine

/-!
The program: it reads the files and the input that the command line works on, and
writes what the commands report.
-/

namespace MiniLisp

namespace Program

def write (stream : IO.FS.Stream) (text : Bytes) : IO Unit := do
  unless text.isEmpty do
    stream.write ⟨text.toArray⟩
    stream.flush

/-- A file with its name, if it can be read. -/
def readEntry? (name : Bytes) : IO (Option (Bytes × Bytes)) := do
  match String.fromUTF8? ⟨name.toArray⟩ with
  | none => return none
  | some path =>
      try
        let content ← IO.FS.readBinFile path
        return some (name, content.data.toList)
      catch _ => return none

/-- Write what a session has written since the last time. -/
def showSession (session : Session) : IO Session := do
  let (output, interpreter) := session.interpreter.drainOutput
  let (messages, interpreter) := interpreter.drainLog
  let (errors, sink) := session.errors.drain
  write (← IO.getStdout) output
  write (← IO.getStderr) (messages ++ errors)
  return { session with interpreter := interpreter, errors := sink }

/-- Feed standard input to a terminal until its session ends. -/
partial def feed (terminal : Terminal) : IO Unit := do
  let bytes ← (← IO.getStdin).read 1
  if bytes.isEmpty then
    discard (showSession terminal.close.session)
  else
    let terminal := bytes.data.toList.foldl Terminal.type terminal
    let session ← showSession terminal.session
    unless terminal.ended do
      feed { terminal with session := session }

/-- Report a failure, and give the exit status for it. -/
def fail (failure : Failure) : IO UInt32 := do
  write (← IO.getStderr) (failure.message ++ utf8 "\n")
  return 1

/-- Execute what the arguments ask for, and give the exit status. -/
def run (arguments : List Bytes) : IO UInt32 := do
  match CommandLine.plan arguments with
  | .error failure => fail failure
  | .ok (command, options, words, it) =>
      if CommandLine.startsSession command words then
        feed (.new (.new it options.stack))
        return 0
      let entries ← if options.expression then pure [] else words.filterMapM readEntry?
      let inputs := CommandLine.Inputs.mk (fun name => List.lookup name entries) []
      let report := CommandLine.execute inputs command options words it
      write (← IO.getStdout) report.output
      write (← IO.getStderr) report.messages
      match report.failure with
      | some failure => fail failure
      | none => return 0

end Program

end MiniLisp

def main (arguments : List String) : IO UInt32 :=
  MiniLisp.Program.run (arguments.map MiniLisp.utf8)
