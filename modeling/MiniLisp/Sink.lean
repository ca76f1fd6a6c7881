import MiniLisp.Text.Bytes

/-!
Sinks take pieces of output, one per write.  A sink may have a budget: it accepts
that many writes in full and refuses every later one.
-/

namespace MiniLisp

/-- An output stream. -/
structure Sink where
  /-- The accepted pieces, latest first. -/
  written : List Bytes
  /-- How many more writes are accepted, if that is limited. -/
  budget : Option Nat
  /-- How many writes were refused. -/
  refused : Nat
deriving DecidableEq, Repr, Inhabited

namespace Sink

def withBudget (budget : Option Nat) : Sink :=
  ⟨[], budget, 0⟩

def unlimited : Sink :=
  withBudget none

/-- Write one piece, and tell whether it was accepted. -/
def write (sink : Sink) (piece : Bytes) : Bool × Sink :=
  match sink.budget with
  | some 0 => (false, { sink with refused := sink.refused + 1 })
  | some (n + 1) =>
      (true, { sink with written := piece :: sink.written, budget := some n })
  | none => (true, { sink with written := piece :: sink.written })

/-- Everything that was accepted, in order. -/
def text (sink : Sink) : Bytes :=
  sink.written.reverse.flatten

/-- Take away everything that was accepted so far. -/
def drain (sink : Sink) : Bytes × Sink :=
  (sink.text, { sink with written := [] })

end Sink

/-- Counts the bytes that a sink accepts, and writes nothing more after the first
refusal. -/
structure Tally where
  sink : Sink
  count : Nat
  failed : Bool
deriving DecidableEq, Repr, Inhabited

namespace Tally

def on (sink : Sink) : Tally :=
  ⟨sink, 0, false⟩

/-- Write one piece unless an earlier one was refused. -/
def write (tally : Tally) (piece : Bytes) : Tally :=
  if tally.failed then tally
  else
    match tally.sink.write piece with
    | (true, sink) => ⟨sink, tally.count + piece.length, false⟩
    | (false, sink) => ⟨sink, tally.count, true⟩

def writeAll (tally : Tally) (pieces : List Bytes) : Tally :=
  pieces.foldl write tally

end Tally

end MiniLisp
