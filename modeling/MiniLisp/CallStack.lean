import MiniLisp.Sink
import MiniLisp.Value

/-!
The call stack records the functions being applied.
-/

namespace MiniLisp

/-- One function being applied. -/
structure Frame where
  name : Bytes
  kind : Value.Kind
deriving DecidableEq, Repr, Inhabited

namespace Frame

def of? : Value → Option Frame
  | .primitive p => some ⟨p.name, .primitive⟩
  | .closure name _ _ _ => some ⟨name.name, .closure⟩
  | _ => none

def render (frame : Frame) : Bytes :=
  frame.kind.name ++ utf8 " " ++ frame.name

end Frame

/-- The frames of the functions being applied, the innermost first. -/
abbrev CallStack := List Frame

namespace CallStack

/-- The line of a frame at a height above the outermost. -/
def frameLine (height : Nat) (frame : Frame) : Bytes :=
  utf8 "  height " ++ decimalNat height ++ utf8 ": " ++ frame.render ++ utf8 "\n"

/-- The lines of the innermost of `count` frames and of those below it. -/
def frameLines : (count : Nat) → CallStack → List Bytes
  | count + 1, frame :: below => frameLine count frame :: frameLines count below
  | _, _ => []

def trace (stack : CallStack) : List Bytes :=
  (utf8 "Stack Trace [" ++ decimalNat stack.length ++
    utf8 " frames -- entrypoint last]:\n") :: frameLines stack.length stack

/-- Write a stack trace to a sink, one line at a time. -/
def print (sink : Sink) (stack : CallStack) : Tally :=
  (Tally.on sink).writeAll stack.trace

end CallStack

end MiniLisp
