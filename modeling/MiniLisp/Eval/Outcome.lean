import MiniLisp.Env
import MiniLisp.Failure

/-!
What evaluation yields, and the state that it works on.
-/

namespace MiniLisp

/-- How an evaluation ends. -/
inductive Outcome where
  | value (value : Value)
  | failed (failure : Failure)
  /-- Something was asked of a value that does not exist.  Programs in source text
  never get here. -/
  | crashed
  /-- The fuel did not suffice. -/
  | exhausted
deriving DecidableEq, Repr

namespace Outcome

/-- A failure for a reason of which nothing more is known. -/
def fail (reason : Reason) : Outcome :=
  .failed (.of reason)

def ofExcept : Except Reason Value → Outcome
  | .ok result => .value result
  | .error reason => .fail reason

/-- Record the functions being applied in a failure that has none recorded. -/
def attachStack (stack : CallStack) : Outcome → Outcome
  | .failed failure => .failed (failure.attachStack stack)
  | outcome => outcome

end Outcome

/-- What stays the same throughout an evaluation. -/
structure Config where
  /-- How deeply evaluations may nest; zero or less is no limit. -/
  maxDepth : Int
  /-- Whether functions ignore arguments beyond their parameters. -/
  surplus : Bool
deriving DecidableEq, Repr

namespace Config

def defaultMaxDepth : Int :=
  10000

/-- Whether evaluations that nest `depth` deep are beyond the limit. -/
def exceeds (config : Config) (depth : Nat) : Bool :=
  0 < config.maxDepth && config.maxDepth < depth

/-- Fuel for evaluations that nest from `depth` on.  Under a limit it always
suffices. -/
def fuel (config : Config) (depth : Nat) : Nat :=
  if 0 < config.maxDepth then config.maxDepth.toNat + 1 - depth else 1000000000

end Config

structure State where
  /-- All environments so far, by number.  The global one is number zero. -/
  envs : Array Env
  /-- How many evaluations are nested. -/
  depth : Nat
  /-- The functions being applied. -/
  calls : CallStack
  /-- Where printing writes to. -/
  out : Sink
  /-- The messages for a log, latest first. -/
  log : List Bytes
deriving DecidableEq, Repr

namespace State

def globalScope : Nat :=
  0

def global (state : State) : Env :=
  state.envs.getD globalScope .empty

def enter (state : State) : State :=
  { state with depth := state.depth + 1 }

def leave (state : State) : State :=
  { state with depth := state.depth - 1 }

def note (state : State) (message : Bytes) : State :=
  { state with log := message :: state.log }

/-- Add an environment, and give its number. -/
def addEnv (state : State) (env : Env) : Nat × State :=
  (state.envs.size, { state with envs := state.envs.push env })

def define (state : State) (scope : Nat) (symbol : Symbol) (value : Value) : State :=
  { state with envs := state.envs.modify scope (·.define symbol value) }

/-- Begin to apply a function. -/
def pushCall (state : State) (frame : Frame) : State :=
  { state with calls := frame :: state.calls }

/-- End the application that began last. -/
def popCall? (state : State) : Option State :=
  match state.calls with
  | [] => none
  | _ :: below => some { state with calls := below }

def withOut (state : State) (out : Sink) : State :=
  { state with out := out }

end State

end MiniLisp
