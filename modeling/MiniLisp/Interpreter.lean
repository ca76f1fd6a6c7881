import MiniLisp.Eval
import MiniLisp.Reader

/-!
An interpreter holds the global environment and reads and evaluates programs in it.
Definitions made before an error stay in effect.
-/

namespace MiniLisp

structure Interpreter where
  /-- How source text is read, if it can be. -/
  reader : Option Reader
  config : Config
  /-- What stands before every line of the log, if there is one. -/
  logLabel : Option Bytes
  state : State
deriving DecidableEq, Repr

/-- A choice made for a new interpreter. -/
inductive Setting where
  | reader (reader : Option Reader)
  /-- Where printing writes to. -/
  | output (sink : Option Sink)
  /-- Whether there is a stream for messages. -/
  | messages (given : Bool)
  /-- A log whose lines start with a label. -/
  | log (label : Option Bytes)
  | maxDepth (limit : Int)
  | surplus (ignored : Bool)
deriving DecidableEq, Repr

namespace Interpreter

/-- An interpreter without any definitions. -/
def blank : Interpreter where
  reader := none
  config := ⟨Config.defaultMaxDepth, false⟩
  logLabel := none
  state := ⟨#[.empty], 0, [], .unlimited, []⟩

/-- Make a choice, which may be refused. -/
def choose (it : Interpreter) : Setting → Except Failure Interpreter
  | .reader none => .error (.plain (utf8 "nil reader"))
  | .reader (some reader) => .ok { it with reader := some reader }
  | .output none => .error (.plain (utf8 "nil stdout"))
  | .output (some sink) => .ok { it with state := it.state.withOut sink }
  | .messages false => .error (.plain (utf8 "nil stderr"))
  | .messages true => .ok it
  | .log none => .error (.plain (utf8 "nil logger"))
  | .log (some label) => .ok { it with logLabel := some label }
  | .maxDepth limit =>
      if limit < 0 then
        .error (.plain (utf8 "negative maximum depth: " ++ decimal limit))
      else
        .ok { it with config := { it.config with maxDepth := limit } }
  | .surplus ignored => .ok { it with config := { it.config with surplus := ignored } }

def builtinEnv : Env :=
  Primitive.builtins.foldl
    (fun env primitive => env.define (.intern primitive.name) (.primitive primitive)) .empty

/-- Define the primitives. -/
def install (it : Interpreter) : Interpreter :=
  let message := utf8 "installed " ++ decimalNat builtinEnv.size ++ utf8 " primitives"
  { it with state := { it.state with envs := #[builtinEnv] }.note message }

/-- A new interpreter with settings in order.  The first that is refused counts. -/
def new (settings : List Setting) : Except Failure Interpreter :=
  install <$> settings.foldlM choose blank

def global (it : Interpreter) : Env :=
  it.state.global

/-- The global bindings apart from primitives under their own name. -/
def definitions (it : Interpreter) : List Binding :=
  it.global.bindings.filter fun binding => !builtinEnv.bindings.contains binding

def resume (it : Interpreter) (result : Outcome × State) : Outcome × Interpreter :=
  (result.1, { it with state := result.2 })

def evaluator (it : Interpreter) : Evaluator :=
  MiniLisp.eval it.config (it.config.fuel it.state.depth)

/-- Evaluate an expression in the global environment. -/
def eval (it : Interpreter) (expr : Value) : Outcome × Interpreter :=
  it.resume (it.evaluator expr State.globalScope it.state)

def apply (it : Interpreter) (function arguments : Value) : Outcome × Interpreter :=
  it.resume (Eval.apply it.evaluator it.config function arguments it.state)

/-- Call a function without recording that it is being applied. -/
def call (it : Interpreter) (function arguments : Value) : Outcome × Interpreter :=
  it.resume (Eval.call it.evaluator it.config function arguments it.state)

/-- The failure of an interpreter that cannot read. -/
def noReader : Failure :=
  .plain (utf8 "no reader configured")

def read (it : Interpreter) (text : Bytes) : Except Failure Value :=
  match it.reader with
  | some reader => reader.read text
  | none => .error noReader

/-- Read the first expression of a text and evaluate it. -/
def evalText (it : Interpreter) (text : Bytes) : Outcome × Interpreter :=
  match it.read text with
  | .ok expr => it.eval expr
  | .error failure => (.failed failure, it)

/-- Evaluate expressions in order up to the first that gives no value.  `each` takes
the value of every one, and `last` stands in for the value of none. -/
def evalAll (each : Interpreter → Value → Interpreter) :
    Interpreter → List Value → (last : Value) → Outcome × Interpreter
  | it, [], last => (.value last, it)
  | it, expr :: rest, _ =>
      match it.eval expr with
      | (.value value, it) => evalAll each (each it value) rest value
      | other => other

/-- Read every expression of a stream and evaluate them in order. -/
def load (it : Interpreter) (name : Bytes) (source : Source) : Outcome × Interpreter :=
  match it.reader with
  | none => (.failed noReader, it)
  | some reader =>
      match reader.readProgram name source with
      | .ok exprs => evalAll (fun it _ => it) it exprs .empty
      | .error failure => (.failed failure, it)

def write (it : Interpreter) (text : Bytes) : Interpreter :=
  { it with state := it.state.withOut (it.state.out.write text).2 }

def writeValue (it : Interpreter) (value : Value) : Interpreter :=
  it.write (value.display ++ utf8 "\n")

def drainOutput (it : Interpreter) : Bytes × Interpreter :=
  let (text, sink) := it.state.out.drain
  (text, { it with state := it.state.withOut sink })

def drainLog (it : Interpreter) : Bytes × Interpreter :=
  let lines := match it.logLabel with
    | none => []
    | some label => it.state.log.reverse.map fun message => label ++ message ++ utf8 "\n"
  (lines.flatten, { it with state := { it.state with log := [] } })

end Interpreter

end MiniLisp
