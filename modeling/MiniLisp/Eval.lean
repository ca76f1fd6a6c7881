import MiniLisp.Eval.Operation

/-!
Evaluation.  Symbols evaluate to their value in an environment, pairs are special
forms or applications, and everything else evaluates to itself.  A function works in
a copy of the environment that it was defined in, so what it defines stays inside
the call.

Every nested evaluation goes through `eval`, which counts the depth.  The parts of
an expression take the evaluator for them as an argument, `ev`.
-/

namespace MiniLisp

/-- How to evaluate an expression in the environment with a number. -/
abbrev Evaluator := Value → (scope : Nat) → State → Outcome × State

namespace Eval

def symbol (symbol : Symbol) (scope : Nat) (state : State) : Outcome :=
  match state.envs[scope]? with
  | none => .crashed
  | some env =>
      match env.lookup? symbol with
      | some value => .value value
      | none => .fail (.unbound symbol)

/-- Evaluate the arguments of a call from left to right, behind the values found
(latest first), and give the list of all values. -/
def arguments (ev : Evaluator) (scope : Nat) (all : Value) :
    (rest : Value) → (found : List Value) → State → Outcome × State
  | .pair head tail, found, state =>
      match ev head scope state with
      | (.value value, state) => arguments ev scope all tail (value :: found) state
      | other => other
  | ending, found, state =>
      if ending.isEmpty then (.value (.ofList found.reverse), state)
      else (.fail (.improperCall all), state)

/-- Evaluate the expressions of a body in order, and give the value of the last. -/
def body (ev : Evaluator) (scope : Nat) :
    (rest : Value) → (last : Value) → State → Outcome × State
  | .pair head tail, _, state =>
      match ev head scope state with
      | (.value value, state) => body ev scope tail value state
      | other => other
  | _, last, state => (.value last, state)

/-- Bind parameters to arguments, one after the other.  `all` are the parameters from
the first on. -/
def bind (config : Config) (callee : Symbol) (all : Value) :
    (parameters arguments : Value) → Env → Except Reason Env
  | .pair (.symbol parameter) parameters, arguments, env =>
      if parameter.isConstant then .error (.constantParameter callee parameter)
      else
        match arguments with
        | .pair argument arguments =>
            bind config callee all parameters arguments (env.define parameter argument)
        | _ => .error (.missingArguments callee)
  | .pair parameter _, _, _ => .error (.parameterNotSymbol callee parameter)
  | ending, arguments, env =>
      if !ending.isEmpty then .error (.parametersNotList callee all)
      else if !arguments.isEmpty && !config.surplus then .error (.surplusArguments callee)
      else .ok env

/-- Call a closure: bind its parameters in a copy of its environment, and evaluate
its body there. -/
def callClosure (ev : Evaluator) (config : Config) (name : Symbol)
    (parameters expressions : Value) (scope : Option Nat) (arguments : Value)
    (state : State) : Outcome × State :=
  match scope.bind (state.envs[·]?) with
  | none => (.crashed, state)
  | some env =>
      match bind config name parameters parameters arguments env with
      | .error reason => (.fail reason, state)
      | .ok env =>
          let (scope, state) := state.addEnv env
          body ev scope expressions .empty state

/-- Call a function with evaluated arguments. -/
def call (ev : Evaluator) (config : Config) (function arguments : Value)
    (state : State) : Outcome × State :=
  match function with
  | .primitive primitive =>
      let (outcome, out) := primitive.call arguments state.out
      (outcome, state.withOut out)
  | .closure name parameters expressions scope =>
      callClosure ev config name parameters expressions scope arguments state
  | _ => (.crashed, state)

/-- End an application: record the functions being applied in a failure, and drop the
last of them.  A crash leaves them as they are. -/
def finish : Outcome × State → Outcome × State
  | (.crashed, state) => (.crashed, state)
  | (outcome, state) =>
      match state.popCall? with
      | some popped => (outcome.attachStack state.calls, popped)
      | none => (.crashed, state)

/-- Apply a function to evaluated arguments. -/
def apply (ev : Evaluator) (config : Config) (function arguments : Value)
    (state : State) : Outcome × State :=
  match Frame.of? function with
  | none => (.fail (.notFunction function), state)
  | some frame => finish (call ev config function arguments (state.pushCall frame))

/-- Evaluate an application: the function, then its arguments, then the call. -/
def application (ev : Evaluator) (config : Config) (head tail : Value) (scope : Nat)
    (state : State) : Outcome × State :=
  match ev head scope state with
  | (.value function, state) =>
      if (Frame.of? function).isNone then (.fail (.notFunction function), state)
      else
        match arguments ev scope tail tail [] state with
        | (.value values, state) => apply ev config function values state
        | other => other
  | other => other

/-- Choose between two expressions by the value of a first one. -/
def conditional (ev : Evaluator) (tail : Value) (scope : Nat) (state : State) :
    Outcome × State :=
  match checkedArguments Symbol.ifForm.name ⟨2, some 3⟩ tail with
  | .error reason => (.fail reason, state)
  | .ok (test :: yes :: rest) =>
      match ev test scope state with
      | (.value value, state) =>
          if value.isTrue then ev yes scope state
          else
            match rest with
            | [] => (.value .empty, state)
            | no :: _ => ev no scope state
      | other => other
  | .ok _ => (.crashed, state)

def definedName (form : Symbol) : Value → Except Reason Symbol
  | .symbol name =>
      if name.isConstant then .error (.constantName form name) else .ok name
  | value => .error (.nameNotSymbol form value)

/-- Bind a symbol to the value of an expression. -/
def definition (ev : Evaluator) (tail : Value) (scope : Nat) (state : State) :
    Outcome × State :=
  match checkedArguments Symbol.defineForm.name (.exactly 2) tail with
  | .error reason => (.fail reason, state)
  | .ok (target :: expression :: _) =>
      match definedName .defineForm target with
      | .error reason => (.fail reason, state)
      | .ok name =>
          match ev expression scope state with
          | (.value value, state) => (.value value, state.define scope name value)
          | other => other
  | .ok _ => (.crashed, state)

/-- Bind a symbol to a closure, which keeps the environment it is defined in. -/
def functionDefinition (tail : Value) (scope : Nat) (state : State) : Outcome × State :=
  match checkedArguments Symbol.defunForm.name (.atLeast 3) tail with
  | .error reason => (.fail reason, state)
  | .ok (target :: parameters :: expressions) =>
      match definedName .defunForm target with
      | .error reason => (.fail reason, state)
      | .ok name =>
          let closure := Value.closure name parameters (.ofList expressions) (some scope)
          (.value (.symbol name), state.define scope name closure)
  | .ok _ => (.crashed, state)

def quotation (tail : Value) (state : State) : Outcome × State :=
  match checkedArguments Symbol.quoteForm.name (.exactly 1) tail with
  | .error reason => (.fail reason, state)
  | .ok (value :: _) => (.value value, state)
  | .ok _ => (.crashed, state)

def pair (ev : Evaluator) (config : Config) (head tail : Value) (scope : Nat)
    (state : State) : Outcome × State :=
  if head = .symbol .ifForm then conditional ev tail scope state
  else if head = .symbol .defineForm then definition ev tail scope state
  else if head = .symbol .defunForm then functionDefinition tail scope state
  else if head = .symbol .quoteForm then quotation tail state
  else application ev config head tail scope state

/-- Evaluate an expression, given how to evaluate the parts of it. -/
def expression (ev : Evaluator) (config : Config) (expr : Value) (scope : Nat)
    (state : State) : Outcome × State :=
  match expr with
  | .symbol name => (symbol name scope state, state)
  | .pair head tail => pair ev config head tail scope state
  | value => (.value value, state)

def depthMessage (config : Config) (state : State) : Bytes :=
  utf8 "evaluation depth limit " ++ decimal config.maxDepth ++
    utf8 " exceeded with " ++ decimalNat state.calls.length ++ utf8 " active calls"

end Eval

/-- Evaluate an expression in an environment.  Evaluations that nest beyond the limit
fail. -/
def eval (config : Config) : (fuel : Nat) → Evaluator
  | 0, _, _, state => (.exhausted, state)
  | fuel + 1, expr, scope, state =>
      let entered := state.enter
      if config.exceeds entered.depth then
        (.fail (.depthExceeded config.maxDepth),
          (entered.note (Eval.depthMessage config entered)).leave)
      else
        let (outcome, state) := Eval.expression (eval config fuel) config expr scope entered
        (outcome, state.leave)

end MiniLisp
