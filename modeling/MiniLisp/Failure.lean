import MiniLisp.CallStack
import MiniLisp.Reader.Fault
import MiniLisp.Value.Printer
import MiniLisp.Value.Spine

/-!
Failures.  A failure has a reason, and every reason belongs to a condition that
programs can tell apart.  The wording of all reasons is here.
-/

namespace MiniLisp

/-- The class of a failure. -/
inductive Condition where
  | parse
  | undefined
  | type
  | arity
  | arithmetic
  | recursionLimit
  /-- A condition of an embedding program. -/
  | other (tag : Bytes)
deriving DecidableEq, Repr

namespace Condition

def tag : Condition → Bytes
  | .parse => utf8 "parse-error"
  | .undefined => utf8 "undefined-variable"
  | .type => utf8 "type-error"
  | .arity => utf8 "arity-error"
  | .arithmetic => utf8 "arithmetic-error"
  | .recursionLimit => utf8 "recursion-limit"
  | .other tag => tag

end Condition

/-- Why reading or evaluation failed. -/
inductive Reason where
  /-- Source text cannot be read. -/
  | unreadable (fault : ReadFault)
  /-- A symbol has no value. -/
  | unbound (symbol : Symbol)
  /-- The head of a call is no function. -/
  | notFunction (value : Value)
  /-- The arguments in a call are no proper list. -/
  | improperCall (arguments : Value)
  /-- The arguments of a form or primitive are no proper list. -/
  | improperArguments (callee : Bytes)
  /-- A form or primitive takes another number of arguments. -/
  | wrongCount (callee : Bytes) (arity : Arity) (given : Nat)
  /-- An argument is no integer. -/
  | notNumber (callee : Bytes) (value : Value)
  /-- An argument is no pair. -/
  | notPair (callee : Bytes) (value : Value)
  | divisionByZero
  /-- A definition names no symbol. -/
  | nameNotSymbol (form : Symbol) (value : Value)
  /-- A definition names a constant. -/
  | constantName (form name : Symbol)
  /-- A parameter is no symbol. -/
  | parameterNotSymbol (callee : Symbol) (value : Value)
  /-- A parameter is a constant. -/
  | constantParameter (callee name : Symbol)
  /-- The parameters are no proper list. -/
  | parametersNotList (callee : Symbol) (parameters : Value)
  /-- There are more parameters than arguments. -/
  | missingArguments (callee : Symbol)
  /-- There are more arguments than parameters. -/
  | surplusArguments (callee : Symbol)
  /-- A walk along a list ended in another value than the empty list. -/
  | improperList (ending : Value)
  /-- Evaluation nests too deeply. -/
  | depthExceeded (limit : Int)
  /-- The reason of an embedding program. -/
  | stated (condition : Condition) (message : Bytes)
deriving DecidableEq, Repr

namespace Reason

def condition : Reason → Condition
  | .unreadable _ => .parse
  | .unbound _ => .undefined
  | .wrongCount _ _ _ => .arity
  | .missingArguments _ => .arity
  | .surplusArguments _ => .arity
  | .divisionByZero => .arithmetic
  | .depthExceeded _ => .recursionLimit
  | .stated condition _ => condition
  | _ => .type

def message : Reason → Bytes
  | .unreadable fault => fault.message
  | .unbound symbol => symbol.name
  | .notFunction value => utf8 "not a function: " ++ value.display
  | .improperCall arguments => utf8 "improper argument list: " ++ arguments.display
  | .improperArguments callee => callee ++ utf8 ": improper argument list"
  | .wrongCount callee arity given =>
      callee ++ utf8 ": expected " ++ arity.describe ++ utf8 " (got " ++
        decimalNat given ++ utf8 ")"
  | .notNumber callee value =>
      callee ++ utf8 ": argument is not a number: " ++ value.display
  | .notPair callee value =>
      callee ++ utf8 ": argument is not a list: " ++ value.display
  | .divisionByZero => utf8 "/: division by zero"
  | .nameNotSymbol form value =>
      form.name ++ utf8 ": name is not a symbol: " ++ value.display
  | .constantName form name =>
      form.name ++ utf8 ": cannot rebind constant " ++ name.name
  | .parameterNotSymbol callee value =>
      callee.name ++ utf8 ": parameter is not a symbol: " ++ value.display
  | .constantParameter callee name =>
      callee.name ++ utf8 ": cannot bind constant " ++ name.name
  | .parametersNotList callee parameters =>
      callee.name ++ utf8 ": parameter list is not a list: " ++ parameters.display
  | .missingArguments callee => callee.name ++ utf8 ": missing arguments"
  | .surplusArguments callee => callee.name ++ utf8 ": too many arguments"
  | .improperList ending => utf8 "improper list ends in " ++ ending.display
  | .depthExceeded limit =>
      utf8 "maximum evaluation depth exceeded (" ++ decimal limit ++ utf8 ")"
  | .stated _ message => message

/-- Whether more source text could still remove the reason. -/
def isIncomplete : Reason → Bool
  | .unreadable fault => fault.isIncomplete
  | _ => false

end Reason

/-- A reason with where in the source it arose and which functions were being
applied, as far as that is known. -/
structure Signal where
  reason : Reason
  source : Option Location
  stack : Option CallStack
deriving DecidableEq, Repr

namespace Signal

/-- A reason of which nothing more is known. -/
def of (reason : Reason) : Signal :=
  ⟨reason, none, none⟩

/-- The text of a signal; `fallback` stands in for an empty wording. -/
def render (signal : Signal) (fallback : Bytes) : Bytes :=
  let location := match signal.source with
    | some source => source.render ++ utf8 ": "
    | none => []
  let wording := signal.reason.message
  let wording := if wording.isEmpty then fallback else wording
  let colon := if wording.isEmpty then [] else utf8 ": "
  location ++ signal.reason.condition.tag ++ colon ++ wording

end Signal

/-- A failure: a plain message or a signal, possibly caused by another failure and
possibly in a wider context. -/
inductive Failure where
  | plain (message : Bytes)
  /-- The input ended in the middle of something. -/
  | unexpectedEnd
  | raised (signal : Signal)
  | raisedFrom (signal : Signal) (cause : Failure)
  | context (label : Bytes) (inner : Failure)
deriving DecidableEq, Repr

namespace Failure

def of (reason : Reason) : Failure :=
  .raised (.of reason)

def ofReadError (error : ReadError) : Failure :=
  .raised ⟨.unreadable error.fault, some error.source, none⟩

def message : Failure → Bytes
  | .plain message => message
  | .unexpectedEnd => utf8 "unexpected EOF"
  | .raised signal => signal.render []
  | .raisedFrom signal cause => signal.render cause.message
  | .context label inner => label ++ utf8 ": " ++ inner.message

/-- A failure whose wording ends in that of its cause. -/
def because (condition : Condition) (message : Bytes) (cause : Failure) : Failure :=
  .raisedFrom (.of (.stated condition (message ++ utf8 ": " ++ cause.message))) cause

/-- The outermost signal of a failure. -/
def signal? : Failure → Option Signal
  | .plain _ => none
  | .unexpectedEnd => none
  | .raised signal => some signal
  | .raisedFrom signal _ => some signal
  | .context _ inner => inner.signal?

/-- What a failure wraps. -/
def cause? : Failure → Option Failure
  | .raisedFrom _ cause => some cause
  | .context _ inner => some inner
  | _ => none

/-- The name of the outermost condition; empty if there is none. -/
def conditionTag (failure : Failure) : Bytes :=
  match failure.signal? with
  | some signal => signal.reason.condition.tag
  | none => []

def hasCondition (failure : Failure) (tag : Bytes) : Bool :=
  failure.conditionTag == tag

/-- Whether more source text could still remove the failure. -/
def isIncomplete : Failure → Bool
  | .plain _ => false
  | .unexpectedEnd => true
  | .raised signal => signal.reason.isIncomplete
  | .raisedFrom signal cause => signal.reason.isIncomplete || cause.isIncomplete
  | .context _ inner => inner.isIncomplete

/-- Change the outermost signal. -/
def mapSignal (f : Signal → Signal) : Failure → Failure
  | .plain message => .plain message
  | .unexpectedEnd => .unexpectedEnd
  | .raised signal => .raised (f signal)
  | .raisedFrom signal cause => .raisedFrom (f signal) cause
  | .context label inner => .context label (inner.mapSignal f)

def locatedAt (failure : Failure) (source : Option Location) : Failure :=
  failure.mapSignal fun signal => { signal with source := source }

/-- Record the functions being applied, unless some already are. -/
def attachStack (failure : Failure) (stack : CallStack) : Failure :=
  failure.mapSignal fun signal =>
    { signal with stack := signal.stack.or (some stack) }

/-- The functions that were being applied. -/
def stack? (failure : Failure) : Option CallStack :=
  failure.signal?.bind (·.stack)

end Failure

/-- The failure of a walk along an improper list. -/
def ListIterator.failure? (it : ListIterator) : Option Failure :=
  it.fault.map fun ending => .of (.improperList ending)

end MiniLisp
