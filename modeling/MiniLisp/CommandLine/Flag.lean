import MiniLisp.CommandLine.Number
import MiniLisp.Eval.Outcome
import MiniLisp.Reader

/-!
The flags of the command line and the options that they set.
-/

namespace MiniLisp

inductive Flag where
  | maxDepth
  | reader
  | verbose
  | stack
  | ignoreSurplus
  | expression
  | print
  | prompt
  | history
deriving DecidableEq, Repr

namespace Flag

/-- The name of a flag behind two dashes. -/
def name : Flag → Bytes
  | .maxDepth => utf8 "max-depth"
  | .reader => utf8 "reader"
  | .verbose => utf8 "verbose"
  | .stack => utf8 "stack"
  | .ignoreSurplus => utf8 "ignore-surplus-args"
  | .expression => utf8 "expression"
  | .print => utf8 "print"
  | .prompt => utf8 "prompt"
  | .history => utf8 "history"

/-- The letter of a flag behind one dash.  Only switches have one. -/
def letter? : Flag → Option UInt8
  | .verbose => some 118
  | .expression => some 101
  | .print => some 112
  | _ => none

/-- Whether the flag stands alone; any other takes the next argument as its value. -/
def isSwitch : Flag → Bool
  | .verbose => true
  | .stack => true
  | .ignoreSurplus => true
  | .expression => true
  | .print => true
  | _ => false

/-- How messages name a flag. -/
def title (flag : Flag) : Bytes :=
  match flag.letter? with
  | some letter => utf8 "-" ++ [letter] ++ utf8 ", --" ++ flag.name
  | none => utf8 "--" ++ flag.name

end Flag

/-- What the flags choose. -/
structure Options where
  maxDepth : Int
  reader : Bytes
  verbose : Bool
  stack : Bool
  surplus : Bool
  expression : Bool
  print : Bool
  prompt : Bytes
  history : Bytes
deriving DecidableEq, Repr

namespace Options

def default : Options where
  maxDepth := Config.defaultMaxDepth
  reader := Reader.tokens.name
  verbose := false
  stack := false
  surplus := false
  expression := false
  print := false
  prompt := utf8 "> "
  history := []

def trueTexts : List Bytes :=
  ["1", "t", "T", "true", "TRUE", "True"].map utf8

def falseTexts : List Bytes :=
  ["0", "f", "F", "false", "FALSE", "False"].map utf8

/-- The message of a value that the routine for it cannot read. -/
def unreadable (routine : String) (value message : Bytes) : Bytes :=
  utf8 routine ++ utf8 ": parsing " ++ Diagnostic.quoted value ++ utf8 ": " ++ message

def readSwitch (value : Bytes) : Except Bytes Bool :=
  if trueTexts.contains value then .ok true
  else if falseTexts.contains value then .ok false
  else .error (unreadable "strconv.ParseBool" value Number.Fault.malformed.message)

def readNumber (value : Bytes) : Except Bytes Int :=
  (Number.read value).mapError fun fault =>
    unreadable "strconv.ParseInt" value fault.message

/-- Set what a flag chooses; the error says what is wrong with the value. -/
def assign (options : Options) (flag : Flag) (value : Bytes) : Except Bytes Options :=
  match flag with
  | .maxDepth => (readNumber value).map fun n => { options with maxDepth := n }
  | .reader => .ok { options with reader := value }
  | .verbose => (readSwitch value).map fun b => { options with verbose := b }
  | .stack => (readSwitch value).map fun b => { options with stack := b }
  | .ignoreSurplus => (readSwitch value).map fun b => { options with surplus := b }
  | .expression => (readSwitch value).map fun b => { options with expression := b }
  | .print => (readSwitch value).map fun b => { options with print := b }
  | .prompt => .ok { options with prompt := value }
  | .history => .ok { options with history := value }

/-- Set what a flag chooses; the error names the flag. -/
def set (options : Options) (flag : Flag) (value : Bytes) : Except Bytes Options :=
  (options.assign flag value).mapError fun message =>
    utf8 "invalid argument " ++ Diagnostic.quoted value ++ utf8 " for " ++
      Diagnostic.quoted flag.title ++ utf8 " flag: " ++ message

end Options

end MiniLisp
