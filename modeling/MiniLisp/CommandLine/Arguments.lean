import MiniLisp.CommandLine.Flag

/-!
The arguments of the command line.  The first word that belongs to no flag may name a
command; the flags of that command may then stand anywhere between the other words.
-/

namespace MiniLisp

inductive Command where
  /-- Evaluate the words as one expression, or start a session without any. -/
  | evaluate
  /-- Run programs. -/
  | run
  /-- Start a session. -/
  | session
deriving DecidableEq, Repr

namespace Command

def commonFlags : List Flag :=
  [.maxDepth, .reader, .verbose, .stack, .ignoreSurplus]

def flags : Command → List Flag
  | .evaluate => commonFlags
  | .run => commonFlags ++ [.expression, .print]
  | .session => commonFlags ++ [.prompt, .history]

def ofWord? (word : Bytes) : Option Command :=
  if word = utf8 "run" then some .run
  else if word = utf8 "repl" then some .session
  else none

end Command

namespace Arguments

def isDashed (argument : Bytes) : Bool :=
  argument.head? == some 45

/-- What ends the flags. -/
def terminator : Bytes :=
  utf8 "--"

def named? (flags : List Flag) (name : Bytes) : Option Flag :=
  flags.find? (·.name == name)

def lettered? (flags : List Flag) (letter : UInt8) : Option Flag :=
  flags.find? (·.letter? == some letter)

/-- Whether an argument looks like a flag that takes the next argument: one without a
value of its own that is no switch of every command. -/
def takesNext (argument : Bytes) : Bool :=
  match argument with
  | 45 :: 45 :: name =>
      !name.contains 61 && !(named? Command.commonFlags name).any Flag.isSwitch
  | [45, letter] =>
      letter != 61 && !(lettered? Command.commonFlags letter).any Flag.isSwitch
  | _ => false

/-- The first argument that belongs to no flag.  A flag that takes the last argument
hides it. -/
def firstWord? : List Bytes → Option Bytes
  | [] => none
  | argument :: rest =>
      if argument = terminator then none
      else if takesNext argument then
        match rest with
        | _ :: word :: others => firstWord? (word :: others)
        | _ => none
      else if argument.isEmpty || isDashed argument then firstWord? rest
      else some argument

/-- The arguments without the first one that is `word` and belongs to no flag. -/
def removeWord (word : Bytes) : List Bytes → List Bytes
  | [] => []
  | argument :: rest =>
      if argument = terminator then argument :: rest
      else if takesNext argument then
        match rest with
        | value :: others => argument :: value :: removeWord word others
        | [] => [argument]
      else if argument = word then rest
      else argument :: removeWord word rest

/-- The command that arguments name, and the arguments for it. -/
def command (arguments : List Bytes) : Command × List Bytes :=
  match firstWord? arguments with
  | none => (.evaluate, arguments)
  | some word =>
      match Command.ofWord? word with
      | none => (.evaluate, arguments)
      | some command => (command, removeWord word arguments)

/-- What the arguments read so far amount to. -/
structure Progress where
  options : Options
  /-- The words, latest first. -/
  words : List Bytes
  /-- The flag that takes the next argument. -/
  awaiting : Option Flag
  /-- Whether only words can follow. -/
  ended : Bool
deriving DecidableEq, Repr

namespace Progress

def start : Progress :=
  ⟨.default, [], none, false⟩

def addWord (progress : Progress) (word : Bytes) : Progress :=
  { progress with words := word :: progress.words }

def set (progress : Progress) (flag : Flag) (value : Bytes) : Except Bytes Progress :=
  (progress.options.set flag value).map fun options =>
    { progress with options := options, awaiting := none }

/-- Take a flag behind two dashes, with its value if one is given. -/
def takeLong (flags : List Flag) (progress : Progress) (argument : Bytes) :
    Except Bytes Progress :=
  let text := argument.drop 2
  if text.head? == some 45 || text.head? == some 61 then
    .error (utf8 "bad flag syntax: " ++ argument)
  else
    let name := text.takeWhile (· != 61)
    match named? flags name, text.dropWhile (· != 61) with
    | none, _ => .error (utf8 "unknown flag: --" ++ name)
    | some flag, _ :: value => progress.set flag value
    | some flag, [] =>
        if flag.isSwitch then progress.set flag (utf8 "true")
        else .ok { progress with awaiting := some flag }

/-- Take the letters behind one dash.  Arguments for test tools are passed over. -/
def takeLetters (flags : List Flag) : Bytes → Progress → Except Bytes Progress
  | [], progress => .ok progress
  | letter :: rest, progress =>
      if (utf8 "test.").isPrefixOf (letter :: rest) then .ok progress
      else
        match lettered? flags letter, rest with
        | none, _ =>
            .error (utf8 "unknown shorthand flag: " ++ Diagnostic.quotedByte letter ++
              utf8 " in -" ++ letter :: rest)
        | some flag, 61 :: first :: value => progress.set flag (first :: value)
        | some flag, rest => do takeLetters flags rest (← progress.set flag (utf8 "true"))

def take (flags : List Flag) (progress : Progress) (argument : Bytes) :
    Except Bytes Progress :=
  match progress.awaiting with
  | some flag => progress.set flag argument
  | none =>
      if progress.ended || !isDashed argument || argument.length == 1 then
        .ok (progress.addWord argument)
      else if argument = terminator then .ok { progress with ended := true }
      else if terminator.isPrefixOf argument then progress.takeLong flags argument
      else takeLetters flags (argument.drop 1) progress

end Progress

def read (flags : List Flag) (arguments : List Bytes) :
    Except Bytes (Options × List Bytes) := do
  let progress ← arguments.foldlM (Progress.take flags) .start
  match progress.awaiting with
  | some flag => .error (utf8 "flag needs an argument: --" ++ flag.name)
  | none => .ok (progress.options, progress.words.reverse)

end Arguments

end MiniLisp
