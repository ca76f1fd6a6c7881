import MiniLisp.Failure
import MiniLisp.Reader.Scannerless
import MiniLisp.Reader.Tokens

/-!
Readers turn source text into values.  There are two for the same language, and a
name for each.
-/

namespace MiniLisp

/-- A stream of source text, which may fail behind its content. -/
structure Source where
  content : Bytes
  fault : Option Bytes
deriving DecidableEq, Repr

namespace Source

/-- A stream that does not fail. -/
def ofBytes (content : Bytes) : Source :=
  ⟨content, none⟩

/-- The whole content of a stream. -/
def readAll (source : Source) : Except Failure Bytes :=
  match source.fault with
  | some message => .error (.plain message)
  | none => .ok source.content

end Source

inductive Reader where
  | tokens
  | scannerless
deriving DecidableEq, Repr

namespace Reader

def defaultName : Bytes :=
  utf8 "<input>"

def name : Reader → Bytes
  | .tokens => utf8 "rd"
  | .scannerless => utf8 "parsec"

/-- The reader with a name.  No name stands for the token reader. -/
def ofName (name : Bytes) : Except Failure Reader :=
  if name = [] ∨ name = Reader.tokens.name then .ok .tokens
  else if name = Reader.scannerless.name then .ok .scannerless
  else
    .error (.plain (utf8 "unknown reader: " ++ Diagnostic.quoted name ++
      utf8 " (expected " ++ Diagnostic.quoted Reader.tokens.name ++ utf8 " or " ++
      Diagnostic.quoted Reader.scannerless.name ++ utf8 ")"))

/-- Read the first expression of a text.  Text without any reads as the empty list. -/
def readFirst (reader : Reader) (text : Bytes) : Except ReadError Value :=
  match reader with
  | .tokens => (TokenReader.ofBytes defaultName text TokenReader.defaultLimit).readFirst.1
  | .scannerless => Scannerless.readFirst TokenReader.defaultLimit defaultName text

def readAll (reader : Reader) (file text : Bytes) : Except ReadError (List Value) :=
  match reader with
  | .tokens => (TokenReader.ofBytes file text TokenReader.defaultLimit).readAll.1
  | .scannerless => Scannerless.readAll TokenReader.defaultLimit file text

def read (reader : Reader) (text : Bytes) : Except Failure Value :=
  (reader.readFirst text).mapError .ofReadError

/-- Read every expression of a stream. -/
def readProgram (reader : Reader) (file : Bytes) (source : Source) :
    Except Failure (List Value) := do
  let text ← source.readAll
  (reader.readAll file text).mapError .ofReadError

end Reader

end MiniLisp
