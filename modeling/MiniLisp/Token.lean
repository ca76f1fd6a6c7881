import MiniLisp.Source.Location
import MiniLisp.Text.Diagnostic

/-!
Tokens of the source language.
-/

namespace MiniLisp

inductive Token.Kind where
  | invalid
  | error
  | endOfInput
  | symbol
  | int
  | string
  | comment
  | quote
  | dot
  | openParen
  | closeParen
  /-- A kind outside the language. -/
  | unknown
deriving DecidableEq, Repr, Inhabited

namespace Token.Kind

def ofNumber : Nat → Token.Kind
  | 0 => .invalid
  | 1 => .error
  | 2 => .endOfInput
  | 3 => .symbol
  | 4 => .int
  | 5 => .string
  | 6 => .comment
  | 7 => .quote
  | 8 => .dot
  | 9 => .openParen
  | 10 => .closeParen
  | _ => .unknown

def name : Token.Kind → Bytes
  | .invalid => utf8 "invalid"
  | .error => utf8 "error"
  | .endOfInput => utf8 "EOF"
  | .symbol => utf8 "symbol"
  | .int => utf8 "int"
  | .string => utf8 "string"
  | .comment => utf8 ";"
  | .quote => utf8 "'"
  | .dot => utf8 "."
  | .openParen => utf8 "("
  | .closeParen => utf8 ")"
  | .unknown => utf8 "invalid"

/-- Whether no token of another kind can follow. -/
def isFinal : Token.Kind → Bool
  | .error => true
  | .endOfInput => true
  | _ => false

end Token.Kind

/-- A token: its kind, its text in the source and where it starts. -/
structure Token where
  kind : Token.Kind
  text : Bytes
  source : Location
deriving DecidableEq, Repr, Inhabited

namespace Token

def describe (token : Token) : Bytes :=
  match token.kind with
  | .endOfInput => utf8 "end of input"
  | .error => token.text
  | .invalid => token.text
  | kind => kind.name ++ utf8 " " ++ Diagnostic.quoted token.text

end Token

end MiniLisp
