import MiniLisp.Text.Blank
import MiniLisp.Token.Scanner

/-!
The lexer splits source text into tokens.  White space separates tokens and is
dropped; comments are tokens.  The first token that cannot be read ends the
stream: from then on the lexer repeats the same fault.
-/

namespace MiniLisp

/-- Why a token cannot be read. -/
inductive Lexer.Fault where
  /-- A string literal with no closing quote. -/
  | unterminatedString
  /-- A byte that starts no well-formed sequence. -/
  | strayByte (byte : UInt8)
deriving DecidableEq, Repr

namespace Lexer.Fault

def message : Lexer.Fault → Bytes
  | .unterminatedString => utf8 "unterminated string literal: unexpected EOF"
  | .strayByte byte => (Scanner.Fault.strayByte byte).message

/-- Whether more text could still remove the fault. -/
def isIncomplete : Lexer.Fault → Bool
  | .unterminatedString => true
  | .strayByte _ => false

end Lexer.Fault

/-- A lexer: its scanner and the fault that stopped it. -/
structure Lexer where
  scanner : Scanner
  fault : Option Lexer.Fault
deriving DecidableEq, Repr

namespace Lexer

def isDigit (c : Char) : Bool :=
  '0' ≤ c && c ≤ '9'

/-- The characters that end a symbol: parentheses, quotes and white space. -/
def isDelimiter (c : Char) : Bool :=
  c == '(' || c == ')' || c == '\'' || c == '"' || isBlank c

/-- A character that a symbol can continue with. -/
def isSymbolChar (c : Char) : Bool :=
  !isDelimiter c

def ofBytes (file text : Bytes) : Lexer :=
  ⟨.ofBytes file text, none⟩

/-- Take a string literal up to its closing quote, the opening one being taken;
`escaped` says that the next character is escaped. -/
def stringOver : (ahead : List Glyph) → (escaped : Bool) → Scanner →
    Option Fault × Scanner
  | [], _, s => (some .unterminatedString, s)
  | .stray byte :: _, _, s => (some (.strayByte byte), s)
  | .char c :: rest, escaped, s =>
      if escaped then stringOver rest false (s.pass c rest)
      else if c = '"' then (none, s.pass c rest)
      else stringOver rest (c = '\\') (s.pass c rest)

def resume (cut : Token × Scanner) : Token × Lexer :=
  (cut.1, ⟨cut.2, none⟩)

def stop (s : Scanner) (fault : Fault) : Token × Lexer :=
  let cut := s.emitText .error fault.message
  (cut.1, ⟨cut.2, some fault⟩)

def nextString (s : Scanner) : Token × Lexer :=
  match stringOver s.ahead false s with
  | (none, s) => resume (s.emit .string)
  | (some fault, s) => stop s fault

def nextNumber (s : Scanner) : Token × Lexer :=
  resume ((s.advanceWhile isDigit).emit .int)

/-- The token of a symbol whose first character is taken.  A dot that stands
alone is no symbol. -/
def nextSymbol (s : Scanner) : Token × Lexer :=
  let s := s.advanceWhile isSymbolChar
  resume (s.emit (if s.text = utf8 "." then .dot else .symbol))

/-- The token that starts with the character `c`, which is taken. -/
def nextFrom (c : Char) (s : Scanner) : Token × Lexer :=
  if c = '(' then resume (s.emit .openParen)
  else if c = ')' then resume (s.emit .closeParen)
  else if c = '\'' then resume (s.emit .quote)
  else if c = ';' then resume ((s.advanceWhile (· != '\n')).emit .comment)
  else if c = '"' then nextString s
  else if isDigit c || c == '-' && s.peekIs isDigit then nextNumber s
  else nextSymbol s

/-- The next token, and the lexer behind it. -/
def next (lexer : Lexer) : Token × Lexer :=
  match lexer.fault with
  | some fault => stop lexer.scanner fault
  | none =>
      let s := (lexer.scanner.advanceWhile isBlank).ignore
      match s.ahead with
      | [] => resume (s.emitText .endOfInput [])
      | .stray byte :: _ => stop s (.strayByte byte)
      | .char c :: rest => nextFrom c (s.pass c rest)

/-- How a token stream ends: the last token, with the fault that it reports. -/
structure Ending where
  token : Token
  fault : Option Fault
deriving DecidableEq, Repr

/-- Collect at most `fuel` tokens behind `found` (latest first), and then how the
stream ends. -/
def tokensOnto : (fuel : Nat) → (found : List Token) → Lexer → List Token × Ending × Lexer
  | 0, found, lexer =>
      let (token, after) := lexer.next
      (found.reverse, ⟨token, after.fault⟩, after)
  | fuel + 1, found, lexer =>
      let (token, after) := lexer.next
      if token.kind.isFinal then (found.reverse, ⟨token, after.fault⟩, after)
      else tokensOnto fuel (token :: found) after

/-- The tokens up to the end of the stream, how it ends, and the lexer there.
Every token but the last takes at least one glyph, so the glyphs ahead bound
their number. -/
def tokens (lexer : Lexer) : List Token × Ending × Lexer :=
  tokensOnto lexer.scanner.ahead.length [] lexer

end Lexer

end MiniLisp
