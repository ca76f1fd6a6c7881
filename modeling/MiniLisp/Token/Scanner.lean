import MiniLisp.Token

/-!
A scanner walks over the glyphs of a source and cuts tokens out of them.  It knows
where the token being scanned starts and where the next glyph stands.
-/

namespace MiniLisp

/-- A scanner: the glyphs taken since the last cut (latest first) and those still
ahead. -/
structure Scanner where
  file : Bytes
  start : Place
  here : Place
  taken : List Glyph
  ahead : List Glyph
  /-- The character scanned last. -/
  last : Char
deriving DecidableEq, Repr

namespace Scanner

/-- Why no glyph can be taken. -/
inductive Fault where
  | endOfInput
  /-- A byte that starts no well-formed sequence. -/
  | strayByte (byte : UInt8)
deriving DecidableEq, Repr

def Fault.message : Fault → Bytes
  | .endOfInput => utf8 "EOF"
  | .strayByte byte =>
      utf8 "invalid utf-8 sequence in source text starting with byte " ++
        Diagnostic.quotedByte byte

def ofBytes (file text : Bytes) : Scanner :=
  ⟨file, .start, .start, [], glyphs text, Char.ofNat 0⟩

def peek (s : Scanner) : Option Glyph :=
  s.ahead.head?

/-- Whether the next glyph is a character of the class `p`. -/
def peekIs (s : Scanner) (p : Char → Bool) : Bool :=
  s.peek.any (Glyph.satisfies p)

/-- The scanner behind the character `c` when `rest` is ahead of it. -/
def pass (s : Scanner) (c : Char) (rest : List Glyph) : Scanner :=
  { s with
    here := s.here.past (.char c)
    taken := .char c :: s.taken
    ahead := rest
    last := c }

/-- Take the next character into the current token. -/
def advance (s : Scanner) : Except Fault Scanner :=
  match s.ahead with
  | [] => .error .endOfInput
  | .stray byte :: _ => .error (.strayByte byte)
  | .char c :: rest => .ok (s.pass c rest)

/-- Take characters of the class `p` from `ahead` as long as there are any. -/
def advanceOver (p : Char → Bool) : (ahead : List Glyph) → Scanner → Scanner
  | .char c :: rest, s => if p c then advanceOver p rest (s.pass c rest) else s
  | _, s => s

/-- Take the longest run of characters of the class `p`. -/
def advanceWhile (s : Scanner) (p : Char → Bool) : Scanner :=
  advanceOver p s.ahead s

def text (s : Scanner) : Bytes :=
  glyphBytes s.taken.reverse

def startLocation (s : Scanner) : Location :=
  s.start.inFile s.file

/-- Drop what was taken and start a new token here. -/
def ignore (s : Scanner) : Scanner :=
  { s with start := s.here, taken := [] }

/-- Cut off a token with a text of its own, and start the next one. -/
def emitText (s : Scanner) (kind : Token.Kind) (text : Bytes) : Token × Scanner :=
  (⟨kind, text, s.startLocation⟩, s.ignore)

/-- Cut off the current token and start the next one. -/
def emit (s : Scanner) (kind : Token.Kind) : Token × Scanner :=
  s.emitText kind s.text

end Scanner

end MiniLisp
