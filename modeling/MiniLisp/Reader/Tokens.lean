import MiniLisp.Reader.Fault
import MiniLisp.Value.Spine

/-!
The token reader.  It takes one token at a time and keeps the lists and quotes that
are still open.  Every token either opens or closes a form, supplies a value to the
innermost open one, or is a fault; so reading is a single walk along the tokens.
-/

namespace MiniLisp

/-- A list or quote that is not complete yet.  Items stand latest first. -/
inductive OpenForm where
  /-- A quote waits for its expression. -/
  | quote
  /-- A list waits for an item, a dot or its end. -/
  | items (opener : Token) (done : List Value)
  /-- A list waits for the tail behind its dot. -/
  | tail (opener : Token) (done : List Value)
  /-- A list with a tail waits for its end. -/
  | close (opener : Token) (done : List Value) (tail : Value)
deriving DecidableEq, Repr

/-- The open forms, innermost first, and how many there are. -/
structure Nest where
  depth : Nat
  forms : List OpenForm
deriving DecidableEq, Repr

namespace Nest

def top : Nest :=
  ⟨0, []⟩

/-- What one token leads to. -/
inductive Progress where
  /-- The expression goes on. -/
  | more (nest : Nest)
  /-- The expression is complete. -/
  | done (value : Value)
  /-- There is no such expression. -/
  | fault (error : ReadError)
deriving DecidableEq, Repr

/-- Supply a complete value to the innermost of the open forms. -/
def supply : (depth : Nat) → (forms : List OpenForm) → Value → Progress
  | _, [], value => .done value
  | depth, .quote :: outer, value => supply (depth - 1) outer value.quote
  | depth, .items opener done :: outer, value =>
      .more ⟨depth, .items opener (value :: done) :: outer⟩
  | depth, .tail opener done :: outer, value =>
      .more ⟨depth, .close opener done value :: outer⟩
  | depth, .close opener done _ :: outer, value =>
      .more ⟨depth, .close opener done value :: outer⟩

/-- Open a form at a token, unless that nests too deeply.  A limit of zero or less
is none. -/
def enter (limit : Int) (nest : Nest) (form : OpenForm) (token : Token) : Progress :=
  if 0 < limit ∧ limit < nest.depth + 1 then
    .fault ⟨.tooDeep limit, token.source⟩
  else
    .more ⟨nest.depth + 1, form :: nest.forms⟩

/-- Take a token where an expression may start. -/
def expression (limit : Int) (nest : Nest) (token : Token) : Progress :=
  match token.kind with
  | .comment => .more nest
  | .int =>
      match readInt64? token.text with
      | some n => supply nest.depth nest.forms (.int n)
      | none => .fault ⟨.overflow token.text, token.source⟩
  | .string =>
      match Literal.unquote token.text with
      | .ok content => supply nest.depth nest.forms (.text content)
      | .error fault => .fault ⟨.literal fault, token.source⟩
  | .symbol => supply nest.depth nest.forms (.symbol (.intern token.text))
  | .quote => nest.enter limit .quote token
  | .openParen => nest.enter limit (.items token []) token
  | .closeParen => .fault ⟨.unmatchedClose, token.source⟩
  | kind => .fault ⟨.unexpected kind, token.source⟩

def step (limit : Int) (nest : Nest) (token : Token) : Progress :=
  match nest.forms, token.kind with
  | .items _ done :: outer, .closeParen =>
      supply (nest.depth - 1) outer (.ofList done.reverse)
  | .items opener done :: outer, .dot =>
      if done.isEmpty then .fault ⟨.leadingDot, token.source⟩
      else .more ⟨nest.depth, .tail opener done :: outer⟩
  | .tail _ _ :: _, .closeParen => .fault ⟨.missingTail, token.source⟩
  | .close _ done tail :: outer, .closeParen =>
      supply (nest.depth - 1) outer (.ofSpine done.reverse tail)
  | .close _ _ _ :: _, .comment => .more nest
  | .close _ _ _ :: _, _ => .fault ⟨.afterTail, token.source⟩
  | _, _ => nest.expression limit token

/-- The error of a stream that ends before the expression does. -/
def unfinished (nest : Nest) (ending : Lexer.Ending) : ReadError :=
  match nest.forms, ending.fault with
  | .items opener _ :: _, none => ⟨.unclosedList, opener.source⟩
  | .close opener _ _ :: _, none => ⟨.unclosedList, opener.source⟩
  | .close _ _ _ :: _, some _ => ⟨.afterTail, ending.token.source⟩
  | _, none => ⟨.expectedExpression, ending.token.source⟩
  | _, some fault => ⟨.lexical fault, ending.token.source⟩

end Nest

/-- A reader over a token stream. -/
structure TokenReader where
  /-- The token taken last. -/
  current : Option Token
  /-- The tokens to come before the end of the stream. -/
  ahead : List Token
  /-- How the stream ends. -/
  ending : Lexer.Ending
  /-- What the stream gives behind its end. -/
  again : Lexer.Ending
  /-- How deeply lists and quotes may nest; zero or less is no limit. -/
  limit : Int
deriving DecidableEq, Repr

namespace TokenReader

/-- How deeply lists and quotes may nest by default. -/
def defaultLimit : Int :=
  10000

def ofBytes (file text : Bytes) (limit : Int) : TokenReader :=
  let (ahead, ending, lexer) := (Lexer.ofBytes file text).tokens
  ⟨none, ahead, ending, ⟨lexer.next.1, ending.fault⟩, limit⟩

def peek (reader : TokenReader) : Token :=
  match reader.ahead with
  | token :: _ => token
  | [] => reader.ending.token

/-- The reader behind a token before the end. -/
def behind (reader : TokenReader) (token : Token) (rest : List Token) : TokenReader :=
  { reader with current := some token, ahead := rest }

/-- The reader behind the end of the stream. -/
def behindEnding (reader : TokenReader) : TokenReader :=
  { reader with
    current := some reader.ending.token
    ahead := []
    ending := reader.again }

def advance (reader : TokenReader) : TokenReader :=
  match reader.ahead with
  | token :: rest => reader.behind token rest
  | [] => reader.behindEnding

/-- Take comments from `ahead` as long as there are any. -/
def skipCommentsOver : (ahead : List Token) → TokenReader → TokenReader
  | token :: rest, reader =>
      if token.kind = .comment then skipCommentsOver rest (reader.behind token rest)
      else reader
  | [], reader => reader

def skipComments (reader : TokenReader) : TokenReader :=
  skipCommentsOver reader.ahead reader

/-- Read on from open forms until the expression is complete. -/
def readOver (reader : TokenReader) : (ahead : List Token) → Nest →
    Except ReadError Value × TokenReader
  | token :: rest, nest =>
      match nest.step reader.limit token with
      | .more nest => readOver reader rest nest
      | .done value => (.ok value, reader.behind token rest)
      | .fault error => (.error error, reader.behind token rest)
  | [], nest => (.error (nest.unfinished reader.ending), reader.behindEnding)

def readExpression (reader : TokenReader) : Except ReadError Value × TokenReader :=
  readOver reader reader.ahead .top

/-- Read the first expression.  Text without any reads as the empty list. -/
def readFirst (reader : TokenReader) : Except ReadError Value × TokenReader :=
  let reader := reader.skipComments
  if reader.peek.kind = .endOfInput then (.ok .empty, reader)
  else reader.readExpression

/-- Read an expression that starts with a token of a given kind.  Another token
stays where it is, and is a fault at the token before it; there is no answer when
no token was taken yet. -/
def readKind (wanted : Token.Kind) (reader : TokenReader) :
    Option (Except ReadError Value) × TokenReader :=
  if reader.peek.kind = wanted then
    let (result, reader) := reader.readExpression
    (some result, reader)
  else
    let error := fun (token : Token) =>
      ReadError.mk (.unexpectedKind wanted reader.peek.kind) token.source
    (reader.current.map fun token => .error (error token), reader)

/-- Read expressions behind those found (latest first) to the end of the stream. -/
def readAllOver (reader : TokenReader) : (ahead : List Token) → Nest →
    (found : List Value) → Except ReadError (List Value) × TokenReader
  | token :: rest, nest, found =>
      match nest.step reader.limit token with
      | .more nest => readAllOver reader rest nest found
      | .done value => readAllOver reader rest .top (value :: found)
      | .fault error => (.error error, reader.behind token rest)
  | [], nest, found =>
      if nest.forms.isEmpty ∧ reader.ending.fault = none then
        (.ok found.reverse, reader.behindEnding)
      else
        (.error (nest.unfinished reader.ending), reader.behindEnding)

def readAll (reader : TokenReader) : Except ReadError (List Value) × TokenReader :=
  readAllOver reader reader.ahead .top []

end TokenReader

end MiniLisp
