import MiniLisp.Text.Literal
import MiniLisp.Token.Lexer

/-!
Why source text cannot be read.  Some faults are only for want of more text: an
interactive session then waits for another line.
-/

namespace MiniLisp

/-- Why source text cannot be read. -/
inductive ReadFault where
  /-- A token cannot be read. -/
  | lexical (fault : Lexer.Fault)
  /-- A string literal cannot be decoded. -/
  | literal (fault : Literal.Fault)
  /-- An integer literal has no 64-bit value. -/
  | overflow (digits : Bytes)
  /-- The text ends where an expression must follow. -/
  | expectedExpression
  /-- The text ends inside a list. -/
  | unclosedList
  /-- A list is closed that was never opened. -/
  | unmatchedClose
  /-- A token stands where an expression must follow, and starts none. -/
  | unexpected (kind : Token.Kind)
  /-- A dot stands before the first item of a list. -/
  | leadingDot
  /-- A list is closed right after its dot. -/
  | missingTail
  /-- Something stands between the tail of a dotted list and its end. -/
  | afterTail
  /-- Lists and quotes nest too deeply. -/
  | tooDeep (limit : Int)
  /-- A token of another kind was asked for. -/
  | unexpectedKind (wanted found : Token.Kind)
  /-- The text is the beginning of an expression. -/
  | incompleteExpression
  /-- The text is not the beginning of any expression. -/
  | noExpression
deriving DecidableEq, Repr

namespace ReadFault

/-- What a token of a kind would have started, in words. -/
def wantedName : Token.Kind → Bytes
  | .int => utf8 "integer literal"
  | .string => utf8 "string literal"
  | .quote => utf8 "quote"
  | .openParen => utf8 "list"
  | _ => utf8 "symbol"

def message : ReadFault → Bytes
  | .lexical fault => fault.message
  | .literal fault => fault.message
  | .overflow digits => utf8 "integer literal overflows int64: " ++ digits
  | .expectedExpression => utf8 "expected an expression: unexpected end of input"
  | .unclosedList => utf8 "unmatched (: unexpected end of input"
  | .unmatchedClose => utf8 "unmatched )"
  | .unexpected kind => utf8 "unexpected " ++ kind.name
  | .leadingDot => utf8 "unexpected . at the beginning of a list"
  | .missingTail => utf8 "missing tail of a dotted list"
  | .afterTail => utf8 "expected ) following the tail of a dotted list"
  | .tooDeep limit => utf8 "maximum nesting depth exceeded (" ++ decimal limit ++ utf8 ")"
  | .unexpectedKind wanted found =>
      utf8 "invalid " ++ wantedName wanted ++ utf8 ": " ++ found.name
  | .incompleteExpression => utf8 "incomplete expression: unexpected EOF"
  | .noExpression => utf8 "syntax error"

/-- Whether more text could still remove the fault. -/
def isIncomplete : ReadFault → Bool
  | .lexical fault => fault.isIncomplete
  | .expectedExpression => true
  | .unclosedList => true
  | .incompleteExpression => true
  | _ => false

end ReadFault

/-- A fault and where it stands. -/
structure ReadError where
  fault : ReadFault
  source : Location
deriving DecidableEq, Repr

end MiniLisp
