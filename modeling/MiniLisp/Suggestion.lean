import MiniLisp.Env
import MiniLisp.Text.Blank

/-!
Suggestions complete the symbol under the cursor with the names that an environment
binds.
-/

namespace MiniLisp

namespace Suggestion

/-- A character that can be part of a typed symbol. -/
def isSymbolChar (c : Char) : Bool :=
  !(c == '(' || c == ')' || c == '\'' || c == '"' || c == ';' || isBlank c)

/-- The part of a symbol that is typed before the cursor. -/
def typed (before : List Char) : List Char :=
  (before.reverse.takeWhile isSymbolChar).reverse

/-- What completes an upper-case beginning to a longer name. -/
def suffix? (start name : Bytes) : Option Bytes :=
  if start.length < name.length && start.isPrefixOf name then some (name.drop start.length)
  else none

/-- What completes a beginning to each of the bound names, in the case of the
beginning: lower case if it is all in lower case. -/
def suffixes (env : Env) (start : Bytes) : List Bytes :=
  let found := env.symbols.filterMap fun symbol => suffix? (upcase start) symbol.name
  if start == downcase start then found.map downcase else found

end Suggestion

/-- The suffixes that complete the symbol before the cursor, and how many characters
of it are typed.  There is no answer for a cursor beyond the line. -/
def suggest? (env : Env) (line : List Char) (cursor : Nat) : Option (List Bytes × Nat) :=
  if line.length < cursor then none
  else
    match Suggestion.typed (line.take cursor) with
    | [] => some ([], 0)
    | typed =>
        let start := typed.flatMap String.utf8EncodeChar
        some (Suggestion.suffixes env start, typed.length)

end MiniLisp
