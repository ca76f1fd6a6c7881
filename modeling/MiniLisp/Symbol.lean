import MiniLisp.Text.LetterCase

/-!
Symbols.  Names are case-insensitive: interning a name puts it in upper case, and
two symbols are the same when their names are.
-/

namespace MiniLisp

/-- A symbol, identified by its name. -/
structure Symbol where
  name : Bytes
deriving DecidableEq, Repr, Inhabited

namespace Symbol

/-- The symbol that a name denotes in any case. -/
def intern (name : Bytes) : Symbol :=
  ⟨upcase name⟩

/-- The empty list, which is also the canonical false value. -/
def empty : Symbol :=
  ⟨utf8 "NIL"⟩

def truth : Symbol :=
  ⟨utf8 "T"⟩

def ifForm : Symbol :=
  ⟨utf8 "IF"⟩

def defineForm : Symbol :=
  ⟨utf8 "DEFINE"⟩

def defunForm : Symbol :=
  ⟨utf8 "DEFUN"⟩

def quoteForm : Symbol :=
  ⟨utf8 "QUOTE"⟩

/-- The symbols that always denote themselves and cannot be bound. -/
def isConstant (symbol : Symbol) : Bool :=
  symbol == empty || symbol == truth

end Symbol

end MiniLisp
