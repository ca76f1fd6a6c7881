import MiniLisp.Symbol

/-!
Values.  Everything that the language can name, build or print is a `Value`;
programs are values too.
-/

namespace MiniLisp

/-- What kind of thing a value is. -/
inductive Value.Kind where
  | invalid
  | symbol
  | int
  | text
  | pair
  | primitive
  | closure
deriving DecidableEq, Repr, Inhabited

namespace Value.Kind

def ofNumber : Nat → Value.Kind
  | 1 => .symbol
  | 2 => .int
  | 3 => .text
  | 4 => .pair
  | 5 => .primitive
  | 6 => .closure
  | _ => .invalid

def name : Value.Kind → Bytes
  | .invalid => utf8 "invalid"
  | .symbol => utf8 "symbol"
  | .int => utf8 "int"
  | .text => utf8 "text"
  | .pair => utf8 "pair"
  | .primitive => utf8 "primitive"
  | .closure => utf8 "closure"

end Value.Kind

/-- How many arguments a function or special form takes. -/
structure Arity where
  least : Int
  /-- The largest number, if there is one. -/
  most : Option Nat
deriving DecidableEq, Repr, Inhabited

namespace Arity

def exactly (n : Nat) : Arity :=
  ⟨n, some n⟩

def atLeast (n : Nat) : Arity :=
  ⟨n, none⟩

def admits (arity : Arity) (n : Nat) : Bool :=
  arity.least ≤ n && arity.most.all (n ≤ ·)

/-- The number of arguments that is allowed, in words. -/
def describe (arity : Arity) : Bytes :=
  let arguments := if arity.least = 1 then utf8 " argument" else utf8 " arguments"
  match arity.most with
  | none => utf8 "at least " ++ decimal arity.least ++ arguments
  | some most =>
      if arity.least = most then decimal arity.least ++ arguments
      else decimal arity.least ++ utf8 " to " ++ decimal most ++ utf8 " arguments"

end Arity

/-- What a primitive computes from its arguments. -/
inductive Operation where
  | add
  | subtract
  | multiply
  | divide
  | all
  | any
  | not
  | equal
  | less
  | greater
  | first
  | rest
  | cons
  | list
  | isNull
  | isList
  | isSymbol
  | isNumber
  | print
deriving DecidableEq, Repr, Inhabited

/-- A function that the language provides. -/
structure Primitive where
  name : Bytes
  arity : Arity
  operation : Operation
deriving DecidableEq, Repr, Inhabited

inductive Value where
  | symbol (symbol : Symbol)
  | int (n : Int64)
  | text (content : Bytes)
  | pair (head tail : Value)
  | primitive (primitive : Primitive)
  /-- A function defined by a program: its parameters, the proper list of its
  body expressions, and the number of the environment it was defined in. -/
  | closure (name : Symbol) (parameters body : Value) (scope : Option Nat)
  /-- The value of an embedding program, which has a text of its own. -/
  | foreign (kind : Value.Kind) (label : Bytes)
  /-- No value at all.  Reading and evaluating source text never gives it. -/
  | absent
deriving DecidableEq, Repr, Inhabited

namespace Value

def empty : Value :=
  .symbol .empty

def truth : Value :=
  .symbol .truth

/-- The false value of predicates. -/
def zero : Value :=
  .int 0

def ofBool (holds : Bool) : Value :=
  if holds then truth else zero

/-- The kind of a value; no value has none. -/
def kind? : Value → Option Kind
  | .symbol _ => some .symbol
  | .int _ => some .int
  | .text _ => some .text
  | .pair _ _ => some .pair
  | .primitive _ => some .primitive
  | .closure _ _ _ _ => some .closure
  | .foreign kind _ => some kind
  | .absent => none

def isEmpty : Value → Bool
  | .symbol s => s == .empty
  | _ => false

theorem isEmpty_iff {value : Value} : value.isEmpty = true ↔ value = .empty := by
  cases value <;> simp [isEmpty, empty]

/-- Whether the value counts as true: everything but the empty list and the
integer zero. -/
def isTrue : Value → Bool
  | .symbol s => s != .empty
  | .int n => n != 0
  | _ => true

/-- Whether the value has no head and tail; unknown for no value. -/
def isAtom? (value : Value) : Option Bool :=
  value.kind?.map (· != .pair)

/-- Whether the value is the empty list or a pair; unknown for no value. -/
def isList? (value : Value) : Option Bool :=
  if value.isEmpty then some true else value.kind?.map (· == .pair)

/-- The expression that evaluates to `value`. -/
def quote (value : Value) : Value :=
  .pair (.symbol .quoteForm) (.pair value empty)

def functionName? : Value → Option Bytes
  | .primitive p => some p.name
  | .closure name _ _ _ => some name.name
  | _ => none

end Value

end MiniLisp
