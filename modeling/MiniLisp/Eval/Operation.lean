import MiniLisp.Eval.Outcome
import MiniLisp.Value.Spine

/-!
The primitives.  A primitive checks the number of its arguments and then computes
its operation, which checks what kind of values they are.
-/

namespace MiniLisp

namespace Operation

/-- The integer that an argument must be. -/
def integer (callee : Bytes) : Value → Except Reason Int64
  | .int n => .ok n
  | value => .error (.notNumber callee value)

def integers (callee : Bytes) (arguments : List Value) : Except Reason (List Int64) :=
  arguments.mapM (integer callee)

/-- The difference of the first integer and the others; the negation of a single
one. -/
def difference : List Int64 → Option Int64
  | [] => none
  | [n] => some (-n)
  | minuend :: subtrahends => some (subtrahends.foldl (· - ·) minuend)

def divideBy (dividend : Except Reason Int64) (divisor : Int64) : Except Reason Int64 := do
  let dividend ← dividend
  if divisor = 0 then .error .divisionByZero else .ok (dividend / divisor)

/-- The first integer divided by the others in turn. -/
def quotient : List Int64 → Option (Except Reason Int64)
  | [] => none
  | dividend :: divisors => some (divisors.foldl divideBy (.ok dividend))

/-- Whether a relation holds between all neighbours. -/
def isChain (related : Int64 → Int64 → Bool) : List Int64 → Bool
  | m :: n :: others => related m n && isChain related (n :: others)
  | _ => true

/-- The largest piece that printing writes at once. -/
def pageSize : Nat :=
  4096

/-- Cut a text into at most `count` full pages and what is left of it. -/
def pages : (count : Nat) → Bytes → List Bytes
  | 0, text => [text]
  | count + 1, text =>
      if text.length ≤ pageSize then [text]
      else text.take pageSize :: pages count (text.drop pageSize)

def line (arguments : List Value) : Bytes :=
  joinWith (utf8 " ") (arguments.map Value.render) ++ utf8 "\n"

/-- Print arguments on a line, and give the first of them. -/
def printLine (arguments : List Value) (out : Sink) : Outcome × Sink :=
  let text := line arguments
  let tally := (Tally.on out).writeAll (pages (text.length / pageSize) text)
  if tally.failed then (.failed (.plain (utf8 "short write")), tally.sink)
  else (.value (arguments.head?.getD .empty), tally.sink)

def arithmetic (callee : Bytes) (arguments : List Value)
    (compute : List Int64 → Outcome) : Outcome :=
  match integers callee arguments with
  | .ok ns => compute ns
  | .error reason => .fail reason

def comparison (callee : Bytes) (arguments : List Value)
    (related : Int64 → Int64 → Bool) : Outcome :=
  arithmetic callee arguments fun ns => .value (.ofBool (isChain related ns))

def head (value : Value) : Except Reason Value :=
  match value with
  | .pair head _ => .ok head
  | value => .error (.notPair (utf8 "first") value)

def tail (value : Value) : Except Reason Value :=
  match value with
  | .pair _ tail => .ok tail
  | value => .error (.notPair (utf8 "rest") value)

/-- The answer of a predicate that asks for the kind of a value. -/
def answer : Option Bool → Outcome
  | some holds => .value (.ofBool holds)
  | none => .crashed

/-- Compute an operation that writes nothing.  Without the arguments that it needs
there is no outcome to give. -/
def compute : Operation → List Value → Outcome
  | .add, arguments =>
      arithmetic (utf8 "+") arguments fun ns => .value (.int (ns.foldl (· + ·) 0))
  | .subtract, arguments =>
      arithmetic (utf8 "-") arguments fun ns =>
        match difference ns with
        | some n => .value (.int n)
        | none => .crashed
  | .multiply, arguments =>
      arithmetic (utf8 "*") arguments fun ns => .value (.int (ns.foldl (· * ·) 1))
  | .divide, arguments =>
      arithmetic (utf8 "/") arguments fun ns =>
        match quotient ns with
        | some (.ok n) => .value (.int n)
        | some (.error reason) => .fail reason
        | none => .crashed
  | .all, arguments => .value (.ofBool (arguments.all Value.isTrue))
  | .any, arguments => .value (.ofBool (arguments.any Value.isTrue))
  | .not, value :: _ => .value (.ofBool (!value.isTrue))
  | .equal, arguments => comparison (utf8 "=") arguments (· == ·)
  | .less, arguments => comparison (utf8 "<") arguments (· < ·)
  | .greater, arguments => comparison (utf8 ">") arguments (· > ·)
  | .first, value :: _ => .ofExcept (head value)
  | .rest, value :: _ => .ofExcept (tail value)
  | .cons, head :: tail :: _ => .value (.pair head tail)
  | .list, arguments => .value (.ofList arguments)
  | .isNull, value :: _ => .value (.ofBool value.isEmpty)
  | .isList, value :: _ => answer value.isList?
  | .isSymbol, value :: _ => answer (value.kind?.map (· == .symbol))
  | .isNumber, value :: _ => answer (value.kind?.map (· == .int))
  | _, _ => .crashed

def run (operation : Operation) (arguments : List Value) (out : Sink) : Outcome × Sink :=
  match operation with
  | .print => printLine arguments out
  | operation => (operation.compute arguments, out)

end Operation

/-- The items of an argument list, if it is proper and of a length that the callee
takes. -/
def checkedArguments (callee : Bytes) (arity : Arity) (arguments : Value) :
    Except Reason (List Value) :=
  match arguments.toList? with
  | none => .error (.improperArguments callee)
  | some items =>
      if arity.admits items.length then .ok items
      else .error (.wrongCount callee arity items.length)

namespace Primitive

/-- The primitives of the language, in the order in which they are defined. -/
def builtins : List Primitive :=
  [⟨utf8 "+", .atLeast 0, .add⟩,
   ⟨utf8 "-", .atLeast 1, .subtract⟩,
   ⟨utf8 "*", .atLeast 0, .multiply⟩,
   ⟨utf8 "/", .atLeast 2, .divide⟩,
   ⟨utf8 "AND", .atLeast 0, .all⟩,
   ⟨utf8 "OR", .atLeast 0, .any⟩,
   ⟨utf8 "NOT", .exactly 1, .not⟩,
   ⟨utf8 "=", .atLeast 2, .equal⟩,
   ⟨utf8 "<", .atLeast 2, .less⟩,
   ⟨utf8 ">", .atLeast 2, .greater⟩,
   ⟨utf8 "FIRST", .exactly 1, .first⟩,
   ⟨utf8 "REST", .exactly 1, .rest⟩,
   ⟨utf8 "CONS", .exactly 2, .cons⟩,
   ⟨utf8 "LIST", .atLeast 0, .list⟩,
   ⟨utf8 "NULL?", .exactly 1, .isNull⟩,
   ⟨utf8 "LIST?", .exactly 1, .isList⟩,
   ⟨utf8 "SYMBOL?", .exactly 1, .isSymbol⟩,
   ⟨utf8 "NUMBER?", .exactly 1, .isNumber⟩,
   ⟨utf8 "PRINT", .atLeast 0, .print⟩]

/-- The built-in primitive with a name, else one of that name that lists its
arguments. -/
def named (name : Bytes) : Primitive :=
  (builtins.find? (·.name == name)).getD ⟨name, .atLeast 0, .list⟩

def call (primitive : Primitive) (arguments : Value) (out : Sink) : Outcome × Sink :=
  match checkedArguments primitive.name primitive.arity arguments with
  | .ok items => primitive.operation.run items out
  | .error reason => (.fail reason, out)

end Primitive

end MiniLisp
