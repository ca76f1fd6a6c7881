import MiniLisp.Text.Bytes

/-!
Integers as flags take them: a sign, a base in front (`0x`, `0o`, `0b`, or a leading
zero for octal) and underscores between digits.
-/

namespace MiniLisp

namespace Number

/-- Why a text is no integer. -/
inductive Fault where
  | malformed
  | outOfRange
deriving DecidableEq, Repr

def Fault.message : Fault → Bytes
  | .malformed => utf8 "invalid syntax"
  | .outOfRange => utf8 "value out of range"

def lower (byte : UInt8) : UInt8 :=
  byte ||| 0x20

/-- The value of a digit in any base up to 36. -/
def digit? (byte : UInt8) : Option Nat :=
  if 48 ≤ byte ∧ byte ≤ 57 then some (byte.toNat - 48)
  else if 97 ≤ lower byte ∧ lower byte ≤ 122 then some ((lower byte).toNat - 87)
  else none

/-- Append a digit to a number; an underscore leaves it as it is. -/
def extend (base : Nat) (n : Nat) (byte : UInt8) : Except Fault Nat :=
  if byte = 95 then .ok n
  else
    match digit? byte with
    | none => .error .malformed
    | some d =>
        if base ≤ d then .error .malformed
        else if UInt64.size ≤ n * base + d then .error .outOfRange
        else .ok (n * base + d)

/-- The base that a text is in, and its digits. -/
def baseOf : Bytes → Nat × Bytes
  | 48 :: mark :: d :: digits =>
      if lower mark = 98 then (2, d :: digits)
      else if lower mark = 111 then (8, d :: digits)
      else if lower mark = 120 then (16, d :: digits)
      else (8, mark :: d :: digits)
  | 48 :: digits => (8, digits)
  | digits => (10, digits)

/-- Whether every underscore stands between two digits, where `afterDigit` says that a
digit stands before the text. -/
def underscoresFit : (afterDigit : Bool) → Bytes → Bool
  | _, [] => true
  | afterDigit, 95 :: rest =>
      afterDigit && !rest.isEmpty && rest.head? != some 95 && underscoresFit false rest
  | _, _ :: rest => underscoresFit true rest

def readUnsigned (text : Bytes) : Except Fault Nat :=
  if text.isEmpty then .error .malformed
  else do
    let (base, digits) := baseOf text
    let n ← digits.foldlM (extend base) 0
    if underscoresFit (text.head? == some 48) digits then .ok n else .error .malformed

/-- A magnitude with a sign, if it is a signed 64-bit integer. -/
def withSign (negative : Bool) : Except Fault Nat → Except Fault Int
  | .error fault => .error fault
  | .ok n =>
      if negative then if n ≤ UInt64.size / 2 then .ok (-(n : Int)) else .error .outOfRange
      else if n < UInt64.size / 2 then .ok n
      else .error .outOfRange

/-- Read a signed 64-bit integer. -/
def read : Bytes → Except Fault Int
  | 45 :: rest => withSign true (readUnsigned rest)
  | 43 :: rest => withSign false (readUnsigned rest)
  | text => withSign false (readUnsigned text)

end Number

end MiniLisp
