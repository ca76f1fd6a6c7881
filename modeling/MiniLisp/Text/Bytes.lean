/-!
Byte strings.  Program text, symbol names and messages are sequences of bytes
that need not be valid UTF-8, so they are lists of bytes rather than strings.
-/

namespace MiniLisp

abbrev Bytes := List UInt8

/-- The bytes of a text that the program itself writes. -/
def utf8 (text : String) : Bytes :=
  text.toUTF8.data.toList

def decimalNat (n : Nat) : Bytes :=
  (Nat.toDigits 10 n).map fun digit => UInt8.ofNat digit.toNat

/-- An integer in decimal, with a minus sign below zero. -/
def decimal (n : Int) : Bytes :=
  if n < 0 then utf8 "-" ++ decimalNat n.natAbs else decimalNat n.natAbs

def digitValue? (byte : UInt8) : Option Nat :=
  if 48 ≤ byte ∧ byte ≤ 57 then some (byte.toNat - 48) else none

/-- Append one more decimal digit to a number read so far. -/
def readDigit (value : Option Nat) (byte : UInt8) : Option Nat := do
  return 10 * (← value) + (← digitValue? byte)

/-- The number that a non-empty run of decimal digits denotes. -/
def readNat? (text : Bytes) : Option Nat :=
  if text.isEmpty then none else text.foldl readDigit (some 0)

/-- The integer that decimal digits denote, after an optional sign. -/
def readInt? : Bytes → Option Int
  | 45 :: digits => (readNat? digits).map fun n => -(n : Int)
  | 43 :: digits => (readNat? digits).map fun n => (n : Int)
  | digits => (readNat? digits).map fun n => (n : Int)

/-- The integer that decimal digits denote, if it is a signed 64-bit one. -/
def readInt64? (text : Bytes) : Option Int64 := do
  let n ← readInt? text
  if -9223372036854775808 ≤ n ∧ n ≤ 9223372036854775807 then
    return Int64.ofInt n
  else
    none

def joinWith (separator : Bytes) (parts : List Bytes) : Bytes :=
  (parts.intersperse separator).flatten

end MiniLisp
