import MiniLisp.Symbol

/-!
Interning.  A table keeps one instance for every key: it is made when the key is first
used and never replaced.  The instances of symbols, integers and texts are numbered as
they are made, so that two are the same exactly when their numbers are.
-/

namespace MiniLisp

/-- The instances made so far, latest first. -/
structure Table (κ ν : Type) where
  entries : List (κ × ν)
deriving Repr

namespace Table

variable {κ ν σ : Type}

def empty : Table κ ν :=
  ⟨[]⟩

/-- The instance of a key, if it was made already. -/
def find? [DecidableEq κ] (table : Table κ ν) (key : κ) : Option ν :=
  (table.entries.find? fun entry => entry.1 = key).map Prod.snd

/-- The instance of a key.  It is made by `make`, which has a state of its own, when
the key is first used. -/
def intern [DecidableEq κ] (make : κ → σ → ν × σ) (key : κ) (table : Table κ ν)
    (state : σ) : ν × Table κ ν × σ :=
  match table.find? key with
  | some found => (found, table, state)
  | none =>
      let (made, state) := make key state
      (made, ⟨(key, made) :: table.entries⟩, state)

end Table

def numberInstance {κ : Type} (_ : κ) (made : Nat) : Nat × Nat :=
  (made, made + 1)

/-- The interned symbols, integers and texts. -/
structure Atoms where
  symbols : Table Bytes Nat
  ints : Table Int64 Nat
  texts : Table Bytes Nat
  /-- The instances of small integers, from the smallest on. -/
  smallInts : Array Nat
  /-- The number of instances made so far. -/
  made : Nat
deriving Repr

namespace Atoms

def smallMin : Int :=
  -128

def smallMax : Int :=
  1024

/-- The instance of an integer in the table. -/
def tableInt (atoms : Atoms) (n : Int64) : Nat × Atoms :=
  let (found, ints, made) := atoms.ints.intern numberInstance n atoms.made
  (found, { atoms with ints := ints, made := made })

def addSmall (atoms : Atoms) (offset : Nat) : Atoms :=
  let (found, atoms) := atoms.tableInt (Int64.ofInt (smallMin + offset))
  { atoms with smallInts := atoms.smallInts.push found }

/-- Only the small integers are interned. -/
def initial : Atoms :=
  (List.range (smallMax - smallMin + 1).toNat).foldl addSmall
    ⟨.empty, .empty, .empty, #[], 0⟩

/-- The instance of an integer.  Small integers are found without the table. -/
def int (atoms : Atoms) (n : Int64) : Nat × Atoms :=
  if smallMin ≤ n.toInt ∧ n.toInt ≤ smallMax then
    match atoms.smallInts[(n.toInt - smallMin).toNat]? with
    | some found => (found, atoms)
    | none => atoms.tableInt n
  else
    atoms.tableInt n

/-- The instance of the symbol that a name denotes in any case. -/
def symbol (atoms : Atoms) (name : Bytes) : Nat × Atoms :=
  let (found, symbols, made) :=
    atoms.symbols.intern numberInstance (Symbol.intern name).name atoms.made
  (found, { atoms with symbols := symbols, made := made })

def text (atoms : Atoms) (content : Bytes) : Nat × Atoms :=
  let (found, texts, made) := atoms.texts.intern numberInstance content atoms.made
  (found, { atoms with texts := texts, made := made })

end Atoms

end MiniLisp
