import MiniLisp.Value

/-!
Lists.  A chain of pairs has a spine: the heads of its pairs in order, and the
value after the last pair.  A list is proper when that value is the empty list.
-/

namespace MiniLisp

namespace Value

/-- A chain of pairs with the given heads in front of `tail`. -/
def ofSpine (items : List Value) (tail : Value) : Value :=
  items.foldr .pair tail

def ofList (items : List Value) : Value :=
  ofSpine items empty

/-- The heads of a chain behind `found` (latest first), and the value after it. -/
def spineOnto (found : List Value) : Value → List Value × Value
  | .pair head tail => spineOnto (head :: found) tail
  | ending => (found.reverse, ending)

/-- The heads of the pairs of a chain, and the value after its last pair. -/
def spine (value : Value) : List Value × Value :=
  spineOnto [] value

/-- The items of a proper list. -/
def toList? (value : Value) : Option (List Value) :=
  let (items, ending) := value.spine
  if ending.isEmpty then some items else none

/-- The number of pairs in a chain, added to `count`. -/
def lengthFrom (count : Nat) : Value → Nat
  | .pair _ tail => lengthFrom (count + 1) tail
  | _ => count

def length (value : Value) : Nat :=
  lengthFrom 0 value

end Value

/-- A pair of a list that is being built. -/
structure ListBuilder.Cell where
  head : Value
  /-- The place of the pair that follows, if there is one yet. -/
  next : Option Nat
deriving DecidableEq, Repr, Inhabited

/-- The pairs that follow others were made after them. -/
def ListBuilder.Forward (cells : Array ListBuilder.Cell) : Prop :=
  ∀ place next : Nat, cells[place]?.bind Cell.next = some next → place < next

namespace ListBuilder.Forward

theorem empty : Forward #[] := by
  simp [Forward]

/-- A pair that nothing follows may be added. -/
theorem push {cells : Array Cell} (hforward : Forward cells) (head : Value) :
    Forward (cells.push ⟨head, none⟩) := by
  intro place next hnext
  rw [Array.getElem?_push] at hnext
  split at hnext
  · cases hnext
  · exact hforward place next hnext

/-- Any pair may be followed by one that is still to be made. -/
theorem link {cells : Array Cell} (hforward : Forward cells) (last : Nat) :
    Forward (cells.modify last fun cell => { cell with next := some cells.size }) := by
  intro place next hnext
  rw [Array.getElem?_modify] at hnext
  split at hnext
  · rw [Option.bind_map] at hnext
    obtain ⟨cell, hcell, hsize⟩ := Option.bind_eq_some_iff.mp hnext
    cases hsize
    exact (Array.getElem?_eq_some_iff.mp hcell).1
  · exact hforward place next hnext

end ListBuilder.Forward

/-- A proper list that grows at its end: its last pair is made to be followed by a new
one. -/
structure ListBuilder where
  /-- The pairs in the order in which they were made. -/
  cells : Array ListBuilder.Cell
  /-- The place of the first pair. -/
  front : Option Nat
  /-- The place of the last pair. -/
  back : Option Nat
  forward : ListBuilder.Forward cells
deriving DecidableEq, Repr

namespace ListBuilder

def empty : ListBuilder :=
  ⟨#[], none, none, .empty⟩

def add (builder : ListBuilder) (item : Value) : ListBuilder :=
  let made := builder.cells.size
  match builder.back with
  | none => ⟨builder.cells.push ⟨item, none⟩, some made, some made, builder.forward.push item⟩
  | some last =>
      ⟨(builder.cells.modify last fun cell => { cell with next := some made }).push ⟨item, none⟩,
        builder.front, some made, (builder.forward.link last).push item⟩

def append (builder : ListBuilder) (items : List Value) : ListBuilder :=
  items.foldl add builder

/-- Fewer pairs were made from a following pair on. -/
theorem size_sub_lt {builder : ListBuilder} {place next : Nat} {cell : Cell}
    (hcell : builder.cells[place]? = some cell) (hnext : cell.next = some next) :
    builder.cells.size - next < builder.cells.size - place := by
  have hplace := (Array.getElem?_eq_some_iff.mp hcell).1
  have hlater := builder.forward place next (by rw [hcell]; exact hnext)
  omega

/-- The list from the pair at a place on. -/
def listFrom (builder : ListBuilder) (place : Nat) : Value :=
  match hcell : builder.cells[place]? with
  | none => Value.empty
  | some cell =>
      match hnext : cell.next with
      | none => .pair cell.head Value.empty
      | some next =>
          have := size_sub_lt hcell hnext
          .pair cell.head (builder.listFrom next)
termination_by builder.cells.size - place

def list (builder : ListBuilder) : Value :=
  match builder.front with
  | none => Value.empty
  | some first => builder.listFrom first

end ListBuilder

/-- A walk along a list. -/
structure ListIterator where
  /-- The current item, if there is one. -/
  value : Value
  /-- What follows the current item. -/
  rest : Value
  /-- Where an improper list ended. -/
  fault : Option Value
deriving DecidableEq, Repr, Inhabited

namespace ListIterator

/-- A walk that is about to take the first item. -/
def ofValue (list : Value) : ListIterator :=
  ⟨.absent, list, none⟩

/-- Step to the next item, and tell whether there is one. -/
def next (it : ListIterator) : Bool × ListIterator :=
  match it.fault, it.rest with
  | some _, _ => (false, it)
  | none, .pair head tail => (true, ⟨head, tail, none⟩)
  | none, ending =>
      (false, ⟨.absent, ending, if ending.isEmpty then none else some ending⟩)

end ListIterator

end MiniLisp
