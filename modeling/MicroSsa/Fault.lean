import MicroSsa.Text.Printable
/-!
# Faults

A **fault** is a broken contract inside the analysis: a request that no caller of the library
may make, such as binding a constant as the output of an operation. A fault stops the whole
computation; the answer then carries `Fault.message`, the first words of the fault's text,
cut before any detail that names internal handles.
-/

namespace MicroSsa

/-- The broken contracts the analysis can meet. -/
inductive Fault where
  /-- A space table with more than 255 spaces. -/
  | tooManySpaces
  /-- Binding as an output a location that is already defined, an input or a constant. -/
  | binding
  /-- Using an operation or location that no longer exists. -/
  | stale
  /-- Setting an input slot past the end of an operation's inputs. -/
  | slotPastEnd (slot len : Nat)
  /-- Inserting an input past the end of an operation's inputs. -/
  | insertPastEnd
  /-- Removing an input slot an operation does not have. -/
  | removePastEnd
  /-- Making a location that is not free into an input. -/
  | notFree
  /-- Allocating a temporary where no space holds temporaries. -/
  | noTemporarySpace
  /-- A location range whose start lies after its end. -/
  | reversedRange
  /-- Destroying an operation that is still inside a block. -/
  | destroyInBlock
  /-- Two operations with one sequence number, given as text. -/
  | duplicateSeq (seq : String)
  /-- Placing an operation into a block while it sits in another. -/
  | alreadyPlaced
  /-- An index past the end of a table of `len` entries. -/
  | outOfBounds (len index : Nat)
  /-- Room asked for more entries than any table can have. -/
  | capacityOverflow
  /-- A slice of listing text whose start (or, with `atEnd`, whose end) splits the character
  `c`. -/
  | charBoundary (atEnd : Bool) (index : Nat) (c : Char)
  /-- An arena whose slot count no longer fits 32 bits. -/
  | arenaExhausted
  /-- An arena whose free list names a slot that holds a value. -/
  | freeSlotOccupied
  deriving DecidableEq, Repr

/-- The text of a fault, up to the first detail that names internal handles. -/
def Fault.message : Fault → String
  | .tooManySpaces => "Too many address spaces"
  | .binding => "Binding"
  | .stale => "Stale or foreign handle"
  | .slotPastEnd slot len =>
      "Input slot " ++ toString slot ++ " past end of " ++ toString len ++ " inputs"
  | .insertPastEnd => "insertion index"
  | .removePastEnd => "removal index"
  | .notFree => "Only a free varnode can become an input"
  | .noTemporarySpace => "Architecture without a unique space cannot allocate temporaries"
  | .reversedRange => "range start is greater than range end"
  | .destroyInBlock => "Destroying"
  | .duplicateSeq seq => "Duplicate sequence number " ++ seq
  | .alreadyPlaced => "Inserting"
  | .capacityOverflow => "capacity overflow"
  | .outOfBounds len index =>
      "index out of bounds: the len is " ++ toString len ++ " but the index is " ++ toString index
  | .charBoundary atEnd index c =>
      (if atEnd then "end" else "start") ++ " byte index " ++ toString index ++
        " is not a char boundary; it is inside " ++ Text.quotedChar c
  | .arenaExhausted => "Arena exhausted: TryFromIntError"
  | .freeSlotOccupied => "internal error: entered unreachable code: Free list points at an occupied slot"

end MicroSsa
