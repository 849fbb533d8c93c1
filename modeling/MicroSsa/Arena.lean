import MicroSsa.Fault
/-!
# Generation-checked storage

An **arena** stores values in slots and hands out a **handle** for each value it stores: the
slot, and the slot's generation at the time. Removing a value leaves the slot vacant, one
generation on, and puts it on a free list; the next insertion fills the slot freed last, at the
generation the slot then has, or else appends a new slot at generation `0`. A handle reaches a
value only while its slot is occupied at the handle's generation, so a handle to a removed value
does not reach what is inserted into its slot afterwards, for as long as the generation, a
32-bit counter that wraps around, has not come back to it.

The store of the analysis does not use arenas: it names varnodes and operations by creation
number. The arena is kept here with its own functions.
-/

namespace MicroSsa

/-- A handle into an arena: the slot it names and the generation of the value it stands for.
Two handles are equal when both parts are. -/
structure Arena.Handle where
  index : UInt32
  generation : UInt32
  deriving DecidableEq, Repr, Inhabited

/-- A slot of an arena: a value with the generation of its handle, or vacant with the generation
the next value in the slot gets. -/
inductive Arena.Slot (α : Type) where
  | occupied (generation : UInt32) (value : α)
  | vacant (generation : UInt32)
  deriving DecidableEq, Repr

/-- Values in slots, the vacant slots to fill first (the last freed at the back), and the number
of values stored. -/
structure Arena (α : Type) where
  slots : Array (Arena.Slot α) := #[]
  free : Array UInt32 := #[]
  len : Nat := 0
  deriving DecidableEq, Repr

namespace Arena

variable {α : Type}

/-- Stores `value`, answering its handle: in the slot freed last, at the generation the slot has,
or else in a new slot at generation `0`, as long as the number of slots fits 32 bits. -/
def insert (a : Arena α) (value : α) : Except Fault (Handle × Arena α) :=
  match a.free.back? with
  | some index =>
    match a.slots[index.toNat]? with
    | some (.vacant generation) =>
      pure (⟨index, generation⟩,
        { slots := a.slots.set! index.toNat (.occupied generation value), free := a.free.pop
          len := a.len + 1 })
    | some (.occupied _ _) => throw .freeSlotOccupied
    | none => throw (.outOfBounds a.slots.size index.toNat)
  | none =>
    if a.slots.size < UInt32.size then
      pure (⟨a.slots.size.toUInt32, 0⟩,
        { slots := a.slots.push (.occupied 0 value), free := a.free, len := a.len + 1 })
    else throw .arenaExhausted

/-- Removes the value behind `h`, answering it if the handle was live: the slot becomes vacant
one generation on, wrapping around, and goes on the free list. A stale handle changes
nothing. -/
def remove (a : Arena α) (h : Handle) : Option α × Arena α :=
  match a.slots[h.index.toNat]? with
  | some (.occupied generation value) =>
    if generation = h.generation then
      (some value, { slots := a.slots.set! h.index.toNat (.vacant (generation + 1))
                     free := a.free.push h.index, len := a.len - 1 })
    else (none, a)
  | _ => (none, a)

/-- The value behind `h`, if its slot holds one at the handle's generation. -/
def get (a : Arena α) (h : Handle) : Option α :=
  match a.slots[h.index.toNat]? with
  | some (.occupied generation value) => if generation = h.generation then some value else none
  | _ => none

/-- Whether `h` reaches a value. -/
def contains (a : Arena α) (h : Handle) : Bool := (a.get h).isSome

/-- Whether the arena holds no value. -/
def isEmpty (a : Arena α) : Bool := a.len == 0

/-- The values stored, in slot order, each with its handle. -/
def entries (a : Arena α) : List (Handle × α) :=
  a.slots.toList.zipIdx.filterMap fun (s, i) =>
    match s with
    | .occupied generation value => some (⟨i.toUInt32, generation⟩, value)
    | .vacant _ => none

end Arena

end MicroSsa
