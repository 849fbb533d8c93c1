import MicroSsa.Word
import MicroSsa.Fault
/-!
# Address spaces, addresses and locations

An architecture names its **address spaces**: main memory, registers, decoder temporaries and
the space of constants, whose offsets are the constants themselves. A space is known by its
index in the `SpaceTable`. An `Address` is a space and a 64-bit offset; a `Location` adds a byte
size and is what an operation reads or writes; a `SeqNum` places an operation in program order.

Addresses order by space, then offset; sequence numbers by address, then counter.
-/

namespace MicroSsa

/-- The role a space plays. Only values outside the constant space take part in renaming. -/
inductive SpaceKind where
  | constant | processor | register | unique
  deriving DecidableEq, Repr, Inhabited

/-- Byte order. -/
inductive Endian where
  | big | little
  deriving DecidableEq, Repr, Inhabited

/-- One address space of an architecture. -/
structure AddressSpace where
  name : String
  kind : SpaceKind
  endian : Endian
  /-- Size in bytes of a pointer into the space. -/
  pointerSize : Nat
  deriving Repr, Inhabited

/-- The spaces of an architecture, in their listed order, with the index of the constant
space. -/
structure SpaceTable where
  spaces : Array AddressSpace
  constant : Nat
  deriving Repr, Inhabited

namespace SpaceTable

/-- The space table of a list of spaces. A space `const` of constant kind is appended when no
space has that kind; it takes the first space's byte order (little if there is none). More than
255 spaces are a fault. The constant space is the first of constant kind. -/
def build (listed : Array AddressSpace) : Except Fault SpaceTable :=
  let spaces :=
    if listed.any (fun s => s.kind == .constant) then listed
    else
      let endian := (listed[0]?.map (·.endian)).getD .little
      listed.push { name := "const", kind := .constant, endian := endian, pointerSize := 8 }
  if spaces.size ≤ 255 then
    .ok { spaces := spaces, constant := (spaces.findIdx? (fun s => s.kind == .constant)).getD 0 }
  else .error .tooManySpaces

/-- The space at an index. -/
def get? (t : SpaceTable) (i : Nat) : Option AddressSpace :=
  t.spaces[i]?

/-- The index of the space with this name; when two spaces share a name the later one is
meant. -/
def byName? (t : SpaceTable) (name : String) : Option Nat :=
  (t.spaces.toList.zipIdx.filter (fun p => p.1.name == name)).getLast?.map (·.2)

/-- The index of the first space of a kind. -/
def firstOfKind? (t : SpaceTable) (k : SpaceKind) : Option Nat :=
  t.spaces.findIdx? (fun s => s.kind == k)

/-- Whether the space at an index holds registers. -/
def isRegister (t : SpaceTable) (i : Nat) : Bool :=
  match t.get? i with
  | some s => s.kind == .register
  | none => false

/-- The byte order of the space at an index (little when there is no such space). -/
def endianOf (t : SpaceTable) (i : Nat) : Endian :=
  ((t.get? i).map (·.endian)).getD .little

end SpaceTable

/-- A space index and an offset into that space. -/
structure Address where
  space : Nat
  offset : UInt64
  deriving DecidableEq, Repr, Inhabited, Hashable

namespace Address

/-- Addresses order by space, then by offset. -/
protected def compare (a b : Address) : Ordering :=
  (Ord.compare a.space b.space).then (Ord.compare a.offset.toNat b.offset.toNat)

instance : Ord Address := ⟨Address.compare⟩
instance : LT Address := ⟨fun a b => Address.compare a b = .lt⟩
instance : LE Address := ⟨fun a b => Address.compare a b ≠ .gt⟩
instance (a b : Address) : Decidable (a < b) := inferInstanceAs (Decidable (_ = _))
instance (a b : Address) : Decidable (a ≤ b) := inferInstanceAs (Decidable (_ ≠ _))

/-- The address `delta` bytes further on in the same space; offsets wrap. -/
def add (a : Address) (delta : UInt64) : Address :=
  { a with offset := a.offset + delta }

/-- The text of an address: `as`, the space index, `:` and the offset in hexadecimal. -/
def render (a : Address) : String :=
  "as" ++ toString a.space ++ ":" ++ Word.hex a.offset

end Address

/-- The position of an operation in program order: the address of its instruction, and a
counter that tells apart the operations of one function. -/
structure SeqNum where
  addr : Address
  uniq : Nat
  deriving DecidableEq, Repr, Inhabited

namespace SeqNum

/-- Sequence numbers order by address, then by counter. -/
protected def compare (a b : SeqNum) : Ordering :=
  (Address.compare a.addr b.addr).then (Ord.compare a.uniq b.uniq)

instance : Ord SeqNum := ⟨SeqNum.compare⟩
instance : LT SeqNum := ⟨fun a b => SeqNum.compare a b = .lt⟩
instance : LE SeqNum := ⟨fun a b => SeqNum.compare a b ≠ .gt⟩
instance (a b : SeqNum) : Decidable (a < b) := inferInstanceAs (Decidable (_ = _))
instance (a b : SeqNum) : Decidable (a ≤ b) := inferInstanceAs (Decidable (_ ≠ _))

/-- The text of a sequence number: its address, a dot and its counter. -/
def render (s : SeqNum) : String :=
  s.addr.render ++ "." ++ toString s.uniq

end SeqNum

/-- A sized location: `size` bytes at an address. -/
structure Location where
  addr : Address
  size : Nat
  deriving DecidableEq, Repr, Inhabited

/-- The text of a location: its address, a colon and its size in decimal. -/
def Location.render (l : Location) : String :=
  l.addr.render ++ ":" ++ toString l.size

end MicroSsa
