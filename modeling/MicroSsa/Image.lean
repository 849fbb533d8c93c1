import MicroSsa.Space
/-!
# Memory images

The **image** is the bytes of the analysed binary: regions of one address space, each code,
read-only data or writable data, kept in order of their start (regions with one start keep the
order they were added in). A region's bytes are listed one by one, or are a run of zeros of a
given length, which costs no room however long it is. A query at an address is served by the first region that holds all
its bytes (at least one byte, even for an empty read).

* `Image.readBytes` gives exactly the bytes asked for, or the error that they are not backed;
* `Image.readValue` reads an unsigned number of at most eight bytes in a byte order;
* `Image.isCode` and `Image.isReadOnly` classify the region that holds an address.

Offsets are 64-bit words; a region's end is its start plus its length, wrapping.
-/

namespace MicroSsa

/-- What a region holds. -/
inductive RegionKind where
  | code | readOnly | data
  deriving DecidableEq, Repr, Inhabited

/-- The bytes of a region: listed one by one, or a run of zeros of some length. -/
inductive Contents where
  | listed (bs : Array UInt8)
  | zeros (len : Nat)
  deriving Repr, Inhabited

/-- The number of bytes. -/
def Contents.length : Contents → Nat
  | .listed bs => bs.size
  | .zeros len => len

/-- The bytes from index `i` up to, not including, index `j`, within the contents. -/
def Contents.extract (c : Contents) (i j : Nat) : Array UInt8 :=
  match c with
  | .listed bs => bs.extract i j
  | .zeros len => Array.replicate (min j len - i) 0

/-- A run of bytes at a start offset. -/
structure Region where
  start : UInt64
  contents : Contents
  kind : RegionKind
  deriving Repr, Inhabited

/-- Whether the `size` bytes at `offset` lie inside the region. -/
def Region.holds (r : Region) (offset : UInt64) (size : Nat) : Bool :=
  r.start.toNat ≤ offset.toNat && offset.toNat + size < Nat.pow 2 64 &&
    offset.toNat + size ≤ (r.start + UInt64.ofNat r.contents.length).toNat

/-- A named address of the image, and its size in bytes (`0` when unknown). -/
structure Symbol where
  name : String
  addr : Address
  size : UInt64
  deriving Repr, Inhabited

/-- A failed read: `size` bytes at `addr` are not all inside one region. -/
structure ImageError where
  addr : Address
  size : Nat
  deriving DecidableEq, Repr

/-- The text of a failed read. -/
def ImageError.message (e : ImageError) : String :=
  toString e.size ++ " byte(s) at " ++ e.addr.render ++ " are not backed by the image"

/-- The regions and symbols of one address space. -/
structure Image where
  space : Nat
  regions : Array Region := #[]
  symbols : Array Symbol := #[]
  deriving Repr, Inhabited

namespace Image

/-- Adds a region, keeping regions in order of their start. -/
def addRegion (img : Image) (r : Region) : Image :=
  let sorted := (img.regions.push r).toList.mergeSort (fun a b => a.start.toNat ≤ b.start.toNat)
  { img with regions := sorted.toArray }

/-- Adds a symbol at an offset of the image's space. -/
def addSymbol (img : Image) (name : String) (offset size : UInt64) : Image :=
  { img with symbols := img.symbols.push ⟨name, ⟨img.space, offset⟩, size⟩ }

/-- The first region holding the `size` bytes at `addr` (at least one byte). -/
def region? (img : Image) (addr : Address) (size : Nat) : Option Region :=
  if addr.space = img.space then img.regions.find? (·.holds addr.offset (max size 1))
  else none

/-- The `size` bytes at `addr`. -/
def readBytes (img : Image) (addr : Address) (size : Nat) : Except ImageError (Array UInt8) :=
  match img.region? addr size with
  | some r =>
    let start := (addr.offset - r.start).toNat
    .ok (r.contents.extract start (start + size))
  | none => .error ⟨addr, size⟩

/-- Bytes read as an unsigned number, most significant byte first. -/
def bigEndianValue (bs : List UInt8) : UInt64 :=
  bs.foldl (fun acc b => (acc <<< 8) ||| b.toUInt64) 0

/-- The unsigned number of `size` bytes at `addr` in a byte order; more than eight bytes is a
failed read. -/
def readValue (img : Image) (addr : Address) (size : Nat) (endian : Endian) :
    Except ImageError UInt64 := do
  let bs ← img.readBytes addr size
  if 8 < size then throw ⟨addr, size⟩
  match endian with
  | .big => pure (bigEndianValue bs.toList)
  | .little => pure (bigEndianValue bs.toList.reverse)

/-- Whether `addr` lies in a code region. -/
def isCode (img : Image) (addr : Address) : Bool :=
  match img.region? addr 1 with
  | some r => r.kind == .code
  | none => false

/-- Whether the `size` bytes at `addr` lie in a region that is never written. -/
def isReadOnly (img : Image) (addr : Address) (size : Nat) : Bool :=
  match img.region? addr size with
  | some r => r.kind != .data
  | none => false

end Image

end MicroSsa

namespace MicroSsa

namespace Image

/-- A question put to an image. -/
inductive Query where
  | isCode (addr : Address)
  | isReadOnly (addr : Address) (size : Nat)
  | readBytes (addr : Address) (size : Nat)
  | readValue (addr : Address) (size : Nat) (endian : Endian)
  deriving Repr

/-- The answer to a question put to an image. -/
inductive Answer where
  | flag (b : Bool)
  | bytes (bs : Array UInt8)
  | value (v : UInt64)
  | failed (e : ImageError)
  deriving Repr

/-- Answers one question. -/
def answer (img : Image) : Query → Answer
  | .isCode a => .flag (img.isCode a)
  | .isReadOnly a n => .flag (img.isReadOnly a n)
  | .readBytes a n =>
    match img.readBytes a n with
    | .ok bs => .bytes bs
    | .error e => .failed e
  | .readValue a n en =>
    match img.readValue a n en with
    | .ok v => .value v
    | .error e => .failed e

end Image

end MicroSsa
