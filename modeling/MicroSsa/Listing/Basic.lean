import MicroSsa.Image
import MicroSsa.Opcode
/-!
# Listings

A **listing** describes a target and the code to analyse: the architecture (its address spaces,
the space holding code, the stack pointer and link register), a memory image with its symbols,
and for each instruction address the micro-operations it stands for.

The **decoder** answers, for an address, the instruction listed there last: its length and its
operations, or that it is listed as unimplemented, or that nothing is listed.
-/

namespace MicroSsa

/-- What the analysis needs to know about the target processor. -/
structure Arch where
  spaces : SpaceTable
  /-- The space holding instructions. -/
  codeSpace : Nat
  /-- The stack pointer register. -/
  sp : Location
  /-- The link register, on targets that have one. -/
  lr : Option Location
  deriving Repr, Inhabited

/-- The byte order of the code space, in which tables are read out of the image. -/
def Arch.endian (a : Arch) : Endian := a.spaces.endianOf a.codeSpace

/-- One micro-operation as a listing gives it. -/
structure ListedOp where
  opcode : Opcode
  output : Option Location
  inputs : List Location
  deriving Repr, Inhabited

/-- A listed instruction: its length in bytes and its operations, or the mark that its meaning is
unknown. -/
structure Instruction where
  len : Nat
  ops : List ListedOp
  unimplemented : Bool
  deriving Repr, Inhabited

/-- What decoding an address gives. -/
inductive Decoded where
  | instruction (len : Nat) (ops : List ListedOp)
  | unimplemented
  | nothing
  deriving Repr

/-- The listed instructions by address; a later entry for an address replaces the earlier. -/
structure Decoder where
  entries : List (Address × Instruction) := []
  deriving Repr, Inhabited

namespace Decoder

/-- Lists an instruction at an address, replacing what was listed there. -/
def add (d : Decoder) (a : Address) (i : Instruction) : Decoder :=
  { entries := (d.entries.filter fun e => e.1 != a) ++ [(a, i)] }

/-- Decodes the instruction at an address. -/
def decode (d : Decoder) (a : Address) : Decoded :=
  match d.entries.find? (·.1 == a) with
  | some (_, i) => if i.unimplemented then .unimplemented else .instruction i.len i.ops
  | none => .nothing

/-- The number of listed operations, over all instructions. -/
def opCount (d : Decoder) : Nat :=
  d.entries.foldl (fun n e => n + e.2.ops.length) 0

end Decoder

/-- Everything a listing gives. -/
structure Listing where
  name : String
  arch : Arch
  image : Image
  decoder : Decoder
  deriving Repr, Inhabited

end MicroSsa
