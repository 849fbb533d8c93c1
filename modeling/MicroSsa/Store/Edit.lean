import MicroSsa.Store.Basic
/-!
# Changing the operation store

Every change of the def-use links goes through these functions, so that a varnode's uses always
match the input slots that read it:

* `setInput` places a varnode into a slot (one past the end grows the inputs) and releases the
  varnode it replaces; `insertInput` shifts later inputs up; `removeInput` shifts them down;
* `setOutput` binds a varnode that has no definition and is neither an input nor a constant;
  `unsetOutput` frees it again;
* `deleteVarnode` refuses a varnode that is still read or written;
* `destroyOp` releases an operation's inputs and output (deleting the output unless it is still
  read) and records it as destroyed.

A request against a missing varnode or operation, or that breaks one of these contracts, is a
`Fault`.
-/

namespace MicroSsa

namespace Store

/-- Creates a free varnode of `size` bytes at `addr`; in the constant space it is a constant. -/
def newVarnode (s : Store) (size : Nat) (addr : Address) : Nat × Store :=
  let k := s.varnodes.size
  let v : Varnode :=
    { loc := ⟨addr, size⟩, flags := { constant := addr.space == s.constSpace }, createIndex := k }
  (k, { s with varnodes := s.varnodes.push (some v) })

/-- Creates the constant `value` of `size` bytes. -/
def newConstant (s : Store) (size : Nat) (value : UInt64) : Nat × Store :=
  s.newVarnode size ⟨s.constSpace, value⟩

/-- Creates a temporary of `size` bytes in the space of temporaries, at the next free offset
(temporaries take at least one byte and are four-byte aligned). -/
def newUnique (s : Store) (size : Nat) : Except Fault (Nat × Store) :=
  match s.uniqueSpace with
  | none => .error .noTemporarySpace
  | some sp =>
    let addr : Address := ⟨sp, s.uniqueOffset⟩
    let s := { s with uniqueOffset := s.uniqueOffset + (UInt64.ofNat (max size 1 + 3) &&& ~~~3) }
    let (k, s) := s.newVarnode size addr
    .ok (k, s.modifyVn k fun v => { v with flags := { v.flags with implied := true } })

/-- A sequence number at `addr` that no other operation of this store has. -/
def newSeq (s : Store) (addr : Address) : SeqNum × Store :=
  (⟨addr, s.uniq⟩, { s with uniq := s.uniq + 1 })

/-- Creates an operation with no inputs or output; it starts dead. Two dead operations with one
sequence number are a fault. -/
def newOp (s : Store) (opcode : Opcode) (seq : SeqNum) : Except Fault (Nat × Store) :=
  if s.liveOps.any (fun p => p.2.flags.dead && p.2.seq == seq) then .error (.duplicateSeq seq.render)
  else
    let k := s.ops.size
    let o : Op := { opcode := opcode, seq := seq, flags := { OpFlags.ofOpcode opcode with dead := true } }
    .ok (k, { s with ops := s.ops.push (some o) })

/-- Changes the opcode of an operation, with the marks that come with it. -/
def setOpcode (s : Store) (o : Nat) (opcode : Opcode) : Except Fault Store := do
  let _ ← s.op o
  pure (s.modifyOp o fun x => { x with opcode := opcode, flags := x.flags.withOpcode opcode })

/-- Adds `o` to the uses of `v`. -/
def addUse (s : Store) (v o : Nat) : Except Fault Store := do
  let _ ← s.vn v
  pure (s.modifyVn v fun x => { x with uses := x.uses.push o })

/-- Removes one entry `o` from the uses of `v`. -/
def removeUse (s : Store) (v o : Nat) : Except Fault Store := do
  let _ ← s.vn v
  pure (s.modifyVn v fun x => { x with uses := x.uses.erase o })

/-- Places `v` into input `slot` of `o`, releasing the varnode it replaces; a slot one past the
end grows the inputs, and a slot beyond that is a fault. -/
def setInput (s : Store) (o v slot : Nat) : Except Fault Store := do
  let x ← s.op o
  if x.inputs.size < slot then throw (.slotPastEnd slot x.inputs.size)
  let s ← if h : slot < x.inputs.size then do
      let old := x.inputs[slot]
      let s := s.modifyOp o fun x => { x with inputs := x.inputs.set! slot v }
      s.removeUse old o
    else pure (s.modifyOp o fun x => { x with inputs := x.inputs.push v })
  s.addUse v o

/-- Inserts `v` at input `slot` of `o`, shifting later inputs up. -/
def insertInput (s : Store) (o v slot : Nat) : Except Fault Store := do
  let x ← s.op o
  if x.inputs.size < slot then throw .insertPastEnd
  let s := s.modifyOp o fun x => { x with inputs := x.inputs.insertIdxIfInBounds slot v }
  s.addUse v o

/-- Removes input `slot` of `o`, shifting later inputs down; answers the released varnode. -/
def removeInput (s : Store) (o slot : Nat) : Except Fault (Nat × Store) := do
  let x ← s.op o
  match x.inputs[slot]? with
  | none => throw .removePastEnd
  | some old =>
    let s := s.modifyOp o fun x => { x with inputs := x.inputs.eraseIdxIfInBounds slot }
    pure (old, ← s.removeUse old o)

/-- Frees the output of `o`; answers the varnode freed, if there was one. -/
def unsetOutput (s : Store) (o : Nat) : Except Fault (Option Nat × Store) := do
  let x ← s.op o
  match x.output with
  | none => pure (none, s)
  | some v =>
    let s := s.modifyOp o fun x => { x with output := none }
    let s := s.modifyVn v fun y => { y with defOp := none, flags := { y.flags with written := false } }
    pure (some v, s)

/-- Makes `v` the output of `o`, freeing the old output. A varnode that is defined already, an
input or a constant cannot be bound. -/
def setOutput (s : Store) (o v : Nat) : Except Fault Store := do
  let y ← s.vn v
  if y.defOp.isSome || y.flags.input || y.flags.constant then throw .binding
  let (_, s) ← s.unsetOutput o
  let s := s.modifyVn v fun y => { y with defOp := some o, flags := { y.flags with written := true } }
  pure (s.modifyOp o fun x => { x with output := some v })

/-- Creates a varnode at `loc` and binds it as the output of `o`. -/
def createOutput (s : Store) (o : Nat) (loc : Location) : Except Fault (Nat × Store) := do
  let (v, s) := s.newVarnode loc.size loc.addr
  pure (v, ← s.setOutput o v)

/-- Makes a free varnode an input of the function. -/
def setVarnodeInput (s : Store) (v : Nat) : Except Fault Store := do
  let y ← s.vn v
  if !y.isFree then throw .notFree
  pure (s.modifyVn v fun y => { y with flags := { y.flags with input := true } })

/-- Why a varnode cannot be deleted. -/
inductive DeleteError where
  | stale
  | hasUses (n : Nat)
  | isWritten
  deriving DecidableEq, Repr

/-- Deletes a varnode that nothing reads or writes. -/
def deleteVarnode (s : Store) (v : Nat) : Except DeleteError Store :=
  match s.vn? v with
  | none => .error .stale
  | some y =>
    if 0 < y.uses.size then .error (.hasUses y.uses.size)
    else if y.defOp.isSome then .error .isWritten
    else .ok { s with varnodes := s.varnodes.set! v none }

/-- Moves `o` to the dead list. -/
def markDead (s : Store) (o : Nat) : Except Fault Store := do
  let _ ← s.op o
  pure (s.modifyOp o fun x => { x with flags := { x.flags with dead := true } })

/-- Moves `o` into program order. -/
def markAlive (s : Store) (o : Nat) : Except Fault Store := do
  let _ ← s.op o
  pure (s.modifyOp o fun x => { x with flags := { x.flags with dead := false } })

/-- Sets or clears the block holding `o`. -/
def setParent (s : Store) (o : Nat) (b : Option Nat) : Store :=
  s.modifyOp o fun x => { x with parent := b }

/-- Removes the inputs of `o` from the last to the first, for at most `fuel` inputs. -/
def clearInputs (s : Store) (o : Nat) : Nat → Except Fault Store
  | 0 => pure s
  | fuel + 1 => do
    let x ← s.op o
    if x.inputs.size = 0 then pure s
    else
      let (_, s) ← s.removeInput o (x.inputs.size - 1)
      s.clearInputs o fuel

/-- Destroys `o`: releases its inputs, frees its output (deleting it unless it is still read),
and records it as destroyed. An operation still inside a block cannot be destroyed. -/
def destroyOp (s : Store) (o : Nat) : Except Fault Store := do
  let x ← s.op o
  if x.parent.isSome then throw .destroyInBlock
  let s ← s.clearInputs o x.inputs.size
  let (out, s) ← s.unsetOutput o
  let s := match out with
    | some v => match s.deleteVarnode v with
      | .ok s => s
      | .error _ => s
    | none => s
  pure { s with ops := s.ops.set! o none, destroyed := s.destroyed.push (x.seq, x.opcode) }

end Store

end MicroSsa
