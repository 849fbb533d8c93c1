import MicroSsa.Function.Basic
/-!
# Following control flow

Flow following decodes every instruction reachable from the pending addresses without crossing
indirect branches. From an address it decodes instruction after instruction, following
fallthrough, and stops at:

* an address decoded already (it becomes a block start);
* bad data: an address inside the previous decoded instruction, outside code, with nothing
  listed, or whose instruction would overlap the next decoded one;
* an instruction listed as unimplemented;
* the instruction limit, which also abandons every pending address;
* an instruction after which control does not fall through.

Each decoded instruction becomes alive operations (`Function.instantiate`); its branches queue
their targets, its indirect branches and calls are recorded (`Function.examineFlow`). A branch
to a constant is relative: it counts operations within the instruction, and one past the last
operation means the next instruction.
-/

namespace MicroSsa

namespace Function

/-- Makes the listed operations of the instruction at `addr` into alive operations of the store;
an instruction without operations becomes one `NOP`. The first input of a direct branch or call
into the code space names a code address. Answers the new operations. -/
def instantiate (ctx : Context) (f : Function) (addr : Address) (listed : List ListedOp) :
    Except Fault (Function × List Nat) := do
  let listed := if listed.isEmpty then [⟨.nop, none, []⟩] else listed
  let (store, ops) ← listed.foldlM (fun (acc : Store × List Nat) e => do
    let (s, ops) := acc
    let (q, s) := s.newSeq addr
    let (o, s) ← s.newOp e.opcode q
    let s ← s.markAlive o
    let s ← e.inputs.zipIdx.foldlM (fun s (vd, slot) => do
      let (v, s) := s.newVarnode vd.size vd.addr
      let isTarget := slot == 0 && vd.addr.space == ctx.arch.codeSpace &&
        (e.opcode == .branch || e.opcode == .cbranch || e.opcode == .call)
      let s := if isTarget then
          s.modifyVn v fun x => { x with flags := { x.flags with annotation := true } }
        else s
      s.setInput o v slot) s
    let s ← match e.output with
      | some out => do let (_, s) ← s.createOutput o out; pure s
      | none => pure s
    pure (s, ops ++ [o])) (f.store, [])
  let store := match ops.head? with
    | some first => store.modifyOp first fun x => { x with flags := { x.flags with startMark := true } }
    | none => store
  pure ({ f with store := store }, ops)

/-- Queues an address for flow following and marks it as a block start. -/
def queueTarget (f : Function) (a : Address) : Function :=
  { f with pending := a :: f.pending, blockStarts := insertAddr f.blockStarts a }

/-- Records the flow effects of operation `i` of the instruction at `addr`. -/
def examineOp (f : Function) (addr : Address) (size : Nat) (ops : List Nat) (i o : Nat) :
    Function :=
  match f.store.op? o with
  | none => f
  | some x =>
    match x.opcode with
    | .branch | .cbranch =>
      match x.inputs[0]?.bind f.store.vn? with
      | none => f
      | some dest =>
        match dest.constValue? with
        | some rel =>
          let target := Int64.ofNat i + Word.signExtend rel dest.loc.size
          if 0 ≤ target.toInt && target.toInt < ops.length then
            match ops[target.toInt.toNat]? with
            | some t => f.setStartBlock t true
            | none => f
          else if target.toUInt64.toNat == ops.length then
            f.queueTarget (addr.add (UInt64.ofNat size))
          else f.markBadData addr
        | none => f.queueTarget dest.loc.addr
    | .branchInd => { f with indirects := f.indirects.push o }
    | .call =>
      let target := (x.inputs[0]?.bind f.store.vn?).bind fun v =>
        if v.flags.annotation then some v.loc.addr else none
      { f with calls := f.calls.push ⟨o, target, if target.isSome then .unlinked else .unknown⟩ }
    | .callInd => { f with calls := f.calls.push ⟨o, none, .unknown⟩ }
    | _ => f

/-- Records the flow effects of one instruction; answers whether it falls through. -/
def examineFlow (f : Function) (addr : Address) (size : Nat) (ops : List Nat) : Function × Bool :=
  let f := ops.zipIdx.foldl (fun f (o, i) => f.examineOp addr size ops i o) f
  let falls := match ops.getLast? >>= f.store.op? with
    | some x => !x.opcode.isFlowBreak
    | none => true
  (f, falls)

/-- The decoded instruction with the greatest address below `a`. -/
def visitBelow? (f : Function) (a : Address) : Option (Address × VisitStat) :=
  (f.visited.filter fun e => Address.compare e.1 a == .lt).getLast?

/-- The decoded instruction with the least address at or above `a`. -/
def visitFrom? (f : Function) (a : Address) : Option (Address × VisitStat) :=
  f.visited.find? fun e => Address.compare e.1 a != .lt

/-- Whether `a` lies inside the decoded instruction below it, its end computed on 64-bit words. -/
def insidePrevious (f : Function) (a : Address) : Bool :=
  match f.visitBelow? a with
  | some (p, st) => p.space == a.space && a.offset.toNat < (p.offset + UInt64.ofNat st.size).toNat
  | none => false

/-- Whether an instruction of `size` bytes at `a` runs into the decoded instruction at or above
`a`, its end computed on 64-bit words. -/
def overlapsNext (f : Function) (a : Address) (size : Nat) : Bool :=
  match f.visitFrom? a with
  | some (n, _) => n.space == a.space && n.offset.toNat < (a.offset + UInt64.ofNat size).toNat
  | none => false

/-- Decodes from `cur` along fallthrough, for at most `fuel` instructions. Answers `false` when
the instruction limit stops flow following. -/
def processFrom (ctx : Context) : Nat → Function → Address → Except Fault (Function × Bool)
  | 0, f, _ => pure (f, true)
  | fuel + 1, f, cur =>
    if (f.visitAt? cur).isSome then
      pure ({ f with blockStarts := insertAddr f.blockStarts cur }, true)
    else if f.insidePrevious cur then pure (f.markBadData cur, true)
    else if !ctx.image.isCode cur then pure (f.markBadData cur, true)
    else if f.instMax ≤ f.instCount then
      pure ({ f with flags := { f.flags with instructionLimit := true } }, false)
    else
      match ctx.decoder.decode cur with
      | .unimplemented => pure ({ f with flags := { f.flags with unimplementedPresent := true } }, true)
      | .nothing => pure (f.markBadData cur, true)
      | .instruction len listed => do
        let size := max len 1
        if f.overlapsNext cur size then pure (f.markBadData cur, true)
        else
          let f := { f with instCount := f.instCount + 1 }
          let (f, ops) ← f.instantiate ctx cur listed
          let seq := ((ops.head? >>= f.store.op?).map (·.seq)).getD ⟨cur, 0⟩
          let f := f.addVisit cur ⟨seq, size⟩
          let (f, falls) := f.examineFlow cur size ops
          if falls then processFrom ctx fuel f (cur.add (UInt64.ofNat size)) else pure (f, true)

/-- Follows every pending address, for at most `fuel` of them. -/
def followLoop (ctx : Context) : Nat → Function → Except Fault Function
  | 0, f => pure f
  | fuel + 1, f =>
    match f.pending with
    | [] => pure f
    | a :: rest => do
      let (f, ok) ← processFrom ctx (ctx.decoder.entries.length + 1) { f with pending := rest } a
      if ok then followLoop ctx fuel f else pure { f with pending := [] }

/-- Decodes every instruction reachable from the pending addresses. -/
def followFlow (ctx : Context) (f : Function) : Except Fault Function := do
  let f ← followLoop ctx (f.pending.length + ctx.decoder.opCount + 1) f
  let f := if f.visited.isEmpty then { f with flags := { f.flags with noCode := true } } else f
  pure { f with flags := { f.flags with opGenerated := true } }

end Function

end MicroSsa
