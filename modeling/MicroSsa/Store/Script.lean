import MicroSsa.Store.Edit
import MicroSsa.Doc
/-!
# Scripts against the operation store

A **script** is a list of requests to a store, each naming varnodes and operations by creation
number. `Script.run` serves them in turn and answers each with its result and the four orders of
the store after it. A request that breaks a contract ends the script: its answer says so, and
the store has no final state. A request that could not be read, that names a number not created
yet, or that asks for a range whose start lies after its end makes the whole script refused
(`Refusal`), unless a broken contract ended the script before it.
-/

namespace MicroSsa

namespace Store

/-- One request to a store. -/
inductive Step where
  | newVarnode (space : Nat) (offset : UInt64) (size : Nat)
  | newConstant (size : Nat) (value : UInt64)
  | newUnique (size : Nat)
  | newOp (opcode : Opcode) (space : Nat) (offset : UInt64)
  | setOpcode (op : Nat) (opcode : Opcode)
  | setInput (op vn slot : Nat)
  | insertInput (op vn slot : Nat)
  | removeInput (op slot : Nat)
  | setOutput (op vn : Nat)
  | createOutput (op space : Nat) (offset : UInt64) (size : Nat)
  | unsetOutput (op : Nat)
  | setVarnodeInput (vn : Nat)
  | deleteVarnode (vn : Nat)
  | markDead (op : Nat)
  | markAlive (op : Nat)
  | destroyOp (op : Nat)
  | firstOpAt (space : Nat) (offset : UInt64)
  | nextAlive (op : Nat)
  | prevAlive (op : Nat)
  | varnodesAt (space : Nat) (offset : UInt64) (size : Nat)
  | varnodesInRange (space : Nat) (lo hi : UInt64)
  deriving Repr

/-- A number a request names, of a varnode or of an operation. -/
inductive Ref where
  | varnode (k : Nat)
  | op (k : Nat)

/-- The numbers a request names, in the order of its arguments. -/
def Step.refs : Step → List Ref
  | .setOpcode o _ | .removeInput o _ | .createOutput o _ _ _ | .unsetOutput o | .markDead o
  | .markAlive o | .destroyOp o | .nextAlive o | .prevAlive o => [.op o]
  | .setInput o v _ | .insertInput o v _ | .setOutput o v => [.op o, .varnode v]
  | .setVarnodeInput v | .deleteVarnode v => [.varnode v]
  | _ => []

/-- Why a whole script is refused rather than answered. -/
inductive Refusal where
  /-- A request that could not be read, and why. -/
  | unreadable (why : String)
  /-- A request names a varnode not created yet. -/
  | unknownVarnode
  /-- A request names an operation not created yet. -/
  | unknownOp
  /-- A range request whose start lies after its end. -/
  | reversedRange
  deriving Repr

/-- The text of a refusal. -/
def Refusal.message : Refusal → String
  | .unreadable why => why
  | .unknownVarnode => "unknown varnode number"
  | .unknownOp => "unknown op number"
  | .reversedRange => "begin after end"

/-- Why a store refuses a request before serving it, if it does: the first number it names that
has not been created, else a range that runs backwards. -/
def refusalOf (s : Store) (st : Step) : Option Refusal :=
  let unknown := st.refs.findSome? fun
    | .varnode k => if s.varnodes.size ≤ k then some Refusal.unknownVarnode else none
    | .op k => if s.ops.size ≤ k then some Refusal.unknownOp else none
  match unknown, st with
  | some r, _ => some r
  | none, .varnodesInRange _ lo hi => if hi < lo then some .reversedRange else none
  | none, _ => none

/-- The result of one request. -/
inductive Reply where
  | none
  | num (k : Nat)
  | maybe (k : Option Nat)
  | nums (ks : List Nat)
  | deleted (r : Except DeleteError Unit)

/-- The document of a result. -/
def Reply.doc : Reply → Doc
  | .none => .null
  | .num k => .nat k
  | .maybe k => .opt .nat k
  | .nums ks => .nats ks
  | .deleted (.ok ()) => .str "ok"
  | .deleted (.error e) =>
    let (name, uses) := match e with
      | .stale => ("StaleVarnode", Doc.null)
      | .hasUses n => ("VarnodeHasUses", .nat n)
      | .isWritten => ("VarnodeIsWritten", .null)
    .obj [("error", .str name), ("uses", uses)]

/-- Serves one request. -/
def Step.apply (s : Store) : Step → Except Fault (Reply × Store)
  | .newVarnode sp off size => let (k, s) := s.newVarnode size ⟨sp, off⟩; pure (.num k, s)
  | .newConstant size value => let (k, s) := s.newConstant size value; pure (.num k, s)
  | .newUnique size => do let (k, s) ← s.newUnique size; pure (.num k, s)
  | .newOp opcode sp off => do
    let (q, s) := s.newSeq ⟨sp, off⟩
    let (k, s) ← s.newOp opcode q
    pure (.num k, s)
  | .setOpcode o opcode => do pure (.none, ← s.setOpcode o opcode)
  | .setInput o v slot => do pure (.none, ← s.setInput o v slot)
  | .insertInput o v slot => do pure (.none, ← s.insertInput o v slot)
  | .removeInput o slot => do let (v, s) ← s.removeInput o slot; pure (.num v, s)
  | .setOutput o v => do pure (.none, ← s.setOutput o v)
  | .createOutput o sp off size => do
    let (v, s) ← s.createOutput o ⟨⟨sp, off⟩, size⟩
    pure (.num v, s)
  | .unsetOutput o => do let (v, s) ← s.unsetOutput o; pure (.maybe v, s)
  | .setVarnodeInput v => do pure (.none, ← s.setVarnodeInput v)
  | .deleteVarnode v =>
    match s.deleteVarnode v with
    | .ok s => pure (.deleted (.ok ()), s)
    | .error e => pure (.deleted (.error e), s)
  | .markDead o => do pure (.none, ← s.markDead o)
  | .markAlive o => do pure (.none, ← s.markAlive o)
  | .destroyOp o => do pure (.none, ← s.destroyOp o)
  | .firstOpAt sp off => pure (.maybe (s.firstOpAt ⟨sp, off⟩), s)
  | .nextAlive o => do pure (.maybe (← s.nextAlive o), s)
  | .prevAlive o => do pure (.maybe (← s.prevAlive o), s)
  | .varnodesAt sp off size => pure (.nums (s.varnodesAt ⟨sp, off⟩ size), s)
  | .varnodesInRange sp lo hi => do pure (.nums (← s.varnodesInRange sp lo hi), s)

/-- The four orders of a store. -/
def stateDoc (s : Store) : Doc :=
  .obj [("alive", .nats s.aliveOps), ("dead", .nats s.deadOps),
    ("loc_order", .nats s.locOrder), ("def_order", .nats s.defOrder)]

/-- The record of a varnode. -/
def varnodeDoc (v : Varnode) : Doc :=
  .obj [("loc", .str v.loc.render), ("flags", .strs v.flags.names), ("def", .opt .nat v.defOp),
    ("uses", .nats v.uses.toList), ("create_index", .nat v.createIndex)]

/-- The record of an operation. -/
def opDoc (o : Op) : Doc :=
  .obj [("seq", .str o.seq.render), ("opcode", .str o.opcode.name), ("flags", .strs o.flags.names),
    ("inputs", .nats o.inputs.toList), ("output", .opt .nat o.output)]

/-- The whole state of a store. -/
def finalDoc (s : Store) : Doc :=
  .obj [("varnodes", .list (.opt varnodeDoc) s.varnodes.toList),
    ("ops", .list (.opt opDoc) s.ops.toList),
    ("destroyed", .list (fun (q, o) => .arr [.str q.render, .str o.name]) s.destroyed.toList),
    ("num_varnodes", .nat s.numVarnodes), ("num_ops", .nat s.numOps)]

/-- Serves the requests in turn, each as read (a step, or why it could not be read): the answers
so far, and the store if no contract broke; or the refusal of the whole script. -/
def runSteps : Store → List (Except String Step) → Except Refusal (List Doc × Option Store)
  | s, [] => pure ([], some s)
  | _, .error why :: _ => throw (.unreadable why)
  | s, .ok st :: rest =>
    match refusalOf s st with
    | some r => throw r
    | none => match st.apply s with
      | .error _ => pure ([.obj [("panic", .bool true)]], none)
      | .ok (r, s') => do
        let (ds, fin) ← runSteps s' rest
        pure (.obj [("result", r.doc), ("state", s'.stateDoc)] :: ds, fin)

/-- The answer to a script against an empty store with the given constant and unique spaces. -/
def runScript (constSpace : Nat) (uniqueSpace : Option Nat) (steps : List (Except String Step)) :
    Except Refusal Doc :=
  (runSteps (empty constSpace uniqueSpace) steps).map fun (ds, fin) =>
    .obj [("steps", .arr ds), ("final", .opt finalDoc fin)]

end Store

end MicroSsa
