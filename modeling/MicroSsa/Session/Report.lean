import MicroSsa.Session.Basic
import MicroSsa.Listing.Text
import MicroSsa.Graph.Report
/-!
# Reports on analyses

The record of an analysed function lists its marks and summary numbers, every block with its
operations, the recovered jump tables, the branches left unresolved, the calls, the decoded
instructions, the bad-data addresses and the merges that pruning destroyed.

An operand's record names where its value comes from: `const` for a constant, `input` for a
function input, the defining operation's sequence number, `annotation` for a code address a
branch or call names, and `free` for a read that renaming never reached.
-/

namespace MicroSsa

namespace Function

/-- Where an operand's value comes from. -/
def origin (f : Function) (v : Varnode) : Doc :=
  if v.flags.constant then .str "const"
  else if v.flags.input then .str "input"
  else match v.defOp >>= f.store.op? with
    | some d => .str d.seq.render
    | none => if v.flags.annotation then .str "annotation" else .str "free"

/-- The record of an operand. -/
def operandDoc (f : Function) (v : Nat) : Doc :=
  match f.store.vn? v with
  | some x => .obj [("loc", .str x.loc.render), ("def", f.origin x), ("value", .str x.value.render)]
  | none => .null

/-- The record of an operation. -/
def opRecord (f : Function) (o : Nat) : Doc :=
  match f.store.op? o with
  | some x => .obj [("seq", .str x.seq.render), ("opcode", .str x.opcode.name),
      ("out", .opt f.operandDoc x.output), ("in", .list f.operandDoc x.inputs.toList)]
  | none => .null

/-- The record of a block: its graph fields, start, jump table and operations. -/
def blockRecord (f : Function) (b : Nat) : Doc :=
  let blk := f.graph.get b
  .obj (f.graph.blockFields b ++ [("start", .opt (.str ·.render) blk.start),
    ("jump_table", .opt .nat blk.jumpTable), ("ops", .list f.opRecord blk.ops.toList)])

/-- The record of a jump table. -/
def JumpTable.doc (jt : JumpTable) : Doc :=
  .obj [("op", .str jt.opSeq.render), ("op_addr", .str jt.opAddr.render),
    ("addresses", .list (.str ·.render) jt.addresses.toList),
    ("default_index", .opt .nat jt.defaultIndex), ("last_index", .nat jt.lastIndex.toNat),
    ("size", .nat jt.size), ("table_addr", .str jt.tableAddr.render),
    ("entry_size", .nat jt.entrySize)]

/-- The sequence number of an operation, as text. -/
def seqText (f : Function) (o : Nat) : String :=
  ((f.store.op? o).map (·.seq.render)).getD ""

/-- The unresolved branches, by sequence number. -/
def unresolvedDoc (f : Function) : Doc :=
  let keyed := f.unresolved.filterMap fun (o, e) => (f.store.op? o).map fun x => (x.seq, e)
  let sorted := keyed.mergeSort fun a b => SeqNum.compare a.1 b.1 != .gt
  .list (fun (q, e) => .obj [("op", .str q.render), ("reason", .str e.message)]) sorted

/-- The record of an analysed function, `names` giving the session's function names. -/
def report (f : Function) (id : Nat) (names : Nat → Option String) : Doc :=
  .obj [("id", .nat id), ("name", .str f.name), ("addr", .str f.addr.render),
    ("size", .nat f.size.toNat), ("flags", .strs f.flags.names),
    ("stack_depth", .int f.stackDepth.toInt), ("num_merges", .nat f.numMerges),
    ("live_blocks", .nats f.liveBlocks), ("entry", .opt .nat f.graph.entry),
    ("blocks", .list f.blockRecord (List.range f.graph.size)),
    ("jump_tables", .list JumpTable.doc f.jumpTables.toList),
    ("unresolved", f.unresolvedDoc),
    ("calls", .list (fun c => .obj [("op", .str (f.seqText c.op)),
      ("target", .opt (.str ·.render) c.target), ("status", .str c.status.render),
      ("callee", .opt .str (c.status.callee? >>= names))]) f.calls.toList),
    ("visited", .list (fun (a, v) => .arr [.str a.render, .str v.seq.render, .nat v.size])
      f.visited),
    ("bad_addrs", .list (.str ·.render) f.badAddrs),
    ("destroyed", .list (fun (q, o) => .arr [.str q.render, .str o.name])
      f.store.destroyed.toList)]

end Function

namespace Session

/-- The name and status of every registered function. -/
def statusDoc (s : Session) : Doc :=
  .list (fun e => .arr [.str e.name, .str e.status.render]) s.funcs.toList

/-- The records of the analysed functions, in registration order. -/
def functionsDoc (s : Session) : Doc :=
  let names (id : Nat) : Option String := s.funcs[id]?.map (·.name)
  .arr (s.funcs.toList.zipIdx.filterMap fun (e, id) => e.func.map (·.report id names))

/-- Analyses the named functions in turn, recording each step. -/
def analyzeNamed (s : Session) : List String → Except Fault (Session × List Doc)
  | [] => pure (s, [])
  | name :: rest => do
    let (s, result) ← match s.findByName? name with
      | some id => do
        let s ← s.analyze s.fuel id
        pure (s, Doc.obj [("ok", .nat id)])
      | none => pure (s, Doc.obj [("error", .str "SessionError"), ("message", .str (unknownName name))])
    let step := Doc.obj [("function", .str name), ("result", result), ("status", s.statusDoc)]
    let (s, steps) ← analyzeNamed s rest
    pure (s, step :: steps)

end Session

/-- An analysis request: a listing, the functions to analyse (all of them if absent), and the
session's limits and settings. -/
structure AnalysisRequest where
  listing : String
  functions : Option (List String) := none
  limits : Limits := {}
  config : Config := {}

/-- The record of a whole analysis. -/
def AnalysisRequest.run (r : AnalysisRequest) (l : Listing) : Except Fault Doc := do
  let s := Session.new { arch := l.arch, image := l.image, decoder := l.decoder,
                         limits := r.limits, config := r.config }
  let registered := s.statusDoc
  let (s, steps) ← match r.functions with
    | some names => s.analyzeNamed names
    | none => do pure (← s.analyzeAll, [])
  pure (.obj [("listing_name", .str l.name), ("registered", registered), ("steps", .arr steps),
    ("status", s.statusDoc), ("functions", s.functionsDoc)])

/-- The error record of a contract broken during the analysis. -/
def Fault.doc (e : Fault) : Doc :=
  .obj [("error", .str "panic"), ("message", .str e.message)]

/-- The answer to an analysis request: the analysis, or why the listing was refused. -/
def AnalysisRequest.answer (r : AnalysisRequest) : Doc :=
  match Listing.ofText r.listing with
  | .error e => e.doc
  | .ok (.error e) => .obj [("error", .str "ListingError"), ("message", .str e.message)]
  | .ok (.ok l) =>
    match r.run l with
    | .ok d => d
    | .error e => e.doc

end MicroSsa
