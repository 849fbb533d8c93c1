import MicroSsa.Function.Discover
/-!
# Analysis sessions

A session holds the context of an analysis and every function registered so far, one entry per
function in registration order; an entry's index is the function's identifier. Analysing a
function discovers its code, then analyses every function it calls before finishing, so callees
are complete by the time their callers are. A call back into a function whose analysis is under
way (recursion) is linked to that function as in progress, and resolved once it completes.

Recursion runs on fuel: every nested analysis starts a function that was pending, and there are
no more functions than symbols plus listed operations (each call target is an operand).
-/

namespace MicroSsa

/-- Where the analysis of a registered function stands. -/
inductive FuncStatus where
  | pending
  | processing
  | done
  deriving DecidableEq, Repr, Inhabited

/-- The status's name. -/
def FuncStatus.render : FuncStatus → String
  | .pending => "Pending"
  | .processing => "Processing"
  | .done => "Done"

/-- A registered function. -/
structure Registered where
  name : String
  addr : Address
  size : UInt64
  status : FuncStatus := .pending
  /-- The analysed function, once its analysis has completed. -/
  func : Option Function := none
  /-- Call sites, as caller and index among its calls, to resolve once this completes. -/
  waiting : List (Nat × Nat) := []
  deriving Inhabited

/-- An analysis session. -/
structure Session where
  ctx : Context
  funcs : Array Registered := #[]
  deriving Inhabited

namespace Function

/-- Sets the status of the call at an index. -/
def setCallStatus (f : Function) (idx : Nat) (st : CallStatus) : Function :=
  { f with calls := f.calls.modify idx fun c => { c with status := st } }

end Function

namespace Session

/-- The function registered at an address. -/
def findFunc (s : Session) (a : Address) : Option Nat :=
  s.funcs.findIdx? (·.addr == a)

/-- The function registered last under a name: a later registration takes the name over. -/
def findByName? (s : Session) (name : String) : Option Nat :=
  (s.funcs.toList.zipIdx.filter (·.1.name == name)).getLast?.map (·.2)

/-- The name lookup's failure text. -/
def unknownName (name : String) : String :=
  "no function named " ++ "\x60" ++ name ++ "\x60"

/-- The name a function registered at a new address gets: the requested name, or, when a
function already has it, the requested name with the address's hex digits appended. -/
def nameFor (s : Session) (name : String) (addr : Address) : String :=
  if (s.findByName? name).isSome then name ++ "_" ++ Word.hexDigits addr.offset.toNat else name

/-- Registers a function at a code address, or returns the one already there. -/
def addFunction (s : Session) (name : String) (addr : Address) (size : UInt64) :
    Option (Session × Nat) :=
  match s.findFunc addr with
  | some id => some (s, id)
  | none =>
    if !s.ctx.image.isCode addr then none
    else
      some ({ s with funcs := s.funcs.push { name := s.nameFor name addr, addr, size } },
        s.funcs.size)

/-- Registers every code symbol at least as large as the session's minimum function size. -/
def discoverFromSymbols (s : Session) : Session :=
  s.ctx.image.symbols.foldl (fun s sym =>
    if sym.size < s.ctx.limits.minFuncSymbolSize then s
    else match s.addFunction sym.name sym.addr sym.size with
      | some (s, _) => s
      | none => s) s

/-- A session with the functions its image's symbols name. -/
def new (ctx : Context) : Session :=
  discoverFromSymbols { ctx }

/-- Changes a registered function. -/
def modify (s : Session) (id : Nat) (g : Registered → Registered) : Session :=
  { s with funcs := s.funcs.modify id g }

/-- The status of a registered function. -/
def statusOf (s : Session) (id : Nat) : FuncStatus :=
  (s.funcs[id]?.map (·.status)).getD .pending

/-- Enough fuel for any chain of nested analyses, and for any pass over the functions. -/
def fuel (s : Session) : Nat :=
  s.funcs.size + s.ctx.image.symbols.size + s.ctx.decoder.opCount + 2

/-- Links the call at index `idx` of the function `id` under analysis, registering its target
as a function if it is new and analysing it with `run` first. -/
def linkCall (run : Session → Nat → Except Fault Session) (id : Nat) :
    Session × Function → Nat → Except Fault (Session × Function)
  | (s, f), idx =>
    match f.calls[idx]?.bind (·.target) with
    | none => pure (s, f)
    | some target =>
      let callee := match s.findFunc target with
        | some c => some (s, c)
        | none => s.addFunction ("func_" ++ Word.hexDigits target.offset.toNat) target 0
      match callee with
      | none => pure (s, f.setCallStatus idx .unknown)
      | some (s, c) => do
        let s ← run s c
        match s.statusOf c with
        | .done => pure (s, f.setCallStatus idx (.resolved c))
        | .processing =>
          let s := s.modify c fun e => { e with waiting := e.waiting ++ [(id, idx)] }
          pure (s, { f.setCallStatus idx (.inProgress c) with
                     flags := { f.flags with recursionGuard := true } })
        | .pending => pure (s, f.setCallStatus idx .unknown)

/-- Resolves the calls waiting on the function `id`, which has just completed. -/
def resolveWaiting (s : Session) (id : Nat) (waiting : List (Nat × Nat)) : Session :=
  waiting.foldl (fun s (caller, idx) => s.modify caller fun e =>
    { e with func := e.func.map (·.setCallStatus idx (.resolved id)) }) s

/-- Analyses the function `id`, and everything it calls, if it is pending. -/
def analyze : Nat → Session → Nat → Except Fault Session
  | 0, s, _ => pure s
  | fuel + 1, s, id =>
    match s.funcs[id]? with
    | none => pure s
    | some e =>
      if e.status != .pending then pure s
      else do
        let s := s.modify id fun e => { e with status := .processing }
        let f := Function.init e.name e.addr s.ctx.arch.spaces s.ctx.limits.maxInstructions
        let f := { f with size := e.size, flags := { f.flags with processingStarted := true } }
        let f ← f.discoverFlow s.ctx
        let (s, f) ← if s.ctx.config.followCalls then
            (List.range f.calls.size).foldlM (linkCall (analyze fuel) id) (s, f)
          else pure (s, f)
        let f ← f.finishAnalysis s.ctx
        let waiting := (s.funcs[id]?.map (·.waiting)).getD []
        let s := s.modify id fun e => { e with func := some f, status := .done, waiting := [] }
        pure (s.resolveWaiting id waiting)

/-- Analyses every function from index `i` on, including those registered meanwhile. -/
def analyzeFrom : Nat → Session → Nat → Except Fault Session
  | 0, s, _ => pure s
  | fuel + 1, s, i =>
    if i < s.funcs.size then do
      let s ← analyze s.fuel s i
      analyzeFrom fuel s (i + 1)
    else pure s

/-- Analyses every registered function, in registration order. -/
def analyzeAll (s : Session) : Except Fault Session :=
  analyzeFrom s.fuel s 0

end Session

end MicroSsa
