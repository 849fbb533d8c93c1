import MicroSsa.Session.Report
/-!
# The command line

```text
microssa from-listing LISTING [--function NAME] [--max-instructions N] [-Z SWITCH]...
```

analyses the functions of a listing file (only `NAME` and what it calls, if given) and prints one
summary line per analysed function. Parsing the arguments and writing the summary are pure; the
entry point only reads the file and prints.
-/

namespace MicroSsa

/-- What the command line asks for. -/
structure CliArgs where
  listing : Option String := none
  function : Option String := none
  maxInstructions : Option Nat := none
  config : Config := {}

namespace CliArgs

/-- Takes an argument that is not an option as the listing path. -/
def takeListing (a : CliArgs) (arg : String) : Except String CliArgs :=
  if arg.startsWith "-" || a.listing.isSome then throw ("unexpected argument " ++ arg)
  else pure { a with listing := some arg }

/-- Reads the options after the subcommand. -/
def parseOptions (a : CliArgs) : List String → Except String CliArgs
  | [] => pure a
  | [arg] => a.takeListing arg
  | arg :: tail@(v :: rest) =>
    if arg == "--function" then parseOptions { a with function := some v } rest
    else if arg == "--max-instructions" then
      match Text.digitsValue? 10 v.toList with
      | some n => parseOptions { a with maxInstructions := some n } rest
      | none => throw ("invalid value for --max-instructions: " ++ v)
    else if arg == "-Z" || arg == "--advanced-config" then
      match a.config.set? v with
      | some c => parseOptions { a with config := c } rest
      | none => throw ("invalid value for -Z: " ++ v)
    else do
      let a ← a.takeListing arg
      parseOptions a tail

/-- Reads the whole command line. -/
def parse : List String → Except String CliArgs
  | "from-listing" :: rest => do
    let a ← parseOptions {} rest
    if a.listing.isNone then throw "missing the listing path"
    pure a
  | _ => throw "usage: from-listing LISTING [--function NAME] [--max-instructions N] [-Z SWITCH]..."

end CliArgs

/-- The marks of a function the way the summary line shows them. -/
def FuncFlags.summary (f : FuncFlags) : String :=
  match f.names with
  | [] => "FuncFlags(0x0)"
  | ns => "FuncFlags(" ++ " | ".intercalate ns ++ ")"

/-- The summary line of an analysed function. -/
def Function.summary (f : Function) : String :=
  f.name ++ " @ " ++ Word.hex f.addr.offset ++ ": " ++ toString f.liveBlocks.length ++
    " blocks, " ++ toString f.numMerges ++ " merges, " ++ toString f.jumpTables.size ++
    " jump tables, " ++ toString f.calls.size ++ " calls, stack depth " ++
    toString f.stackDepth.toInt ++ ", flags " ++ f.flags.summary

/-- Runs the analysis the command line asks for on a listing's text: the summary lines, or the
message to fail with. -/
def CliArgs.run (a : CliArgs) (text : String) : Except String (List String) :=
  match Listing.ofText text with
  | .error e => throw e.message
  | .ok (.error e) => throw ("Could not lift listing: " ++ e.message)
  | .ok (.ok l) =>
    let limits : Limits := match a.maxInstructions with
      | some m => { maxInstructions := m }
      | none => {}
    let s := Session.new { arch := l.arch, image := l.image, decoder := l.decoder,
                           limits := limits, config := a.config }
    let analysed : Except String Session := match a.function with
      | some name =>
        match s.findByName? name with
        | some id => (s.analyze s.fuel id).mapError Fault.message
        | none => throw ("Unknown function: " ++ Session.unknownName name)
      | none => s.analyzeAll.mapError Fault.message
    analysed.map fun s => s.funcs.toList.filterMap fun e => e.func.map Function.summary

end MicroSsa

/-- Reads the listing the arguments name, analyses it and prints the summary lines. -/
def main (args : List String) : IO UInt32 := do
  match MicroSsa.CliArgs.parse args with
  | .error msg =>
    IO.eprintln msg
    pure 2
  | .ok a =>
    let text ← IO.FS.readFile (a.listing.getD "")
    match a.run text with
    | .ok lines =>
      lines.forM IO.println
      pure 0
    | .error msg =>
      IO.eprintln msg
      pure 1
