import MicroSsa.Listing.Basic
import MicroSsa.Text.Blank
import MicroSsa.Text.Number
import MicroSsa.Text.HexPairs
/-!
# Reading a listing from text

A listing is text in **sections**, each opened by a header line (`ARCH`, `ADDRESS_SPACES`,
`IMAGE`, `SYMBOLS`, `LISTING`) and running until the next header; a header may come again and
continues its section. Blank lines and lines whose first non-blank character is `#` are skipped;
trailing blanks are ignored. Lines are numbered from one.

```text
ARCH
name toy
big_endian false
code_space ram
sp register:0x34:4

ADDRESS_SPACES
ram processor 4
register register 4

IMAGE
code 0x1000 +0x100
rodata 0x2000 10100000

SYMBOLS
0x1000 0x20 main

LISTING
0x1000 4
  register:0x0:4 = INT_ADD register:0x0:4 const:0x1:4
0x1004 4 unimplemented
```

`ARCH` lines are `key value`; `big_endian`, `code_space` and `sp` must be given (a later line
for a key wins). Varnodes are written `space:offset:size`. Image regions are `code`, `rodata` or
`data`, a start, and either `+len` (zero bytes) or hexadecimal bytes. In `LISTING` an indented
line is an operation of the instruction above it.

`Listing.ofText` checks in this order and reports the first failure: section structure, the
`ARCH` lines, `big_endian`, the spaces, `code_space`, `sp`, `lr`, the image, the symbols, the
instructions. A table of more than 255 spaces, or hexadecimal bytes cut inside a multi-byte
character, is a `Fault`.
-/

namespace MicroSsa

/-- A malformed listing. -/
inductive ListingError where
  | missingSection (name : String)
  /-- A malformed line (line `0` for a missing `ARCH` key). -/
  | malformed (line : Nat) (message : String)
  deriving DecidableEq, Repr

/-- The text of a listing error. -/
def ListingError.message : ListingError → String
  | .missingSection n => "missing section `" ++ n ++ "`"
  | .malformed l m => "line " ++ toString l ++ ": " ++ m

namespace ListingText

/-- Reading a listing: it fails as a malformed listing, or as a fault. -/
abbrev Reader := ExceptT ListingError (Except Fault)

/-- Fails with a malformed line. -/
def bad {α : Type} (line : Nat) (msg : String) : Reader α :=
  throw (.malformed line msg)

/-- Fails with a broken contract. -/
def fault {α : Type} (f : Fault) : Reader α :=
  ExceptT.lift (.error f)

/-- The text between backquotes. -/
def quoted (cs : List Char) : String := "`" ++ String.ofList cs ++ "`"

/-- The section headers. -/
def headers : List String := ["ARCH", "ADDRESS_SPACES", "IMAGE", "SYMBOLS", "LISTING"]

/-- Sections by header, each with its numbered lines (trailing blanks removed). -/
abbrev Sections := List (String × List (Nat × List Char))

/-- Appends a line to a section, creating the section if needed. -/
def addLine (ss : Sections) (h : String) (l : Option (Nat × List Char)) : Sections :=
  if ss.any (·.1 == h) then
    ss.map fun (k, ls) => if k == h then (k, ls ++ l.toList) else (k, ls)
  else ss ++ [(h, l.toList)]

/-- The lines of a text, numbered from one, without their trailing blanks. -/
def numberedLines (text : String) : List (Nat × List Char) :=
  (Text.lines text.toList).zipIdx.map fun p => (p.2 + 1, Text.trimEnd p.1)

/-- A line that is blank, or whose first non-blank character is `#`. -/
def skipped (l : List Char) : Bool :=
  (Text.trim l).isEmpty || (Text.trimStart l).head? == some '#'

/-- Files one line into the sections, knowing the section it falls in. -/
def sectionLine (acc : Sections × Option String) (nl : Nat × List Char) :
    Reader (Sections × Option String) :=
  if skipped nl.2 then pure acc
  else
    let s := String.ofList nl.2
    if headers.contains s then pure (addLine acc.1 s none, some s)
    else match acc.2 with
      | none => bad nl.1 "content before the first section"
      | some h => pure (addLine acc.1 h (some nl), acc.2)

/-- Splits the text into sections. -/
def sections (text : String) : Reader Sections :=
  (·.1) <$> (numberedLines text).foldlM sectionLine ([], none)

/-- The lines of a section that must be present. -/
def section? (ss : Sections) (h : String) : Reader (List (Nat × List Char)) :=
  match ss.find? (·.1 == h) with
  | some (_, ls) => pure ls
  | none => throw (.missingSection h)

/-- The lines of a section that may be missing. -/
def optionalSection (ss : Sections) (h : String) : List (Nat × List Char) :=
  ((ss.find? (·.1 == h)).map (·.2)).getD []

/-- A 64-bit number. -/
def number (line : Nat) (cs : List Char) : Reader UInt64 :=
  match Text.word? cs with
  | some v => pure v
  | none => bad line ("expected a number, got " ++ quoted cs)

/-- A varnode written `space:offset:size`; the size is read before the offset and kept modulo
`2 ^ 32`. -/
def varnode (line : Nat) (spaces : SpaceTable) (cs : List Char) : Reader Location :=
  match cs.splitOn ':' with
  | [sp, off, sz] => do
    let some s := spaces.byName? (String.ofList sp)
      | bad line ("unknown address space " ++ quoted sp)
    let size ← number line sz
    let offset ← number line off
    pure ⟨⟨s, offset⟩, size.toNat % Nat.pow 2 32⟩
  | _ => bad line ("expected space:offset:size, got " ++ quoted cs)

/-- The part of an operation after its output: `OPCODE in…`. -/
def opBody (line : Nat) (spaces : SpaceTable) (output : Option Location) (cs : List Char) :
    Reader ListedOp :=
  match Text.words cs with
  | [] => bad line "missing opcode"
  | name :: ins =>
    match Opcode.ofName? (String.ofList name) with
    | none => bad line ("unknown opcode " ++ quoted name)
    | some o =>
      if o == .multiEqual || o == .indirect then bad line (o.name ++ " cannot be listed")
      else do
        let inputs ← ins.mapM (varnode line spaces)
        pure ⟨o, output, inputs⟩

/-- One listed operation: `[out =] OPCODE in…`. -/
def operation (line : Nat) (spaces : SpaceTable) (cs : List Char) : Reader ListedOp :=
  match Text.splitOnceAt cs '=' with
  | some (out, rest) => do opBody line spaces (some (← varnode line spaces (Text.trim out))) rest
  | none => opBody line spaces none cs

/-- Hexadecimal bytes: the words joined, then read two bytes of text at a time. -/
def hexBytes (line : Nat) (ws : List (List Char)) : Reader (Array UInt8) :=
  match Text.hexPairs (String.ofList ws.flatten) with
  | .ok bs => pure bs
  | .error .oddLength => bad line "odd number of hex digits"
  | .error (.split f) => fault f
  | .error (.badPair pair) => bad line ("bad hex byte " ++ quoted pair.toList)

/-- Files one `ARCH` line, `key value`, replacing an earlier entry of its key. -/
def archLine (acc : List (String × Nat × List Char)) (nl : Nat × List Char) :
    Reader (List (String × Nat × List Char)) :=
  match Text.splitOnceAt (Text.trim nl.2) ' ' with
  | some (k, v) =>
    let key := String.ofList k
    pure ((acc.filter (·.1 != key)) ++ [(key, nl.1, Text.trim v)])
  | none => bad nl.1 "expected `key value`"

/-- The `ARCH` entries: key, line and value; a later line for a key wins. -/
def archEntries (ls : List (Nat × List Char)) : Reader (List (String × Nat × List Char)) :=
  ls.foldlM archLine []

/-- The line and value of an `ARCH` key that must be given. -/
def archKey (props : List (String × Nat × List Char)) (k : String) : Reader (Nat × List Char) :=
  match props.find? (·.1 == k) with
  | some (_, n, v) => pure (n, v)
  | none => bad 0 ("ARCH is missing `" ++ k ++ "`")

/-- The kind of space a word names. -/
def spaceKind (n : Nat) (kind : List Char) : Reader SpaceKind :=
  match String.ofList kind with
  | "processor" => pure .processor
  | "register" => pure .register
  | "unique" => pure .unique
  | "constant" => pure .constant
  | _ => bad n ("unknown space kind " ++ quoted kind)

/-- One line of `ADDRESS_SPACES`: `name kind pointer-size`. -/
def spaceLine (endian : Endian) (n : Nat) (l : List Char) : Reader AddressSpace :=
  match Text.words l with
  | [name, kind, size] => do
    let k ← spaceKind n kind
    let sz ← number n size
    pure ⟨String.ofList name, k, endian, sz.toNat⟩
  | _ => bad n "expected `name kind pointer-size`"

/-- The kind of region a word names. -/
def regionKind (n : Nat) (kind : List Char) : Reader RegionKind :=
  match String.ofList kind with
  | "code" => pure .code
  | "rodata" => pure .readOnly
  | "data" => pure .data
  | _ => bad n ("unknown region kind " ++ quoted kind)

/-- The contents of a region: `+len` zero bytes, or hexadecimal bytes. -/
def contents (n : Nat) (ws : List (List Char)) : Reader Contents :=
  match ws with
  | ['+' :: len] => do
    let size := (← number n len).toNat
    -- no run of bytes may reach half the 64-bit range
    if Nat.pow 2 63 ≤ size then fault .capacityOverflow else pure (Contents.zeros size)
  | ws => Contents.listed <$> hexBytes n ws

/-- One line of `IMAGE`: `kind start contents`. -/
def regionLine (n : Nat) (l : List Char) : Reader Region :=
  match Text.words l with
  | kind :: start :: ws => do
    let k ← regionKind n kind
    let st ← number n start
    let bytes ← contents n ws
    pure ⟨st, bytes, k⟩
  | _ => bad n "expected `kind start contents`"

/-- The state of reading `LISTING`: the decoder so far and the instruction being read. -/
abbrev Pending := Decoder × Option (Address × Nat × List ListedOp)

/-- Closes the instruction being read, if any. -/
def flush (p : Pending) : Decoder :=
  match p.2 with
  | some (a, len, ops) => p.1.add a ⟨len, ops, false⟩
  | none => p.1

/-- An indented line of `LISTING`: one more operation of the instruction being read. -/
def opLine (spaces : SpaceTable) (p : Pending) (n : Nat) (l : List Char) : Reader Pending :=
  match p.2 with
  | none => bad n "op outside of an instruction"
  | some (a, len, ops) => do
    let o ← operation n spaces (Text.trim l)
    pure (p.1, some (a, len, ops ++ [o]))

/-- An instruction header `addr len [unimplemented]`, read once the instruction before it is
closed into `d`. An unimplemented instruction is closed at once. -/
def headerLine (code : Nat) (d : Decoder) (n : Nat) (l : List Char) : Reader Pending :=
  match Text.words l with
  | [addr, len] => do
    let a ← number n addr
    let ln ← number n len
    pure (d, some (⟨code, a⟩, ln.toNat, []))
  | [addr, len, u] =>
    if u == "unimplemented".toList then do
      let a ← number n addr
      let ln ← number n len
      pure (d.add ⟨code, a⟩ ⟨ln.toNat, [], true⟩, none)
    else bad n "expected `addr len [unimplemented]`"
  | _ => bad n "expected `addr len [unimplemented]`"

/-- One line of `LISTING`: an indented operation, or an instruction header. -/
def listingLine (spaces : SpaceTable) (code : Nat) (p : Pending) (n : Nat) (l : List Char) :
    Reader Pending :=
  match l with
  | c :: _ => if Text.isBlank c then opLine spaces p n l else headerLine code (flush p) n l
  | [] => pure p

/-- The byte order `big_endian` gives: `false` is little endian, `true` big endian. -/
def endianOf (props : List (String × Nat × List Char)) : Reader Endian := do
  let (bl, bv) ← archKey props "big_endian"
  if bv == "false".toList then pure .little
  else if bv == "true".toList then pure .big
  else bad bl ("expected true/false, got " ++ quoted bv)

/-- The table of the spaces that `ADDRESS_SPACES` lists. -/
def spaceTable (endian : Endian) (ls : List (Nat × List Char)) : Reader SpaceTable := do
  let listed ← ls.mapM fun nl => spaceLine endian nl.1 nl.2
  match SpaceTable.build listed.toArray with
  | .ok t => pure t
  | .error f => fault f

/-- The space that `code_space` names. -/
def codeSpaceOf (props : List (String × Nat × List Char)) (spaces : SpaceTable) : Reader Nat := do
  let (cl, code) ← archKey props "code_space"
  match spaces.byName? (String.ofList code) with
  | some c => pure c
  | none => bad cl ("unknown address space " ++ quoted code)

/-- The link register, when `lr` is given. -/
def linkRegister (props : List (String × Nat × List Char)) (spaces : SpaceTable) :
    Reader (Option Location) :=
  match props.find? (·.1 == "lr") with
  | some (_, n, v) => some <$> varnode n spaces v
  | none => pure none

/-- One line of `SYMBOLS`, `addr size name`, added to the image. -/
def symbolLine (img : Image) (nl : Nat × List Char) : Reader Image :=
  match Text.words nl.2 with
  | [addr, size, sym] => do
    let a ← number nl.1 addr
    let sz ← number nl.1 size
    pure (img.addSymbol (String.ofList sym) a sz)
  | _ => bad nl.1 "expected `addr size name`"

/-- Reads a listing. -/
def read (text : String) : Reader Listing := do
  let ss ← sections text
  let props ← archEntries (← section? ss "ARCH")
  let endian ← endianOf props
  let name := ((props.find? (·.1 == "name")).map fun e => String.ofList e.2.2).getD "listing"
  let spaces ← spaceTable endian (← section? ss "ADDRESS_SPACES")
  let codeSpace ← codeSpaceOf props spaces
  let spKey ← archKey props "sp"
  let sp ← varnode spKey.1 spaces spKey.2
  let lr ← linkRegister props spaces
  let regions ← (optionalSection ss "IMAGE").mapM fun nl => regionLine nl.1 nl.2
  let image ← (optionalSection ss "SYMBOLS").foldlM symbolLine
    (regions.foldl Image.addRegion { space := codeSpace })
  let pending ← (← section? ss "LISTING").foldlM
    (fun p nl => listingLine spaces codeSpace p nl.1 nl.2) (({} : Decoder), none)
  pure ⟨name, ⟨spaces, codeSpace, sp, lr⟩, image, flush pending⟩

end ListingText

/-- Reads a listing from its text: a broken contract, or a malformed listing, or the listing. -/
def Listing.ofText (text : String) : Except Fault (Except ListingError Listing) :=
  (ListingText.read text).run

end MicroSsa
