import MicroSsa.Space
import MicroSsa.Text.Number
import MicroSsa.Text.Blank
/-!
# The value lattice

Constant propagation gives every location a **value** from a lattice of height two:

```text
             top
      /     |       \
   const  const   rel(base, off) ...
      \     |       /
            bottom
```

`top` is "not known yet", `bottom` is "not a constant". A relative constant `rel base off` is
`off` bytes away from what the register at `base` held on entry to the function; it tracks
stack-pointer arithmetic before the stack pointer itself is known.

* `Value.meet` is the greatest lower bound: `top` is its unit and `bottom` absorbs;
* `Value.loweredBy` is the change detector of an update: `none` when the new value would not
  move the old one down, else the value to store;
* `Value.render` writes `top`, `bottom`, `0x…` or `rel(as1:0x34-16)`, and `Value.parse?`
  reads that text back.
-/

namespace MicroSsa

/-- A lattice value. -/
inductive Value where
  | top
  | const (c : UInt64)
  | rel (base : Address) (offset : Int64)
  | bottom
  deriving DecidableEq, Repr, Inhabited

namespace Value

/-- The distance from `top`: `0` for `top`, `1` for a constant, `2` for `bottom`. -/
def height : Value → Nat
  | top => 0
  | const _ => 1
  | rel _ _ => 1
  | bottom => 2

/-- The constant held, if the value is a plain constant. -/
def asConst? : Value → Option UInt64
  | const c => some c
  | _ => none

/-- The greatest lower bound of two values. -/
def meet : Value → Value → Value
  | top, x => x
  | x, top => x
  | bottom, _ => bottom
  | _, bottom => bottom
  | a, b => if a = b then a else bottom

/-- What an update of `old` by `new` stores: nothing when `new` lies higher or is the same,
`new` when it lies lower, and `bottom` when the two differ at the same height. -/
def loweredBy (old new : Value) : Option Value :=
  if new.height < old.height then none
  else if old.height < new.height then some new
  else if old = new then none
  else some bottom

/-- The text of a signed offset, with its sign always written. -/
def signedText (i : Int64) : String :=
  if i < 0 then toString i.toInt else "+" ++ toString i.toInt

/-- The text of a value. -/
def render : Value → String
  | top => "top"
  | const c => Word.hex c
  | rel base offset => "rel(" ++ base.render ++ signedText offset ++ ")"
  | bottom => "bottom"

/-- A signed offset: a sign, then a decimal 64-bit number. Any run of leading `+` is dropped
first, so `+++5` is `5` and `+-5` is `-5`; a `-` stays part of the number, so `-+5` reads as
nothing. -/
def signedOffset? (cs : List Char) : Option Int64 :=
  match cs with
  | '+' :: _ | '-' :: _ => Text.int64? (cs.dropWhile (· == '+'))
  | _ => none

/-- A space written `as` and its number, below 256. -/
def spaceNumber? : List Char → Option Nat
  | 'a' :: 's' :: ds => Text.unsignedIn? 10 256 ds
  | _ => none

/-- The inside of a relative constant: `as<N>:0x`, hexadecimal digits, and the signed offset,
which starts at the first sign after the `0x`. -/
def relative? (body : List Char) : Option Value := do
  let (sp, off) ← Text.splitOnceAt body ':'
  let space ← spaceNumber? sp
  match off with
  | '0' :: 'x' :: rest =>
    let k ← rest.findIdx? fun c => c == '+' || c == '-'
    let base ← Text.unsignedIn? 16 (Nat.pow 2 64) (rest.take k)
    let delta ← signedOffset? (rest.drop k)
    pure (rel ⟨space, UInt64.ofNat base⟩ delta)
  | _ => none

/-- Reads a value: `top`, `bottom`, a constant written `0x` and hexadecimal digits, or
`rel(...)` around a relative constant. It reads back the text that `render` writes. -/
def parse? (s : String) : Option Value :=
  if s == "top" then some top
  else if s == "bottom" then some bottom
  else match s.toList with
    | 'r' :: 'e' :: 'l' :: '(' :: rest =>
      if rest.getLast? == some ')' then relative? rest.dropLast else none
    | '0' :: 'x' :: ds => (Text.unsignedIn? 16 (Nat.pow 2 64) ds).map fun n => const (UInt64.ofNat n)
    | _ => none

theorem meet_top_left (x : Value) : meet top x = x := by
  cases x <;> rfl

theorem meet_bottom_left (x : Value) : meet bottom x = bottom := by
  cases x <;> rfl

end Value

end MicroSsa
