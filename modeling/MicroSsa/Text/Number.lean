/-!
# Numbers in text

A **number** in a listing is a run of digits in base ten, or `0x` and a run of hexadecimal
digits of either case. A single `+` may stand before the digits (after the `0x`, for
hexadecimal); a minus sign never may. The value must fit the width asked for, so
`18446744073709551616` is no 64-bit number.
-/

namespace MicroSsa

namespace Text

/-- The value of a digit in a base up to sixteen. -/
def digitValue? (base : Nat) (c : Char) : Option Nat :=
  let v :=
    if '0' ≤ c ∧ c ≤ '9' then some (c.toNat - '0'.toNat)
    else if 'a' ≤ c ∧ c ≤ 'f' then some (c.toNat - 'a'.toNat + 10)
    else if 'A' ≤ c ∧ c ≤ 'F' then some (c.toNat - 'A'.toNat + 10)
    else none
  v.filter (· < base)

/-- The value of a non-empty run of digits in a base. -/
def digitsValue? (base : Nat) (cs : List Char) : Option Nat :=
  if cs.isEmpty then none
  else cs.foldlM (fun acc c => (digitValue? base c).map (fun d => acc * base + d)) 0

/-- An unsigned number in a base, with an optional leading `+`, below `bound`. -/
def unsignedIn? (base bound : Nat) (cs : List Char) : Option Nat :=
  let body := match cs with
    | '+' :: rest => rest
    | _ => cs
  (digitsValue? base body).filter (· < bound)

/-- A 64-bit number: `0x` and hexadecimal digits, or decimal digits. -/
def word? (cs : List Char) : Option UInt64 :=
  let n := match cs with
    | '0' :: 'x' :: rest => unsignedIn? 16 (Nat.pow 2 64) rest
    | _ => unsignedIn? 10 (Nat.pow 2 64) cs
  n.map UInt64.ofNat

/-- A signed 64-bit number in base ten, with an optional leading `+` or `-`. -/
def int64? (cs : List Char) : Option Int64 :=
  match cs with
  | '-' :: ds => (digitsValue? 10 ds).bind fun n =>
      if n ≤ Nat.pow 2 63 then some (Int64.ofInt (-(n : Int))) else none
  | '+' :: ds => (digitsValue? 10 ds).bind fun n =>
      if n < Nat.pow 2 63 then some (Int64.ofInt n) else none
  | ds => (digitsValue? 10 ds).bind fun n =>
      if n < Nat.pow 2 63 then some (Int64.ofInt n) else none

/-- A byte written as hexadecimal digits. -/
def hexByte? (cs : List Char) : Option UInt8 :=
  (unsignedIn? 16 256 cs).map UInt8.ofNat

end Text

end MicroSsa
