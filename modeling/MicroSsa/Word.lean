/-!
# Machine words

Values of the analysed machine are 64-bit words; a value of `size` bytes lives in the low
`8 * size` bits of a word. This file holds the three rules every later layer shares:

* `Word.mask` — the mask selecting the low `size` bytes (all ones from eight bytes up);
* `Word.signExtend` — the low `size` bytes read as a two's complement number (a size of zero
  or of eight bytes and more reads the whole word);
* `Word.hex` — the text of a word: `0x` and lower-case digits without leading zeros.
-/

namespace MicroSsa

namespace Word

/-- The mask of the low `size` bytes of a word; from eight bytes up every bit is kept. -/
def mask (size : Nat) : UInt64 :=
  if 8 ≤ size then UInt64.ofNat (Nat.pow 2 64 - 1) else UInt64.ofNat (Nat.pow 2 (8 * size) - 1)

/-- The low `size` bytes of `v` as a two's complement number. Sizes `0` and `8` and above
take the whole word. -/
def signExtend (v : UInt64) (size : Nat) : Int64 :=
  if size = 0 ∨ 8 ≤ size then v.toInt64
  else
    let low := v.toNat % Nat.pow 2 (8 * size)
    if low < Nat.pow 2 (8 * size - 1) then Int64.ofInt low
    else Int64.ofInt ((low : Int) - Nat.pow 2 (8 * size))

/-- Lower-case hexadecimal digits of a number, without leading zeros (`0` for zero). -/
def hexDigits (n : Nat) : String :=
  String.ofList (Nat.toDigits 16 n)

/-- The text of a word: `0x` followed by its hexadecimal digits. -/
def hex (v : UInt64) : String :=
  "0x" ++ hexDigits v.toNat

/-- Two hexadecimal digits per byte, most significant digit first. -/
def byteHex (b : UInt8) : String :=
  let d := Nat.toDigits 16 b.toNat
  String.ofList (if d.length < 2 then '0' :: d else d)

theorem mask_of_le {size : Nat} (h : 8 ≤ size) : mask size = UInt64.ofNat (Nat.pow 2 64 - 1) := by
  simp [mask, h]

end Word

end MicroSsa
