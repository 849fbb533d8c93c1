import MicroSsa.Text.Number
import MicroSsa.Fault
/-!
# Bytes written as hexadecimal pairs

A run of bytes is written as text, two hexadecimal digits a byte. The text is cut into pieces of
two UTF-8 bytes each, counted from its start, and each piece must read as a number below 256 in
base sixteen (`Text.hexByte?`, which allows a leading `+`).

A text of odd byte length is refused before any cut. A cut that falls inside a character of
more than one byte breaks the contract of slicing text (`Fault.charBoundary`): the first such
cut, in order, names the character it splits. Every piece starts where the one before ended,
on a character boundary, so only the end of a piece can split a character. `hexPairs` reads a
text this way.
-/

namespace MicroSsa

namespace Text

/-- Why a text does not read as hexadecimal byte pairs. -/
inductive HexPairsError where
  /-- The text has an odd number of UTF-8 bytes. -/
  | oddLength
  /-- A two-byte piece starts or ends inside a character. -/
  | split (f : Fault)
  /-- A piece that is no hexadecimal number below 256. -/
  | badPair (pair : String)
  deriving Repr

/-- The bytes of characters read two UTF-8 bytes at a time, the first piece starting at byte
index `pos`. A piece is two one-byte characters or one two-byte character (never hex digits);
a character of three or four bytes, or a wide character right after a one-byte one, holds the
cut at the end of its piece. -/
def pairsFrom (pos : Nat) : List Char → Except HexPairsError (List UInt8)
  | [] => pure []
  | c :: rest =>
    if 2 < c.utf8Size then throw (.split (.charBoundary true (pos + 2) c))
    else if c.utf8Size == 2 then throw (.badPair (String.singleton c))
    else match rest with
      | [] => throw .oddLength
      | d :: more =>
        if d.utf8Size != 1 then throw (.split (.charBoundary true (pos + 2) d))
        else match hexByte? [c, d] with
          | some b => (b :: ·) <$> pairsFrom (pos + 2) more
          | none => throw (.badPair (String.ofList [c, d]))

/-- The bytes of a text written two hexadecimal digits a byte. -/
def hexPairs (s : String) : Except HexPairsError (Array UInt8) :=
  if s.utf8ByteSize % 2 != 0 then throw .oddLength
  else List.toArray <$> pairsFrom 0 s.toList

end Text

end MicroSsa
