/-!
# Blank characters

Listings are cut into words at **blanks**: the characters of the Unicode `White_Space`
property (tab, line feed, vertical tab, form feed, carriage return, space, next line, no-break
space, ogham space mark, the en quad to hair space block, line and paragraph separators, narrow
no-break space, medium mathematical space and ideographic space). This file holds that class
and the trimming and splitting built on it.

`isBlank_of_isWhitespace` says that core's ASCII class lies inside it.
-/

namespace MicroSsa

namespace Text

/-- The characters of the Unicode `White_Space` property. -/
def isBlank (c : Char) : Bool :=
  let n := c.toNat
  (0x09 ≤ n && n ≤ 0x0D) || n == 0x20 || n == 0x85 || n == 0xA0 || n == 0x1680 ||
    (0x2000 ≤ n && n ≤ 0x200A) || n == 0x2028 || n == 0x2029 || n == 0x202F ||
    n == 0x205F || n == 0x3000

/-- The characters without the blanks at their end. -/
def trimEnd (cs : List Char) : List Char :=
  (cs.reverse.dropWhile isBlank).reverse

/-- The characters without the blanks at their start. -/
def trimStart (cs : List Char) : List Char :=
  cs.dropWhile isBlank

/-- The characters without the blanks at either end. -/
def trim (cs : List Char) : List Char :=
  trimEnd (trimStart cs)

/-- Words: the maximal runs of characters that are not blanks, in order. -/
def words (cs : List Char) : List (List Char) :=
  (cs.splitBy (fun a b => isBlank a == isBlank b)).filter (fun w => !w.any isBlank)

/-- The lines of a text: the runs of characters between line feeds, the last one included even
when it is empty. -/
def lines : List Char → List (List Char)
  | [] => [[]]
  | c :: cs =>
    let rest := lines cs
    if c == '\n' then [] :: rest else (c :: rest.headD []) :: rest.tail

/-- The text before the first occurrence of a character and the text after it. -/
def splitOnceAt (cs : List Char) (sep : Char) : Option (List Char × List Char) :=
  match cs.idxOf? sep with
  | some i => some (cs.take i, cs.drop (i + 1))
  | none => none

theorem isBlank_of_isWhitespace {c : Char} (h : c.isWhitespace = true) : isBlank c = true := by
  simp only [Char.isWhitespace, Bool.or_eq_true, decide_eq_true_eq] at h
  simp only [isBlank]
  rcases h with ((h | h) | h) | h <;> simp [h]

end Text

end MicroSsa
