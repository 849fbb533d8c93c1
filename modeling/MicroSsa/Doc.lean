/-!
# Answer documents

Answers are trees of a small document format: null, truth values, whole numbers, text, lists
and records with named fields. The reports of the library build such trees; writing them out as
text is left to the program that prints them.
-/

namespace MicroSsa

/-- A document: the shape of every answer. -/
inductive Doc where
  | null
  | bool (b : Bool)
  | nat (n : Nat)
  | int (i : Int)
  | str (s : String)
  | arr (xs : List Doc)
  | obj (fields : List (String × Doc))
  deriving Inhabited

namespace Doc

/-- A list of documents made from a list of values. -/
def list {α : Type} (f : α → Doc) (xs : List α) : Doc := arr (xs.map f)

/-- A document for an optional value: `null` when it is missing. -/
def opt {α : Type} (f : α → Doc) : Option α → Doc
  | some a => f a
  | none => null

/-- A list of texts. -/
def strs (xs : List String) : Doc := list str xs

/-- A list of numbers. -/
def nats (xs : List Nat) : Doc := list nat xs

end Doc

end MicroSsa
