/-!
# Sets in order of first insertion

An **insertion set** keeps distinct members in the order they were first inserted, beside a
reverse map from each member to its position. Inserting a value answers its position: the one
the reverse map holds if the value is already there, else the next free one, where the value is
appended and entered in the map. Jump tables use it to give each distinct target one edge.

The reverse map is read only by lookup and written only by adding a key it does not hold, so it
is a function here: the map of the source has no order that anything reads.
-/

namespace MicroSsa

/-- Distinct members in order of first insertion, with the position of each. -/
structure InsertionSet (α : Type) where
  /-- The members, each at the position `insert` answered for it. -/
  members : Array α := #[]
  /-- The reverse map: the position of each member. -/
  revmap : α → Option Nat := fun _ => none
  deriving Inhabited

namespace InsertionSet

variable {α : Type} [BEq α]

/-- Inserts `v`: its position, and the set with it. -/
def insert (s : InsertionSet α) (v : α) : Nat × InsertionSet α :=
  match s.revmap v with
  | some i => (i, s)
  | none =>
    let i := s.members.size
    (i, { members := s.members.push v, revmap := fun w => if w == v then some i else s.revmap w })

/-- Inserts the values in turn and answers every position. -/
def insertAll (s : InsertionSet α) (vs : List α) : List Nat × InsertionSet α :=
  let (ps, s') := vs.foldl (fun (acc : List Nat × InsertionSet α) v =>
    let (i, t) := acc.2.insert v
    (i :: acc.1, t)) ([], s)
  (ps.reverse, s')

/-- The number of members. -/
def size (s : InsertionSet α) : Nat := s.members.size

end InsertionSet

end MicroSsa
