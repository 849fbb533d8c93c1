import MicroSsa.Fault
/-!
# Depth queues

A **depth queue** holds numbers, each at a depth, and hands back first the most recently inserted
number of greatest depth. Merge placement uses it to visit the blocks of the dominator tree
deepest first.

It is a row of stacks, one per depth, and the `current` depth from which the next extraction
starts. `extract` pops the stack at the current depth and walks down past empty stacks.
Insertion raises the current depth; no stack above the current depth ever holds a number.

Served as requests (`DepthQueue.step`), a queue makes room for at most `DepthQueue.capacity`
depths, and the count of depths is a 64-bit number, so room for `2 ^ 64` depths wraps to none.
-/

namespace MicroSsa

/-- Stacks of numbers by depth (the head of a list is its top), and the depth from which the
next extraction starts. -/
structure DepthQueue where
  buckets : Array (List Nat) := #[]
  current : Option Nat := none
  deriving Repr, Inhabited

namespace DepthQueue

/-- An empty queue with room for depths up to `maxDepth`. -/
def reset (maxDepth : Nat) : DepthQueue :=
  { buckets := Array.replicate (maxDepth + 1) [], current := none }

/-- Pushes `x` at `depth`, growing the row of stacks when needed. -/
def insert (q : DepthQueue) (x depth : Nat) : DepthQueue :=
  let bs := if depth < q.buckets.size then q.buckets
    else q.buckets ++ Array.replicate (depth + 1 - q.buckets.size) []
  { buckets := bs.modify depth (x :: ·)
    current := match q.current with
      | some d => if d < depth then some depth else some d
      | none => some depth }

/-- Pops the first number at depth `d` or below: the number, the depth it came from, and the
stacks left. -/
def popFrom (bs : Array (List Nat)) : Nat → Option Nat × Option Nat × Array (List Nat)
  | 0 =>
    match bs[0]?.getD [] with
    | x :: rest => (some x, some 0, bs.set! 0 rest)
    | [] => (none, none, bs)
  | d + 1 =>
    match bs[d + 1]?.getD [] with
    | x :: rest => (some x, some (d + 1), bs.set! (d + 1) rest)
    | [] => popFrom bs d

/-- Takes out the most recently inserted number of greatest depth. -/
def extract (q : DepthQueue) : Option Nat × DepthQueue :=
  match q.current with
  | none => (none, q)
  | some d =>
    let (x, cur, bs) := popFrom q.buckets d
    (x, { buckets := bs, current := cur })

/-- Whether no stack holds a number. -/
def isEmpty (q : DepthQueue) : Bool :=
  q.buckets.all (·.isEmpty)

/-- One request to a depth queue. -/
inductive Step where
  | reset (maxDepth : Nat)
  | insert (x depth : Nat)
  | extract
  | isEmpty
  deriving Repr

/-- The answer to one request: nothing, the number extracted (if any), or whether the queue is
empty. -/
inductive Reply where
  | done
  | extracted (x : Option Nat)
  | empty (b : Bool)
  deriving DecidableEq, Repr

/-- The most depths a queue can make room for: one stack takes 24 bytes, and no row of stacks
may take `2 ^ 63 - 8` bytes or more. -/
def capacity : Nat := 384307168202282325

/-- Room for `n` depths, as a 64-bit count: a count past `capacity` is refused. -/
def roomFor (n : Nat) : Except Fault Nat :=
  let n := n % Nat.pow 2 64
  if capacity < n then throw .capacityOverflow else pure n

/-- Serves one request. Inserting at a depth whose count of depths wraps to zero finds no stack
there. -/
def step (q : DepthQueue) : Step → Except Fault (Reply × DepthQueue)
  | .reset m => do
    let n ← roomFor (m + 1)
    pure (.done, { buckets := Array.replicate n [], current := none })
  | .insert x d => do
    if d < q.buckets.size then pure (.done, q.insert x d)
    else
      let n ← roomFor (d + 1)
      if n ≤ d then throw (.outOfBounds n d)
      pure (.done, q.insert x d)
  | .extract => let (x, q') := q.extract; pure (.extracted x, q')
  | .isEmpty => pure (.empty q.isEmpty, q)

/-- Serves requests in turn, starting from an empty queue, and answers each; a refused request
ends the run. -/
def run (steps : List Step) : Except Fault (List Reply) := do
  let (replies, _) ← steps.foldlM (fun (acc : List Reply × DepthQueue) s => do
    let (r, q) ← acc.2.step s
    pure (r :: acc.1, q)) ([], {})
  pure replies.reverse

end DepthQueue

end MicroSsa
