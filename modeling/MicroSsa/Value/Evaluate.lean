import MicroSsa.Value.Basic
import MicroSsa.Value.Fold
/-!
# Evaluating one operation over the lattice

`Opcode.evaluate o ins outSize loopRisk` is the value of the operation `o` when its inputs hold
the lattice values `ins` (each with its byte size):

* any `bottom` input, or no input at all, gives `bottom`; else any `top` input gives `top`;
* all constants fold by `Opcode.fold` (`bottom` where folding has no value);
* a relative constant survives a copy, and moves by a constant added to it or subtracted from it;
  inside a loop body (`loopRisk`) such a move gives `bottom` and marks the stack unsafe;
* two relative constants from one base subtract to a constant and compare for (in)equality;
* everything else gives `bottom`.
-/

namespace MicroSsa

/-- The outcome of evaluating one operation. -/
structure Evaluation where
  value : Value
  /-- A relative constant was moved inside a loop body, where its offset cannot be trusted. -/
  stackUnsafe : Bool := false
  deriving DecidableEq, Repr, Inhabited

namespace Opcode

/-- The plain constants of a list of values, if every value is one. -/
def constants? (ins : List (Value × Nat)) : Option (List (UInt64 × Nat)) :=
  ins.mapM fun (v, sz) => v.asConst?.map (·, sz)

/-- Moving a relative constant by `delta` bytes; inside a loop body it gives `bottom`. -/
def shiftRel (base : Address) (offset delta : Int64) (loopRisk : Bool) : Evaluation :=
  if loopRisk then { value := .bottom, stackUnsafe := true }
  else { value := .rel base (offset + delta) }

/-- The value of an operation whose inputs mix relative and plain constants. -/
def evaluateRel (o : Opcode) (ins : List (Value × Nat)) (outSize : Nat) (loopRisk : Bool) :
    Evaluation :=
  match o, ins with
  | copy, [(.rel b off, _)] => { value := .rel b off }
  | intAdd, [(.rel b off, _), (.const c, csz)] => shiftRel b off (Word.signExtend c csz) loopRisk
  | intAdd, [(.const c, csz), (.rel b off, _)] => shiftRel b off (Word.signExtend c csz) loopRisk
  | intSub, [(.rel b off, _), (.const c, csz)] =>
    shiftRel b off (0 - Word.signExtend c csz) loopRisk
  | op, [(.rel b1 o1, _), (.rel b2 o2, _)] =>
    if b1 = b2 then
      match op with
      | intSub => { value := .const ((o1 - o2).toUInt64 &&& Word.mask outSize) }
      | intEqual => { value := .const (ofBool (o1 == o2)) }
      | intNotEqual => { value := .const (ofBool (o1 != o2)) }
      | _ => { value := .bottom }
    else { value := .bottom }
  | _, _ => { value := .bottom }

/-- The value of an operation over lattice inputs. -/
def evaluate (o : Opcode) (ins : List (Value × Nat)) (outSize : Nat) (loopRisk : Bool) :
    Evaluation :=
  if ins.isEmpty || ins.any (fun p => p.1 == .bottom) then { value := .bottom }
  else if ins.any (fun p => p.1 == .top) then { value := .top }
  else match constants? ins with
    | some cs => { value := ((o.fold cs outSize).map Value.const).getD .bottom }
    | none => evaluateRel o ins outSize loopRisk

end Opcode

end MicroSsa
