/-!
# Micro-operations

The analysed code is a stream of **micro-operations**: each machine instruction is a short
sequence of them, over sized locations in address spaces. This file lists the operations, their
names as listings and answers spell them, and the four classes the analysis asks about:

* `Opcode.isBranch` — the operation ends a basic block;
* `Opcode.isFlowBreak` — control never reaches the next operation in program order;
* `Opcode.isCall` — a call, direct, indirect or architecture-defined;
* `Opcode.isBoolOutput` — a comparison or boolean operator, whose output is `0` or `1`.

`Opcode.ofName?` reads a name back, and `ofName?_name` says that every operation's name reads
back to it.
-/

namespace MicroSsa

/-- A micro-operation. `multiEqual` (a merge of one input per incoming edge) and `indirect` are
made by the analysis only, never by a decoder. -/
inductive Opcode where
  | copy | load | store | branch | cbranch | branchInd | call | callInd | callOther | ret
  | intEqual | intNotEqual | intSLess | intSLessEqual | intLess | intLessEqual
  | intZext | intSext | intAdd | intSub | intCarry | intSCarry | intSBorrow
  | int2Comp | intNegate | intXor | intAnd | intOr | intLeft | intRight | intSRight
  | intMult | intDiv | intSDiv | intRem | intSRem
  | boolNegate | boolXor | boolAnd | boolOr
  | piece | subpiece | popcount | multiEqual | indirect | nop
  deriving DecidableEq, Repr, Inhabited

namespace Opcode

/-- Every operation, in the order of the instruction set's table. -/
def all : List Opcode :=
  [copy, load, store, branch, cbranch, branchInd, call, callInd, callOther, ret,
   intEqual, intNotEqual, intSLess, intSLessEqual, intLess, intLessEqual,
   intZext, intSext, intAdd, intSub, intCarry, intSCarry, intSBorrow,
   int2Comp, intNegate, intXor, intAnd, intOr, intLeft, intRight, intSRight,
   intMult, intDiv, intSDiv, intRem, intSRem,
   boolNegate, boolXor, boolAnd, boolOr,
   piece, subpiece, popcount, multiEqual, indirect, nop]

/-- The name of an operation in listings and answers. -/
def name : Opcode → String
  | copy => "COPY" | load => "LOAD" | store => "STORE" | branch => "BRANCH"
  | cbranch => "CBRANCH" | branchInd => "BRANCHIND" | call => "CALL" | callInd => "CALLIND"
  | callOther => "CALLOTHER" | ret => "RETURN"
  | intEqual => "INT_EQUAL" | intNotEqual => "INT_NOTEQUAL" | intSLess => "INT_SLESS"
  | intSLessEqual => "INT_SLESSEQUAL" | intLess => "INT_LESS"
  | intLessEqual => "INT_LESSEQUAL" | intZext => "INT_ZEXT" | intSext => "INT_SEXT"
  | intAdd => "INT_ADD" | intSub => "INT_SUB" | intCarry => "INT_CARRY"
  | intSCarry => "INT_SCARRY" | intSBorrow => "INT_SBORROW" | int2Comp => "INT_2COMP"
  | intNegate => "INT_NEGATE" | intXor => "INT_XOR" | intAnd => "INT_AND" | intOr => "INT_OR"
  | intLeft => "INT_LEFT" | intRight => "INT_RIGHT" | intSRight => "INT_SRIGHT"
  | intMult => "INT_MULT" | intDiv => "INT_DIV" | intSDiv => "INT_SDIV" | intRem => "INT_REM"
  | intSRem => "INT_SREM" | boolNegate => "BOOL_NEGATE" | boolXor => "BOOL_XOR"
  | boolAnd => "BOOL_AND" | boolOr => "BOOL_OR" | piece => "PIECE" | subpiece => "SUBPIECE"
  | popcount => "POPCOUNT" | multiEqual => "MULTIEQUAL" | indirect => "INDIRECT" | nop => "NOP"

/-- The operation with this exact name, if there is one. -/
def ofName? (s : String) : Option Opcode :=
  all.find? (fun o => o.name == s)

/-- Operations that end a basic block. -/
def isBranch : Opcode → Bool
  | branch | cbranch | branchInd | ret => true
  | _ => false

/-- Operations after which control never reaches the next operation in program order. -/
def isFlowBreak : Opcode → Bool
  | branch | branchInd | ret => true
  | _ => false

/-- Calls: direct, indirect, and architecture-defined operations. -/
def isCall : Opcode → Bool
  | call | callInd | callOther => true
  | _ => false

/-- Comparisons and boolean operators, whose output is `0` or `1`. -/
def isBoolOutput : Opcode → Bool
  | intEqual | intNotEqual | intSLess | intSLessEqual | intLess | intLessEqual
  | intCarry | intSCarry | intSBorrow | boolNegate | boolXor | boolAnd | boolOr => true
  | _ => false

theorem mem_all (o : Opcode) : o ∈ all := by
  cases o <;> simp [all]

/-- Every operation's name reads back to it. -/
theorem ofName?_name (o : Opcode) : ofName? o.name = some o := by
  cases o <;> rfl

/-- A flow break is a branch. -/
theorem isBranch_of_isFlowBreak {o : Opcode} (h : o.isFlowBreak = true) : o.isBranch = true := by
  cases o <;> simp_all [isFlowBreak, isBranch]

end Opcode

end MicroSsa
