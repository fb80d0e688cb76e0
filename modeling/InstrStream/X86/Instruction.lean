import InstrStream.X86.Mnemonic
import InstrStream.X86.Register

/-! Machine instructions with their operands resolved: what the bytes of one instruction say. -/
namespace InstrStream.X86

inductive Scale where
  | one
  | two
  | four
  | eight
deriving DecidableEq, Repr

namespace Scale

def ofByte? : UInt8 → Option Scale
  | 1 => some .one
  | 2 => some .two
  | 4 => some .four
  | 8 => some .eight
  | _ => none

/-- The factor is two to this power. -/
def exponent : Scale → Nat
  | .one => 0
  | .two => 1
  | .four => 2
  | .eight => 3

def factor : Scale → Nat
  | .one => 1
  | .two => 2
  | .four => 4
  | .eight => 8

end Scale

/-- The memory operand `base + index * scale + offset`. -/
structure Address where
  base : Option Gpr
  index : Option Gpr
  scale : Scale
  offset : Int32
deriving DecidableEq, Repr

/-- Size in bytes of the displacement an address asks for. Without a base the displacement is a whole
address; with one a single byte is asked for, and the encoding takes more where the offset needs it. -/
def Address.displacementSize (m : Mode) (a : Address) : Nat :=
  match a.base, m with
  | none, .bits64 => 8
  | none, _ => 4
  | some _, _ => 1

inductive RegMem where
  | reg (r : Gpr)
  | mem (a : Address)
deriving DecidableEq, Repr

inductive Instruction where
  /-- `dst op= src` with a register source. -/
  | store (op : BinaryOp) (w : Width) (dst : RegMem) (src : Gpr)
  /-- `dst op= src` with a memory source. -/
  | load (op : BinaryOp) (w : Width) (dst : Gpr) (src : Address)
  /-- `dst op= value`, with a constant as wide as the operand but of four bytes at most. -/
  | immediate (op : BinaryOp) (w : Width) (dst : RegMem) (value : Int64)
  /-- `dst op= value`, with a sign-extended byte. -/
  | shortImmediate (op : ArithOp) (w : Width) (dst : RegMem) (value : Int64)
  /-- `dst = value`, with a constant of eight bytes. -/
  | wideImmediate (dst : Gpr) (value : Int64)
  /-- `dst *= src`. -/
  | multiply (w : Width) (dst : Gpr) (src : RegMem)
  /-- `dst = src * value`. -/
  | multiplyBy (w : Width) (dst src : Gpr) (value : Int64)
  /-- `dst = src * value`, with a sign-extended byte. -/
  | multiplyByShort (w : Width) (dst src : Gpr) (value : Int64)
  /-- `dst = address of src`. -/
  | lea (w : Width) (dst : Gpr) (src : Address)
  | unary (op : UnaryOp) (w : Width) (dst : RegMem)
  | shiftBy (op : ShiftOp) (w : Width) (dst : RegMem) (count : UInt8)
  /-- Shift by the count in the low byte of CX. -/
  | shiftByCl (op : ShiftOp) (w : Width) (dst : RegMem)
  | push (src : Gpr)
  | pop (dst : Gpr)
  /-- Jump to the address in a register or in memory. -/
  | jumpTo (dst : RegMem)
  /-- Call the address in a register or in memory. -/
  | callTo (dst : RegMem)
  | ret
  | int3
  | syscall
  | hlt
  | nop
deriving DecidableEq, Repr

/-- The width of the data an instruction works on, where its mnemonic has one. -/
def Instruction.width? : Instruction → Option Width
  | .store _ w _ _ | .load _ w _ _ | .immediate _ w _ _ | .shortImmediate _ w _ _ => some w
  | .multiply w _ _ | .multiplyBy w _ _ _ | .multiplyByShort w _ _ _ | .lea w _ _ => some w
  | .unary _ w _ | .shiftBy _ w _ _ | .shiftByCl _ w _ => some w
  | .wideImmediate _ _ => some .quad
  | _ => none

/-- Branches to a record: jumps, conditional or not, and calls. -/
inductive Branch where
  | jump (condition : Option Condition)
  | call
deriving DecidableEq, Repr

/-- What a record emits. The target of a branch is a record until the code is laid out. -/
inductive Emission where
  | plain (i : Instruction)
  | branch (kind : Branch) (target : Handle)
deriving DecidableEq, Repr

end InstrStream.X86
