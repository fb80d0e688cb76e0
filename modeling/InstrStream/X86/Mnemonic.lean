import InstrStream.Opcode
import InstrStream.X86.Mode

/-! The opcodes of the x86 backends: which operation, at which width, each number stands for. Opcode
numbers follow the order of `Mnemonic.all`, from the first number that belongs to backends. -/
namespace InstrStream.X86

/-- Two-operand operations that have a form with a sign-extended byte. -/
inductive ArithOp where
  | add
  | sub
  | and
  | or
  | xor
  | cmp
deriving DecidableEq, Repr

inductive BinaryOp where
  | mov
  | arith (op : ArithOp)
  | test
deriving DecidableEq, Repr

inductive UnaryOp where
  | neg
  | not
  | inc
  | dec
deriving DecidableEq, Repr

inductive ShiftOp where
  | shl
  | shr
  | sar
deriving DecidableEq, Repr

/-- Conditions of jumps: equality, signed order, unsigned order. -/
inductive Condition where
  | equal
  | notEqual
  | less
  | lessEqual
  | greater
  | greaterEqual
  | below
  | belowEqual
  | above
  | aboveEqual
deriving DecidableEq, Repr

namespace BinaryOp

def all : List BinaryOp :=
  [.mov, .arith .add, .arith .sub, .arith .and, .arith .or, .arith .xor, .arith .cmp, .test]

def stem : BinaryOp → String
  | .mov => "MOV"
  | .arith .add => "ADD"
  | .arith .sub => "SUB"
  | .arith .and => "AND"
  | .arith .or => "OR"
  | .arith .xor => "XOR"
  | .arith .cmp => "CMP"
  | .test => "TEST"

end BinaryOp

namespace UnaryOp

def all : List UnaryOp := [.neg, .not, .inc, .dec]

def stem : UnaryOp → String
  | .neg => "NEG"
  | .not => "NOT"
  | .inc => "INC"
  | .dec => "DEC"

end UnaryOp

namespace ShiftOp

def all : List ShiftOp := [.shl, .shr, .sar]

def stem : ShiftOp → String
  | .shl => "SHL"
  | .shr => "SHR"
  | .sar => "SAR"

end ShiftOp

namespace Condition

def all : List Condition :=
  [.equal, .notEqual, .less, .lessEqual, .greater, .greaterEqual, .below, .belowEqual, .above,
   .aboveEqual]

/-- The jump mnemonic. Unsigned conditions are named for the flags they test. -/
def mnemonic : Condition → String
  | .equal => "JEQ"
  | .notEqual => "JNE"
  | .less => "JLT"
  | .lessEqual => "JLE"
  | .greater => "JGT"
  | .greaterEqual => "JGE"
  | .below => "JCS"
  | .belowEqual => "JLS"
  | .above => "JHI"
  | .aboveEqual => "JCC"

end Condition

inductive Mnemonic where
  | binary (op : BinaryOp) (w : Width)
  | imul (w : Width)
  | lea (w : Width)
  | unary (op : UnaryOp) (w : Width)
  | shift (op : ShiftOp) (w : Width)
  | push (w : Width)
  | pop (w : Width)
  | jump (c : Condition)
  | int3
  | syscall
  | hlt
deriving DecidableEq, Repr

namespace Mnemonic

def name : Mnemonic → String
  | .binary op w => op.stem ++ w.suffix
  | .imul w => "IMUL" ++ w.suffix
  | .lea w => "LEA" ++ w.suffix
  | .unary op w => op.stem ++ w.suffix
  | .shift op w => op.stem ++ w.suffix
  | .push w => "PUSH" ++ w.suffix
  | .pop w => "POP" ++ w.suffix
  | .jump c => c.mnemonic
  | .int3 => "INT3"
  | .syscall => "SYSCALL"
  | .hlt => "HLT"

/-- All mnemonics in the order of their opcode numbers. -/
def all : List Mnemonic :=
  (BinaryOp.all.flatMap fun op => Width.all.map (.binary op)) ++
  Width.wide.map .imul ++
  Width.wide.map .lea ++
  (UnaryOp.all.flatMap fun op => Width.all.map (.unary op)) ++
  (ShiftOp.all.flatMap fun op => Width.all.map (.shift op)) ++
  [.push .long, .push .quad, .pop .long, .pop .quad] ++
  Condition.all.map .jump ++
  [.int3, .syscall, .hlt]

def ofOpcode? (op : Opcode) : Option Mnemonic :=
  if op.isGeneric then none else all[op.code.toNat - Opcode.archBase.toNat]?

def opcode (m : Mnemonic) : Opcode := ⟨Opcode.archBase + (all.idxOf m).toUInt16⟩

end Mnemonic

def opcodeName? (op : Opcode) : Option String :=
  if op.isGeneric then op.genericName? else (Mnemonic.ofOpcode? op).map Mnemonic.name

def opcodeNamed? (name : String) : Option Opcode :=
  match [Opcode.unset, .nop, .jmp, .call, .ret].find? fun op => op.genericName? = some name with
  | some op => some op
  | none => (Mnemonic.all.find? fun m => m.name = name).map Mnemonic.opcode

end InstrStream.X86
