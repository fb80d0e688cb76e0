import InstrStream.X86.Instruction

/-! Bytes of instructions: size prefixes, REX, opcode, ModRM, SIB, displacement, immediate, in this
order. Each instruction has exactly one form here; shorter forms that some operands allow are not
used. -/
namespace InstrStream.X86

/-- The lowest `n` bytes of a number in two's complement, lowest first. -/
def leBytes : Nat → Int → List UInt8
  | 0, _ => []
  | n + 1, v => UInt8.ofNat (v % 256).toNat :: leBytes n (v / 256)

@[simp] theorem length_leBytes (n : Nat) (v : Int) : (leBytes n v).length = n := by
  induction n generalizing v with
  | zero => rfl
  | succ n ih => simp [leBytes, ih]

def fitsByte (v : Int) : Bool := -0x80 ≤ v ∧ v ≤ 0x7f

def fitsLong (v : Int) : Bool := -0x80000000 ≤ v ∧ v ≤ 0x7fffffff

/-- Number of bytes of a constant at a width: 64-bit operations take a sign-extended long. -/
def Width.immediateSize : Width → Nat
  | .byte => 1
  | .word => 2
  | .long => 4
  | .quad => 4

def ArithOp.digit : ArithOp → Nat
  | .add => 0
  | .or => 1
  | .and => 4
  | .sub => 5
  | .xor => 6
  | .cmp => 7

/-- Opcode of the form with a register source, at byte width. -/
def BinaryOp.storeCode : BinaryOp → Nat
  | .mov => 0x88
  | .arith op => op.digit * 8
  | .test => 0x84

/-- Opcode of the form with a memory source, at byte width. TEST has one form for both orders. -/
def BinaryOp.loadCode : BinaryOp → Nat
  | .mov => 0x8a
  | .arith op => op.digit * 8 + 2
  | .test => 0x84

/-- Opcode, at byte width, and ModRM digit of the form with a constant. -/
def BinaryOp.immediateCode : BinaryOp → Nat × Nat
  | .mov => (0xc6, 0)
  | .arith op => (0x80, op.digit)
  | .test => (0xf6, 0)

def UnaryOp.opcode : UnaryOp → Nat × Nat
  | .not => (0xf6, 2)
  | .neg => (0xf6, 3)
  | .inc => (0xfe, 0)
  | .dec => (0xfe, 1)

def ShiftOp.digit : ShiftOp → Nat
  | .shl => 4
  | .shr => 5
  | .sar => 7

/-- The low bit of an opcode tells bytes from all other widths. -/
def sizedCode (w : Width) (code : Nat) : UInt8 := .ofNat (if w = .byte then code else code + 1)

def modRM (mod reg rm : Nat) : UInt8 := .ofNat (mod * 64 + reg % 8 * 8 + rm % 8)

def sib (scale : Scale) (index base : Nat) : UInt8 :=
  .ofNat (scale.exponent * 64 + index % 8 * 8 + base % 8)

namespace Address

/-- The index field of a SIB byte. The number of SP stands for no index. -/
def indexField (a : Address) : Nat :=
  match a.index with
  | some i => i.low
  | none => 4

/-- Whether the address takes a SIB byte: for an index, for a scale even without index, for a base
whose field would announce a SIB byte, and in 64-bit code for a displacement alone, since the short
form of that is relative to the next instruction there. -/
def needsSib (m : Mode) (a : Address) : Bool :=
  a.index.isSome || a.scale ≠ .one ||
    match a.base with
    | some b => b.low = 4
    | none => m = .bits64

/-- ModRM, SIB and displacement. With a base there is always a displacement. -/
def bytes (m : Mode) (reg : Nat) (a : Address) : List UInt8 :=
  match a.base with
  | none =>
    (if a.needsSib m then [modRM 0 reg 4, sib a.scale a.indexField 5] else [modRM 0 reg 5]) ++
      leBytes 4 a.offset.toInt
  | some b =>
    let short := fitsByte a.offset.toInt
    let mod := if short then 1 else 2
    (if a.needsSib m then [modRM mod reg 4, sib a.scale a.indexField b.low]
      else [modRM mod reg b.low]) ++
      leBytes (if short then 1 else 4) a.offset.toInt

end Address

namespace RegMem

def bytes (m : Mode) (reg : Nat) : RegMem → List UInt8
  | .reg r => [modRM 3 reg r.low]
  | .mem a => a.bytes m reg

def rexBits : RegMem → Nat
  | .reg r => if r.isHigh then 1 else 0
  | .mem a =>
    (if a.index.any Gpr.isHigh then 2 else 0) + (if a.base.any Gpr.isHigh then 1 else 0)

def reg? : RegMem → Option Gpr
  | .reg r => some r
  | .mem _ => none

def isMem : RegMem → Bool
  | .reg _ => false
  | .mem _ => true

end RegMem

/-- Whether a register can be named as a byte only with a REX byte: without one, its number means
the second byte of another register. -/
def Gpr.isRexByte (g : Gpr) : Bool := 4 ≤ g.number.val && g.number.val < 8

def operandSizeBytes (m : Mode) (w : Width) : List UInt8 :=
  match m, w with
  | .bits16, .long => [0x66]
  | .bits32, .word | .bits64, .word => [0x66]
  | _, _ => []

def addressSizeBytes (m : Mode) (rm : RegMem) : List UInt8 :=
  if m = .bits16 ∧ rm.isMem then [0x67] else []

/-- A REX byte, where one of its bits is set or a register asks for it. -/
def rexBytes (bits : Nat) (forced : Bool) : List UInt8 :=
  if bits = 0 ∧ !forced then [] else [.ofNat (0x40 + bits)]

/-- What comes before the operand bytes of an instruction with a ModRM byte. `quad` asks for 64-bit
operation; `byteRegs` are the registers that the instruction names as bytes. -/
def leading (m : Mode) (w : Width) (quad : Bool) (byteRegs : List Gpr) (regHigh : Bool) (rm : RegMem)
    (code : List UInt8) : List UInt8 :=
  operandSizeBytes m w ++ addressSizeBytes m rm ++
    rexBytes ((if quad then 8 else 0) + (if regHigh then 4 else 0) + rm.rexBits)
      (w = .byte && byteRegs.any Gpr.isRexByte) ++
    code

def withReg (m : Mode) (w : Width) (code : List UInt8) (reg : Gpr) (rm : RegMem) : List UInt8 :=
  leading m w (w = .quad) (reg :: rm.reg?.toList) reg.isHigh rm code ++ rm.bytes m reg.low

def withDigit (m : Mode) (w : Width) (code : List UInt8) (digit : Nat) (rm : RegMem) : List UInt8 :=
  leading m w (w = .quad) rm.reg?.toList false rm code ++ rm.bytes m digit

/-- An instruction on words of the mode's own size, which needs no operand size in 32- and 64-bit
code. -/
def wordWithDigit (m : Mode) (code : List UInt8) (digit : Nat) (rm : RegMem) : List UInt8 :=
  leading m m.nativeWidth false [] false rm code ++ rm.bytes m digit

def inOpcode (m : Mode) (w : Width) (quad : Bool) (code : Nat) (r : Gpr) : List UInt8 :=
  operandSizeBytes m w ++
    rexBytes ((if quad then 8 else 0) + (if r.isHigh then 1 else 0)) false ++
    [.ofNat (code + r.low)]

def Instruction.bytes (m : Mode) : Instruction → List UInt8
  | .store op w dst src => withReg m w [sizedCode w op.storeCode] src dst
  | .load op w dst src => withReg m w [sizedCode w op.loadCode] dst (.mem src)
  | .immediate op w dst value =>
    let (code, digit) := op.immediateCode
    withDigit m w [sizedCode w code] digit dst ++ leBytes w.immediateSize value.toInt
  | .shortImmediate op w dst value =>
    withDigit m w [0x83] op.digit dst ++ leBytes 1 value.toInt
  | .wideImmediate dst value => inOpcode m .quad true 0xb8 dst ++ leBytes 8 value.toInt
  | .multiply w dst src => withReg m w [0x0f, 0xaf] dst src
  | .multiplyBy w dst src value =>
    withReg m w [0x69] dst (.reg src) ++ leBytes w.immediateSize value.toInt
  | .multiplyByShort w dst src value =>
    withReg m w [0x6b] dst (.reg src) ++ leBytes 1 value.toInt
  | .lea w dst src => withReg m w [0x8d] dst (.mem src)
  | .unary op w dst =>
    let (code, digit) := op.opcode
    withDigit m w [sizedCode w code] digit dst
  | .shiftBy op w dst count => withDigit m w [sizedCode w 0xc0] op.digit dst ++ [count]
  | .shiftByCl op w dst => withDigit m w [sizedCode w 0xd2] op.digit dst
  | .push src => inOpcode m m.nativeWidth false 0x50 src
  | .pop dst => inOpcode m m.nativeWidth false 0x58 dst
  | .jumpTo dst => wordWithDigit m [0xff] 4 dst
  | .callTo dst => wordWithDigit m [0xff] 2 dst
  | .ret => [0xc3]
  | .int3 => [0xcc]
  | .syscall => [0x0f, 0x05]
  | .hlt => [0xf4]
  | .nop => [0x90]

/-- Whether an instruction exists in a mode. 64-bit operations exist only in 64-bit code. -/
def Instruction.existsIn (m : Mode) (i : Instruction) : Bool :=
  m = .bits64 || i.width? ≠ some .quad

end InstrStream.X86
