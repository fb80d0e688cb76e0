import InstrStream.X86.Instruction

/-! A decoder for 32- and 64-bit code: what the processor reads in a sequence of bytes. It follows the
opcode map and the formats of prefixes, ModRM, SIB, displacements and immediates, and knows nothing of
how instructions are encoded here. It covers the general purpose instructions that backends emit, and
gives no reading to any other. -/
namespace InstrStream.X86.Decoder

/-- What an instruction does. -/
inductive Operation where
  | binary (op : BinaryOp)
  | multiply
  | lea
  | unary (op : UnaryOp)
  | shift (op : ShiftOp)
  | push
  | pop
  | jump
  | jumpIf (c : Condition)
  | call
  | ret
  | int3
  | syscall
  | hlt
  | nop
deriving DecidableEq, Repr

/-- An operand as the processor reads it. -/
inductive Arg where
  | reg (w : Width) (r : Gpr)
  /-- The second byte of a register. -/
  | highByte (r : Gpr)
  | mem (base : Option Gpr) (index : Option (Gpr × Scale)) (displacement : Int)
  /-- Memory so far from the next instruction. -/
  | memFromNext (displacement : Int)
  | imm (value : Int)
  /-- Code so far from the next instruction. -/
  | codeFromNext (displacement : Int)
deriving DecidableEq, Repr

/-- An instruction as the processor reads it, its destination first. -/
structure Reading where
  operation : Operation
  width : Option Width
  args : List Arg
deriving DecidableEq, Repr

structure Rex where
  w : Bool
  r : Bool
  x : Bool
  b : Bool
deriving DecidableEq, Repr

structure Prefixes where
  operandSize : Bool := false
  rex : Option Rex := none
deriving DecidableEq, Repr

/-- A REX byte has 4 in its upper half and one flag in each bit of the lower. -/
def Rex.ofByte? (byte : UInt8) : Option Rex :=
  let n := byte.toNat
  if n / 16 = 4 then some ⟨n / 8 % 2 = 1, n / 4 % 2 = 1, n / 2 % 2 = 1, n % 2 = 1⟩ else none

namespace Prefixes

def w (p : Prefixes) : Bool := p.rex.any Rex.w

def r (p : Prefixes) : Bool := p.rex.any Rex.r

def x (p : Prefixes) : Bool := p.rex.any Rex.x

def b (p : Prefixes) : Bool := p.rex.any Rex.b

/-- Width of the operands of an instruction that is not on bytes by its opcode. -/
def width (p : Prefixes) (byte : Bool) : Width :=
  if byte then .byte else if p.w then .quad else if p.operandSize then .word else .long

end Prefixes

/-- The operand size byte, then the REX byte, which only 64-bit code has. -/
def readPrefixes (m : Mode) (bytes : List UInt8) : Prefixes × List UInt8 :=
  let (operandSize, bytes) : Bool × List UInt8 := match bytes with
    | [] => (false, [])
    | byte :: rest => if byte = 0x66 then (true, rest) else (false, byte :: rest)
  match bytes with
  | [] => (⟨operandSize, none⟩, [])
  | byte :: rest =>
    match if m = .bits64 then Rex.ofByte? byte else none with
    | some rex => (⟨operandSize, some rex⟩, rest)
    | none => (⟨operandSize, none⟩, byte :: rest)

/-- The number that bytes spell, lowest first. -/
def unsigned : List UInt8 → Nat
  | [] => 0
  | byte :: rest => byte.toNat + 256 * unsigned rest

/-- Number of values of so many bytes. -/
def span : Nat → Nat
  | 0 => 1
  | n + 1 => 256 * span n

/-- Reads a signed number of `n` bytes. -/
def readSigned (n : Nat) (bytes : List UInt8) : Option (Int × List UInt8) :=
  if n ≤ bytes.length then
    some ((unsigned (bytes.take n) : Int).bmod (span n), bytes.drop n)
  else none

/-- The register with these three bits and this fourth. -/
def gprOf (high : Bool) (low : Nat) : Gpr :=
  ⟨⟨low % 8 + if high then 8 else 0, by split <;> omega⟩⟩

/-- A register operand. As bytes, the numbers 4 to 7 mean the second bytes of the first four registers
unless there is a REX byte. -/
def regArg (p : Prefixes) (w : Width) (r : Gpr) : Arg :=
  if w = .byte ∧ p.rex = none ∧ 4 ≤ r.number.val then .highByte (gprOf false (r.number.val - 4))
  else .reg w r

/-- What the upper two and lower three bits of ModRM stand for. -/
inductive RegOrMem where
  | reg (r : Gpr)
  | mem (a : Arg)
deriving DecidableEq, Repr

def RegOrMem.arg (p : Prefixes) (w : Width) : RegOrMem → Arg
  | .reg r => regArg p w r
  | .mem a => a

def scaleOf : Nat → Scale
  | 0 => .one
  | 1 => .two
  | 2 => .four
  | _ => .eight

/-- Number of displacement bytes by the upper two bits of ModRM. -/
def displacementSize : Nat → Nat
  | 0 => 0
  | 1 => 1
  | _ => 4

/-- SIB and displacement. No index has number 4, and with no displacement by ModRM no base has its lower
bits 5: a displacement takes its place. -/
def readSib (p : Prefixes) (mod : Nat) : List UInt8 → Option (Arg × List UInt8)
  | [] => none
  | byte :: bytes => do
    let n := byte.toNat
    let index := gprOf p.x (n / 8 % 8)
    let noBase := mod = 0 ∧ n % 8 = 5
    let (d, bytes) ← readSigned (if noBase then 4 else displacementSize mod) bytes
    return (.mem (if noBase then none else some (gprOf p.b (n % 8)))
      (if index.number.val = 4 then none else some (index, scaleOf (n / 64))) d, bytes)

/-- ModRM and what it brings along: the register field and the other operand. -/
def readModRM (m : Mode) (p : Prefixes) : List UInt8 → Option (Nat × RegOrMem × List UInt8)
  | [] => none
  | byte :: bytes =>
    let n := byte.toNat
    let mod := n / 64
    let reg := n / 8 % 8
    if mod = 3 then some (reg, .reg (gprOf p.b (n % 8)), bytes)
    else if n % 8 = 4 then do
      let (a, bytes) ← readSib p mod bytes
      return (reg, .mem a, bytes)
    else if mod = 0 ∧ n % 8 = 5 then do
      let (d, bytes) ← readSigned 4 bytes
      return (reg, .mem (if m = .bits64 then .memFromNext d else .mem none none d), bytes)
    else do
      let (d, bytes) ← readSigned (displacementSize mod) bytes
      return (reg, .mem (.mem (some (gprOf p.b (n % 8))) none d), bytes)

def arithOp? : Nat → Option ArithOp
  | 0 => some .add
  | 1 => some .or
  | 4 => some .and
  | 5 => some .sub
  | 6 => some .xor
  | 7 => some .cmp
  | _ => none

def shiftOp? : Nat → Option ShiftOp
  | 4 => some .shl
  | 5 => some .shr
  | 7 => some .sar
  | _ => none

def condition? : Nat → Option Condition
  | 2 => some .below
  | 3 => some .aboveEqual
  | 4 => some .equal
  | 5 => some .notEqual
  | 6 => some .belowEqual
  | 7 => some .above
  | 12 => some .less
  | 13 => some .greaterEqual
  | 14 => some .lessEqual
  | 15 => some .greater
  | _ => none

/-- The operands of an instruction with a ModRM byte. -/
inductive Shape where
  | rmReg
  | regRm
  /-- Register and memory, never two registers. -/
  | regMem
  /-- With an immediate, of one byte if it is short. -/
  | regRmImm (short : Bool)
  | rmImm (short : Bool)
  /-- With an unsigned byte. -/
  | rmCount
  /-- With the low byte of CX. -/
  | rmCl
  | rm
  /-- On whole words, whatever the REX byte says. -/
  | rmNative
deriving DecidableEq, Repr

structure Entry where
  operation : Operation
  shape : Shape
  byte : Bool
deriving DecidableEq, Repr

/-- The opcode map of instructions with a ModRM byte. `digit` is its register field; opcodes behind the
byte 0f are counted from 0f00 on. -/
def entry? (code digit : Nat) : Option Entry :=
  let byte := code % 2 = 0
  if code < 0x40 ∧ code % 8 < 4 then
    (arithOp? (code / 8)).map fun op =>
      ⟨.binary (.arith op), if code % 4 < 2 then .rmReg else .regRm, byte⟩
  else
    match code with
    | 0x69 => some ⟨.multiply, .regRmImm false, false⟩
    | 0x6b => some ⟨.multiply, .regRmImm true, false⟩
    | 0x80 | 0x81 => (arithOp? digit).map fun op => ⟨.binary (.arith op), .rmImm false, byte⟩
    | 0x83 => (arithOp? digit).map fun op => ⟨.binary (.arith op), .rmImm true, false⟩
    | 0x84 | 0x85 => some ⟨.binary .test, .rmReg, byte⟩
    | 0x88 | 0x89 => some ⟨.binary .mov, .rmReg, byte⟩
    | 0x8a | 0x8b => some ⟨.binary .mov, .regRm, byte⟩
    | 0x8d => some ⟨.lea, .regMem, false⟩
    | 0xc0 | 0xc1 => (shiftOp? digit).map fun op => ⟨.shift op, .rmCount, byte⟩
    | 0xc6 | 0xc7 => if digit = 0 then some ⟨.binary .mov, .rmImm false, byte⟩ else none
    | 0xd2 | 0xd3 => (shiftOp? digit).map fun op => ⟨.shift op, .rmCl, byte⟩
    | 0xf6 | 0xf7 =>
      match digit with
      | 0 => some ⟨.binary .test, .rmImm false, byte⟩
      | 2 => some ⟨.unary .not, .rm, byte⟩
      | 3 => some ⟨.unary .neg, .rm, byte⟩
      | _ => none
    | 0xfe | 0xff =>
      match digit with
      | 0 => some ⟨.unary .inc, .rm, byte⟩
      | 1 => some ⟨.unary .dec, .rm, byte⟩
      | 2 => if byte then none else some ⟨.call, .rmNative, false⟩
      | 4 => if byte then none else some ⟨.jump, .rmNative, false⟩
      | _ => none
    | 0x0faf => some ⟨.multiply, .regRm, false⟩
    | _ => none

/-- Number of bytes of an immediate. Only a move to a register takes eight. -/
def immediateSize (w : Width) (short : Bool) : Nat :=
  if short then 1
  else
    match w with
    | .byte => 1
    | .word => 2
    | .long | .quad => 4

/-- The operands of an instruction with a ModRM byte, in order. -/
def Shape.read (p : Prefixes) (w : Width) (reg : Nat) (rm : RegOrMem) (bytes : List UInt8) :
    Shape → Option (List Arg × List UInt8)
  | .rmReg => some ([rm.arg p w, regArg p w (gprOf p.r reg)], bytes)
  | .regRm => some ([regArg p w (gprOf p.r reg), rm.arg p w], bytes)
  | .regMem =>
    match rm with
    | .reg _ => none
    | .mem a => some ([regArg p w (gprOf p.r reg), a], bytes)
  | .regRmImm short => do
    let (v, bytes) ← readSigned (immediateSize w short) bytes
    return ([regArg p w (gprOf p.r reg), rm.arg p w, .imm v], bytes)
  | .rmImm short => do
    let (v, bytes) ← readSigned (immediateSize w short) bytes
    return ([rm.arg p w, .imm v], bytes)
  | .rmCount =>
    match bytes with
    | [] => none
    | count :: bytes => some ([rm.arg p w, .imm count.toNat], bytes)
  | .rmCl => some ([rm.arg p w, .reg .byte (gprOf false 1)], bytes)
  | .rm => some ([rm.arg p w], bytes)
  | .rmNative => if p.operandSize then none else some ([rm.arg p w], bytes)

def Entry.width (m : Mode) (p : Prefixes) (e : Entry) : Width :=
  if e.shape = .rmNative then m.nativeWidth else p.width e.byte

/-- What follows an opcode. -/
inductive Kind where
  | nothing (op : Operation)
  /-- Nothing: the opcode names a register. -/
  | stack (op : Operation)
  /-- An immediate as wide as the register that the opcode names. -/
  | moveImm
  /-- A displacement of so many bytes. -/
  | relative (op : Operation) (size : Nat)
  | modRM
deriving DecidableEq, Repr

def kind (code : Nat) : Kind :=
  match code / 8, code / 16 with
  | 10, _ => .stack .push
  | 11, _ => .stack .pop
  | 23, _ => .moveImm
  | _, 7 => ((condition? (code % 16)).map fun c => .relative (.jumpIf c) 1).getD .modRM
  | _, 0xf8 => ((condition? (code % 16)).map fun c => .relative (.jumpIf c) 4).getD .modRM
  | _, _ =>
    match code with
    | 0x90 => .nothing .nop
    | 0xc3 => .nothing .ret
    | 0xcc => .nothing .int3
    | 0xe8 => .relative .call 4
    | 0xe9 => .relative .jump 4
    | 0xeb => .relative .jump 1
    | 0xf4 => .nothing .hlt
    | 0x0f05 => .nothing .syscall
    | _ => .modRM

def readOpcode : List UInt8 → Option (Nat × List UInt8)
  | [] => none
  | [byte] => some (byte.toNat, [])
  | byte :: next :: bytes =>
    if byte = 0x0f then some (0x0f00 + next.toNat, bytes) else some (byte.toNat, next :: bytes)

/-- What stands behind the prefixes. -/
def readBody (m : Mode) (p : Prefixes) (bytes : List UInt8) : Option (Reading × List UInt8) := do
  let (code, bytes) ← readOpcode bytes
  match kind code with
  | .nothing op =>
    if p = {} ∧ (op = .syscall → m = .bits64) then return (⟨op, none, []⟩, bytes) else none
  | .stack op =>
    if p.operandSize then none
    else return (⟨op, some m.nativeWidth, [.reg m.nativeWidth (gprOf p.b (code % 8))]⟩, bytes)
  | .moveImm =>
    let w := p.width false
    let (v, bytes) ← readSigned (w.bits / 8) bytes
    return (⟨.binary .mov, some w, [.reg w (gprOf p.b (code % 8)), .imm v]⟩, bytes)
  | .relative op size =>
    if p = {} then
      let (d, bytes) ← readSigned size bytes
      return (⟨op, none, [.codeFromNext d]⟩, bytes)
    else none
  | .modRM =>
    let (reg, rm, bytes) ← readModRM m p bytes
    let e ← entry? code reg
    let (args, bytes) ← e.shape.read p (e.width m p) reg rm bytes
    return (⟨e.operation, some (e.width m p), args⟩, bytes)

/-- Reads one instruction, and returns the bytes behind it. There is no reading of 16-bit code. -/
def read (m : Mode) (bytes : List UInt8) : Option (Reading × List UInt8) :=
  if m = .bits16 then none
  else
    let (p, bytes) := readPrefixes m bytes
    readBody m p bytes

end InstrStream.X86.Decoder
