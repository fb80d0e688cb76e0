import InstrStream.Record
import InstrStream.X86.Encoding

/-! Lowering: the instruction that a record asks for, or why there is none. -/
namespace InstrStream.X86

inductive Resolved where
  | reg (r : Gpr)
  | mem (a : Address)
  | imm (value : Int64)
deriving DecidableEq, Repr

namespace Mode

def addressReg (m : Mode) (r : Reg) : Except EncodingError (Option Gpr) :=
  if r.isNone then .ok none else some <$> m.gpr r m.nativeWidth

/-- The address of a memory operand. SP cannot be an index. -/
def address (m : Mode) : Operand → Except EncodingError Address
  | .mem base index scale offset =>
    match Scale.ofByte? scale with
    | none => .error .invalidMemoryOperand
    | some scale =>
      if index = sp then .error .invalidMemoryOperand
      else do
        let base ← m.addressReg base
        let index ← m.addressReg index
        return { base, index, scale, offset }
  | _ => .error .invalidMemoryOperand

def resolve (m : Mode) (w : Width) : Operand → Except EncodingError Resolved
  | .reg r => .reg <$> m.gpr r w
  | .mem base index scale offset => .mem <$> m.address (.mem base index scale offset)
  | .const value => .ok (.imm value)
  | .none | .branch _ => .error .unsupported

def resolveRegMem (m : Mode) (w : Width) (o : Operand) : Except EncodingError RegMem := do
  match ← m.resolve w o with
  | .reg r => return .reg r
  | .mem a => return .mem a
  | .imm _ => throw .unsupported

def resolveReg (m : Mode) (w : Width) (o : Operand) : Except EncodingError Gpr := do
  match ← m.resolve w o with
  | .reg r => return r
  | _ => throw .unsupported

end Mode

/-- Whether a constant has a place in an operation at a width. Below 64 bits, signed and unsigned
readings are both taken. -/
def Width.fits (w : Width) (v : Int64) : Bool :=
  match w with
  | .byte => -0x80 ≤ v.toInt ∧ v.toInt ≤ 0xff
  | .word => -0x8000 ≤ v.toInt ∧ v.toInt ≤ 0xffff
  | .long => -0x80000000 ≤ v.toInt ∧ v.toInt ≤ 0xffffffff
  | .quad => fitsLong v.toInt

def Width.check (w : Width) (v : Int64) : Except EncodingError Int64 :=
  if w.fits v then .ok v else .error (.immediateOutOfRange v)

/-- `dst op= v`. Arithmetic on more than a byte takes the form with a sign-extended byte where it can. -/
def lowerImmediate (op : BinaryOp) (w : Width) (dst : RegMem) (v : Int64) :
    Except EncodingError Instruction :=
  match op with
  | .arith a =>
    if w ≠ .byte ∧ fitsByte v.toInt then .ok (.shortImmediate a w dst v)
    else .immediate (.arith a) w dst <$> w.check v
  | op => .immediate op w dst <$> w.check v

/-- `dst op= src`. Only a move to a 64-bit register takes constants of any size. -/
def lowerBinary (op : BinaryOp) (w : Width) : Resolved → Resolved → Except EncodingError Instruction
  | .reg d, .reg s => .ok (.store op w (.reg d) s)
  | .mem d, .reg s => .ok (.store op w (.mem d) s)
  | .reg d, .mem s => .ok (.load op w d s)
  | .reg d, .imm v =>
    if op = .mov ∧ w = .quad ∧ !fitsLong v.toInt then .ok (.wideImmediate d v)
    else lowerImmediate op w (.reg d) v
  | .mem d, .imm v => lowerImmediate op w (.mem d) v
  | _, _ => .error .unsupported

/-- `dst *= src`, or with a constant `dst = reg * src`, where no `reg` means `dst`. -/
def lowerImul (m : Mode) (w : Width) (p : Payload) : Except EncodingError Instruction := do
  let dst ← m.resolveReg w p.dst
  match ← m.resolve w p.src with
  | .reg s => return .multiply w dst (.reg s)
  | .mem s => return .multiply w dst (.mem s)
  | .imm v =>
    let src ← if p.reg.isNone then pure dst else m.gpr p.reg w
    if fitsByte v.toInt then return .multiplyByShort w dst src v
    else return .multiplyBy w dst src (← w.check v)

def lowerLea (m : Mode) (w : Width) (p : Payload) : Except EncodingError Instruction := do
  let dst ← m.resolve w p.dst
  let src ← m.resolve w p.src
  match dst, src with
  | .reg d, .mem s => return .lea w d s
  | _, _ => throw .unsupported

def lowerShift (m : Mode) (op : ShiftOp) (w : Width) (p : Payload) :
    Except EncodingError Instruction := do
  let dst ← m.resolveRegMem w p.dst
  match p.src with
  | .const v =>
    if 0 ≤ v.toInt ∧ v.toInt < 256 then return .shiftBy op w dst (.ofNat v.toInt.toNat)
    else throw (.immediateOutOfRange v)
  | .reg r => if r = cx then return .shiftByCl op w dst else throw .unsupported
  | _ => throw .unsupported

/-- The register of a push or pop, which works on whole words only. -/
def lowerStack (m : Mode) (w : Width) (o : Operand) : Except EncodingError Gpr :=
  if w = m.nativeWidth then m.resolveReg w o
  else .error (if w = .quad then .invalidWidth else .unsupported)

def lowerBranch (inFunction : Handle → Bool) (kind : Branch) (target : Handle) :
    Except EncodingError (Option Emission) :=
  if inFunction target then .ok (some (.branch kind target)) else .error (.unknownBranchTarget target)

def lowerTransfer (m : Mode) (inFunction : Handle → Bool) (kind : Branch)
    (indirect : RegMem → Instruction) (o : Operand) : Except EncodingError (Option Emission) :=
  match o with
  | .branch target => lowerBranch inFunction kind target
  | o => do return some (.plain (indirect (← m.resolveRegMem m.nativeWidth o)))

def lowerMnemonic (m : Mode) (inFunction : Handle → Bool) (p : Payload) :
    Mnemonic → Except EncodingError (Option Emission)
  | .binary op w => do
    let src ← m.resolve w p.src
    let dst ← m.resolve w p.dst
    -- A comparison reads its operands the other way round.
    let i ← if op = .arith .cmp then lowerBinary op w src dst else lowerBinary op w dst src
    return some (.plain i)
  | .imul w => do return some (.plain (← lowerImul m w p))
  | .lea w => do return some (.plain (← lowerLea m w p))
  | .unary op w => do return some (.plain (.unary op w (← m.resolveRegMem w p.dst)))
  | .shift op w => do return some (.plain (← lowerShift m op w p))
  | .push w => do return some (.plain (.push (← lowerStack m w p.src)))
  | .pop w => do return some (.plain (.pop (← lowerStack m w p.dst)))
  | .jump c =>
    match p.dst with
    | .branch target => lowerBranch inFunction (.jump (some c)) target
    | _ => .error .unsupported
  | .int3 => .ok (some (.plain .int3))
  | .syscall => if m = .bits64 then .ok (some (.plain .syscall)) else .error .unsupported
  | .hlt => .ok (some (.plain .hlt))

/-- What a record emits: nothing, one instruction or one branch. `inFunction` tells which records a
branch may name. -/
def lower (m : Mode) (inFunction : Handle → Bool) (p : Payload) :
    Except EncodingError (Option Emission) :=
  if p.op = .nop then .ok none
  else if p.op = .ret then .ok (some (.plain .ret))
  else if p.op = .jmp then lowerTransfer m inFunction (.jump none) .jumpTo p.dst
  else if p.op = .call then lowerTransfer m inFunction .call .callTo p.dst
  else
    match Mnemonic.ofOpcode? p.op with
    | some mnemonic => lowerMnemonic m inFunction p mnemonic
    | none => .error .unsupported

end InstrStream.X86
