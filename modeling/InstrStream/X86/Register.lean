import InstrStream.X86.EncodingError
import InstrStream.X86.Mode

/-! General purpose registers. Records number them from 1; the processor numbers them from 0. -/
namespace InstrStream.X86

def cx : Reg := ⟨2⟩

def sp : Reg := ⟨5⟩

def bp : Reg := ⟨6⟩

/-- A general purpose register by its hardware number. -/
structure Gpr where
  number : Fin 16
deriving DecidableEq, Repr

namespace Gpr

def ofReg? (r : Reg) : Option Gpr :=
  let n := r.number.toInt
  if h : 1 ≤ n ∧ n ≤ 16 then some ⟨⟨(n - 1).toNat, by omega⟩⟩ else none

/-- The three bits that go into an operand field. -/
def low (g : Gpr) : Nat := g.number.val % 8

/-- Whether the number has a fourth bit, which only a REX byte can hold. -/
def isHigh (g : Gpr) : Bool := 8 ≤ g.number.val

/-- Names without a width, in hardware order. -/
def baseNames : List String :=
  ["AX", "CX", "DX", "BX", "SP", "BP", "SI", "DI",
   "R8", "R9", "R10", "R11", "R12", "R13", "R14", "R15"]

def baseName (g : Gpr) : String := baseNames.getD g.number.val ""

def name (g : Gpr) : Width → String
  | .quad => if g.isHigh then g.baseName else "R" ++ g.baseName
  | .long => if g.isHigh then g.baseName ++ "D" else "E" ++ g.baseName
  | .word => if g.isHigh then g.baseName ++ "W" else g.baseName
  | .byte =>
    if g.isHigh then g.baseName ++ "L"
    else ["AL", "CL", "DL", "BL", "SPL", "BPL", "SIL", "DIL"].getD g.number.val ""

end Gpr

/-- Number of registers that 32-bit code can name at a width. -/
def Width.registersIn32 : Width → Nat
  | .byte => 4
  | _ => 8

/-- The register that `r` names at width `w`. In 32-bit code there is no REX byte: no 64-bit registers,
eight registers in all and only four of them as bytes. -/
def Mode.gpr (m : Mode) (r : Reg) (w : Width) : Except EncodingError Gpr :=
  match Gpr.ofReg? r with
  | none => .error (.invalidRegister r)
  | some g =>
    if m = .bits32 then
      if w = .quad then .error .invalidWidth
      else if w.registersIn32 ≤ g.number.val then .error (.invalidRegister r)
      else .ok g
    else .ok g

end InstrStream.X86
