import InstrStream.Handle

/-! Registers and operands as records hold them. Nothing is checked here: a register number, a scale
or a branch handle may be any value of its type, and a backend decides what it accepts. -/
namespace InstrStream

/-- A register number. Zero stands for no register. -/
structure Reg where
  number : Int16
deriving DecidableEq, Repr, Inhabited

namespace Reg

def none : Reg := ⟨0⟩

def isNone (r : Reg) : Bool := r = none

end Reg

inductive Operand where
  | none
  | reg (r : Reg)
  | const (value : Int64)
  /-- Memory at `base + index * scale + offset`. -/
  | mem (base index : Reg) (scale : UInt8) (offset : Int32)
  /-- The record that a branch goes to. -/
  | branch (target : Handle)
deriving DecidableEq, Repr, Inhabited

namespace Operand

/-- Memory off a single base register. -/
def based (base : Reg) (offset : Int32) : Operand := .mem base .none 1 offset

def isNone : Operand → Bool
  | .none => true
  | _ => false

def target? : Operand → Option Handle
  | .branch h => some h
  | _ => Option.none

end Operand

end InstrStream
