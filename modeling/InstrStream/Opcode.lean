/-! Opcode numbers. Numbers below `archBase` are the generic operations that every backend knows;
the others belong to a backend and mean nothing here. -/
namespace InstrStream

structure Opcode where
  code : UInt16
deriving DecidableEq, Repr, Inhabited

namespace Opcode

/-- The opcode of a record nobody has written yet. -/
def unset : Opcode := ⟨0⟩

/-- Emits nothing, and is a place a branch can name. -/
def nop : Opcode := ⟨1⟩

def jmp : Opcode := ⟨2⟩

def call : Opcode := ⟨3⟩

def ret : Opcode := ⟨4⟩

/-- First opcode number that belongs to backends. -/
def archBase : UInt16 := 64

def isGeneric (op : Opcode) : Bool := op.code < archBase

/-- Name of a generic operation. Generic numbers without an operation have none. -/
def genericName? (op : Opcode) : Option String :=
  ["XXX", "NOP", "JMP", "CALL", "RET"][op.code.toNat]?

end Opcode

end InstrStream
