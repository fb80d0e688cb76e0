import InstrStream.Workspace

/-! Backends. A backend turns the list of a symbol into bytes. It may issue and edit records in the
workspace while it does so, and it reports what it cannot encode through the context. -/
namespace InstrStream

/-- One function as it passes through a backend. -/
structure Symbol where
  name : String
  /-- First record. A backend may put records in front of it. -/
  text : Option Handle
  /-- Bytes of stack the function reserves. -/
  frameSize : UInt32
  code : List UInt8 := []
deriving DecidableEq, Repr

/-- How opcodes and registers are written. -/
structure Names where
  opcode? : Opcode → Option String := Opcode.genericName?
  register? : Reg → Option String := fun _ => none

namespace Names

def opcode (n : Names) (op : Opcode) : String := (n.opcode? op).getD s!"A{op.code.toNat}"

def register (n : Names) (r : Reg) : String := (n.register? r).getD s!"R{r.number.toInt}"

end Names

/-- A backend for one target. Assembly returns the workspace also when it meets a fault, because
records issued before the fault stay issued. -/
structure Backend where
  target : Target
  names : Names := {}
  /-- Installs the backend's conventions in a new context. -/
  init : Context → Context := id
  assemble : Workspace → Symbol → Workspace × Except Fault Symbol

end InstrStream
