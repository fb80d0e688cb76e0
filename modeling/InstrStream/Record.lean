import InstrStream.Opcode
import InstrStream.Operand

/-! Instruction records. The payload is what the caller says about the instruction; the other fields
say whose record it is, where it stands in a list and which offset a backend gave it. -/
namespace InstrStream

/-- Identity of the context that issued a record. It owns nothing. -/
structure ContextId where
  number : Nat
deriving DecidableEq, Repr, Inhabited

/-- Opcode, operands and scratch bits of one instruction. -/
structure Payload where
  op : Opcode := .unset
  src : Operand := .none
  /-- Second source register of three-operand forms. -/
  reg : Reg := .none
  dst : Operand := .none
  mark : UInt16 := 0
deriving DecidableEq, Repr, Inhabited

structure Record extends Payload where
  /-- The issuing context, or none for a slot that was never issued. -/
  owner : Option ContextId := none
  /-- Next record in program order. -/
  link : Option Handle := none
  /-- Byte offset within the assembled function. -/
  pc : Int := 0
  /-- Set once the record has entered a list. -/
  linked : Bool := false
deriving DecidableEq, Repr, Inhabited

namespace Record

/-- A record of context `id` with all else at its default. -/
def fresh (id : ContextId) : Record := { owner := some id }

/-- Takes over the payload of `other`; owner, link, offset and list membership stay. -/
def setPayload (r other : Record) : Record := { r with toPayload := other.toPayload }

end Record

end InstrStream
