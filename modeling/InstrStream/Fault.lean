import InstrStream.Handle

/-! Misuse of handles and lists. A fault is the caller's error, not a property of the program being
assembled: the operation that meets one gives no result. -/
namespace InstrStream

inductive Fault where
  /-- The record is already in the list. -/
  | appendedTwice (h : Handle)
  /-- The record was not issued by this builder. -/
  | foreignRecord (h : Handle)
  /-- The builder has its bytes and takes no more records. -/
  | alreadyAssembled
  /-- The handle names no record of the pool. -/
  | outOfBounds (h : Handle)
  /-- Following links from this handle never ends. -/
  | endlessChain (h : Handle)
  /-- The handle has a label of its own and cannot share another. -/
  | labelTaken (h : Handle)
deriving DecidableEq, Repr

/-- Wording of the faults that name the record they are about. -/
def Fault.message? : Fault → Option String
  | .appendedTwice h => some (h.text ++ " appended twice")
  | .foreignRecord h => some (h.text ++ " belongs to another builder")
  | _ => none

end InstrStream
