/-! Handles of instruction records. A handle is a position in a pool of records, never a reference:
any number can be formed, and whether it names a record is for the pool to say. -/
namespace InstrStream

/-- The name of a record: its index in the pool that issued it. -/
structure Handle where
  index : Nat
deriving DecidableEq, Repr, Inhabited

def Handle.text (h : Handle) : String := s!"inst{h.index}"

end InstrStream
