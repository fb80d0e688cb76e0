import InstrStream.Backend
import InstrStream.Text.Padded

/-! Listings: one line for each record of a chain, with its offset, its operation and the operands
that are present, in the order source, second source, destination. -/
namespace InstrStream.Listing

/-- An operand, with a branch written as the offset of the record it goes to. -/
def operand (names : Names) (pool : Pool) : Operand → Except Fault String
  | .none => .ok ""
  | .reg r => .ok (names.register r)
  | .const v => .ok ("$" ++ toString v.toInt)
  | .mem base index scale offset =>
    .ok ((if offset = 0 then "" else toString offset.toInt) ++
      (if base.isNone then "" else "(" ++ names.register base ++ ")") ++
      (if index.isNone then "" else "(" ++ names.register index ++ s!"*{scale.toNat})"))
  | .branch h => do return toString (← pool.get h).pc

/-- An operand that is present. A memory operand counts even if nothing of it is written. -/
def operand? (names : Names) (pool : Pool) (o : Operand) : Except Fault (Option String) :=
  if o.isNone then .ok none else some <$> operand names pool o

def operands (names : Names) (pool : Pool) (p : Payload) : Except Fault (List String) := do
  let src ← operand? names pool p.src
  let reg := if p.reg.isNone then none else some (names.register p.reg)
  let dst ← operand? names pool p.dst
  return [src, reg, dst].filterMap id

def line (names : Names) (pool : Pool) (r : Record) : Except Fault String := do
  let ops ← operands names pool r.toPayload
  let tail := if ops.isEmpty then "" else "  " ++ ", ".intercalate ops
  return Text.zeroPadded 5 r.pc ++ "  " ++ names.opcode r.op ++ tail ++ "\n"

def render (names : Names) (pool : Pool) (head : Option Handle) : Except Fault String := do
  let handles ← pool.chain head
  return String.join (← handles.mapM fun h => line names pool (pool.record h))

end InstrStream.Listing
