import InstrStream.Operand
import InstrStream.Text.Padded
import InstrStream.X86.Mode

/-! Why a record or a function cannot be encoded. -/
namespace InstrStream.X86

/-- Causes that concern the emitted stream as a whole. -/
inductive StreamError where
  | invalidBitness
  /-- A label was placed while another still waited for its instruction. -/
  | labelWaiting
  /-- The last label placed has no instruction after it. -/
  | unusedLabel
  /-- So many labels were asked for and not placed. -/
  | neverPlaced (count : Nat)
  /-- The label with this number stands before two instructions. -/
  | labelRepeated (number : Nat)
  /-- An instruction does not exist outside 64-bit mode. -/
  | only64Bit
  /-- A branch was made short and its target is not within reach of that form. -/
  | branchTooFar (m : Mode) (next target : Nat) (distance : Int)
deriving DecidableEq, Repr

/-- An address as a number of the mode's word length. -/
def Mode.addressText (m : Mode) (address : Nat) : String :=
  "0x" ++ Text.hexPadded (m.bits / 4) (address % m.addressSpace)

def StreamError.message : StreamError → String
  | .invalidBitness => "Invalid bitness"
  | .labelWaiting => "Only one label per instruction is allowed"
  | .unusedLabel => "Unused label. Did you forget to add an instruction?"
  | .neverPlaced count => s!"{count} branch target label(s) never placed"
  | .labelRepeated number =>
    "Multiple instructions with the same IP: 0x" ++ Text.hexPadded 0 number
  | .only64Bit => "The instruction can only be used in 64-bit mode"
  | .branchTooFar m next target distance =>
    "Branch distance is too far away: next_ip: " ++ m.addressText next ++ " target: " ++
      m.addressText target ++ s!", diff = {distance}, diff must fit in an i8"

inductive EncodingError where
  /-- The register does not exist in the mode or at the width. -/
  | invalidRegister (r : Reg)
  /-- A 64-bit operand in 32-bit mode. -/
  | invalidWidth
  | unsupported
  /-- The constant does not fit the instruction. -/
  | immediateOutOfRange (value : Int64)
  | invalidMemoryOperand
  /-- The record is not part of the function. -/
  | unknownBranchTarget (h : Handle)
  | stream (cause : StreamError)
deriving DecidableEq, Repr

def EncodingError.message : EncodingError → String
  | .invalidRegister r => s!"invalid register R{r.number.toInt}"
  | .invalidWidth => "64-bit operand not encodable in 32-bit mode"
  | .unsupported => "unsupported instruction or operand combination"
  | .immediateOutOfRange value => s!"immediate {value.toInt} out of range"
  | .invalidMemoryOperand => "invalid memory operand"
  | .unknownBranchTarget h => "branch target " ++ h.text ++ " is not in this function"
  | .stream cause => "assembly error: " ++ cause.message

end InstrStream.X86
