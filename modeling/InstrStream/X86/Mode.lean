/-! Operating modes of the processor and widths of operands. -/
namespace InstrStream.X86

/-- The word length that code is written for. -/
inductive Mode where
  | bits16
  | bits32
  | bits64
deriving DecidableEq, Repr

def Mode.bits : Mode → Nat
  | .bits16 => 16
  | .bits32 => 32
  | .bits64 => 64

def Mode.ofBits? : Nat → Option Mode
  | 16 => some .bits16
  | 32 => some .bits32
  | 64 => some .bits64
  | _ => none

def Mode.addressSpace : Mode → Nat
  | .bits16 => 0x10000
  | .bits32 => 0x100000000
  | .bits64 => 0x10000000000000000

/-- A distance between addresses. They wrap around, so of all distances that lead to the same address
it is the one nearest to zero, and of two such the negative one. -/
def Mode.wrap (m : Mode) (distance : Int) : Int := distance.bmod m.addressSpace

/-- Operand widths: 8, 16, 32 and 64 bits. -/
inductive Width where
  | byte
  | word
  | long
  | quad
deriving DecidableEq, Repr

namespace Width

def bits : Width → Nat
  | .byte => 8
  | .word => 16
  | .long => 32
  | .quad => 64

def suffix : Width → String
  | .byte => "B"
  | .word => "W"
  | .long => "L"
  | .quad => "Q"

def all : List Width := [.byte, .word, .long, .quad]

/-- The widths of operations without a byte form. -/
def wide : List Width := [.word, .long, .quad]

end Width

/-- The width of stack slots, of addresses and of indirect branch targets. Addresses are 32 bits wide
in 16-bit code too. -/
def Mode.nativeWidth : Mode → Width
  | .bits64 => .quad
  | _ => .long

end InstrStream.X86
