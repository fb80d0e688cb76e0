/-! Descriptions of what code is assembled for. -/
namespace InstrStream

inductive Family where
  | amd64
  | i386
  /-- Any architecture registered by a caller. -/
  | other
deriving DecidableEq, Repr

inductive ByteOrder where
  | little
  | big
deriving DecidableEq, Repr

/-- A target architecture. Sizes are in bytes. -/
structure Target where
  name : String
  family : Family
  byteOrder : ByteOrder
  pointerSize : UInt8
  registerSize : UInt8
  minInstructionSize : UInt8
deriving DecidableEq, Repr

/-- The operating system whose conventions the code follows. -/
inductive System where
  | linux
  | darwin
  | freeBsd
  | netBsd
  | openBsd
  | windows
deriving DecidableEq, Repr

def System.name : System → String
  | .linux => "Linux"
  | .darwin => "Darwin"
  | .freeBsd => "FreeBsd"
  | .netBsd => "NetBsd"
  | .openBsd => "OpenBsd"
  | .windows => "Windows"

end InstrStream
