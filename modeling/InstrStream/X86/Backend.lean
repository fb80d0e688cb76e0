import InstrStream.X86.Assembly
import InstrStream.X86.Frame

/-! The x86 backends: 64-bit long mode and 32-bit protected mode. -/
namespace InstrStream.X86

def names : Names :=
  { opcode? := opcodeName?
    register? := fun r => (Gpr.ofReg? r).map Gpr.baseName }

def amd64Target : Target :=
  { name := "amd64", family := .amd64, byteOrder := .little, pointerSize := 8, registerSize := 8,
    minInstructionSize := 1 }

def i386Target : Target :=
  { name := "386", family := .i386, byteOrder := .little, pointerSize := 4, registerSize := 4,
    minInstructionSize := 1 }

/-- Frames maintain a frame pointer in 64-bit code only. -/
def init (m : Mode) (target : Target) (c : Context) : Context :=
  let framePointer := m = .bits64
  { c with framePointer }.note .debug
    (target.name ++ ": frame pointers " ++ if framePointer then "enabled" else "disabled")

/-- Adds the frame, then encodes the list. -/
def assemble (m : Mode) (w : Workspace) (s : Symbol) : Workspace × Except Fault Symbol :=
  match Frame.expand m w s with
  | .error fault => (w, .error fault)
  | .ok (w, s) => Assembly.assemble m names w s

def backend (m : Mode) (target : Target) : Backend :=
  { target, names, init := init m target, assemble := assemble m }

def amd64 : Backend := backend .bits64 amd64Target

def i386 : Backend := backend .bits32 i386Target

end InstrStream.X86
