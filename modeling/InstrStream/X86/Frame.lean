import InstrStream.Backend
import InstrStream.X86.Mnemonic
import InstrStream.X86.Register

/-! Stack frames. A function that reserves stack gets a prologue in front of its list, and each return
becomes an epilogue that ends in a new return. The record of the old return is the first of the
epilogue, so that branches to it run the epilogue too. -/
namespace InstrStream.X86.Frame

/-- A record made while a frame is added. It counts as part of a list from the start. -/
def newRecord (w : Workspace) (p : Payload) : Handle × Workspace :=
  let (h, w) := w.alloc
  (h, w.modify h fun r => { r with toPayload := p, linked := true })

def newRecords : Workspace → List Payload → List Handle × Workspace
  | w, [] => ([], w)
  | w, p :: rest =>
    let (h, w) := newRecord w p
    let (hs, w) := newRecords w rest
    (h :: hs, w)

def sizeOperand (size : UInt32) : Operand := .const (.ofNat size.toNat)

def reserve (m : Mode) (size : UInt32) : Payload :=
  { op := Mnemonic.opcode (.binary (.arith .sub) m.nativeWidth), src := sizeOperand size, dst := .reg sp }

def release (m : Mode) (size : UInt32) : Payload :=
  { op := Mnemonic.opcode (.binary (.arith .add) m.nativeWidth), src := sizeOperand size, dst := .reg sp }

def enter (m : Mode) : List Payload :=
  [{ op := Mnemonic.opcode (.push m.nativeWidth), src := .reg bp },
   { op := Mnemonic.opcode (.binary .mov m.nativeWidth), src := .reg sp, dst := .reg bp }]

def leave (m : Mode) : Payload := { op := Mnemonic.opcode (.pop m.nativeWidth), dst := .reg bp }

def prologue (m : Mode) (framePointer : Bool) (size : UInt32) : List Payload :=
  (if framePointer then enter m else []) ++ [reserve m size]

/-- What follows the release of the frame, up to and including the return. -/
def epilogueTail (m : Mode) (framePointer : Bool) (ret : Payload) : List Payload :=
  (if framePointer then [leave m] else []) ++ [ret]

def expandReturn (m : Mode) (size : UInt32) (w : Workspace) (h : Handle) : Workspace :=
  let saved := w.pool.record h
  let (tail, w) := newRecords w (epilogueTail m w.ctx.framePointer saved.toPayload)
  let w := w.modify h fun r => { r with toPayload := release m size }
  { w with pool := w.pool.linkAll saved.link (h :: tail) }

def summary (s : Symbol) (entry returns : List Handle) : String :=
  s!"{s.name}: frame of {s.frameSize.toNat} bytes, {entry.length} prologue records, " ++
    s!"{returns.length} returns"

/-- Adds the frame of a symbol. A symbol without stack or without records is left alone. -/
def expand (m : Mode) (w : Workspace) (s : Symbol) : Except Fault (Workspace × Symbol) :=
  match s.text with
  | none => .ok (w, s)
  | some head =>
    if s.frameSize = 0 then .ok (w, s)
    else
      match w.pool.chain (some head) with
      | .error fault => .error fault
      | .ok handles =>
        let returns := handles.filter fun h => (w.pool.record h).op = .ret
        let w := returns.foldl (expandReturn m s.frameSize) w
        let (entry, w) := newRecords w (prologue m w.ctx.framePointer s.frameSize)
        let w := { w with pool := w.pool.linkAll (some head) entry }
        .ok (w.note .debug (summary s entry returns), { s with text := entry.head? })

end InstrStream.X86.Frame
