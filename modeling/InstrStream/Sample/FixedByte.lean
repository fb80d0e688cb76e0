import InstrStream.Backend

/-! Sample backends that emit one fixed byte for each record. They show what a builder hands to its
backend without the weight of a real instruction set. -/
namespace InstrStream.Sample

/-- The target that all sample backends name. -/
def target : Target :=
  { name := "stub", family := .other, byteOrder := .little, pointerSize := 8, registerSize := 8,
    minInstructionSize := 1 }

/-- Gives the records of a list the offsets `n`, `n + 1`, ... -/
def number (pool : Pool) : Nat → List Handle → Pool
  | _, [] => pool
  | n, h :: rest => number (pool.modify h fun r => { r with pc := n }) (n + 1) rest

/-- Emits `90` for each record, so that a record's offset is its position. -/
def assemblePlain (w : Workspace) (s : Symbol) : Workspace × Except Fault Symbol :=
  match w.pool.chain s.text with
  | .error fault => (w, .error fault)
  | .ok handles =>
    ({ w with pool := number w.pool 0 handles },
      .ok { s with code := s.code ++ List.replicate handles.length 0x90 })

/-- Puts a new return record at the end of the list, then emits `90` for each record. The record is
issued before the list is looked at, so it stays issued when the list is faulty. -/
def assembleTrailer (w : Workspace) (s : Symbol) : Workspace × Except Fault Symbol :=
  let (extra, w) := w.alloc
  let w := w.modify extra fun r => { r with op := .ret }
  match w.pool.chain s.text with
  | .error fault => (w, .error fault)
  | .ok handles =>
    match handles.getLast? with
    | some tail => assemblePlain (w.modify tail fun r => { r with link := some extra }) s
    | none => assemblePlain w { s with text := some extra }

/-- Emits `cc` for each record with an opcode, and reports the others. -/
def assemblePicky (w : Workspace) (s : Symbol) : Workspace × Except Fault Symbol :=
  match w.pool.chain s.text with
  | .error fault => (w, .error fault)
  | .ok handles =>
    let (unset, written) := handles.partition fun h => (w.pool.record h).op = .unset
    let messages := unset.map fun h => h.text ++ ": unset opcode"
    ({ w with ctx := w.ctx.reportAll messages },
      .ok { s with code := s.code ++ List.replicate written.length 0xcc })

def plain : Backend := { target, assemble := assemblePlain }

def trailer : Backend := { target, assemble := assembleTrailer }

def picky : Backend :=
  { target, init := fun c => { c with framePointer := true }, assemble := assemblePicky }

end InstrStream.Sample
