import InstrStream.Fault
import InstrStream.X86.Layout

/-! Streams of instructions with labels. A label belongs to the record it was made for and is named by
that record's handle. A record may share the label of another instead of having one. -/
namespace InstrStream.X86

structure Item where
  label : Option Handle
  emission : Emission
deriving DecidableEq, Repr

structure Emitter where
  mode : Mode
  /-- Records that have a label, the newest first. -/
  labels : List Handle := []
  /-- Records that share the label of another, the newest first. -/
  aliases : List (Handle × Handle) := []
  /-- Records whose label has been placed. -/
  placed : List Handle := []
  /-- A label placed before an instruction that has not come yet. -/
  waiting : Option Handle := none
  items : Array Item := #[]
deriving DecidableEq, Repr

namespace Emitter

def create (bits : Nat) : Except EncodingError Emitter :=
  match Mode.ofBits? bits with
  | some mode => .ok { mode }
  | none => .error (.stream .invalidBitness)

/-- The record whose label `h` uses. Sharing is resolved when it is agreed on, so one step suffices. -/
def owner (e : Emitter) (h : Handle) : Handle := (e.aliases.lookup h).getD h

def label? (e : Emitter) (h : Handle) : Option Handle :=
  if e.owner h ∈ e.labels then some (e.owner h) else none

def ensureLabel (e : Emitter) (h : Handle) : Emitter :=
  if e.owner h ∈ e.labels then e else { e with labels := e.owner h :: e.labels }

/-- Lets `h` use the label of `other`. A record with a label of its own keeps it. -/
def shareLabel (e : Emitter) (h other : Handle) : Except Fault Emitter :=
  if h ∈ e.labels then .error (.labelTaken h)
  else if h = other then .ok e
  else .ok { e with aliases := (h, e.owner other) :: e.aliases }

def isPlaced (e : Emitter) (h : Handle) : Bool := e.owner h ∈ e.placed

/-- Places the label that `h` uses before the next instruction. When another label is waiting there it
is refused, but the label has been made. -/
def place (e : Emitter) (h : Handle) : Emitter × Except EncodingError Unit :=
  let e := e.ensureLabel h
  match e.waiting with
  | some _ => (e, .error (.stream .labelWaiting))
  | none => ({ e with waiting := some (e.owner h), placed := e.owner h :: e.placed }, .ok ())

def push (e : Emitter) (emission : Emission) : Emitter :=
  { e with items := e.items.push ⟨e.waiting, emission⟩, waiting := none }

def branch (e : Emitter) (kind : Branch) (target : Handle) : Emitter :=
  let e := e.ensureLabel target
  e.push (.branch kind (e.owner target))

def emit (e : Emitter) : Emission → Emitter
  | .plain i => e.push (.plain i)
  | .branch kind target => e.branch kind target

def syscall (e : Emitter) : Except EncodingError Emitter :=
  if e.mode = .bits64 then .ok (e.emit (.plain .syscall)) else .error .unsupported

def unplaced (e : Emitter) : List Handle := e.labels.filter (· ∉ e.placed)

/-- Labels are numbered from 1 in the order they were made. -/
def labelNumber (e : Emitter) (h : Handle) : Nat := e.labels.length - e.labels.idxOf h

/-- The newest label that stands before more than one instruction. -/
def repeated? (e : Emitter) : Option Handle :=
  let used := e.items.toList.filterMap Item.label
  e.labels.find? fun h => 1 < used.count h

/-- The piece of an item. The target of a branch is the position of its label. -/
def piece (e : Emitter) (item : Item) : Except EncodingError Piece :=
  match item.emission with
  | .plain i =>
    if i.existsIn e.mode then .ok (.plain (i.bytes e.mode)) else .error (.stream .only64Bit)
  | .branch kind target =>
    match e.items.toList.findIdx? (fun i => i.label = some target) with
    | some position => .ok (.branch kind position)
    | none => .error (.stream (.neverPlaced 1))

def finalize (e : Emitter) : Except EncodingError (List (List UInt8)) :=
  if e.unplaced ≠ [] then .error (.stream (.neverPlaced e.unplaced.length))
  else if e.items.isEmpty then .ok []
  else if e.waiting.isSome then .error (.stream .unusedLabel)
  else
    match e.repeated? with
    | some h => .error (.stream (.labelRepeated (e.labelNumber h)))
    | none => do (Layout.chunks e.mode (← e.items.toList.mapM e.piece)).mapError .stream

end Emitter

end InstrStream.X86
