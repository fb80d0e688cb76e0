import InstrStream.Listing
import InstrStream.Registry

/-! Builders: the records of one function, the list they were appended to, and the bytes of its one
assembly. Records can be made and appended until the list has been assembled; after that the bytes
stay what they were. -/
namespace InstrStream

/-- A builder accepts records while it is under construction. Being assembled is final. -/
inductive Phase where
  | constructed
  | assembled
deriving DecidableEq, Repr

def Phase.name : Phase → String
  | .constructed => "Constructed"
  | .assembled => "Assembled"

/-- No backend answers to the name. -/
structure UnknownArchitecture where
  name : String
deriving DecidableEq, Repr

def UnknownArchitecture.message (e : UnknownArchitecture) : String :=
  "unknown architecture: " ++ e.name

structure Builder where
  backend : Backend
  workspace : Workspace
  first : Option Handle := none
  last : Option Handle := none
  phase : Phase := .constructed
  name : String := ""
  frameSize : UInt32 := 0
  /-- Head of the list as the backend left it. -/
  text : Option Handle := none
  code : List UInt8 := []

namespace Builder

/-- A builder for the backend that `registry` has under `arch`. Its diagnostics are noted in the
journal until another listener is set. -/
def create (registry : Registry) (arch : String) (capacity : Nat) (id : ContextId) :
    Except UnknownArchitecture Builder :=
  match registry.resolve? arch with
  | none => .error ⟨arch⟩
  | some backend =>
    let ctx := backend.init { id, target := backend.target, listener := .journal }
    let ctx := ctx.note .debug s!"builder for {arch} ({ctx.system.name}), {capacity} pooled records"
    .ok { backend, workspace := ⟨ctx, .ofCapacity capacity⟩ }

def ctx (b : Builder) : Context := b.workspace.ctx

def pool (b : Builder) : Pool := b.workspace.pool

def stats (b : Builder) : Pool.Stats := b.pool.stats

def handles (b : Builder) : Except Fault (List Handle) := b.pool.chain b.first

/-- Makes a record. It joins the list only when it is appended. -/
def newRecord (b : Builder) : Except Fault (Handle × Builder) :=
  match b.phase with
  | .assembled => .error .alreadyAssembled
  | .constructed =>
    let (h, workspace) := b.workspace.alloc
    .ok (h, { b with workspace })

/-- Why a record may not be appended, if there is a reason. -/
def refusal? (b : Builder) (h : Handle) : Option Fault :=
  match b.phase, b.pool.get? h with
  | .assembled, _ => some .alreadyAssembled
  | .constructed, none => some (.outOfBounds h)
  | .constructed, some r =>
    if r.linked then some (.appendedTwice h)
    else if r.owner ≠ some b.ctx.id then some (.foreignRecord h)
    else none

def attach (b : Builder) (h : Handle) : Builder :=
  let workspace := b.workspace.modify h fun r => { r with linked := true, link := none }
  match b.last with
  | some last =>
    { b with
      workspace := workspace.modify last fun r => { r with link := some h }
      last := some h }
  | none => { b with workspace, first := some h, last := some h }

/-- Appends a record of this builder that is in no list yet. -/
def append (b : Builder) (h : Handle) : Except Fault Builder :=
  match b.refusal? h with
  | some fault => .error fault
  | none => .ok (b.attach h)

/-- Writes a record. This is allowed at any time and for any slot. -/
def update (b : Builder) (h : Handle) (f : Record → Record) : Except Fault Builder := do
  return { b with workspace := ← b.workspace.update h f }

def setName (b : Builder) (name : String) : Builder := { b with name }

def setFrameSize (b : Builder) (frameSize : UInt32) : Builder := { b with frameSize }

def setListener (b : Builder) (listener : Listener) : Builder :=
  { b with workspace := { b.workspace with ctx := { b.ctx with listener } } }

/-- The function as it is handed to the backend. -/
def symbol (b : Builder) : Symbol := { name := b.name, text := b.first, frameSize := b.frameSize }

/-- Runs the backend on the list and keeps the bytes. After a fault the builder is still under
construction, with whatever the backend had done to the workspace. -/
def runBackend (b : Builder) : Builder × Except Fault (List UInt8) :=
  match b.backend.assemble b.workspace b.symbol with
  | (workspace, .error fault) => ({ b with workspace }, .error fault)
  | (workspace, .ok s) =>
    let reported := workspace.ctx.diagnostics.size - b.ctx.diagnostics.size
    let workspace := workspace.note .debug
      (s!"{b.name}: assembled {s.code.length} bytes for {b.backend.target.name}, " ++
        s!"{workspace.pool.stats.text}, {reported} diagnostics")
    ({ b with workspace, phase := .assembled, text := s.text, code := s.code }, .ok s.code)

/-- The bytes of the list. Only the first call that succeeds runs the backend. -/
def assemble (b : Builder) : Builder × Except Fault (List UInt8) :=
  match b.phase with
  | .constructed => b.runBackend
  | .assembled =>
    ({ b with
        workspace := b.workspace.note .debug s!"{b.name}: already assembled, returning cached bytes" },
      .ok b.code)

/-- The head of the list that listings show: after assembly, with what the backend added. -/
def listingHead (b : Builder) : Option Handle :=
  match b.phase with
  | .constructed => b.first
  | .assembled => b.text

def listing (b : Builder) : Except Fault String :=
  Listing.render b.backend.names b.pool b.listingHead

def describeHandle : Option Handle → String
  | none => "None"
  | some h => s!"Some(InstId({h.index}))"

def describe (b : Builder) : String :=
  "Builder \x7b arch: " ++ Text.quoted b.backend.target.name ++ ", name: " ++ Text.quoted b.name ++
    ", state: " ++ b.phase.name ++ ", first: " ++ describeHandle b.first ++
    ", last: " ++ describeHandle b.last ++ ", stats: " ++ b.stats.describe ++ " \x7d"

end Builder

end InstrStream
