import InstrStream.Backend
import InstrStream.X86.Emitter
import InstrStream.X86.Lowering

/-! Assembly of one function: the records of a chain become instructions, those that cannot are
reported and emit nothing, and each record learns where its instruction starts. Records that emit
nothing take the place of what follows them, and so do branches to them: consecutive targets without
an instruction between them share one label. -/
namespace InstrStream.X86.Assembly

structure Step where
  handle : Handle
  emission : Option Emission
deriving DecidableEq, Repr

def Step.emits (s : Step) : Bool := s.emission.isSome

inductive Report where
  | unsetOpcode
  | rejected (cause : EncodingError)
deriving DecidableEq, Repr

def Report.message (names : Names) (function : String) (h : Handle) (op : Opcode) : Report → String
  | .unsetOpcode => s!"{function}: {h.text}: instruction with unset opcode"
  | .rejected cause => s!"{function}: {h.text}: {names.opcode op}: {cause.message}"

def lowerRecord (m : Mode) (inFunction : Handle → Bool) (p : Payload) :
    Except Report (Option Emission) :=
  if p.op = .unset then .error .unsetOpcode
  else (lower m inFunction p).mapError .rejected

structure Lowered where
  handle : Handle
  op : Opcode
  result : Except Report (Option Emission)

/-- Lowers each record of a chain. Branches may name the records of the chain only. -/
def lowerChain (m : Mode) (pool : Pool) (handles : List Handle) : List Lowered :=
  handles.map fun h =>
    let p := (pool.record h).toPayload
    ⟨h, p.op, lowerRecord m handles.contains p⟩

def Lowered.message? (names : Names) (function : String) (l : Lowered) : Option String :=
  match l.result with
  | .ok _ => none
  | .error report => some (report.message names function l.handle l.op)

def messages (names : Names) (function : String) (lowered : List Lowered) : List String :=
  lowered.filterMap (Lowered.message? names function)

def Lowered.step (l : Lowered) : Step :=
  match l.result with
  | .ok emission => ⟨l.handle, emission⟩
  | .error _ => ⟨l.handle, none⟩

/-- The handles that some destination operand on the chain branches to. It does not matter whether
the record that holds the operand is a branch. -/
def targets (pool : Pool) (handles : List Handle) : List Handle :=
  (handles.filterMap fun h => (pool.record h).dst.target?).filter (· ∈ handles)

/-- Lets the targets without an instruction between them use the label of the first of them. -/
def shareLabels (isTarget : Handle → Bool) :
    Emitter → Option Handle → List Step → Except Fault Emitter
  | e, _, [] => .ok e
  | e, first, s :: rest =>
    match isTarget s.handle, first with
    | false, _ => shareLabels isTarget e (if s.emits then none else first) rest
    | true, none => shareLabels isTarget e (if s.emits then none else some s.handle) rest
    | true, some h =>
      match e.shareLabel s.handle h with
      | .ok e => shareLabels isTarget e (if s.emits then none else some h) rest
      | .error fault => .error fault

def placeFirst (e : Emitter) : Option Handle → Except EncodingError Emitter
  | none => .ok e
  | some h =>
    match e.place h with
    | (e, .ok ()) => .ok e
    | (_, .error err) => .error err

/-- Emits the steps, each behind the label of the first target that waits for it. A target that
nothing follows is given a NOP. With the stream come the numbers of instructions that stood in it
before each step. -/
def emitSteps (isTarget : Handle → Bool) :
    Emitter → Option Handle → List Step → Except EncodingError (Emitter × List Nat)
  | e, none, [] => .ok (e, [])
  | e, some h, [] => do return ((← placeFirst e (some h)).emit (.plain .nop), [])
  | e, first, s :: rest => do
    let first := first <|> if isTarget s.handle then some s.handle else none
    let (last, counts) ← match s.emission with
      | none => emitSteps isTarget e first rest
      | some emission => do emitSteps isTarget ((← placeFirst e first).emit emission) none rest
    return (last, e.items.size :: counts)

/-- The bytes of each instruction of a function, and the number of instructions before each step. -/
def chunks (m : Mode) (isTarget : Handle → Bool) (steps : List Step) :
    Except Fault (Except EncodingError (List (List UInt8) × List Nat)) := do
  let e ← shareLabels isTarget { mode := m } none steps
  return do
    let (e, counts) ← emitSteps isTarget e none steps
    return (← e.finalize, counts)

/-- Where instructions start that stand one after another from `pc` on. -/
def starts : Nat → List (List UInt8) → List Nat
  | _, [] => []
  | pc, chunk :: rest => pc :: starts (pc + chunk.length) rest

/-- The offset of each record: where the instruction starts that has as many before it as the record
has, or the end of the code when there is none. -/
def offsets (chunks : List (List UInt8)) (counts : List Nat) : List Nat :=
  let boundaries := (starts 0 chunks).toArray
  counts.map fun n => boundaries.getD n chunks.flatten.length

def setOffsets (pool : Pool) (offsets : List (Handle × Nat)) : Pool :=
  offsets.foldl (fun pool (h, pc) => pool.modify h fun r => { r with pc }) pool

def failureMessage (function : String) (e : EncodingError) : String :=
  s!"{function}: encoding failed: {e.message}"

/-- Encodes the chain of a symbol. When the function as a whole cannot be encoded it has no bytes and
no record changes. -/
def assemble (m : Mode) (names : Names) (w : Workspace) (s : Symbol) :
    Workspace × Except Fault Symbol :=
  match w.pool.chain s.text with
  | .error fault => (w, .error fault)
  | .ok [] => (w.note .debug s!"{s.name}: empty function", .ok { s with code := [] })
  | .ok handles =>
    let lowered := lowerChain m w.pool handles
    let steps := lowered.map Lowered.step
    let w := { w with ctx := w.ctx.reportAll (messages names s.name lowered) }
    match chunks m (targets w.pool handles).contains steps with
    | .error fault => (w, .error fault)
    | .ok (.error e) => (w.report (failureMessage s.name e), .ok { s with code := [] })
    | .ok (.ok (chunks, counts)) =>
      let code := chunks.flatten
      let w := { w with pool := setOffsets w.pool (handles.zip (offsets chunks counts)) }
      (w.note .debug s!"{s.name}: {handles.length} records, {code.length} bytes",
        .ok { s with code })

end InstrStream.X86.Assembly
