import InstrStream.Proofs.Appending

/-! Assembly happens once. A builder that has been assembled still takes calls: its records, its name, its
frame size and its listener can be changed, and it can be assembled and listed again. But its result does
not move any more, and its backend is not run a second time: a run of calls goes the same way, answers
included, whatever the backend would do. -/
namespace InstrStream

/-- One call on a builder, of any kind. -/
inductive Call where
  | newRecord
  | append (h : Handle)
  /-- Any write to the record at a handle. -/
  | update (h : Handle) (f : Record → Record)
  | setName (name : String)
  | setFrameSize (size : UInt32)
  | setListener (listener : Listener)
  | assemble
  | listing

inductive Answer where
  | done
  | made (h : Handle)
  | code (bytes : List UInt8)
  | text (listing : String)
  | fault (cause : Fault)
deriving DecidableEq, Repr

namespace Builder

/-- The builder after a call, and the answer. Only an assembly can leave something behind when it
faults. -/
def call (b : Builder) : Call → Builder × Answer
  | .newRecord =>
    match b.newRecord with
    | .ok (h, b') => (b', .made h)
    | .error cause => (b, .fault cause)
  | .append h =>
    match b.append h with
    | .ok b' => (b', .done)
    | .error cause => (b, .fault cause)
  | .update h f =>
    match b.update h f with
    | .ok b' => (b', .done)
    | .error cause => (b, .fault cause)
  | .setName name => (b.setName name, .done)
  | .setFrameSize size => (b.setFrameSize size, .done)
  | .setListener listener => (b.setListener listener, .done)
  | .assemble =>
    match b.assemble with
    | (b', .ok bytes) => (b', .code bytes)
    | (b', .error cause) => (b', .fault cause)
  | .listing =>
    match b.listing with
    | .ok text => (b, .text text)
    | .error cause => (b, .fault cause)

/-- The builder after some calls, one after another, and their answers. -/
def run (b : Builder) : List Call → Builder × List Answer
  | [] => (b, [])
  | c :: calls =>
    let (b', answer) := b.call c
    let (last, answers) := b'.run calls
    (last, answer :: answers)

/-- The same builder with a backend that would assemble in another way. -/
def withAssembly (b : Builder) (other : Workspace → Symbol → Workspace × Except Fault Symbol) : Builder :=
  { b with backend := { b.backend with assemble := other } }

/-- The builder is assembled, and its result is that of `first`. -/
structure Frozen (first b : Builder) : Prop where
  phase : b.phase = .assembled
  code : b.code = first.code
  text : b.text = first.text
  diagnostics : b.ctx.diagnostics = first.ctx.diagnostics
  stats : b.stats = first.stats

section Calls

variable {first b : Builder}

/-- Assembling again does nothing but note it. -/
theorem call_assemble (assembled : b.phase = .assembled) :
    b.call .assemble =
      ({ b with
          workspace := b.workspace.note .debug s!"{b.name}: already assembled, returning cached bytes" },
        .code b.code) := by
  simp only [call, assemble, assembled]

theorem call_newRecord (assembled : b.phase = .assembled) :
    b.call .newRecord = (b, .fault .alreadyAssembled) := by
  rw [call, newRecord_assembled assembled]

theorem call_append (assembled : b.phase = .assembled) (h : Handle) :
    b.call (.append h) = (b, .fault .alreadyAssembled) := by
  rw [call, append_assembled assembled]

theorem call_listing_fst (b : Builder) : (b.call .listing).1 = b := by
  rw [call]
  split <;> rfl

theorem frozen_refl (assembled : b.phase = .assembled) : b.Frozen b := ⟨assembled, rfl, rfl, rfl, rfl⟩

theorem Frozen.listingHead (frozen : first.Frozen b) (assembled : first.phase = .assembled) :
    b.listingHead = first.listingHead := by
  simp only [Builder.listingHead, frozen.phase, assembled, frozen.text]

/-- Every call leaves the result as it is. -/
theorem Frozen.call (frozen : first.Frozen b) (c : Call) : first.Frozen (b.call c).1 := by
  cases c with
  | newRecord =>
      rw [call_newRecord frozen.phase]
      exact frozen
  | append h =>
      rw [call_append frozen.phase]
      exact frozen
  | update h f =>
      rw [Builder.call]
      split
      · rename_i b' run
        obtain rfl := eq_of_update run
        have counts : (b.pool.modify h f).stats = first.stats := (Pool.stats_modify ..).trans frozen.stats
        exact ⟨frozen.phase, frozen.code, frozen.text, frozen.diagnostics, counts⟩
      · exact frozen
  | setName _ | setFrameSize _ | setListener _ =>
      exact ⟨frozen.phase, frozen.code, frozen.text, frozen.diagnostics, frozen.stats⟩
  | assemble =>
      rw [call_assemble frozen.phase]
      exact ⟨frozen.phase, frozen.code, frozen.text, frozen.diagnostics, frozen.stats⟩
  | listing =>
      rw [call_listing_fst]
      exact frozen

theorem Frozen.run (frozen : first.Frozen b) (calls : List Call) : first.Frozen (b.run calls).1 := by
  induction calls generalizing b with
  | nil => exact frozen
  | cons c calls ih => exact ih (frozen.call c)

section Independence

variable (other : Workspace → Symbol → Workspace × Except Fault Symbol)

/-- Once a builder is assembled, no call looks at the way its backend assembles. -/
theorem call_withAssembly (assembled : b.phase = .assembled) (c : Call) :
    (b.withAssembly other).call c = ((b.call c).1.withAssembly other, (b.call c).2) := by
  have assembled' : (b.withAssembly other).phase = .assembled := assembled
  cases c with
  | newRecord => rw [call_newRecord assembled, call_newRecord assembled']
  | append h => rw [call_append assembled, call_append assembled']
  | update h f =>
      simp only [call, update, withAssembly]
      cases b.workspace.update h f <;> rfl
  | setName _ | setFrameSize _ | setListener _ => rfl
  | assemble =>
      rw [call_assemble assembled, call_assemble assembled']
      rfl
  | listing =>
      have same : (b.withAssembly other).listing = b.listing := rfl
      simp only [call, same]
      cases b.listing <;> rfl

theorem run_withAssembly (assembled : b.phase = .assembled) (calls : List Call) :
    (b.withAssembly other).run calls = ((b.run calls).1.withAssembly other, (b.run calls).2) := by
  induction calls generalizing b with
  | nil => rfl
  | cons c calls ih =>
      have stays := ((frozen_refl assembled).call c).phase
      simp only [run, call_withAssembly other assembled c, ih stays]

end Independence

end Calls

/-- Being assembled is final. After an assembly that went through and any calls since then the builder is
assembled, assembling it gives the same bytes, and it takes no more records; diagnostics, statistics and the
head of the listing are what they were. The backend plays no part in this: with any other way of assembling
the calls go the same. -/
theorem assembled_for_good {b : Builder} {code : List UInt8} (returned : b.assemble.2 = .ok code)
    (calls : List Call) :
    let first := b.assemble.1
    let last := (first.run calls).1
    last.phase = .assembled ∧
      (last.call .assemble).2 = .code code ∧
      last.call .newRecord = (last, .fault .alreadyAssembled) ∧
      (∀ h, last.call (.append h) = (last, .fault .alreadyAssembled)) ∧
      last.ctx.diagnostics = first.ctx.diagnostics ∧
      last.stats = first.stats ∧
      last.listingHead = first.listingHead ∧
      ∀ other, (first.withAssembly other).run calls =
        (last.withAssembly other, (first.run calls).2) := by
  intro first last
  have assembled : first.phase = .assembled := phase_assemble returned
  have frozen : first.Frozen last := (frozen_refl assembled).run calls
  refine ⟨frozen.phase, ?_, call_newRecord frozen.phase, call_append frozen.phase, frozen.diagnostics,
    frozen.stats, frozen.listingHead assembled, fun other => run_withAssembly other assembled calls⟩
  rw [call_assemble frozen.phase, frozen.code, (assemble_returned returned).2]

/-- A builder with one record, whose backend puts another one behind it. -/
def trailed : Builder := ({ sampled with backend := Sample.trailer }.run [.newRecord, .append ⟨0⟩]).1

/-- Even when the record is made a list without an end, the bytes and the counts stay those of one run of
the backend. -/
theorem assembled_for_good_trailed :
    let last := (trailed.assemble.1.run
      [.update ⟨0⟩ fun r => { r with link := some ⟨0⟩ }, .setFrameSize 64, .newRecord, .assemble]).1
    trailed.assemble.2 = .ok [0x90, 0x90] ∧ (last.call .assemble).2 = .code [0x90, 0x90] ∧
      last.stats = ⟨2, 2, 0⟩ ∧ last.listingHead = some ⟨0⟩ := by
  intro last
  have returned : trailed.assemble.2 = .ok [0x90, 0x90] := by decide +kernel
  obtain ⟨-, code, -, -, -, stats, head, -⟩ := assembled_for_good returned
    [.update ⟨0⟩ fun r => { r with link := some ⟨0⟩ }, .setFrameSize 64, .newRecord, .assemble]
  exact ⟨returned, code, stats.trans (by decide +kernel), head.trans (by decide +kernel)⟩

end Builder

end InstrStream
