import InstrStream.Proofs.Appending
import InstrStream.Proofs.X86.FrameExpansion

/-! Builders whose name, frame size and listener are set along the way. None of that touches the records
or the list, and what is edited before assembly changes neither the backend nor what its context was set
up with, so a builder that is about to be assembled still is the job that it was created as. -/
namespace InstrStream

/-- The histories of a builder with settings. -/
inductive History.Configured (b : Builder) : History → Prop
  | start : Configured b ⟨b, []⟩
  | edit {x : History} {e : Edit} : Configured b x → x.Allows e → Configured b (x.step e)
  | setName {x : History} (name : String) :
      Configured b x → Configured b { x with builder := x.builder.setName name }
  | setFrameSize {x : History} (size : UInt32) :
      Configured b x → Configured b { x with builder := x.builder.setFrameSize size }
  | setListener {x : History} (listener : Listener) :
      Configured b x → Configured b { x with builder := x.builder.setListener listener }

/-- All of these calls are allowed, one after another. -/
def History.AllowsAll (x : History) : List Edit → Prop
  | [] => True
  | e :: es => x.Allows e ∧ (x.step e).AllowsAll es

theorem History.Configured.edits {b : Builder} {x : History} (history : Configured b x) {es : List Edit}
    (allowed : x.AllowsAll es) : Configured b (es.foldl step x) := by
  induction es generalizing x with
  | nil => exact history
  | cons e es ih => exact ih (history.edit allowed.1) allowed.2

namespace Builder

/-- Two states of one job before its assembly. -/
structure SameJob (b b' : Builder) : Prop where
  backend : b'.backend = b.backend
  framePointer : b'.ctx.framePointer = b.ctx.framePointer
  diagnostics : b'.ctx.diagnostics = b.ctx.diagnostics

theorem SameJob.refl (b : Builder) : b.SameJob b := ⟨rfl, rfl, rfl⟩

theorem SameJob.trans {b b' b'' : Builder} (first : b.SameJob b') (second : b'.SameJob b'') :
    b.SameJob b'' :=
  ⟨second.backend.trans first.backend, second.framePointer.trans first.framePointer,
    second.diagnostics.trans first.diagnostics⟩

variable {b : Builder} {hs : List Handle}

theorem sameJob_alloc (b : Builder) : b.SameJob { b with workspace := b.workspace.alloc.2 } := by
  have agrees := b.workspace.agrees_alloc
  refine ⟨rfl, ?_, ?_⟩
  · change b.workspace.alloc.2.ctx.framePointer = b.workspace.ctx.framePointer
    rw [agrees]
  · change b.workspace.alloc.2.ctx.diagnostics = b.workspace.ctx.diagnostics
    rw [agrees]

theorem sameJob_attach (b : Builder) (h : Handle) : b.SameJob (b.attach h) := by
  have ctx := ctx_attach b h
  refine ⟨?_, by rw [ctx], by rw [ctx]⟩
  unfold attach
  split <;> rfl

/-- Settings leave the list alone. -/
theorem Lists.of_settings (lists : b.Lists hs) {b' : Builder} (phase : b'.phase = b.phase)
    (pool : b'.pool = b.pool) (first : b'.first = b.first) (last : b'.last = b.last)
    (id : b'.ctx.id = b.ctx.id) : b'.Lists hs := by
  constructor
  · rw [phase]
    exact lists.phase
  · rw [pool, first]
    exact lists.path
  · rw [last]
    exact lists.last
  · rw [pool]
    exact lists.issued
  · rw [pool]
    exact lists.linked
  · rw [pool, id]
    exact lists.owner

end Builder

namespace History

variable {b : Builder} {x : History}

theorem sameJob_update (x : History) (h : Handle) (f : Record → Record) :
    x.builder.SameJob (x.update h f).builder := by
  rw [update]
  split
  · rename_i builder run
    rw [Builder.eq_of_update run]
    exact ⟨rfl, rfl, rfl⟩
  · exact .refl _

/-- Before assembly every call goes on with the same job. -/
theorem sameJob_step (lists : x.builder.Lists x.appended) {e : Edit} (allowed : x.Allows e) :
    (x.step e).builder.phase = .assembled ∨ x.builder.SameJob (x.step e).builder := by
  cases e with
  | newRecord =>
      right
      rw [step, Builder.newRecord_eq lists.phase]
      exact Builder.sameJob_alloc x.builder
  | append h =>
      right
      rw [step]
      split
      · rename_i builder run
        obtain ⟨-, rfl⟩ := Builder.append_eq_ok_iff.mp run
        exact Builder.sameJob_attach x.builder h
      · exact .refl _
  | setPayload h other => exact .inr (sameJob_update x h _)
  | write h payload pc => exact .inr (sameJob_update x h _)
  | relink h link => exact .inr (sameJob_update x h _)
  | assemble =>
      obtain ⟨code, run⟩ := allowed
      exact .inl (Builder.phase_assemble run)

/-- A builder is assembled, or it lists its appended records and is the job that it was created as. -/
theorem Configured.assembled_or_lists (start : b.Lists []) (history : Configured b x) :
    x.builder.phase = .assembled ∨ x.builder.Lists x.appended ∧ b.SameJob x.builder := by
  induction history with
  | start => exact .inr ⟨start, .refl b⟩
  | @edit x e _ allowed ih =>
      rcases ih with assembled | ⟨lists, job⟩
      · exact .inl (assembled_step assembled allowed)
      · rcases lists_step lists allowed with assembled | lists'
        · exact .inl assembled
        · refine (sameJob_step lists allowed).imp_right ?_
          intro job'
          exact ⟨lists', job.trans job'⟩
  | setName name _ ih =>
      refine ih.imp_right ?_
      rintro ⟨lists, job⟩
      exact ⟨lists.of_settings rfl rfl rfl rfl rfl, job.trans ⟨rfl, rfl, rfl⟩⟩
  | setFrameSize size _ ih =>
      refine ih.imp_right ?_
      rintro ⟨lists, job⟩
      exact ⟨lists.of_settings rfl rfl rfl rfl rfl, job.trans ⟨rfl, rfl, rfl⟩⟩
  | setListener listener _ ih =>
      refine ih.imp_right ?_
      rintro ⟨lists, job⟩
      exact ⟨lists.of_settings rfl rfl rfl rfl rfl, job.trans ⟨rfl, rfl, rfl⟩⟩

end History

end InstrStream
