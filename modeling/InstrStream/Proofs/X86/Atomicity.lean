import InstrStream.Proofs.Finality
import InstrStream.Proofs.X86.StorageIndependence

/-! Assembly as a whole. Links can be written at any time, so the list of a builder may lead anywhere. If it
leads past every slot, that is found on the first walk along the list, before a record is made or written:
assembly faults, and the builder is what it was. If it ends and all its records have been issued, there is
nothing left that assembly could stumble over, because handles in operands are compared and never followed. -/
namespace InstrStream.X86

open Assembly X86.Frame

/-- A list that cannot be walked to its end is met before anything is changed, with a frame and without. -/
theorem assemble_of_chain_fault (m : Mode) {w : Workspace} {s : Symbol} {fault : Fault}
    (stuck : w.pool.chain s.text = .error fault) : assemble m w s = (w, .error fault) := by
  have frameless : Assembly.assemble m names w s = (w, .error fault) := by
    rw [Assembly.assemble, stuck]
  rw [assemble, expand]
  cases text : s.text with
  | none => exact frameless
  | some head =>
      by_cases noFrame : s.frameSize = 0
      · simp only [if_pos noFrame]
        exact frameless
      · rw [text] at stuck
        simp only [if_neg noFrame, stuck]

/-- Assembly does all or nothing. A builder whose list leads to a handle past every slot is not assembled and
stays exactly as it was, while one whose list ends and has only issued records is assembled, whatever the
operands of the records are. -/
theorem assemble_all_or_nothing {m : Mode} {backend : Backend} (known : IsBackend m backend) {b : Builder}
    (own : b.backend = backend) (under : b.phase = .constructed) :
    (∀ hs h, b.pool.Path b.first hs (some h) → b.pool.capacity + b.pool.overflow ≤ h.index →
      b.assemble = (b, .error (.outOfBounds h))) ∧
      ∀ hs, b.pool.Path b.first hs none → (∀ h ∈ hs, h.index < b.pool.issued) →
        ∃ code, b.assemble.2 = .ok code ∧ b.assemble.1.phase = .assembled := by
  have assembles : b.backend.assemble = assemble m := by rw [own, known.assemble_eq]
  constructor
  · intro hs h path past
    have lacks : b.pool.get? h = none := (b.pool.get?_eq_none_iff_size h).mpr past
    have stuck : b.workspace.pool.chain b.symbol.text = .error (.outOfBounds h) :=
      Pool.chain_eq_outOfBounds lacks path
    apply Builder.assemble_of_fault under
    rw [assembles, assemble_of_chain_fault m stuck]
  · intro hs path issued
    obtain ⟨w, s, run, -⟩ := assemble_produces (s := b.symbol) known (Pool.chain_eq_ok_iff.mpr path) issued
    rw [← own] at run
    obtain ⟨note, result⟩ := Builder.assemble_of_symbol under run
    exact ⟨s.code, congrArg Prod.snd result, congrArg (·.1.phase) result⟩

/-- A builder with a frame, a jump past every slot and a return whose link is given. -/
def relinked (link : Option Handle) : Builder :=
  ((blankBuilder 1 ⟨0⟩).run
    [.setFrameSize 16, .newRecord, .newRecord,
     .update ⟨0⟩ fun r => { r with op := .jmp, dst := .branch ⟨99⟩ },
     .update ⟨1⟩ fun r => { r with op := .ret },
     .append ⟨0⟩, .append ⟨1⟩, .update ⟨1⟩ fun r => { r with link }]).1

/-- With its return linked past every slot the builder stays as it was; with the end restored it is
assembled, and the target of the jump does not matter. -/
theorem assemble_all_or_nothing_relinked :
    (relinked (some ⟨2⟩)).assemble = (relinked (some ⟨2⟩), .error (.outOfBounds ⟨2⟩)) ∧
      ∃ code, (relinked none).assemble.2 = .ok code ∧ (relinked none).assemble.1.phase = .assembled := by
  have stuck : (relinked (some ⟨2⟩)).pool.Path (some ⟨0⟩) [⟨0⟩, ⟨1⟩] (some ⟨2⟩) :=
    .visit rfl (.visit rfl (.stop _))
  have ends : (relinked none).pool.Path (some ⟨0⟩) [⟨0⟩, ⟨1⟩] none := .visit rfl (.visit rfl (.stop _))
  constructor
  · exact (assemble_all_or_nothing (.inl ⟨rfl, rfl⟩) rfl rfl).1 _ _ stuck (by decide)
  · exact (assemble_all_or_nothing (.inl ⟨rfl, rfl⟩) rfl rfl).2 _ ends (by decide)

end InstrStream.X86
