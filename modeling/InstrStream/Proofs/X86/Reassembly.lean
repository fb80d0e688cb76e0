import InstrStream.Proofs.X86.Atomicity
import InstrStream.Proofs.X86.Diagnostics
import InstrStream.Proofs.X86.StrayBranches
import Mathlib.Data.List.Perm.Subperm

/-! Assembling twice. A list that went through assembly has its frame, so it can be assembled once more as a
function without one. Nothing that decides the outcome was changed the first time: lowering, labels and layout
read payloads and links, and only offsets are written behind the frame. So the second run finds the same
program, comes to the same code or the same failure, reports the same and writes the offsets that are there. -/
namespace InstrStream

namespace Pool

variable {p q : Pool} {hs : List Handle}

/-- Pools with the same records. -/
theorem eq_of_get? (capacity : q.capacity = p.capacity) (issued : q.issued = p.issued)
    (same : ∀ h, q.get? h = p.get? h) : q = p := by
  have size : q.block.size = p.block.size := capacity
  have used : q.used = p.used := by rw [used_eq, capacity, issued, ← used_eq]
  have block : q.block = p.block := by
    apply Array.ext_getElem?
    intro i
    have here := same ⟨i⟩
    simp only [get?, size] at here
    split at here
    · exact here
    · rw [Array.getElem?_eq_none (by omega), Array.getElem?_eq_none (by omega)]
  have extra : q.extra = p.extra := by
    apply Array.ext_getElem?
    intro i
    have behind : ¬ p.block.size + i < p.block.size := by omega
    simpa only [get?, size, if_neg behind, Nat.add_sub_cancel_left] using same ⟨p.block.size + i⟩
  cases p
  cases q
  cases block
  cases used
  cases extra
  rfl

/-- Two states of a pool between which nothing was written but offsets into records of a list. -/
structure OffsetsOnly (p q : Pool) (hs : List Handle) : Prop where
  capacity : q.capacity = p.capacity
  issued : q.issued = p.issued
  onList : ∀ h ∈ hs, ∃ pc, q.get? h = (p.get? h).map fun r => { r with pc }
  offList : ∀ h ∉ hs, q.get? h = p.get? h

theorem OffsetsOnly.refl (p : Pool) (hs : List Handle) : p.OffsetsOnly p hs where
  capacity := rfl
  issued := rfl
  onList h _ := by
    refine ⟨(p.record h).pc, ?_⟩
    cases found : p.get? h with
    | none => rfl
    | some r => rw [record_eq_of_get? found, Option.map_some]
  offList _ _ := rfl

/-- If the offsets are the same as well, nothing was changed at all. -/
theorem OffsetsOnly.eq (only : p.OffsetsOnly q hs) (same : ∀ h ∈ hs, (q.record h).pc = (p.record h).pc) :
    q = p := by
  refine eq_of_get? only.capacity only.issued fun h => ?_
  by_cases met : h ∈ hs
  · obtain ⟨pc, written⟩ := only.onList h met
    have same_pc := same h met
    rw [record, record, written] at same_pc
    rw [written]
    cases found : p.get? h with
    | none => rfl
    | some r =>
        rw [found] at same_pc
        obtain rfl : pc = r.pc := same_pc
        rfl
  · exact only.offList h met

end Pool

namespace Context

theorem individual_tell (c : Context) (message : String) : (c.tell message).individual = c.individual := by
  unfold tell
  split <;> rfl

theorem individual_reportAll (c : Context) (messages : List String) :
    (c.reportAll messages).individual = c.individual := by
  induction messages generalizing c with
  | nil => rfl
  | cons message messages ih => exact (ih (c.report message)).trans (individual_tell c message)

end Context

namespace X86

open Assembly X86.Frame

section Encoding

variable (m : Mode) (w : Workspace) (s : Symbol)

/-- Encoding issues no record outside the pool. -/
theorem individual_encode : (Assembly.assemble m names w s).1.ctx.individual = w.ctx.individual := by
  unfold Assembly.assemble
  split
  · rfl
  · rfl
  · simp only
    split
    · exact Context.individual_reportAll _ _
    · exact (Context.individual_tell _ _).trans (Context.individual_reportAll _ _)
    · exact Context.individual_reportAll _ _

theorem offsetsOnly_setOffsets (pool : Pool) {offs : List (Handle × Nat)} {hs : List Handle}
    (inside : ∀ x ∈ offs, x.1 ∈ hs) : pool.OffsetsOnly (setOffsets pool offs) hs where
  capacity := setOffsets_keeps Pool.capacity_modify pool offs
  issued := issued_setOffsets pool offs
  onList h _ := by
    obtain ⟨pc, written⟩ := get?_setOffsets pool offs h
    exact ⟨pc, written⟩
  offList h off := by
    apply get?_setOffsets_of_notMem
    intro met
    obtain ⟨x, on, rfl⟩ := List.mem_map.mp met
    exact off (inside x on)

variable {m w s} {hs : List Handle}

theorem expand_of_frameless (frameless : s.frameSize = 0) : expand m w s = .ok (w, s) := by
  rw [expand]
  cases s.text with
  | none => rfl
  | some head => exact if_pos frameless

/-- Without a frame nothing is written but offsets, whether the function can be encoded or not. -/
theorem assemble_frameless (chain : w.pool.chain s.text = .ok hs) (frameless : s.frameSize = 0) :
    ∃ w' s', assemble m w s = (w', .ok s') ∧ w.pool.OffsetsOnly w'.pool hs ∧
      w'.ctx.individual = w.ctx.individual := by
  obtain ⟨w', s', run, outcome⟩ := assemble_outcome m names chain
  have individual := individual_encode m w s
  rw [run] at individual
  refine ⟨w', s', by rw [assemble, expand_of_frameless frameless]; exact run, ?_, individual⟩
  rcases outcome with ⟨cs, done⟩ | ⟨e, failed⟩
  · rw [done.pool]
    exact offsetsOnly_setOffsets w.pool fun x met => (List.of_mem_zip met).1
  · rw [failed.pool]
    exact .refl w.pool hs

end Encoding

section Production

variable {m : Mode} {b : Backend} {w w' : Workspace} {s s' : Symbol} {hs : List Handle}
  {text : List (Handle × Payload)} (known : IsBackend m b) (chain : w.pool.chain s.text = .ok hs)
  (issued : ∀ h ∈ hs, h.index < w.pool.issued) (produced : Produced m w w' s s' hs text)

include chain issued produced in
/-- All records of an assembled list have been issued. -/
theorem Produced.lt_issued {h : Handle} (met : h ∈ text.map Prod.fst) : h.index < w'.pool.issued := by
  rcases produced.mem_iff.mp met with on | between
  · have inside : hs ⊆ text.map Prod.fst := fun k on => produced.mem_iff.mpr (.inl on)
    have fits := ((Pool.chain_eq_ok_iff.mp chain).nodup.subperm inside).length_le
    have count := produced.issued
    rw [List.length_map] at fits
    exact Nat.lt_of_lt_of_le (issued h on) (by omega)
  · exact between.2

include known chain issued produced in
/-- What is told about a list is what its program says about it. -/
theorem Produced.delivered (run : b.assemble w s = (w', .ok s')) :
    w.ctx.Delivered w'.ctx (reportsFor m text s.name ++ failureReport s.name (layoutFor m text)) := by
  obtain ⟨w₁, head, expanded, spliced⟩ := expand_spliced m w s hs chain issued
  obtain ⟨shared, last, share, -, emit, -⟩ := exists_stream m (distinct_stepsOf spliced.path.nodup)
    fun kind t => branches_stepsOf
  obtain ⟨_, _, encode, delivered⟩ := delivered_assemble (s := { s with text := head })
    (Pool.chain_eq_ok_iff.mpr spliced.path) share emit
  rw [known.assemble_eq, assemble, expanded] at run
  obtain ⟨rfl, -⟩ := Prod.mk.inj (run.symm.trans encode)
  have all := (delivered_expand m expanded).trans delivered
  have same := all.recorded.symm.trans produced.diagnostics
  rw [List.append_cancel_left_eq] at same
  rwa [same] at all

/-- Where no record was issued, what is not laid out keeps its offset. -/
theorem keptOffset_of_none_new {p q : Pool} (none_new : q.issued = p.issued) (h : Handle) :
    keptOffset p q h = (p.record h).pc := by
  rw [keptOffset, none_new, if_neg]
  rintro ⟨new, old⟩
  exact absurd old (Nat.not_lt.mpr new)

/-- Between two states of a list that had the same program no offset differs. -/
theorem Produced.pc_again {w'' : Workspace} {t t' : Symbol}
    (first : Produced m w w' s s' hs text) (again : Produced m w' w'' t t' (text.map Prod.fst) text)
    (none_new : w''.pool.issued = w'.pool.issued) {h : Handle} (met : h ∈ text.map Prod.fst) :
    (w''.pool.record h).pc = (w'.pool.record h).pc := by
  cases layout : layoutFor m text with
  | ok cs => rw [again.placed cs layout h met, first.placed cs layout h met]
  | error e => rw [again.kept h (.inl ⟨e, layout⟩), keptOffset_of_none_new none_new]

end Production

/-- Assembly is idempotent and touches only offsets. An assembled list comes to the same code and the same
messages once more, and nothing at all is changed by that. Without a frame no run changes anything but the
offsets of the records on the list; if the list has no end, it changes nothing. -/
theorem reassembly_idempotent {m : Mode} {b : Backend} (known : IsBackend m b) :
    (∀ (w : Workspace) (s : Symbol) hs, w.pool.chain s.text = .ok hs →
      (∀ h ∈ hs, h.index < w.pool.issued) →
      ∃ w' s' w'' s'' messages, b.assemble w s = (w', .ok s') ∧
        b.assemble w' { name := s.name, text := s'.text, frameSize := 0 } = (w'', .ok s'') ∧
        s''.code = s'.code ∧ w.ctx.Delivered w'.ctx messages ∧ w'.ctx.Delivered w''.ctx messages ∧
        w''.pool = w'.pool ∧ w''.ctx.individual = w'.ctx.individual) ∧
    ∀ (w : Workspace) (s : Symbol), s.frameSize = 0 →
      (∀ hs, w.pool.chain s.text = .ok hs →
        ∃ w' s', b.assemble w s = (w', .ok s') ∧ w.pool.OffsetsOnly w'.pool hs ∧
          w'.ctx.individual = w.ctx.individual) ∧
      ∀ fault, w.pool.chain s.text = .error fault → b.assemble w s = (w, .error fault) := by
  constructor
  · intro w s hs chain issued
    obtain ⟨w', s', run, first⟩ := assemble_produces known chain issued
    set text := framed m s.frameSize w.ctx.framePointer w.pool.issued (w.pool.program hs)
    let t : Symbol := { name := s.name, text := s'.text, frameSize := 0 }
    have chain' : w'.pool.chain t.text = .ok (text.map Prod.fst) := first.assembled.chain
    have issued' : ∀ h ∈ text.map Prod.fst, h.index < w'.pool.issued :=
      fun h met => first.lt_issued chain issued met
    obtain ⟨w'', s'', rerun, again⟩ := assemble_produces known chain' issued'
    have same_text : framed m t.frameSize w'.ctx.framePointer w'.pool.issued
        (w'.pool.program (text.map Prod.fst)) = text := by
      rw [framed, if_pos (.inl rfl), first.program]
    rw [same_text] at again
    obtain ⟨_, _, rerun', only, individual⟩ := assemble_frameless (m := m) chain' rfl
    rw [← known.assemble_eq] at rerun'
    obtain ⟨rfl, -⟩ := Prod.mk.inj (rerun.symm.trans rerun')
    have redelivered := again.delivered known chain' issued' rerun
    refine ⟨w', s', w'', s'', _, run, rerun, ?_, first.delivered known chain issued run, redelivered, ?_,
      individual⟩
    · rw [again.code, first.code]
    · exact only.eq fun h met => first.pc_again again only.issued met
  · intro w s frameless
    rw [known.assemble_eq]
    exact ⟨fun hs chain => assemble_frameless chain frameless, fun fault => assemble_of_chain_fault m⟩

/-- A jump over a constant that no instruction can hold to the return, and a record without an opcode. -/
def overHuge : List Payload :=
  [{ op := .jmp, dst := .branch ⟨3⟩ },
   { op := Mnemonic.opcode (.binary (.arith .add) .quad), src := .const 0x123456789, dst := .reg ⟨1⟩ },
   {}, { op := .ret }]

def overHugeSymbol : Symbol := { name := "over", text := some ⟨0⟩, frameSize := 16 }

theorem overHuge_run {w' : Workspace} {s' : Symbol}
    (run : amd64.assemble (listed amd64Target true overHuge) overHugeSymbol = (w', .ok s')) :
    w'.pool.issued = 9 ∧ w'.ctx.diagnostics.toList =
        ["over: inst1: ADDQ: immediate 4886718345 out of range",
         "over: inst2: instruction with unset opcode"] ∧
      s'.code = [0x55, 0x48, 0x89, 0xe5, 0x48, 0x83, 0xec, 0x10, 0xeb, 0x00, 0x48, 0x83, 0xc4, 0x10, 0x5d,
        0xc3] := by
  have symbol : (amd64.assemble (listed amd64Target true overHuge) overHugeSymbol).2 = .ok s' := by rw [run]
  have workspace : (amd64.assemble (listed amd64Target true overHuge) overHugeSymbol).1 = w' := by rw [run]
  cases symbol
  subst workspace
  exact ⟨rfl, by decide +kernel, by decide +kernel⟩

/-- With its frame the list has nine records, two of which are reported by each run. -/
theorem reassembly_idempotent_overHuge :
    ∃ w' s' w'' s'', amd64.assemble (listed amd64Target true overHuge) overHugeSymbol = (w', .ok s') ∧
      amd64.assemble w' { name := "over", text := s'.text, frameSize := 0 } = (w'', .ok s'') ∧
      w'.pool.issued = 9 ∧ w''.pool = w'.pool ∧
      s''.code = [0x55, 0x48, 0x89, 0xe5, 0x48, 0x83, 0xec, 0x10, 0xeb, 0x00, 0x48, 0x83, 0xc4, 0x10, 0x5d,
        0xc3] ∧
      w''.ctx.diagnostics.toList =
        ["over: inst1: ADDQ: immediate 4886718345 out of range",
         "over: inst2: instruction with unset opcode",
         "over: inst1: ADDQ: immediate 4886718345 out of range",
         "over: inst2: instruction with unset opcode"] := by
  obtain ⟨w', s', w'', s'', messages, run, rerun, same_code, first, again, same_pool, -⟩ :=
    (reassembly_idempotent (.inl ⟨rfl, rfl⟩)).1 (listed amd64Target true overHuge) overHugeSymbol
      [⟨0⟩, ⟨1⟩, ⟨2⟩, ⟨3⟩] rfl (by decide)
  obtain ⟨issued, diagnostics, code⟩ := overHuge_run run
  have told : messages = _ := first.recorded.symm.trans diagnostics
  refine ⟨w', s', w'', s'', run, rerun, issued, same_pool, same_code.trans code, ?_⟩
  rw [again.recorded, diagnostics, told]
  rfl

end X86

end InstrStream
