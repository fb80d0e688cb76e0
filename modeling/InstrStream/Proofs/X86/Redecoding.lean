import InstrStream.Proofs.X86.MachineCode

/-! Code that is read back. Offsets are counted from the bytes that layout wrote for each instruction, but the
code alone says as much: read from its start, one instruction after another, it falls apart at the same places.
So a record has the offset of the instruction that, by this reading, has as many before it as the record has. -/
namespace InstrStream.X86

open Assembly Decoder

namespace Decoder

/-- Where the instructions start that are read one after another from `pc` on. There is no answer for bytes that
have no reading. -/
def boundaries? (m : Mode) (pc : Nat) (bytes : List UInt8) : Option (List Nat) :=
  if bytes = [] then some []
  else
    match read m bytes with
    | none => none
    | some (_, rest) =>
      if rest.length < bytes.length then
        (boundaries? m (pc + (bytes.length - rest.length)) rest).map (pc :: ·)
      else none
termination_by bytes.length

/-- Bytes that are read as one instruction, whatever stands behind them. -/
def IsInstruction (m : Mode) (bytes : List UInt8) : Prop :=
  ∀ rest, ∃ reading, read m (bytes ++ rest) = some (reading, rest)

theorem IsInstruction.length_pos {m : Mode} {bytes : List UInt8} (one : IsInstruction m bytes) :
    0 < bytes.length := by
  rw [List.length_pos_iff]
  rintro rfl
  obtain ⟨reading, reads⟩ := one []
  rw [List.append_nil, read_nil] at reads
  cases reads

theorem boundaries?_flatten {m : Mode} {cs : List (List UInt8)} (each : ∀ c ∈ cs, IsInstruction m c)
    (pc : Nat) : boundaries? m pc cs.flatten = some (starts pc cs) := by
  induction cs generalizing pc with
  | nil =>
      rw [boundaries?]
      rfl
  | cons c cs ih =>
      have one := each c List.mem_cons_self
      have some_bytes := one.length_pos
      obtain ⟨reading, reads⟩ := one cs.flatten
      have nonempty : c ++ cs.flatten ≠ [] := by
        rw [Ne, List.append_eq_nil_iff, not_and_or]
        exact .inl (List.length_pos_iff.mp some_bytes)
      have shorter : cs.flatten.length < (c ++ cs.flatten).length := by
        rw [List.length_append]
        omega
      rw [List.flatten_cons, boundaries?, if_neg nonempty, reads]
      simp only [if_pos shorter]
      rw [List.length_append, Nat.add_sub_cancel, ih fun k met => each k (List.mem_cons_of_mem c met)]
      rfl

end Decoder

section Chunks

variable {m : Mode} {pool : Pool} {hs : List Handle} {cs : List (List UInt8)}

theorem isInstruction_of_written (has_code : m ≠ .bits16) {steps : List Step} {n : Nat} {x : Emission}
    {c : List UInt8} (written : Layout.Written m cs n (pieceOf m steps x) c)
    (fits : ∀ i, x = .plain i → i.FitsIn m) (exist : existsIn m x = true) : IsInstruction m c := by
  intro rest
  cases x with
  | plain i =>
      cases written with
      | plain => exact ⟨_, read_bytes has_code (fits i rfl) exist rest⟩
  | branch kind t =>
      cases written with
      | branch decided reach d_eq =>
          obtain ⟨d, reads, -⟩ := read_branch has_code reach rest
          exact ⟨_, reads⟩

/-- Every chunk is one instruction, that of a record or the NOP behind all of them. -/
theorem Assembly.LaidOut.isInstruction (laid : LaidOut m pool hs cs) (has_code : m ≠ .bits16)
    (distinct : hs.Nodup) : ∀ c ∈ cs, IsInstruction m c := by
  intro c met
  obtain ⟨k, at_k⟩ := List.getElem?_of_mem met
  obtain ⟨inside, -⟩ := List.getElem?_eq_some_iff.mp at_k
  rw [Layout.length_chunks laid.chunks, Layout.length_settled] at inside
  have at_piece := List.getElem?_eq_getElem inside
  -- The chunk is what layout wrote for the piece at its position.
  obtain ⟨c', found, written⟩ := Layout.chunks_written laid.chunks
    (closed_pieces (distinct_stepsOf distinct) (fun kind t => branches_stepsOf) m) at_piece
  obtain rfl := Option.some.inj (at_k.symm.trans found)
  have on := List.mem_of_getElem? at_piece
  generalize (pieces (targets pool hs).contains m (stepsOf m pool hs))[k] = piece at written on
  rw [pieces, List.mem_append] at on
  rcases on with on | nop
  · obtain ⟨x, emitted, rfl⟩ := List.mem_map.mp on
    obtain ⟨h, on_list, emits⟩ := mem_emissions.mp emitted
    refine isInstruction_of_written has_code written ?_ (laid.exist h on_list x emits)
    rintro i rfl
    exact (emits.sound fun _ _ => True).1
  · split at nop
    · obtain rfl := List.mem_singleton.mp nop
      cases written with
      | plain => exact fun rest => ⟨_, read_bytes has_code (i := .nop) trivial (by cases m <;> rfl) rest⟩
    · cases nop

end Chunks

section

variable {m : Mode} {b : Backend} (known : IsBackend m b) (w : Workspace) (s : Symbol)
  (hs : List Handle) (chain : w.pool.chain s.text = .ok hs)
  (issued : ∀ h ∈ hs, h.index < w.pool.issued)
include known chain issued

/-- The offsets of records can be found by reading the code. -/
theorem offsets_read_back :
    ∃ w' s' final, b.assemble w s = (w', .ok s') ∧ Assembled m w w' s s' hs final ∧
      (¬ EncodingFailed s.name w w' →
        ∃ bounds, boundaries? m 0 s'.code = some bounds ∧
          ∀ (i : Nat) h, final[i]? = some h →
            (w'.pool.record h).pc =
              bounds.getD (((stepsOf m w'.pool final).take i).countP Step.emits) s'.code.length) := by
  obtain ⟨w₁, s₁, w', s', final, run, assembled, distinct, present, spliced, name, outcome⟩ :=
    assemble_final (m := m) chain issued
  refine ⟨w', s', final, by rw [known.assemble_eq, run], assembled, fun encoded => ?_⟩
  rcases outcome with ⟨cs, done⟩ | ⟨e, failed⟩
  · have code : s'.code = cs.flatten := by rw [done.symbol]
    have instructions := done.laid.isInstruction known.has_code distinct
    refine ⟨starts 0 cs, by rw [code, boundaries?_flatten instructions], fun i h at_i => ?_⟩
    rw [done.pc distinct present at_i, offset_slices, code, getD_starts, done.pool, stepsOf_setOffsets]
  · rw [← name] at encoded
    exact absurd (failed.encodingFailed spliced.ctx) encoded

end

end InstrStream.X86
