import InstrStream.Proofs.X86.Reassembly
import InstrStream.Proofs.X86.SilentRecords

/-! Reported records and NOPs. A record that is reported emits nothing, and so does a NOP, so a list with a NOP
in its place should come to the same. Offsets do. But destinations are read before it is known which records are
skipped: if the destination of a reported record is a branch to where nothing is emitted any more, the function
gets a NOP at its end for it. When no other record asks for that NOP, it is the one trace of a record that was
skipped. -/
namespace InstrStream

/-- The record with a bare NOP as its payload. -/
def Record.blank (x : Record) : Record := { x with toPayload := { op := .nop } }

/-- Replaces the payload of the record `r` by a bare NOP. -/
def Pool.blank (p : Pool) (r : Handle) : Pool := p.modify r Record.blank

namespace Pool

variable {p : Pool} {r h : Handle} {hs : List Handle} {a : Option Handle}

theorem record_blank_self (present : ∃ x, p.get? r = some x) :
    ((p.blank r).record r).toPayload = { op := .nop } := by
  obtain ⟨x, found⟩ := present
  rw [record, blank, get?_modify, if_pos rfl, found]
  rfl

theorem record_blank_of_ne (other : h ≠ r) : (p.blank r).record h = p.record h := by
  apply record_congr
  rw [blank, get?_modify, if_neg (Ne.symm other)]

theorem pc_blank (p : Pool) (r h : Handle) : ((p.blank r).record h).pc = (p.record h).pc := by
  rw [record, record, blank, get?_modify]
  split
  · cases p.get? h <;> rfl
  · rfl

/-- Links stay, and so does the list. -/
theorem issued_blank (p : Pool) (r : Handle) : (p.blank r).issued = p.issued := p.issued_modify r Record.blank

theorem chain_blank (chain : p.chain a = .ok hs) (r : Handle) : (p.blank r).chain a = .ok hs := by
  rw [chain_eq_ok_iff] at chain ⊢
  apply chain.congr
  intro h _
  rw [blank, get?_modify]
  split
  · rw [Option.map_map]
    rfl
  · rfl

end Pool

namespace X86

open Assembly X86.Frame

/-- From the record `t` of a list on nothing is emitted. -/
def SilentFrom (m : Mode) (pool : Pool) (hs : List Handle) (t : Handle) : Prop :=
  ∃ front rest, hs = front ++ t :: rest ∧ ∀ h ∈ t :: rest, ∀ x, ¬ Emits m pool hs h x

/-- The destination of record `h` is a branch to where nothing is emitted any more. -/
def AsksForNop (m : Mode) (pool : Pool) (hs : List Handle) (h : Handle) : Prop :=
  ∃ t, (pool.record h).dst = .branch t ∧ SilentFrom m pool hs t

/-- Record `r` is the only one that asks for a NOP at the end. -/
def OwesNop (m : Mode) (pool : Pool) (hs : List Handle) (r : Handle) : Prop :=
  AsksForNop m pool hs r ∧ ∀ h ∈ hs, AsksForNop m pool hs h → h = r

section Blanking

variable {m : Mode} {p : Pool} {hs : List Handle} {r : Handle}

theorem mem_targets {t : Handle} :
    t ∈ targets p hs ↔ (∃ h ∈ hs, (p.record h).dst = .branch t) ∧ t ∈ hs := by
  rw [targets, List.mem_filter, List.mem_filterMap, decide_eq_true_eq]
  simp only [Operand.target?_eq_some_iff]

/-- A NOP is written at the end exactly if some record asks for it. -/
theorem needsNop_iff_asks :
    (waitingEnd (targets p hs).contains none (stepsOf m p hs)).isSome = true ↔
      ∃ h ∈ hs, AsksForNop m p hs h := by
  rw [needsNop_iff]
  constructor
  · rintro ⟨front, t, rest, list, target, silent⟩
    obtain ⟨⟨h, met, dst⟩, -⟩ := mem_targets.mp target
    exact ⟨h, met, t, dst, front, rest, list, silent⟩
  · rintro ⟨h, met, t, dst, front, rest, list, silent⟩
    have on : t ∈ hs := by
      rw [list]
      exact List.mem_append_right _ List.mem_cons_self
    exact ⟨front, t, rest, list, mem_targets.mpr ⟨⟨h, met, dst⟩, on⟩, silent⟩

variable (present : ∃ x, p.get? r = some x) (silent : ∀ x, ¬ Emits m p hs r x)
include present silent

theorem emissionOf_blank (h : Handle) : emissionOf m (p.blank r) hs h = emissionOf m p hs h := by
  by_cases here : h = r
  · subst here
    have before : emissionOf m p hs h = none := by
      rw [← Option.isNone_iff_eq_none, ← Option.isSome_eq_false_iff, emissionOf_eq_none_iff]
      exact silent
    rw [before, emissionOf, Pool.record_blank_self present]
    rfl
  · rw [emissionOf, emissionOf, Pool.record_blank_of_ne here]

theorem stepsOf_blank : stepsOf m (p.blank r) hs = stepsOf m p hs := by
  rw [stepsOf_eq_map, stepsOf_eq_map]
  apply List.map_congr_left
  intro h _
  rw [emissionOf_blank present silent]

theorem silentFrom_blank {t : Handle} : SilentFrom m (p.blank r) hs t ↔ SilentFrom m p hs t := by
  simp only [SilentFrom, ← emissionOf_eq_some_iff, emissionOf_blank present silent]

/-- Without its destination the record does not ask, and the others ask as they did. -/
theorem asksForNop_blank {h : Handle} :
    AsksForNop m (p.blank r) hs h ↔ h ≠ r ∧ AsksForNop m p hs h := by
  simp only [AsksForNop, silentFrom_blank present silent]
  by_cases here : h = r
  · subst here
    simp [Pool.record_blank_self present]
  · simp [Pool.record_blank_of_ne here, here]

theorem needsNop_blank :
    (waitingEnd (targets (p.blank r) hs).contains none (stepsOf m p hs)).isSome = true ↔
      ∃ h ∈ hs, h ≠ r ∧ AsksForNop m p hs h := by
  rw [← stepsOf_blank present silent, needsNop_iff_asks]
  simp only [asksForNop_blank present silent]

theorem pieces_blank_of_owes (met : r ∈ hs) (owes : OwesNop m p hs r) :
    pieces (targets p hs).contains m (stepsOf m p hs) =
      pieces (targets (p.blank r) hs).contains m (stepsOf m (p.blank r) hs) ++ [.plain [0x90]] := by
  have asked := needsNop_iff_asks.mpr ⟨r, met, owes.1⟩
  have notAsked : ¬ (waitingEnd (targets (p.blank r) hs).contains none (stepsOf m p hs)).isSome = true := by
    rw [needsNop_blank present silent]
    rintro ⟨h, on, other, asks⟩
    exact other (owes.2 h on asks)
  rw [stepsOf_blank present silent, pieces, pieces, if_pos asked, if_neg notAsked, List.append_nil]
  rfl

theorem pieces_blank_of_not_owes (notOwed : ¬ OwesNop m p hs r) :
    pieces (targets p hs).contains m (stepsOf m p hs) =
      pieces (targets (p.blank r) hs).contains m (stepsOf m (p.blank r) hs) := by
  have same : (waitingEnd (targets p hs).contains none (stepsOf m p hs)).isSome =
      (waitingEnd (targets (p.blank r) hs).contains none (stepsOf m p hs)).isSome := by
    rw [Bool.eq_iff_iff, needsNop_iff_asks, needsNop_blank present silent]
    constructor
    · rintro ⟨h, met, asks⟩
      by_contra none_else
      have only : ∀ k ∈ hs, AsksForNop m p hs k → k = r := by
        intro k on asks
        by_contra other
        exact none_else ⟨k, on, other, asks⟩
      obtain rfl := only h met asks
      exact notOwed ⟨asks, only⟩
    · rintro ⟨h, met, -, asks⟩
      exact ⟨h, met, asks⟩
  rw [stepsOf_blank present silent, pieces, pieces, same]

/-- Layout gives the same chunks, and behind them the NOP that only this record asks for. -/
theorem chunks_blank (met : r ∈ hs) (distinct : hs.Nodup) :
    ∃ behind, (OwesNop m p hs r ∧ behind = [[0x90]] ∨ ¬ OwesNop m p hs r ∧ behind = []) ∧
      Layout.chunks m (pieces (targets p hs).contains m (stepsOf m p hs)) =
        (Layout.chunks m (pieces (targets (p.blank r) hs).contains m (stepsOf m (p.blank r) hs))).map
          (· ++ behind) := by
  by_cases owes : OwesNop m p hs r
  · refine ⟨[[0x90]], .inl ⟨owes, rfl⟩, ?_⟩
    have distinct_steps : ((stepsOf m (p.blank r) hs).map Step.handle).Nodup := distinct_stepsOf distinct
    have closed := closed_pieces distinct_steps (fun kind t => branches_stepsOf) m
    rw [pieces_blank_of_owes present silent met owes, Layout.chunks_append_plain _ closed]
  · refine ⟨[], .inr ⟨owes, rfl⟩, ?_⟩
    rw [pieces_blank_of_not_owes present silent owes]
    simp only [List.append_nil]
    exact (id_map _).symm

theorem layoutFor_blank (met : r ∈ hs) (distinct : hs.Nodup) :
    ∃ behind, (OwesNop m p hs r ∧ behind = [[0x90]] ∨ ¬ OwesNop m p hs r ∧ behind = []) ∧
      layoutFor m (p.program hs) = (layoutFor m ((p.blank r).program hs)).map (· ++ behind) := by
  obtain ⟨behind, which, chunks⟩ := chunks_blank present silent met distinct
  refine ⟨behind, which, ?_⟩
  simp only [layoutFor, ← stepsOf_eq_stepsFor, ← targets_eq_targetsIn, chunks, stepsOf_blank present silent]
  split
  · cases Layout.chunks m (pieces (targets (p.blank r) hs).contains m (stepsOf m p hs)) <;> rfl
  · rfl

end Blanking

/-- What two runs have in common, the second of which was given a NOP in place of a record: all offsets, and the
code, except that a NOP at its end is missing if only that record had asked for it. -/
structure SameButNop (owed : Prop) (w' v' : Workspace) (s' t' : Symbol) : Prop where
  offsets : ∀ h, (v'.pool.record h).pc = (w'.pool.record h).pc
  same : ¬ owed → t'.code = s'.code
  lost : owed → s'.code = t'.code ++ [0x90]

section Runs

theorem offset_append_of_le {cs : List (List UInt8)} {n : Nat} (inside : n ≤ cs.length)
    (behind : List (List UInt8)) : Layout.offset (cs ++ behind) n = Layout.offset cs n := by
  rw [Layout.offset, List.take_append_of_le_length inside, Layout.offset]

/-- Every record of a program stands at or before the end of its chunks. -/
theorem before_le_length {m : Mode} {p : Pool} {hs : List Handle} {cs : List (List UInt8)}
    (layout : layoutFor m (p.program hs) = .ok cs) (h : Handle) :
    before (stepsFor m (p.program hs)) h ≤ cs.length := by
  rw [Layout.length_chunks (laidOut_iff.mpr layout).chunks, Layout.length_settled, length_pieces,
    stepsOf_eq_stepsFor]
  exact Nat.le_add_right_of_le (List.take_sublist _ _).countP_le

variable {m : Mode} {w w' v v' : Workspace} {s s' t t' : Symbol} {hs ks final : List Handle} {r : Handle}

/-- Two programs, one with a NOP in place of a record that emits nothing, come to the same but for the NOP that
only this record asks for. -/
theorem Produced.sameButNop (one : Produced m w w' s s' hs (w'.pool.program final))
    (two : Produced m v v' t t' ks ((w'.pool.blank r).program final)) (met : r ∈ final)
    (silent : ∀ x, ¬ Emits m w'.pool final r x)
    (kept : ∀ h, (∃ e, layoutFor m (w'.pool.program final) = .error e) ∨ h ∉ final →
      keptOffset v.pool v'.pool h = (w'.pool.record h).pc) :
    SameButNop (¬ EncodingFailed s.name w w' ∧ OwesNop m w'.pool final r) w' v' s' t' := by
  have distinct := one.distinct
  have present := one.present
  have placed := one.placed
  have placed' := two.placed
  have kept' := two.kept
  have failed := one.encodingFailed_iff
  have code := one.code
  have code' := two.code
  rw [map_fst_program] at distinct present placed placed' kept'
  obtain ⟨behind, which, layout⟩ := layoutFor_blank (present r met) silent met distinct
  have steps : stepsFor m ((w'.pool.blank r).program final) = stepsFor m (w'.pool.program final) := by
    rw [← stepsOf_eq_stepsFor, ← stepsOf_eq_stepsFor, stepsOf_blank (present r met) silent]
  cases layout' : layoutFor m ((w'.pool.blank r).program final) with
  | error e =>
      rw [layout'] at layout code'
      rw [layout] at code
      have fails := failed.mpr ⟨e, layout⟩
      refine ⟨fun h => ?_, fun _ => code'.trans code.symm, fun owed => absurd fails owed.1⟩
      rw [kept' h (.inl ⟨e, layout'⟩), kept h (.inl ⟨e, layout⟩)]
  | ok cs =>
      rw [layout'] at layout code'
      rw [layout] at code
      have encodes : ¬ EncodingFailed s.name w w' := by
        rw [failed, layout]
        rintro ⟨e, ⟨⟩⟩
      refine ⟨fun h => ?_, ?_, ?_⟩
      · by_cases on : h ∈ final
        · have inside := before_le_length layout' h
          rw [placed' cs layout' h on, placed (cs ++ behind) layout h on, ← steps,
            offset_append_of_le inside]
        · rw [kept' h (.inr on), kept h (.inr on)]
      · intro notOwed
        rcases which with ⟨owes, -⟩ | ⟨-, rfl⟩
        · exact absurd ⟨encodes, owes⟩ notOwed
        · rw [code, code', Except.map, codeOf, codeOf, List.append_nil]
      · rintro ⟨-, owes⟩
        rcases which with ⟨-, rfl⟩ | ⟨owesNot, -⟩
        · rw [code, code', Except.map, codeOf, codeOf, List.flatten_append, List.flatten_singleton]
        · exact absurd owes owesNot

end Runs

section Framing

/-- A program with a bare NOP in place of the record `r`. -/
def blankIn (r : Handle) (text : List (Handle × Payload)) : List (Handle × Payload) :=
  text.map fun x => (x.1, if x.1 = r then { op := .nop } else x.2)

theorem program_blank {p : Pool} {r : Handle} (present : ∃ x, p.get? r = some x) (hs : List Handle) :
    (p.blank r).program hs = blankIn r (p.program hs) := by
  rw [Pool.program, blankIn, Pool.program, List.map_map]
  apply List.map_congr_left
  intro h _
  rw [Function.comp_apply]
  congr 1
  by_cases here : h = r
  · subst here
    rw [if_pos rfl, Pool.record_blank_self present]
  · rw [if_neg here, Pool.record_blank_of_ne here]

theorem blankIn_of_notMem {r : Handle} {text : List (Handle × Payload)} (off : r ∉ text.map Prod.fst) :
    blankIn r text = text := by
  refine (List.map_congr_left fun x met => ?_).trans (List.map_id text)
  have other : x.1 ≠ r := by
    rintro rfl
    exact off (List.mem_map_of_mem met)
  rw [if_neg other]
  rfl

theorem blankIn_append {r : Handle} {q : Payload} {front rest : List (Handle × Payload)}
    (distinct : ((front ++ (r, q) :: rest).map Prod.fst).Nodup) :
    blankIn r (front ++ (r, q) :: rest) = front ++ (r, { op := .nop }) :: rest := by
  rw [List.map_append, List.map_cons] at distinct
  obtain ⟨-, distinct_rest, apart⟩ := List.nodup_append.mp distinct
  have off_front : r ∉ front.map Prod.fst := by
    intro met
    exact apart r met r List.mem_cons_self rfl
  have off_rest := (List.nodup_cons.mp distinct_rest).1
  have split : blankIn r (front ++ (r, q) :: rest) =
      blankIn r front ++ (r, if r = r then { op := .nop } else q) :: blankIn r rest := by
    rw [blankIn, List.map_append, List.map_cons]
    rfl
  rw [split, if_pos rfl, blankIn_of_notMem off_front, blankIn_of_notMem off_rest]

/-- A frame does not look at a record that is no return. -/
theorem framed_blankIn (m : Mode) (size : UInt32) (fp : Bool) (n : Nat) {r : Handle}
    {text : List (Handle × Payload)} {q : Payload} (met : (r, q) ∈ text) (notReturn : q.op ≠ .ret)
    (distinct : (text.map Prod.fst).Nodup) (distinct' : ((framed m size fp n text).map Prod.fst).Nodup) :
    framed m size fp n (blankIn r text) = blankIn r (framed m size fp n text) := by
  obtain ⟨front, rest, rfl⟩ := List.append_of_mem met
  obtain ⟨above, below, with_x, -⟩ := framed_insert m size fp n front rest
  have with_q := with_x (r, q) notReturn
  have with_nop := with_x (r, { op := .nop }) nofun
  rw [with_q] at distinct' ⊢
  rw [blankIn_append distinct, blankIn_append distinct', with_nop]

end Framing

/-- What is reported emits nothing. -/
theorem not_emits_of_reported {m : Mode} {pool : Pool} {hs : List Handle} {function : String} {h : Handle}
    (reported : (reportOf m pool hs function h).isSome = true) (x : Emission) : ¬ Emits m pool hs h x := by
  intro emits
  have one := one_of_three m pool hs function h
  rw [(emissionOf_eq_some_iff m pool hs).mpr emits, Option.isSome_some, reported, if_pos rfl] at one
  omega

section

variable {m : Mode} {b : Backend} (known : IsBackend m b) {w w' : Workspace} {s s' : Symbol}
  {hs final : List Handle} {r : Handle} (chain : w.pool.chain s.text = .ok hs)
  (issued : ∀ h ∈ hs, h.index < w.pool.issued)
  (one : Produced m w w' s s' hs (w'.pool.program final)) (silent : ∀ x, ¬ Emits m w'.pool final r x)
include known chain issued one silent

/-- The list with its frame is assembled once more, with a NOP in place of the record. -/
theorem assemble_blank_final (met : r ∈ final) :
    ∃ v' t', b.assemble { w' with pool := w'.pool.blank r }
        { name := s.name, text := s'.text, frameSize := 0 } = (v', .ok t') ∧
      SameButNop (¬ EncodingFailed s.name w w' ∧ OwesNop m w'.pool final r) w' v' s' t' := by
  have chain' := one.assembled.chain
  rw [map_fst_program] at chain'
  have issued' : ∀ h ∈ final, h.index < (w'.pool.blank r).issued := by
    intro h on
    rw [Pool.issued_blank]
    apply one.lt_issued chain issued
    rwa [map_fst_program]
  obtain ⟨v', t', run, two⟩ := assemble_produces (w := { w' with pool := w'.pool.blank r })
    (s := { name := s.name, text := s'.text, frameSize := 0 }) known (Pool.chain_blank chain' r) issued'
  rw [framed, if_pos (.inl rfl)] at two
  refine ⟨v', t', run, one.sameButNop two met silent fun h _ => ?_⟩
  have none_new : v'.pool.issued = (w'.pool.blank r).issued := by
    have count := two.issued
    rw [Pool.program, List.length_map] at count
    exact Nat.add_right_cancel count
  exact (keptOffset_of_none_new none_new h).trans (Pool.pc_blank w'.pool r h)

/-- The list that was given is assembled with a NOP in place of a record that is no return. -/
theorem assemble_blank (met : r ∈ hs) (notReturn : (w.pool.record r).op ≠ .ret) :
    ∃ v' t', b.assemble { w with pool := w.pool.blank r } s = (v', .ok t') ∧
      SameButNop (¬ EncodingFailed s.name w w' ∧ OwesNop m w'.pool final r) w' v' s' t' := by
  have path := Pool.chain_eq_ok_iff.mp chain
  have on : r ∈ final := by
    have mem := one.mem_iff.mpr (.inl met)
    rwa [map_fst_program] at mem
  obtain ⟨v', t', run, two⟩ := assemble_produces (w := { w with pool := w.pool.blank r }) (s := s) known
    (Pool.chain_blank chain r) fun h on => (w.pool.issued_blank r).symm ▸ issued h on
  have same_text : framed m s.frameSize w.ctx.framePointer (w.pool.blank r).issued
      ((w.pool.blank r).program hs) = (w'.pool.blank r).program final := by
    have distinct' := one.distinct
    have present' := one.present r (by rwa [map_fst_program])
    rw [one.text_eq] at distinct'
    rw [Pool.issued_blank, program_blank (path.exists_record met), program_blank present', one.text_eq]
    exact framed_blankIn m s.frameSize w.ctx.framePointer w.pool.issued (List.mem_map_of_mem met) notReturn
      (by rw [map_fst_program]; exact path.nodup) distinct'
  have two' : Produced m { w with pool := w.pool.blank r } v' s t' hs ((w'.pool.blank r).program final) :=
    same_text ▸ two
  refine ⟨v', t', run, one.sameButNop two' on silent fun h unplaced => ?_⟩
  have same_issued : v'.pool.issued = w'.pool.issued := by
    have count := one.issued
    have count' : v'.pool.issued + _ = (w.pool.blank r).issued + _ := two'.issued
    rw [Pool.program, List.length_map] at count count'
    rw [Pool.issued_blank] at count'
    exact Nat.add_right_cancel (count'.trans count.symm)
  rw [one.kept h (by rwa [map_fst_program]), keptOffset, keptOffset, same_issued, Pool.pc_blank,
    Pool.issued_blank]

end

/-- A reported record leaves at most one byte. With a bare NOP in its place all offsets are the same, and so is
the code, except in one case: when the destination of the record is a branch to where nothing is emitted any
more and no other record has such a destination, the code ends with a NOP that is not there without it. This
holds of every reported record of the list with its frame, and when the NOP is put into the list that was given,
of every reported record that is no return. -/
theorem reported_record_leaves_nop {m : Mode} {b : Backend} (known : IsBackend m b) (w : Workspace)
    (s : Symbol) (hs : List Handle) (chain : w.pool.chain s.text = .ok hs)
    (issued : ∀ h ∈ hs, h.index < w.pool.issued) :
    ∃ w' s' final, b.assemble w s = (w', .ok s') ∧ Assembled m w w' s s' hs final ∧
      ∀ r ∈ final, (reportOf m w'.pool final s.name r).isSome = true →
        let owed := ¬ EncodingFailed s.name w w' ∧ OwesNop m w'.pool final r
        (∃ v' t', b.assemble { w' with pool := w'.pool.blank r }
            { name := s.name, text := s'.text, frameSize := 0 } = (v', .ok t') ∧
          SameButNop owed w' v' s' t') ∧
        (r ∈ hs → (w.pool.record r).op ≠ .ret →
          ∃ v' t', b.assemble { w with pool := w.pool.blank r } s = (v', .ok t') ∧
            SameButNop owed w' v' s' t') := by
  obtain ⟨w', s', run, produced⟩ := assemble_produces known chain issued
  refine ⟨w', s', _, run, produced.assembled, fun r met reported => ?_⟩
  have silent := not_emits_of_reported reported
  have one := produced
  rw [← produced.program] at one
  exact ⟨assemble_blank_final known chain issued one silent met,
    fun on notReturn => assemble_blank known chain issued one silent on notReturn⟩

/-- A return, and behind it a move to a branch, which no instruction does. -/
def moveToBranch : List Payload :=
  [{ op := .ret }, { op := Mnemonic.opcode (.binary .mov .quad), dst := .branch ⟨1⟩ }]

def moveToBranchSymbol : Symbol := { name := "moving", text := some ⟨0⟩, frameSize := 0 }

/-- The move is reported. It asks for a NOP at its own place, and the return does not. -/
theorem moveToBranch_run {w' : Workspace} {s' : Symbol}
    (run : amd64.assemble (listed amd64Target true moveToBranch) moveToBranchSymbol = (w', .ok s')) :
    w'.pool.chain s'.text = .ok [⟨0⟩, ⟨1⟩] ∧ s'.code = [0xc3, 0x90] ∧
      w'.ctx.diagnostics.toList = [Report.message names "moving" ⟨1⟩ (Mnemonic.opcode (.binary .mov .quad))
        (.rejected .unsupported)] ∧
      (reportOf .bits64 w'.pool [⟨0⟩, ⟨1⟩] "moving" ⟨1⟩).isSome = true ∧
      OwesNop .bits64 w'.pool [⟨0⟩, ⟨1⟩] ⟨1⟩ := by
  have symbol : (amd64.assemble (listed amd64Target true moveToBranch) moveToBranchSymbol).2 = .ok s' := by
    rw [run]
  have workspace : (amd64.assemble (listed amd64Target true moveToBranch) moveToBranchSymbol).1 = w' := by
    rw [run]
  cases symbol
  subst workspace
  refine ⟨rfl, by decide +kernel, by decide +kernel, rfl, ⟨⟨1⟩, rfl, [⟨0⟩], [], rfl, ?_⟩, ?_⟩
  · intro h met x emits
    obtain rfl := List.mem_singleton.mp met
    cases emits
  · rintro h met ⟨t, dst, -⟩
    rcases List.mem_pair.mp met with rfl | rfl
    · cases dst
    · rfl

/-- The move is skipped and leaves a NOP behind the return. With a NOP in its place the return is all. -/
theorem reported_record_leaves_nop_moving :
    ∃ w' s' v' t', amd64.assemble (listed amd64Target true moveToBranch) moveToBranchSymbol = (w', .ok s') ∧
      amd64.assemble
        { listed amd64Target true moveToBranch with
          pool := (listed amd64Target true moveToBranch).pool.blank ⟨1⟩ } moveToBranchSymbol = (v', .ok t') ∧
      w'.ctx.diagnostics.toList = ["moving: inst1: MOVQ: unsupported instruction or operand combination"] ∧
      s'.code = [0xc3, 0x90] ∧ t'.code = [0xc3] ∧ ∀ h, (v'.pool.record h).pc = (w'.pool.record h).pc := by
  obtain ⟨w', s', final, run, assembled, reported⟩ := reported_record_leaves_nop (.inl ⟨rfl, rfl⟩)
    (listed amd64Target true moveToBranch) moveToBranchSymbol [⟨0⟩, ⟨1⟩] rfl (by decide)
  obtain ⟨chain, code, diagnostics, isReported, owes⟩ := moveToBranch_run run
  obtain rfl : [⟨0⟩, ⟨1⟩] = final := Except.ok.inj (chain.symm.trans assembled.chain)
  have encodes : ¬ EncodingFailed "moving" (listed amd64Target true moveToBranch) w' := by
    rintro ⟨e, met⟩
    rw [diagnostics] at met
    exact message_ne_failureMessage _ _ _ _ _ e (List.mem_singleton.mp met).symm
  obtain ⟨v', t', run', outcome⟩ := (reported ⟨1⟩ (by decide) isReported).2 (by decide) (by decide)
  refine ⟨w', s', v', t', run, run', diagnostics, code, ?_, outcome.offsets⟩
  have lost : [0xc3] ++ [0x90] = t'.code ++ [0x90] := code.symm.trans (outcome.lost ⟨encodes, owes⟩)
  exact (List.append_cancel_right lost).symm

end X86

end InstrStream
