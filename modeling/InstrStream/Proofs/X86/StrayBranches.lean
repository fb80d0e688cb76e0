import InstrStream.Proofs.X86.EncodingFailure
import InstrStream.Proofs.X86.Renaming

/-! Branches to records off the list. Any number can stand in a branch operand, and whether it names a record of
the function is found out only after the frame has been added. By then the list has also got the records of
prologue and epilogues, which are numbered from the next number to be issued. So a branch to a record that is
not on the caller's list is reported and emits nothing, unless its target is one of the numbers that the frame
receives: then it is taken for a branch into the frame. -/
namespace InstrStream

/-- The record was issued between two states of a pool. -/
def Pool.IssuedBetween (before after : Pool) (t : Handle) : Prop :=
  before.issued ≤ t.index ∧ t.index < after.issued

instance (before after : Pool) (t : Handle) : Decidable (before.IssuedBetween after t) :=
  inferInstanceAs (Decidable (before.issued ≤ t.index ∧ t.index < after.issued))

namespace X86

open Assembly X86.Frame Decoder

/-- The branch that an opcode stands for when its destination is a record. -/
def Branch.ofOpcode? (op : Opcode) : Option Branch :=
  if op = .jmp then some (.jump none)
  else if op = .call then some .call
  else
    match Mnemonic.ofOpcode? op with
    | some (.jump c) => some (.jump (some c))
    | _ => none

/-- Record `h` of a list is a jump or a call to a record `t` that is not on the list. -/
structure Stray (pool : Pool) (hs : List Handle) (h : Handle) (kind : Branch) (t : Handle) : Prop where
  met : h ∈ hs
  opcode : Branch.ofOpcode? (pool.record h).op = some kind
  dst : (pool.record h).dst = .branch t
  off : t ∉ hs

/-- The diagnostic about a branch to a record that is not part of the function. -/
def strayMessage (function : String) (h : Handle) (op : Opcode) (t : Handle) : String :=
  s!"{function}: {h.text}: {names.opcode op}: " ++ s!"branch target {t.text} is not in this function"

section Lowering

variable {m : Mode} {inFunction : Handle → Bool} {p : Payload} {kind : Branch}

theorem lower_of_ofOpcode? {t : Handle} (opcode : Branch.ofOpcode? p.op = some kind)
    (dst : p.dst = .branch t) : lower m inFunction p = lowerBranch inFunction kind t := by
  unfold Branch.ofOpcode? at opcode
  unfold lower
  split at opcode
  · rename_i jmp
    cases opcode
    rw [jmp, dst]
    rfl
  · rename_i not_jmp
    split at opcode
    · rename_i call
      cases opcode
      rw [call, dst]
      rfl
    · rename_i not_call
      split at opcode
      · rename_i c own
        cases opcode
        have not_nop : p.op ≠ .nop := by
          intro nop
          rw [nop] at own
          cases own
        have not_ret : p.op ≠ .ret := by
          intro ret
          rw [ret] at own
          cases own
        rw [if_neg not_nop, if_neg not_ret, if_neg not_jmp, if_neg not_call, own]
        simp only [lowerMnemonic, dst]
      · cases opcode

theorem ne_of_ofOpcode? {op : Opcode} (opcode : Branch.ofOpcode? op = some kind) :
    op ≠ .unset ∧ op ≠ .ret := by
  constructor
  all_goals
    rintro rfl
    cases opcode

end Lowering

section Messages

theorem strayMessage_eq (function : String) (h : Handle) (op : Opcode) (t : Handle) :
    strayMessage function h op t =
      Report.message names function h op (.rejected (.unknownBranchTarget t)) := rfl

theorem toList_message_handle (function : String) (h : Handle) (op : Opcode) (r : Report) :
    ∃ rest, (r.message names function h op).toList =
      (function ++ ": inst").toList ++ (h.index.repr.toList ++ ':' :: rest) := by
  cases r with
  | unsetOpcode =>
      refine ⟨" instruction with unset opcode".toList, ?_⟩
      simp only [Report.message, Handle.text, toString, String.toList_append, List.append_assoc]
      rfl
  | rejected cause =>
      refine ⟨" ".toList ++ ((names.opcode op).toList ++ (": ".toList ++ cause.message.toList)), ?_⟩
      simp only [Report.message, Handle.text, toString, String.toList_append, List.append_assoc]
      rfl

theorem takeWhile_isDigit_repr (n : Nat) (rest : List Char) :
    (n.repr.toList ++ ':' :: rest).takeWhile Char.isDigit = n.repr.toList := by
  have digits : ∀ c ∈ n.repr.toList, c.isDigit = true := by
    intro c met
    rw [Nat.toList_repr] at met
    exact Nat.isDigit_of_mem_toDigits (by decide) (by decide) met
  rw [List.takeWhile_append_of_pos digits, List.takeWhile_cons_of_neg (by decide), List.append_nil]

/-- A diagnostic about a record says which record it is about. -/
theorem handle_eq_of_message_eq {function : String} {h k : Handle} {op op' : Opcode} {r r' : Report}
    (same : r.message names function h op = r'.message names function k op') : h = k := by
  obtain ⟨rest, letters⟩ := toList_message_handle function h op r
  obtain ⟨rest', letters'⟩ := toList_message_handle function k op' r'
  rw [same, letters', List.append_cancel_left_eq] at letters
  have digits := congrArg (List.takeWhile Char.isDigit) letters
  rw [takeWhile_isDigit_repr, takeWhile_isDigit_repr, Nat.toList_repr, Nat.toList_repr] at digits
  have number := congrArg (Nat.ofDigitChars 10 · 0) digits
  simp only [Nat.ofDigitChars_ten_toDigits] at number
  exact congrArg Handle.mk number.symm

/-- A record that is lowered is not reported. -/
theorem message_notMem_reports {m : Mode} {pool : Pool} {function : String} {hs : List Handle} {h : Handle}
    {op : Opcode} {r : Report} {x : Option Emission}
    (lowered : lowerRecord m hs.contains (pool.record h).toPayload = .ok x) :
    r.message names function h op ∉ reports names m pool function hs := by
  intro met
  rw [reports, messages, lowerChain, List.filterMap_map] at met
  obtain ⟨k, -, message⟩ := List.mem_filterMap.mp met
  simp only [Function.comp_apply, Lowered.message?] at message
  split at message
  · cases message
  · rename_i r' refused
    obtain rfl := handle_eq_of_message_eq (Option.some.inj message)
    rw [lowered] at refused
    cases refused

end Messages

section Handles

variable (m : Mode) (size : UInt32) (fp : Bool)

theorem issuedFrom_append (n j k : Nat) :
    issuedFrom n (j + k) = issuedFrom n j ++ issuedFrom (n + j) k := by
  rw [issuedFrom, issuedFrom, issuedFrom, ← List.map_append, List.range'_append_1]

/-- Epilogues add the records issued for them, and no others. -/
theorem handles_withEpilogues (n : Nat) (text : List (Handle × Payload)) :
    ∃ k, (withEpilogues m size fp n text).length = text.length + k ∧
      ∀ t, t ∈ (withEpilogues m size fp n text).map Prod.fst ↔
        t ∈ text.map Prod.fst ∨ t ∈ issuedFrom n k := by
  induction text generalizing n with
  | nil =>
      refine ⟨0, rfl, fun t => ?_⟩
      simp [withEpilogues, issuedFrom]
  | cons x text ih =>
      rw [withEpilogues]
      split
      · set tail := epilogueTail m fp x.2
        obtain ⟨k, length, mem⟩ := ih (n + tail.length)
        have zipped : ((issuedFrom n tail.length).zip tail).map Prod.fst = issuedFrom n tail.length :=
          List.map_fst_zip (by rw [length_issuedFrom])
        refine ⟨tail.length + k, ?_, fun t => ?_⟩
        · simp only [List.length_append, List.length_cons, List.length_zip, length_issuedFrom, Nat.min_self,
            length]
          omega
        · simp only [List.map_append, List.map_cons, List.mem_append, List.mem_cons, zipped, mem,
            issuedFrom_append]
          exact or_or_or_comm
      · obtain ⟨k, length, mem⟩ := ih n
        refine ⟨k, ?_, fun t => ?_⟩
        · simp only [List.length_cons, length]
          omega
        · simp only [List.map_cons, List.mem_cons, mem, or_assoc]

/-- A framed program has the records of the program and those issued for the frame. -/
theorem mem_handles_framed {n : Nat} {text : List (Handle × Payload)} {t : Handle} :
    t ∈ (framed m size fp n text).map Prod.fst ↔ t ∈ text.map Prod.fst ∨
      n ≤ t.index ∧ t.index + text.length < n + (framed m size fp n text).length := by
  rw [framed]
  split
  · refine (or_iff_left ?_).symm
    omega
  · obtain ⟨k, length, mem⟩ := handles_withEpilogues m size fp n text
    have zipped : ∀ i, ((issuedFrom i (prologue m fp size).length).zip (prologue m fp size)).map Prod.fst =
        issuedFrom i (prologue m fp size).length := fun i => List.map_fst_zip (by rw [length_issuedFrom])
    simp only [List.map_append, List.mem_append, List.length_append, List.length_zip, length_issuedFrom,
      Nat.min_self, zipped, mem, mem_issuedFrom, length]
    refine or_left_comm.trans (or_congr_right ?_)
    omega

end Handles

section Assembly

variable {m : Mode} {w w' : Workspace} {s s' : Symbol} {hs : List Handle} {text : List (Handle × Payload)}
  (produced : Produced m w w' s s' hs text)
include produced

/-- After assembly the list consists of the records that were on it and those issued since. -/
theorem Produced.mem_iff {t : Handle} :
    t ∈ text.map Prod.fst ↔ t ∈ hs ∨ Pool.IssuedBetween w.pool w'.pool t := by
  have issued := produced.issued
  have length : (w.pool.program hs).length = hs.length := List.length_map _
  rw [produced.text_eq] at issued ⊢
  rw [mem_handles_framed, map_fst_program, Pool.IssuedBetween, length]
  refine or_congr_right ?_
  omega

theorem Produced.record_of_other {h : Handle} (met : h ∈ hs) (other : (w.pool.record h).op ≠ .ret) :
    (w'.pool.record h).toPayload = (w.pool.record h).toPayload := by
  have listed : (h, (w.pool.record h).toPayload) ∈ w.pool.program hs := List.mem_map_of_mem met
  obtain ⟨k, on, same⟩ := payload_mem_framed m s.frameSize w.ctx.framePointer (n := w.pool.issued) listed
  obtain rfl : k = h := same other
  rw [← produced.assembled.program] at on
  obtain ⟨_, -, pair⟩ := List.mem_map.mp on
  obtain ⟨rfl, payload⟩ := Prod.mk.inj pair
  exact payload

variable {h t : Handle} {kind : Branch} (stray : Stray w.pool hs h kind t)
include stray

/-- A stray branch is rejected, except when its target was issued for the frame. -/
theorem Produced.lower_stray :
    lower m (text.map Prod.fst).contains (w'.pool.record h).toPayload =
      if w.pool.IssuedBetween w'.pool t then .ok (some (.branch kind t))
      else .error (.unknownBranchTarget t) := by
  have inside : (text.map Prod.fst).contains t = true ↔ w.pool.IssuedBetween w'.pool t := by
    rw [List.contains_iff_mem, produced.mem_iff, or_iff_right stray.off]
  rw [produced.record_of_other stray.met (ne_of_ofOpcode? stray.opcode).2,
    lower_of_ofOpcode? stray.opcode stray.dst, lowerBranch]
  exact if_congr inside rfl rfl

theorem Produced.emits_stray_iff {x : Emission} :
    Emits m w'.pool (text.map Prod.fst) h x ↔
      x = .branch kind t ∧ w.pool.IssuedBetween w'.pool t := by
  rw [Emits, produced.lower_stray stray]
  split
  · rename_i between
    refine ⟨fun same => ⟨?_, between⟩, fun both => by rw [both.1]⟩
    cases same
    rfl
  · rename_i notBetween
    refine ⟨fun same => ?_, fun both => absurd both.2 notBetween⟩
    cases same

theorem Produced.strayMessage_mem_iff :
    strayMessage s.name h (w.pool.record h).op t ∈
        w'.ctx.diagnostics.toList.drop w.ctx.diagnostics.size ↔
      ¬ w.pool.IssuedBetween w'.pool t := by
  have same := produced.record_of_other stray.met (ne_of_ofOpcode? stray.opcode).2
  have lowered : lowerRecord m (text.map Prod.fst).contains (w'.pool.record h).toPayload =
      (lower m (text.map Prod.fst).contains (w'.pool.record h).toPayload).mapError .rejected := by
    rw [lowerRecord, same, if_neg (ne_of_ofOpcode? stray.opcode).1]
  rw [produced.lower_stray stray] at lowered
  have about_record : strayMessage s.name h (w.pool.record h).op t ∉
      failureReport s.name (layoutFor m text) := by
    cases layoutFor m text with
    | ok cs => exact List.not_mem_nil
    | error e =>
        rw [failureReport, List.mem_singleton, strayMessage_eq]
        exact message_ne_failureMessage _ _ _ _ _ _
  rw [produced.added, List.mem_append, or_iff_left about_record, strayMessage_eq, ← same]
  nth_rewrite 1 [← produced.program]
  rw [← reports_eq_reportsFor]
  by_cases between : w.pool.IssuedBetween w'.pool t
  · rw [if_pos between] at lowered
    exact iff_of_false (message_notMem_reports lowered) (not_not_intro between)
  · rw [if_neg between] at lowered
    have on : h ∈ text.map Prod.fst := produced.mem_iff.mpr (.inl stray.met)
    exact iff_of_true (mem_reports on lowered) between

end Assembly

section

variable {m : Mode} {b : Backend} (known : IsBackend m b) (w : Workspace) (s : Symbol)
  (hs : List Handle) (chain : w.pool.chain s.text = .ok hs)
  (issued : ∀ h ∈ hs, h.index < w.pool.issued)
include known chain issued

/-- A branch of the caller's list to a record that is not on it is reported and emits nothing, except when
assembly itself issues that record for the frame. In that case the branch is accepted, goes there and is not
reported. -/
theorem stray_branch_reported_iff :
    ∃ w' s' final, b.assemble w s = (w', .ok s') ∧ Assembled m w w' s s' hs final ∧
      (∀ h kind t, Stray w.pool hs h kind t →
        (strayMessage s.name h (w.pool.record h).op t ∈
            w'.ctx.diagnostics.toList.drop w.ctx.diagnostics.size ↔
          ¬ w.pool.IssuedBetween w'.pool t) ∧
        ∀ x, Emits m w'.pool final h x ↔ x = .branch kind t ∧ w.pool.IssuedBetween w'.pool t) ∧
      (¬ EncodingFailed s.name w w' → ∃ parts rest, Cut m w'.pool final s'.code parts rest ∧
        ∀ (i : Nat) h kind t, final[i]? = some h → Stray w.pool hs h kind t →
          (parts[i]? = some [] ↔ ¬ w.pool.IssuedBetween w'.pool t)) ∧
      (EncodingFailed s.name w w' → s'.code = []) := by
  obtain ⟨w', s', final, run, assembled, encoded, not_encoded⟩ := assemble_placed known chain issued
  obtain ⟨_, _, run', produced⟩ := assemble_produces known chain issued
  obtain ⟨rfl, ⟨⟩⟩ := Prod.mk.inj (run.symm.trans run')
  obtain rfl := Except.ok.inj (assembled.chain.symm.trans produced.assembled.chain)
  refine ⟨w', s', _, run, assembled, ?_, ?_, fun failed => (not_encoded failed).1⟩
  · intro h kind t stray
    exact ⟨produced.strayMessage_mem_iff stray, fun x => produced.emits_stray_iff stray⟩
  · intro succeeds
    obtain ⟨parts, rest, placed⟩ := encoded succeeds
    refine ⟨parts, rest, placed.toCut, ?_⟩
    intro i h kind t at_i stray
    constructor
    · intro empty between
      have emits := (produced.emits_stray_iff stray).mpr ⟨rfl, between⟩
      obtain ⟨part, d, found, reads⟩ := placed.loud i h _ at_i emits
      obtain rfl : [] = part := Option.some.inj (empty.symm.trans found)
      rw [read_nil] at reads
      cases reads
    · intro notBetween
      apply placed.silent i h at_i
      intro x emits
      exact notBetween ((produced.emits_stray_iff stray).mp emits).2

end

/-- A jump and a call to records that do not exist, and a return. The return gets a copy with the number that
the jump names. -/
def astray : List Payload :=
  [{ op := .jmp, dst := .branch ⟨4⟩ }, { op := .call, dst := .branch ⟨20⟩ }, { op := .ret }]

def astraySymbol : Symbol := { name := "astray", text := some ⟨0⟩, frameSize := 16 }

theorem astray_run {w' : Workspace} {s' : Symbol}
    (run : amd64.assemble (listed amd64Target true astray) astraySymbol = (w', .ok s')) :
    w'.pool.issued = 8 ∧ (w'.pool.record ⟨4⟩).op = .ret ∧
      s'.code = [0x55, 0x48, 0x89, 0xe5, 0x48, 0x83, 0xec, 0x10, 0xeb, 0x05, 0x48, 0x83, 0xc4, 0x10, 0x5d,
        0xc3] := by
  have symbol : (amd64.assemble (listed amd64Target true astray) astraySymbol).2 = .ok s' := by rw [run]
  have workspace : (amd64.assemble (listed amd64Target true astray) astraySymbol).1 = w' := by rw [run]
  cases symbol
  subst workspace
  exact ⟨rfl, rfl, by decide +kernel⟩

/-- The call is reported and skipped. The jump is not: it goes to the last record of the epilogue and so
returns without having released the frame. -/
theorem stray_branch_into_frame :
    ∃ w' s' final, amd64.assemble (listed amd64Target true astray) astraySymbol = (w', .ok s') ∧
      strayMessage "astray" ⟨1⟩ .call ⟨20⟩ ∈ w'.ctx.diagnostics.toList ∧
      strayMessage "astray" ⟨0⟩ .jmp ⟨4⟩ ∉ w'.ctx.diagnostics.toList ∧
      Emits .bits64 w'.pool final ⟨0⟩ (.branch (.jump none) ⟨4⟩) ∧ (w'.pool.record ⟨4⟩).op = .ret ∧
      s'.code = [0x55, 0x48, 0x89, 0xe5, 0x48, 0x83, 0xec, 0x10, 0xeb, 0x05, 0x48, 0x83, 0xc4, 0x10, 0x5d,
        0xc3] := by
  obtain ⟨w', s', final, run, -, branches, -⟩ := stray_branch_reported_iff (.inl ⟨rfl, rfl⟩)
    (listed amd64Target true astray) astraySymbol [⟨0⟩, ⟨1⟩, ⟨2⟩] rfl (by decide)
  obtain ⟨issued, ret, code⟩ := astray_run run
  have jump : Stray (listed amd64Target true astray).pool [⟨0⟩, ⟨1⟩, ⟨2⟩] ⟨0⟩ (.jump none) ⟨4⟩ :=
    ⟨by decide, rfl, rfl, by decide⟩
  have call : Stray (listed amd64Target true astray).pool [⟨0⟩, ⟨1⟩, ⟨2⟩] ⟨1⟩ .call ⟨20⟩ :=
    ⟨by decide, rfl, rfl, by decide⟩
  have between : (listed amd64Target true astray).pool.IssuedBetween w'.pool ⟨4⟩ := by
    rw [Pool.IssuedBetween, issued]
    decide
  have notBetween : ¬ (listed amd64Target true astray).pool.IssuedBetween w'.pool ⟨20⟩ := by
    rw [Pool.IssuedBetween, issued]
    decide
  obtain ⟨jump_reported, emits⟩ := branches _ _ _ jump
  obtain ⟨call_reported, -⟩ := branches _ _ _ call
  exact ⟨w', s', final, run, call_reported.mpr notBetween, fun met => jump_reported.mp met between,
    (emits _).mpr ⟨rfl, between⟩, ret, code⟩

end X86

end InstrStream
