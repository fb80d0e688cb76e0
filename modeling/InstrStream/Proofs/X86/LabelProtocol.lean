import InstrStream.Proofs.X86.EncodingFailure

/-! The protocol of labels. A stream remembers which labels were made, which were placed and which stand
before its instructions; every call that is not refused keeps these in agreement. In the assembly of a
function no call is refused: whatever the branches are, each label is placed once, before an instruction
of its own, and what may still fail in the end is not about labels. -/
namespace InstrStream.X86

open Assembly

/-- The memories of a stream agree. The labels placed are those before its instructions, in order, and
then the one that waits; labels that were placed or that branches go to were made. -/
structure Emitter.Tallied (e : Emitter) : Prop where
  carried : e.placed.reverse = labelsOf e.items.toList ++ e.waiting.toList
  placed_made : ∀ h ∈ e.placed, h ∈ e.labels
  branch_made : ∀ h ∈ branchesOf e.items.toList, h ∈ e.labels

namespace Emitter

variable {e e₁ : Emitter}

theorem tallied_initial (m : Mode) (aliases : List (Handle × Handle)) :
    Tallied { mode := m, aliases } :=
  ⟨rfl, nofun, nofun⟩

theorem Tallied.ensureLabel (tallied : e.Tallied) (h : Handle) : (e.ensureLabel h).Tallied := by
  obtain ⟨labels, made_eq, made_iff⟩ := ensureLabel_eq e h
  rw [made_eq]
  refine ⟨tallied.carried, ?_, ?_⟩
  · intro k placed
    exact (made_iff k).mpr (.inl (tallied.placed_made k placed))
  · intro k branch
    exact (made_iff k).mpr (.inl (tallied.branch_made k branch))

theorem owner_ensureLabel (e : Emitter) (h : Handle) : (e.ensureLabel h).owner = e.owner := by
  obtain ⟨labels, made_eq, -⟩ := ensureLabel_eq e h
  rw [made_eq]
  rfl

theorem owner_mem_ensureLabel (e : Emitter) (h : Handle) : e.owner h ∈ (e.ensureLabel h).labels := by
  obtain ⟨labels, made_eq, made_iff⟩ := ensureLabel_eq e h
  rw [made_eq]
  exact (made_iff _).mpr (.inr rfl)

/-- A label that is placed is remembered as placed and as waiting at once. -/
theorem Tallied.place (tallied : e.Tallied) {h : Handle} (run : e.place h = (e₁, .ok ())) :
    e₁.Tallied := by
  have made := tallied.ensureLabel h
  have here := owner_mem_ensureLabel e h
  rw [Emitter.place] at run
  cases idle : (e.ensureLabel h).waiting with
  | some other =>
      rw [idle] at run
      cases run
  | none =>
      rw [idle] at run
      obtain rfl := congrArg Prod.fst run
      rw [← owner_ensureLabel e h] at here
      refine ⟨?_, ?_, made.branch_made⟩
      · have carried := made.carried
        rw [idle, Option.toList_none, List.append_nil] at carried
        rw [List.reverse_cons, carried]
        rfl
      · intro k placed
        rcases List.mem_cons.mp placed with rfl | old
        · exact here
        · exact made.placed_made k old

/-- A waiting label moves to the instruction that comes. -/
theorem Tallied.push (tallied : e.Tallied) (x : Emission)
    (made : ∀ kind t, x = .branch kind t → t ∈ e.labels) : (e.push x).Tallied := by
  refine ⟨?_, tallied.placed_made, ?_⟩
  · rw [Emitter.push, tallied.carried, Array.toList_push, labelsOf, labelsOf, List.filterMap_append,
      Option.toList_none, List.append_nil]
    cases e.waiting <;> rfl
  · intro h branch
    rw [Emitter.push, Array.toList_push, branchesOf, List.filterMap_append] at branch
    rcases List.mem_append.mp branch with old | new
    · exact tallied.branch_made h old
    · cases x with
      | plain i => cases new
      | branch kind t =>
          obtain rfl := List.mem_singleton.mp new
          exact made kind h rfl

theorem Tallied.emit (tallied : e.Tallied) (x : Emission) : (e.emit x).Tallied := by
  cases x with
  | plain i => exact tallied.push (.plain i) nofun
  | branch kind t =>
      apply (tallied.ensureLabel t).push
      rintro _ _ ⟨⟩
      rw [owner_ensureLabel]
      exact owner_mem_ensureLabel e t

theorem Tallied.placeFirst (tallied : e.Tallied) {first : Option Handle}
    (run : placeFirst e first = .ok e₁) : e₁.Tallied := by
  cases first with
  | none =>
      cases run
      exact tallied
  | some h =>
      rw [Assembly.placeFirst] at run
      split at run
      · rename_i placed
        cases run
        exact tallied.place placed
      · cases run

end Emitter

namespace Assembly

theorem emitSteps_eq_ok {isTarget : Handle → Bool} {e e' : Emitter} {first : Option Handle} {s : Step}
    {rest : List Step} {ns : List Nat}
    (run : emitSteps isTarget e first (s :: rest) = .ok (e', ns)) :
    ∃ ms, match s.emission with
      | none => emitSteps isTarget e (waitingAt isTarget first s.handle) rest = .ok (e', ms)
      | some x => ∃ e₁, placeFirst e (waitingAt isTarget first s.handle) = .ok e₁ ∧
          emitSteps isTarget (e₁.emit x) none rest = .ok (e', ms) := by
  rw [emitSteps] at run
  cases emission : s.emission with
  | none =>
      rw [emission] at run
      obtain ⟨⟨last, ms⟩, tail, result⟩ := bind_eq_ok.mp run
      cases result
      exact ⟨ms, tail⟩
  | some x =>
      rw [emission] at run
      obtain ⟨e₁, place, run⟩ := bind_eq_ok.mp run
      obtain ⟨⟨last, ms⟩, tail, result⟩ := bind_eq_ok.mp run
      cases result
      exact ⟨ms, e₁, place, tail⟩

/-- The memories still agree after emission, by induction on the steps: a step without an instruction
does not touch the stream, any other places what waits and adds its instruction. -/
theorem tallied_emitSteps {isTarget : Handle → Bool} {e e' : Emitter} {first : Option Handle}
    {steps : List Step} {ns : List Nat} (tallied : e.Tallied)
    (run : emitSteps isTarget e first steps = .ok (e', ns)) : e'.Tallied := by
  induction steps generalizing e first ns with
  | nil =>
      cases first with
      | none =>
          cases run
          exact tallied
      | some h =>
          obtain ⟨e₁, place, result⟩ := bind_eq_ok.mp run
          cases result
          exact (tallied.placeFirst place).emit _
  | cons s rest ih =>
      obtain ⟨ms, tail⟩ := emitSteps_eq_ok run
      cases emission : s.emission with
      | none =>
          rw [emission] at tail
          exact ih tallied tail
      | some x =>
          rw [emission] at tail
          obtain ⟨e₁, place, tail⟩ := tail
          exact ih ((tallied.placeFirst place).emit x) tail

end Assembly

/-- The protocol of labels has been kept to its end. -/
structure Emitter.Settled (e : Emitter) : Prop where
  once : ∀ h ∈ e.labels, e.placed.count h = 1
  /-- One label placed is one instruction with a label, in the same order. -/
  carried : e.placed.reverse = labelsOf e.items.toList
  branches : ∀ h ∈ branchesOf e.items.toList, h ∈ e.placed
  idle : e.waiting = none

theorem Emitter.Tallied.settled {e : Emitter} (tallied : e.Tallied) (idle : e.waiting = none)
    (distinct : (labelsOf e.items.toList).Nodup) (placed : ∀ h ∈ e.labels, h ∈ e.placed) :
    e.Settled := by
  have carried := tallied.carried
  rw [idle, Option.toList_none, List.append_nil] at carried
  have nodup : e.placed.Nodup := by
    rw [← carried] at distinct
    exact List.nodup_reverse.mp distinct
  refine ⟨?_, carried, ?_, idle⟩
  · intro h made
    exact List.count_eq_one_of_mem nodup (placed h made)
  · intro h branch
    exact placed h (tallied.branch_made h branch)

/-- Whether a label was not placed, or not before just one instruction. -/
def EncodingError.isAboutLabels : EncodingError → Bool
  | .stream .labelWaiting => true
  | .stream .unusedLabel => true
  | .stream (.neverPlaced _) => true
  | .stream (.labelRepeated _) => true
  | _ => false

theorem exists_error_of_mapM {α β ε : Type} {f : α → Except ε β} {xs : List α} {fault : ε}
    (refused : xs.mapM f = .error fault) : ∃ x ∈ xs, f x = .error fault := by
  induction xs with
  | nil => cases refused
  | cons x xs ih =>
      rw [List.mapM_cons] at refused
      cases here : f x with
      | error e =>
          rw [here] at refused
          cases refused
          exact ⟨x, List.mem_cons_self, here⟩
      | ok y =>
          rw [here] at refused
          cases later : xs.mapM f with
          | error e =>
              rw [later] at refused
              cases refused
              obtain ⟨z, met, fails⟩ := ih later
              exact ⟨z, List.mem_cons_of_mem x met, fails⟩
          | ok ys =>
              rw [later] at refused
              cases refused

/-- Layout refuses only a short branch that does not reach its target. -/
theorem Layout.Cell.isAboutLabels_of_bytes {m : Mode} {addresses : Array Nat} {ip : Nat} {c : Cell}
    {cause : StreamError} (refused : c.bytes m addresses ip = .error cause) :
    EncodingError.isAboutLabels (.stream cause) = false := by
  unfold Cell.bytes at refused
  split at refused
  · cases refused
  · simp only at refused
    split at refused
    · cases refused
      rfl
    · cases refused

theorem isAboutLabels_of_finalize {m : Mode} {pieces : List Piece} {exist : Bool} {e : EncodingError}
    (refused : (if exist then (Layout.chunks m pieces).mapError .stream
      else .error (.stream .only64Bit)) = .error e) : e.isAboutLabels = false := by
  split at refused
  · cases laid : Layout.chunks m pieces with
    | ok cs =>
        rw [laid] at refused
        cases refused
    | error cause =>
        rw [laid] at refused
        cases refused
        obtain ⟨⟨c, ip⟩, -, fails⟩ := exists_error_of_mapM laid
        exact Layout.Cell.isAboutLabels_of_bytes fails
  · cases refused
    rfl

/-- A stream can be finalized exactly when the function can be laid out. -/
theorem finalize_eq_ok_iff {m : Mode} {pool : Pool} {hs : List Handle} {e : Emitter}
    (finish : e.finalize =
      if ((stepsOf m pool hs).filterMap Step.emission).all (existsIn m) then
        (Layout.chunks m (pieces (targets pool hs).contains m (stepsOf m pool hs))).mapError .stream
      else .error (.stream .only64Bit)) (cs : List (List UInt8)) :
    e.finalize = .ok cs ↔ LaidOut m pool hs cs := by
  rw [finish]
  constructor
  · intro final
    split at final
    · rename_i exist
      refine ⟨all_existsIn_iff.mp exist, ?_⟩
      cases laid : Layout.chunks m (pieces (targets pool hs).contains m (stepsOf m pool hs)) with
      | error cause =>
          rw [laid] at final
          cases final
      | ok chunks =>
          rw [laid] at final
          cases final
          rfl
    · cases final
  · intro laid
    rw [if_pos (all_existsIn_iff.mpr laid.exist), laid.chunks]
    rfl

/-- Lowering asks for a system call only where the stream offers it. -/
theorem Emits.syscall_offered {m : Mode} {pool : Pool} {hs : List Handle} {h : Handle}
    (emits : Emits m pool hs h (.plain .syscall)) {e : Emitter} (mode : e.mode = m) :
    e.syscall = .ok (e.emit (.plain .syscall)) := by
  have means := (emits.sound fun _ _ => True).2
  generalize reading : Instruction.reading m .syscall = r at means
  cases means with
  | syscall opcode =>
      rw [Emits, lower_eq_lowerMnemonic opcode, lowerMnemonic] at emits
      split at emits
      · rename_i long
        rw [Emitter.syscall, if_pos (mode.trans long)]
      · cases emits
  | _ => cases reading

section

variable {m : Mode} {b : Backend} (known : IsBackend m b) (w : Workspace) (s : Symbol)
  (hs : List Handle) (chain : w.pool.chain s.text = .ok hs)
  (issued : ∀ h ∈ hs, h.index < w.pool.issued)
include known chain issued

/-- The protocol of labels is kept whatever the branches of a function are. Sharing meets no label that
is taken, emission is never refused, the stream it ends with is settled, and if that stream cannot be
finalized, which alone makes encoding fail, labels are not the reason. -/
theorem label_protocol_kept :
    ∃ w₁ s₁ final shared last ns, Frame.expand m w s = .ok (w₁, s₁) ∧
      w₁.pool.chain s₁.text = .ok final ∧
      shareLabels (targets w₁.pool final).contains { mode := m } none (stepsOf m w₁.pool final) =
        .ok shared ∧
      emitSteps (targets w₁.pool final).contains shared none (stepsOf m w₁.pool final) =
        .ok (last, ns) ∧
      (∀ h ∈ final, Emits m w₁.pool final h (.plain .syscall) →
        ∀ e : Emitter, e.mode = m → e.syscall = .ok (e.emit (.plain .syscall))) ∧
      last.Settled ∧ (∀ e, last.finalize = .error e → e.isAboutLabels = false) ∧
      ∃ w' s', b.assemble w s = (w', .ok s') ∧
        (EncodingFailed s.name w w' ↔ ∃ e, last.finalize = .error e) ∧
        ∀ cs, last.finalize = .ok cs → s'.code = cs.flatten := by
  obtain ⟨w₁, text, expanded, spliced⟩ := Frame.expand_spliced m w s hs chain issued
  have chain₁ := Pool.chain_eq_ok_iff.mpr spliced.path
  have distinct_steps : ((stepsOf m w₁.pool _).map Step.handle).Nodup :=
    distinct_stepsOf spliced.path.nodup
  obtain ⟨shared, last, share, share_eq, emit, idle, distinct, placed, finish⟩ :=
    exists_stream m distinct_steps fun kind t => branches_stepsOf
  have tallied : last.Tallied := by
    refine tallied_emitSteps ?_ emit
    rw [share_eq]
    exact Emitter.tallied_initial m shared.aliases
  have laid_iff := finalize_eq_ok_iff finish
  obtain ⟨w', s', run, outcome⟩ := assemble_outcome (s := { s with text }) m names chain₁
  have whole : b.assemble w s = (w', .ok s') := by
    rw [known.assemble_eq, assemble, expanded]
    exact run
  refine ⟨w₁, _, _, shared, last, _, expanded, chain₁, share, emit, ?_,
    tallied.settled idle distinct placed, ?_, w', s', whole, ?_⟩
  · intro h _ emits e mode
    exact emits.syscall_offered mode
  · intro e refused
    rw [finish] at refused
    exact isAboutLabels_of_finalize refused
  · rcases outcome with ⟨cs, done⟩ | ⟨e, failed⟩
    · have final := (laid_iff cs).mpr done.laid
      have encoded := done.not_encodingFailed spliced.ctx
      refine ⟨iff_of_false encoded ?_, ?_⟩
      · rintro ⟨e, refused⟩
        rw [final] at refused
        cases refused
      · intro cs' final'
        rw [final] at final'
        cases final'
        rw [done.symbol]
    · have refused : ∀ cs, last.finalize ≠ .ok cs := fun cs final =>
        failed.not_laid ⟨cs, (laid_iff cs).mp final⟩
      have not_encoded := failed.encodingFailed spliced.ctx
      refine ⟨iff_of_true not_encoded ?_, ?_⟩
      · cases final : last.finalize with
        | error e => exact ⟨e, rfl⟩
        | ok cs => exact absurd final (refused cs)
      · intro cs final
        exact absurd final (refused cs)

end

/-- Jumps forward and back to records without an instruction between them, and a target behind all
instructions that only a jump and a record that is reported name. -/
def crossing : List Payload :=
  [{ op := .jmp, dst := .branch ⟨2⟩ }, { op := .nop }, { op := .nop },
   { op := Mnemonic.opcode (.binary .mov .quad), src := .reg ⟨1⟩, dst := .branch ⟨6⟩ },
   { op := Mnemonic.opcode (.jump .equal), dst := .branch ⟨1⟩ },
   { op := .call, dst := .branch ⟨6⟩ }, { op := .nop }]

def crossingSymbol : Symbol := { name := "crossing", text := some ⟨0⟩, frameSize := 8 }

theorem crossing_stream {w₁ : Workspace} {s₁ : Symbol} {final : List Handle} {shared last : Emitter}
    {ns : List Nat}
    (expanded : Frame.expand .bits64 (listed amd64Target true crossing) crossingSymbol = .ok (w₁, s₁))
    (chain : w₁.pool.chain s₁.text = .ok final)
    (share : shareLabels (targets w₁.pool final).contains { mode := .bits64 } none
      (stepsOf .bits64 w₁.pool final) = .ok shared)
    (emit : emitSteps (targets w₁.pool final).contains shared none (stepsOf .bits64 w₁.pool final) =
      .ok (last, ns)) :
    shared.owner ⟨2⟩ = ⟨1⟩ ∧ last.labels = [⟨6⟩, ⟨1⟩] := by
  cases expanded
  cases chain
  cases share
  cases emit
  exact ⟨rfl, rfl⟩

/-- Two of the three targets share a label, and both labels end up before one instruction each. -/
theorem label_protocol_kept_crossing :
    ∃ shared last : Emitter, shared.owner ⟨2⟩ = ⟨1⟩ ∧ last.labels = [⟨6⟩, ⟨1⟩] ∧ last.Settled ∧
      last.placed.count ⟨1⟩ = 1 ∧ last.placed.count ⟨6⟩ = 1 := by
  obtain ⟨w₁, s₁, final, shared, last, ns, expanded, chain, share, emit, -, settled, -⟩ :=
    label_protocol_kept (.inl ⟨rfl, rfl⟩) (listed amd64Target true crossing) crossingSymbol
      [⟨0⟩, ⟨1⟩, ⟨2⟩, ⟨3⟩, ⟨4⟩, ⟨5⟩, ⟨6⟩] rfl (by decide)
  obtain ⟨owner, labels⟩ := crossing_stream expanded chain share emit
  have once := settled.once
  rw [labels] at once
  exact ⟨shared, last, owner, labels, settled, once _ (by decide), once _ (by decide)⟩

end InstrStream.X86
