import InstrStream.Proofs.X86.AssembledProgram
import InstrStream.Proofs.X86.LabelProtocol

/-! Diagnostics account for every record. Each record of a function with its frame emits one instruction, is
a NOP, or is reported by one message that names it; a message about the function as a whole follows if its
stream cannot be finalized. Whoever listens is told exactly the messages that are recorded. -/
namespace InstrStream

/-- What a listener keeps of messages that are reported. -/
def Listener.kept : Listener → List String → List String
  | .keep tag, messages => messages.map (tag ++ ·)
  | _, _ => []

/-- What a listener notes in the journal of messages that are reported. -/
def Listener.noted : Listener → List String → List String
  | .journal, messages => messages
  | _, _ => []

namespace Context

/-- The warnings in the journal. -/
def warnings (c : Context) : List String :=
  c.journal.toList.filterMap fun e => if e.level = .warn then some e.message else none

/-- Between two states of a context exactly these messages were reported: they are recorded in this order,
and the listener was told the same. -/
structure Delivered (c d : Context) (messages : List String) : Prop where
  listener : d.listener = c.listener
  recorded : d.diagnostics.toList = c.diagnostics.toList ++ messages
  kept : d.heard.toList = c.heard.toList ++ c.listener.kept messages
  noted : d.warnings = c.warnings ++ c.listener.noted messages

variable {c d e : Context} {xs ys : List String}

theorem kept_append (l : Listener) (xs ys : List String) : l.kept (xs ++ ys) = l.kept xs ++ l.kept ys := by
  cases l with
  | keep tag => exact List.map_append
  | _ => rfl

theorem noted_append (l : Listener) (xs ys : List String) :
    l.noted (xs ++ ys) = l.noted xs ++ l.noted ys := by
  cases l <;> rfl

theorem kept_nil (l : Listener) : l.kept [] = [] := by
  cases l <;> rfl

theorem noted_nil (l : Listener) : l.noted [] = [] := by
  cases l <;> rfl

theorem Delivered.trans (first : c.Delivered d xs) (second : d.Delivered e ys) :
    c.Delivered e (xs ++ ys) := by
  refine ⟨second.listener.trans first.listener, ?_, ?_, ?_⟩
  · rw [second.recorded, first.recorded, List.append_assoc]
  · rw [second.kept, first.kept, first.listener, kept_append, List.append_assoc]
  · rw [second.noted, first.noted, first.listener, noted_append, List.append_assoc]

/-- A step in which nothing is reported and no warning is noted. -/
theorem delivered_nil (listener : d.listener = c.listener) (diagnostics : d.diagnostics = c.diagnostics)
    (heard : d.heard = c.heard) (warnings : d.warnings = c.warnings) : c.Delivered d [] := by
  refine ⟨listener, ?_, ?_, ?_⟩
  · rw [diagnostics, List.append_nil]
  · rw [heard, kept_nil, List.append_nil]
  · rw [warnings, noted_nil, List.append_nil]

theorem Delivered.refl (c : Context) : c.Delivered c [] := delivered_nil rfl rfl rfl rfl

theorem warnings_note (c : Context) (level : Level) (message : String) :
    (c.note level message).warnings = c.warnings ++ if level = .warn then [message] else [] := by
  rw [warnings, note, Array.toList_push, List.filterMap_append]
  cases level <;> rfl

theorem delivered_note (c : Context) (level : Level) (message : String) (quiet : level ≠ .warn) :
    c.Delivered (c.note level message) [] := by
  refine delivered_nil rfl rfl rfl ?_
  rw [warnings_note, if_neg quiet, List.append_nil]

theorem listener_tell (c : Context) (message : String) : (c.tell message).listener = c.listener := by
  unfold tell
  split <;> rfl

theorem heard_tell (c : Context) (message : String) :
    (c.tell message).heard.toList = c.heard.toList ++ c.listener.kept [message] := by
  unfold tell
  cases listener : c.listener with
  | silent => exact (List.append_nil _).symm
  | journal => exact (List.append_nil _).symm
  | keep tag => exact Array.toList_push

theorem warnings_tell (c : Context) (message : String) :
    (c.tell message).warnings = c.warnings ++ c.listener.noted [message] := by
  unfold tell
  cases listener : c.listener with
  | silent => exact (List.append_nil _).symm
  | journal => exact warnings_note c .warn message
  | keep tag => exact (List.append_nil _).symm

theorem delivered_report (c : Context) (message : String) : c.Delivered (c.report message) [message] := by
  refine ⟨listener_tell c message, ?_, heard_tell c message, warnings_tell c message⟩
  rw [diagnostics_report, Array.toList_push]

theorem delivered_reportAll (c : Context) (messages : List String) :
    c.Delivered (c.reportAll messages) messages := by
  induction messages generalizing c with
  | nil => exact .refl c
  | cons message messages ih => exact (delivered_report c message).trans (ih (c.report message))

end Context

theorem Workspace.delivered_alloc (w : Workspace) : w.ctx.Delivered w.alloc.2.ctx [] := by
  have single : ∀ c : Context, c.Delivered c.issueRecord.2 [] := fun c => Context.delivered_nil rfl rfl rfl rfl
  have late : ∀ h, w.ctx.Delivered (w.overflowed h) [] := by
    intro h
    simp only [overflowed]
    split
    · exact ((Context.delivered_note _ .debug _ (by decide)).trans
        (Context.delivered_note _ .trace _ (by decide))).trans (single _)
    · exact (Context.delivered_note _ .trace _ (by decide)).trans (single _)
  simp only [alloc]
  split
  · exact .refl _
  · exact late _

namespace X86

open Assembly X86.Frame

section Frames

variable (m : Mode) (size : UInt32)

theorem delivered_newRecords (w : Workspace) (ps : List Payload) :
    w.ctx.Delivered (newRecords w ps).2.ctx [] := by
  induction ps generalizing w with
  | nil => exact .refl _
  | cons p ps ih => exact w.delivered_alloc.trans (ih (newRecord w p).2)

theorem delivered_expandReturns (w : Workspace) (rs : List Handle) :
    w.ctx.Delivered (rs.foldl (expandReturn m size) w).ctx [] := by
  induction rs generalizing w with
  | nil => exact .refl _
  | cons h rs ih =>
      have step : w.ctx.Delivered (expandReturn m size w h).ctx [] := delivered_newRecords w _
      exact step.trans (ih (expandReturn m size w h))

/-- Adding a frame reports nothing. -/
theorem delivered_expand {w w' : Workspace} {s s' : Symbol} (expanded : expand m w s = .ok (w', s')) :
    w.ctx.Delivered w'.ctx [] := by
  rw [expand] at expanded
  split at expanded
  · cases expanded
    exact .refl _
  · split at expanded
    · cases expanded
      exact .refl _
    · split at expanded
      · cases expanded
      · rename_i hs _
        cases expanded
        have returns := delivered_expandReturns m s.frameSize w
          (hs.filter fun h => (w.pool.record h).op = .ret)
        exact (returns.trans (delivered_newRecords _ _)).trans (Context.delivered_note _ .debug _ (by decide))

end Frames

section Classification

variable {m : Mode} {inFunction : Handle → Bool} {p : Payload}

theorem lowerTransfer_ne_none {kind : Branch} {indirect : RegMem → Instruction} {o : Operand} :
    lowerTransfer m inFunction kind indirect o ≠ .ok none := by
  intro lowered
  unfold lowerTransfer at lowered
  split at lowered
  · exact lowerBranch_ne_none lowered
  · obtain ⟨i, -, built⟩ := bind_eq_ok.mp lowered
    cases built

/-- Only a NOP is accepted and emits nothing. -/
theorem lower_eq_none_iff : lower m inFunction p = .ok none ↔ p.op = .nop := by
  constructor
  · intro lowered
    rw [lower] at lowered
    split at lowered
    · assumption
    · split at lowered
      · cases lowered
      · split at lowered
        · exact absurd lowered lowerTransfer_ne_none
        · split at lowered
          · exact absurd lowered lowerTransfer_ne_none
          · split at lowered
            · exact absurd lowered lowerMnemonic_ne_none
            · cases lowered
  · intro nop
    rw [lower, if_pos nop]

end Classification

section Account

variable (m : Mode) (pool : Pool) (hs : List Handle)

/-- The message about a record of a function, if it has no opcode or cannot be lowered. -/
def reportOf (function : String) (h : Handle) : Option String :=
  let p := (pool.record h).toPayload
  if p.op = .unset then some s!"{function}: {h.text}: instruction with unset opcode"
  else
    match lower m hs.contains p with
    | .ok _ => none
    | .error cause => some s!"{function}: {h.text}: {names.opcode p.op}: {cause.message}"

def isNop (h : Handle) : Bool := (pool.record h).op = .nop

/-- What a record of a function emits. -/
def emissionOf (h : Handle) : Option Emission :=
  match lower m hs.contains (pool.record h).toPayload with
  | .ok emission => emission
  | .error _ => none

theorem emissionOf_eq_some_iff {h : Handle} {x : Emission} :
    emissionOf m pool hs h = some x ↔ Emits m pool hs h x := by
  rw [emissionOf, Emits]
  cases lower m hs.contains (pool.record h).toPayload with
  | ok emission => exact ⟨congrArg Except.ok, Except.ok.inj⟩
  | error e =>
      constructor <;> intro same <;> cases same

/-- Each record is exactly one of emitted, a NOP and reported. -/
theorem one_of_three (function : String) (h : Handle) :
    (if (emissionOf m pool hs h).isSome then 1 else 0) + (if isNop pool h then 1 else 0) +
      (if (reportOf m pool hs function h).isSome then 1 else 0) = 1 := by
  have nop : isNop pool h = true ↔ lower m hs.contains (pool.record h).toPayload = .ok none := by
    rw [isNop, decide_eq_true_eq, lower_eq_none_iff]
  -- A record without an opcode is rejected by lowering as well, so it is not counted twice.
  by_cases unset : (pool.record h).op = .unset
  · simp [emissionOf, reportOf, nop, unset, lower_unset unset]
  · rcases lowered : lower m hs.contains (pool.record h).toPayload with cause | _ | x
    all_goals simp [emissionOf, reportOf, nop, unset, lowered]

/-- All records are accounted for. -/
theorem account (function : String) (ks : List Handle) :
    ks.countP (fun h => (emissionOf m pool hs h).isSome) + ks.countP (isNop pool) +
      ks.countP (fun h => (reportOf m pool hs function h).isSome) = ks.length := by
  induction ks with
  | nil => rfl
  | cons h ks ih =>
      have one := one_of_three m pool hs function h
      simp only [List.countP_cons, List.length_cons]
      omega

theorem reports_eq_filterMap (function : String) :
    reports names m pool function hs = hs.filterMap (reportOf m pool hs function) := by
  rw [reports, messages, lowerChain, List.filterMap_map]
  congr 1
  funext h
  simp only [Function.comp_apply, Lowered.message?, lowerRecord, reportOf]
  by_cases unset : (pool.record h).op = .unset
  · simp only [if_pos unset]
    rfl
  · simp only [if_neg unset]
    cases lower m hs.contains (pool.record h).toPayload <;> rfl

theorem stepsOf_eq_map : stepsOf m pool hs = hs.map fun h => ⟨h, emissionOf m pool hs h⟩ := by
  rw [stepsOf_eq]
  apply List.map_congr_left
  intro h _
  have handle := handle_step ⟨h, (pool.record h).op, lowerRecord m hs.contains (pool.record h).toPayload⟩
  have emission : (Lowered.step ⟨h, (pool.record h).op,
      lowerRecord m hs.contains (pool.record h).toPayload⟩).emission = emissionOf m pool hs h := by
    apply Option.ext
    intro x
    rw [emissionOf_eq_some_iff]
    exact emission_step
  rw [← emission]
  exact congrArg (Step.mk · _) handle

end Account

section Stream

variable {m : Mode} {pool : Pool} {hs : List Handle}

theorem emissionOf_eq_none_iff {h : Handle} :
    (emissionOf m pool hs h).isSome = false ↔ ∀ x, ¬ Emits m pool hs h x := by
  rw [Option.isSome_eq_false_iff, Option.isNone_iff_eq_none, Option.eq_none_iff_forall_ne_some]
  simp only [ne_eq, emissionOf_eq_some_iff]

/-- A NOP is needed at the end exactly if nothing is emitted from some target on. -/
theorem needsNop_iff :
    (waitingEnd (targets pool hs).contains none (stepsOf m pool hs)).isSome = true ↔
      ∃ front t rest, hs = front ++ t :: rest ∧ t ∈ targets pool hs ∧
        ∀ h ∈ t :: rest, ∀ x, ¬ Emits m pool hs h x := by
  rw [isSome_waitingEnd_iff_append, stepsOf_eq_map]
  set step : Handle → Step := fun h => ⟨h, emissionOf m pool hs h⟩ with step_def
  have silent_iff : ∀ ks : List Handle, (∀ u ∈ ks.map step, u.emits = false) ↔
      ∀ h ∈ ks, ∀ x, ¬ Emits m pool hs h x := by
    intro ks
    rw [List.forall_mem_map]
    refine forall₂_congr fun h _ => ?_
    exact emissionOf_eq_none_iff
  constructor
  · rintro (⟨waits, -⟩ | ⟨front, s, rest, split, target, silent⟩)
    · cases waits
    · obtain ⟨above, below, list, -, tail⟩ := List.map_eq_append_iff.mp split
      obtain ⟨t, below, rfl, rfl, rfl⟩ := List.map_eq_cons_iff.mp tail
      refine ⟨above, t, below, list, by simpa using target, ?_⟩
      rwa [← silent_iff, List.map_cons]
  · rintro ⟨front, t, rest, list, target, silent⟩
    refine .inr ⟨front.map step, step t, rest.map step, ?_, by simpa using target, ?_⟩
    · rw [← List.map_cons, ← List.map_append]
      exact congrArg (List.map step) list
    · rwa [← List.map_cons, silent_iff]

/-- The stream of a function is what its steps come to. -/
theorem items_of_emitSteps {isTarget : Handle → Bool} {steps : List Step} {shared last : Emitter}
    {ns : List Nat} (distinct : (steps.map Step.handle).Nodup)
    (share : shareLabels isTarget { mode := m } none steps = .ok shared)
    (emit : emitSteps isTarget shared none steps = .ok (last, ns)) :
    last.items.toList = items isTarget shared.owner none steps := by
  obtain ⟨e, share', e_eq, led⟩ := exists_shareLabels isTarget { mode := m } none steps rfl distinct nofun
    fun h _ => rfl
  obtain rfl : shared = e := Except.ok.inj (share.symm.trans share')
  obtain ⟨e', emit', extended⟩ := exists_emitSteps isTarget shared none steps (by rw [e_eq])
    fun h => owner_of_mem_labelsOf distinct led
  obtain ⟨rfl, -⟩ := Prod.mk.inj (Except.ok.inj (emit.symm.trans emit'))
  rw [extended.items, e_eq]
  rfl

end Stream

/-- The account of a function: its stream holds what the records emit, with branches to the labels that
their targets use, and behind that a NOP if it is needed. Each record is emitted, a NOP or reported. -/
structure Accounted (m : Mode) (pool : Pool) (final : List Handle) (function : String)
    (owner : Handle → Handle) (stream : List Item) (trailing : List Emission) : Prop where
  emissions : stream.map Item.emission =
    (final.filterMap (emissionOf m pool final)).map (Emission.retarget owner) ++ trailing
  atMostOne : trailing = [] ∨ trailing = [.plain .nop]
  needed : trailing ≠ [] ↔ ∃ front t rest, final = front ++ t :: rest ∧ t ∈ targets pool final ∧
    ∀ h ∈ t :: rest, ∀ x, ¬ Emits m pool final h x
  count : stream.length + final.countP (isNop pool) +
    final.countP (fun h => (reportOf m pool final function h).isSome) = final.length + trailing.length

section Assembly

variable {m : Mode} {w : Workspace} {s : Symbol} {hs : List Handle} {shared last : Emitter} {ns : List Nat}

theorem emissions_items (isTarget : Handle → Bool) (owner : Handle → Handle) (steps : List Step) :
    (items isTarget owner none steps).map Item.emission =
      (steps.filterMap Step.emission).map (Emission.retarget owner) ++
        if (waitingEnd isTarget none steps).isSome then [.plain .nop] else [] := by
  refine (map_items isTarget id owner none steps).trans ?_
  congr 1
  apply List.map_congr_left
  intro x _
  cases x <;> rfl

theorem accounted (function : String) (distinct : hs.Nodup)
    (share : shareLabels (targets w.pool hs).contains { mode := m } none (stepsOf m w.pool hs) = .ok shared)
    (emit : emitSteps (targets w.pool hs).contains shared none (stepsOf m w.pool hs) = .ok (last, ns)) :
    ∃ trailing, Accounted m w.pool hs function shared.owner last.items.toList trailing := by
  have stream := items_of_emitSteps (distinct_stepsOf distinct) share emit
  have emissions := emissions_items (targets w.pool hs).contains shared.owner (stepsOf m w.pool hs)
  have emitted : (stepsOf m w.pool hs).filterMap Step.emission = hs.filterMap (emissionOf m w.pool hs) := by
    rw [stepsOf_eq_map, List.filterMap_map]
    rfl
  rw [← stream, emitted] at emissions
  refine ⟨_, emissions, ?_, ?_, ?_⟩
  · split
    · exact .inr rfl
    · exact .inl rfl
  · rw [← needsNop_iff]
    split
    · rename_i needed
      exact iff_of_true nofun needed
    · rename_i notNeeded
      exact iff_of_false (fun nonempty => nonempty rfl) notNeeded
  · have length := congrArg List.length emissions
    rw [List.length_map, List.length_append, List.length_map, List.length_filterMap_eq_countP] at length
    have all := account m w.pool hs function hs
    omega

/-- Reporting the records, and the failure of a stream that cannot be finalized, is all that assembly
tells. -/
theorem delivered_assemble (chain : w.pool.chain s.text = .ok hs)
    (share : shareLabels (targets w.pool hs).contains { mode := m } none (stepsOf m w.pool hs) = .ok shared)
    (emit : emitSteps (targets w.pool hs).contains shared none (stepsOf m w.pool hs) = .ok (last, ns)) :
    ∃ w' s', Assembly.assemble m names w s = (w', .ok s') ∧
      w.ctx.Delivered w'.ctx (reports names m w.pool s.name hs ++ failureReport s.name last.finalize) := by
  have run : chunks m (targets w.pool hs).contains (stepsOf m w.pool hs) =
      .ok (last.finalize.map (·, ns)) := by
    simp only [chunks, share, bind, Except.bind, emit]
    cases last.finalize <;> rfl
  have reported := w.ctx.delivered_reportAll (reports names m w.pool s.name hs)
  by_cases nonempty : hs = []
  · -- No stream is made for an empty function, and that of no steps is finalized without bytes.
    subst nonempty
    cases share
    cases emit
    refine ⟨_, _, by rw [Assembly.assemble, chain], ?_⟩
    exact Context.delivered_note _ .debug _ (by decide)
  · cases outcome : last.finalize with
    | ok cs =>
        rw [outcome] at run
        refine ⟨_, _, assemble_of_chunks_ok m names chain nonempty run, ?_⟩
        exact reported.trans (Context.delivered_note _ .debug _ (by decide))
    | error e =>
        rw [outcome] at run
        refine ⟨_, _, assemble_of_chunks_error m names chain nonempty run, ?_⟩
        exact reported.trans (Context.delivered_report _ _)

end Assembly

section

variable {m : Mode} {b : Backend} (known : IsBackend m b) (w : Workspace) (s : Symbol)
  (hs : List Handle) (chain : w.pool.chain s.text = .ok hs)
  (issued : ∀ h ∈ hs, h.index < w.pool.issued)
include known chain issued

/-- Diagnostics account for every record. What assembly reports is one message about each record of the
list with its frame that has no opcode or cannot be lowered, in order, and then one about the function if
and only if its stream cannot be finalized. The stream holds one instruction for each other record that is
no NOP, and a NOP at the end if some target needs it. Listener and record agree about the messages. -/
theorem diagnostics_account_for_records :
    ∃ w₁ s₁ final shared last ns trailing w' s', expand m w s = .ok (w₁, s₁) ∧
      w₁.pool.chain s₁.text = .ok final ∧
      shareLabels (targets w₁.pool final).contains { mode := m } none (stepsOf m w₁.pool final) =
        .ok shared ∧
      emitSteps (targets w₁.pool final).contains shared none (stepsOf m w₁.pool final) = .ok (last, ns) ∧
      Accounted m w₁.pool final s.name shared.owner last.items.toList trailing ∧
      b.assemble w s = (w', .ok s') ∧
      w.ctx.Delivered w'.ctx
        (final.filterMap (reportOf m w₁.pool final s.name) ++ failureReport s.name last.finalize) := by
  obtain ⟨w₁, text, expanded, spliced⟩ := expand_spliced m w s hs chain issued
  have chain₁ := Pool.chain_eq_ok_iff.mpr spliced.path
  have distinct := spliced.path.nodup
  obtain ⟨shared, last, share, -, emit, -⟩ := exists_stream m (distinct_stepsOf distinct) fun kind t =>
    branches_stepsOf
  obtain ⟨trailing, account⟩ := accounted s.name distinct share emit
  obtain ⟨w', s', run, delivered⟩ := delivered_assemble (s := { s with text }) chain₁ share emit
  refine ⟨w₁, _, _, shared, last, _, trailing, w', s', expanded, chain₁, share, emit, account, ?_, ?_⟩
  · rw [known.assemble_eq, assemble, expanded]
    exact run
  · rw [← reports_eq_filterMap]
    exact (delivered_expand m expanded).trans delivered

end

/-- A jump to the end over a record without an opcode. -/
def skippingEnd : List Payload :=
  [{ op := .jmp, dst := .branch ⟨3⟩ }, {}, { op := .ret }, { op := .nop }]

def heardWorkspace : Workspace :=
  let w := listed amd64Target true skippingEnd
  { w with ctx := { w.ctx with listener := .keep "! " } }

/-- The frame is too large to be reserved or released by one instruction. -/
def hugeFrame : Symbol := { name := "huge", text := some ⟨0⟩, frameSize := 0x80000000 }

theorem hugeFrame_stream {w₁ : Workspace} {s₁ : Symbol} {final : List Handle} {shared last : Emitter}
    {ns : List Nat} (expanded : expand .bits64 heardWorkspace hugeFrame = .ok (w₁, s₁))
    (chain : w₁.pool.chain s₁.text = .ok final)
    (share : shareLabels (targets w₁.pool final).contains { mode := .bits64 } none
      (stepsOf .bits64 w₁.pool final) = .ok shared)
    (emit : emitSteps (targets w₁.pool final).contains shared none (stepsOf .bits64 w₁.pool final) =
      .ok (last, ns)) :
    last.items.toList.length = 6 ∧
      final.filterMap (reportOf .bits64 w₁.pool final "huge") ++ failureReport "huge" last.finalize =
        ["huge: inst8: SUBQ: immediate 2147483648 out of range",
         "huge: inst1: instruction with unset opcode",
         "huge: inst2: ADDQ: immediate 2147483648 out of range"] := by
  cases expanded
  cases chain
  cases share
  cases emit
  exact ⟨rfl, by decide +kernel⟩

/-- Two records of the frame are reported around one of the caller. Of the nine records on the list one is
a NOP and three are reported, and six instructions are encoded, because the jump needs one to go to. -/
theorem diagnostics_account_hugeFrame :
    ∃ w' s' pool final stream owner trailing,
      amd64.assemble heardWorkspace hugeFrame = (w', .ok s') ∧
      Accounted .bits64 pool final "huge" owner stream trailing ∧ stream.length = 6 ∧
      w'.ctx.diagnostics.toList = ["huge: inst8: SUBQ: immediate 2147483648 out of range",
        "huge: inst1: instruction with unset opcode",
        "huge: inst2: ADDQ: immediate 2147483648 out of range"] ∧
      w'.ctx.heard.toList = ["! huge: inst8: SUBQ: immediate 2147483648 out of range",
        "! huge: inst1: instruction with unset opcode",
        "! huge: inst2: ADDQ: immediate 2147483648 out of range"] := by
  obtain ⟨w₁, s₁, final, shared, last, ns, trailing, w', s', expanded, chain, share, emit, account, run,
    delivered⟩ := diagnostics_account_for_records (.inl ⟨rfl, rfl⟩) heardWorkspace hugeFrame
      [⟨0⟩, ⟨1⟩, ⟨2⟩, ⟨3⟩] rfl (by decide)
  obtain ⟨length, messages⟩ := hugeFrame_stream expanded chain share emit
  rw [show hugeFrame.name = "huge" from rfl, messages] at delivered
  exact ⟨w', s', w₁.pool, final, _, _, trailing, run, account, length, delivered.recorded, delivered.kept⟩

end X86

end InstrStream
