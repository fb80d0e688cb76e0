import InstrStream.Proofs.X86.FrameExpansion
import InstrStream.Proofs.X86.Meaning
import InstrStream.Proofs.X86.Placement
import InstrStream.X86.Backend

/-! The outcome of assembly. A list of issued records is always assembled: either all of it is laid out
and its records get their offsets, or nothing is changed but the diagnostics, which then end with the
reason. Branches never fail for want of a target or a label. -/
namespace InstrStream.X86

/-- What a record emits in the function with these records. -/
def Emits (m : Mode) (pool : Pool) (hs : List Handle) (h : Handle) (x : Emission) : Prop :=
  lower m hs.contains (pool.record h).toPayload = .ok (some x)

theorem Emits.sound {m : Mode} {pool : Pool} {hs : List Handle} {h : Handle} {x : Emission}
    (emits : Emits m pool hs h x) (leads : Handle → Int → Prop) :
    Sound m hs.contains leads (pool.record h).toPayload x :=
  lower_sound emits

theorem Emits.target_mem {m : Mode} {pool : Pool} {hs : List Handle} {h t : Handle} {kind : Branch}
    (emits : Emits m pool hs h (.branch kind t)) : (pool.record h).dst = .branch t ∧ t ∈ hs := by
  obtain ⟨dst, inside, -⟩ := emits.sound fun _ _ => True
  exact ⟨dst, by simpa using inside⟩

namespace Assembly

/-- The steps of a function. -/
def stepsOf (m : Mode) (pool : Pool) (hs : List Handle) : List Step :=
  (lowerChain m pool hs).map Lowered.step

section Steps

variable {m : Mode} {pool : Pool} {hs : List Handle}

theorem lower_unset {inFunction : Handle → Bool} {p : Payload} (unset : p.op = .unset) :
    lower m inFunction p = .error .unsupported := by
  simp only [lower, unset]
  rfl

theorem emission_step {inFunction : Handle → Bool} {p : Payload} {h : Handle} {op : Opcode}
    {x : Emission} :
    (Lowered.step ⟨h, op, lowerRecord m inFunction p⟩).emission = some x ↔
      lower m inFunction p = .ok (some x) := by
  simp only [Lowered.step, lowerRecord]
  by_cases unset : p.op = .unset
  · rw [if_pos unset, lower_unset unset]
    exact ⟨nofun, nofun⟩
  · rw [if_neg unset]
    cases lower m inFunction p with
    | error e => exact ⟨nofun, nofun⟩
    | ok emission =>
        exact ⟨congrArg Except.ok, Except.ok.inj⟩

theorem handle_step (l : Lowered) : l.step.handle = l.handle := by
  unfold Lowered.step
  split <;> rfl

theorem length_stepsOf (m : Mode) (pool : Pool) (hs : List Handle) :
    (stepsOf m pool hs).length = hs.length := by
  rw [stepsOf, lowerChain, List.length_map, List.length_map]

theorem stepsOf_eq (m : Mode) (pool : Pool) (hs : List Handle) :
    stepsOf m pool hs = hs.map fun h => Lowered.step
      ⟨h, (pool.record h).op, lowerRecord m hs.contains (pool.record h).toPayload⟩ := by
  rw [stepsOf, lowerChain, List.map_map]
  rfl

theorem map_handle_stepsOf (m : Mode) (pool : Pool) (hs : List Handle) :
    (stepsOf m pool hs).map Step.handle = hs := by
  rw [stepsOf_eq, List.map_map]
  refine (List.map_congr_left fun h _ => ?_).trans (List.map_id hs)
  exact handle_step _

theorem exists_step (m : Mode) (pool : Pool) {i : Nat} {h : Handle} (at_i : hs[i]? = some h) :
    ∃ s, (stepsOf m pool hs)[i]? = some s ∧ s.handle = h ∧
      ∀ x, s.emission = some x ↔ Emits m pool hs h x := by
  refine ⟨_, by rw [stepsOf_eq, List.getElem?_map, at_i, Option.map_some], handle_step _, ?_⟩
  intro x
  exact emission_step

theorem mem_emissions {x : Emission} :
    x ∈ (stepsOf m pool hs).filterMap Step.emission ↔ ∃ h ∈ hs, Emits m pool hs h x := by
  rw [stepsOf_eq, List.filterMap_map, List.mem_filterMap]
  constructor
  · rintro ⟨h, met, emits⟩
    exact ⟨h, met, emission_step.mp emits⟩
  · rintro ⟨h, met, emits⟩
    exact ⟨h, met, emission_step.mpr emits⟩

theorem distinct_stepsOf (distinct : hs.Nodup) : ((stepsOf m pool hs).map Step.handle).Nodup := by
  rwa [map_handle_stepsOf]

/-- The target of a branch is a record of the function, and one of the targets found in advance. -/
theorem branches_stepsOf {kind : Branch} {t : Handle}
    (emitted : .branch kind t ∈ (stepsOf m pool hs).filterMap Step.emission) :
    (targets pool hs).contains t = true ∧ t ∈ (stepsOf m pool hs).map Step.handle := by
  obtain ⟨h, met, emits⟩ := mem_emissions.mp emitted
  obtain ⟨dst, on⟩ := emits.target_mem
  rw [map_handle_stepsOf]
  refine ⟨?_, on⟩
  simp only [targets, List.contains_eq_mem, List.mem_filter, List.mem_filterMap, decide_eq_true_eq]
  refine ⟨⟨h, met, ?_⟩, on⟩
  rw [dst]
  rfl

end Steps

/-- All that the records of a function emit exists in the mode, and layout gives these chunks for it. -/
structure LaidOut (m : Mode) (pool : Pool) (hs : List Handle) (cs : List (List UInt8)) : Prop where
  exist : ∀ h ∈ hs, ∀ x, Emits m pool hs h x → existsIn m x = true
  chunks : Layout.chunks m (pieces (targets pool hs).contains m (stepsOf m pool hs)) = .ok cs

section Outcome

variable {m : Mode} {w : Workspace} {s : Symbol} {hs : List Handle}

theorem all_existsIn_iff {pool : Pool} :
    ((stepsOf m pool hs).filterMap Step.emission).all (existsIn m) = true ↔
      ∀ h ∈ hs, ∀ x, Emits m pool hs h x → existsIn m x = true := by
  rw [List.all_eq_true]
  constructor
  · intro all h met x emits
    exact all x (mem_emissions.mpr ⟨h, met, emits⟩)
  · intro all x emitted
    obtain ⟨h, met, emits⟩ := mem_emissions.mp emitted
    exact all h met x emits

theorem diagnostics_reportAll (c : Context) (messages : List String) :
    (c.reportAll messages).diagnostics.toList = c.diagnostics.toList ++ messages := by
  induction messages generalizing c with
  | nil => exact (List.append_nil _).symm
  | cons message messages ih =>
      rw [Context.reportAll, List.foldl_cons]
      refine (ih _).trans ?_
      rw [Context.diagnostics_report, Array.toList_push, List.append_assoc]
      rfl

/-- The diagnostics about the records of a function. -/
def reports (names : Names) (m : Mode) (pool : Pool) (function : String) (hs : List Handle) :
    List String :=
  messages names function (lowerChain m pool hs)

/-- What becomes of a function that can be laid out. -/
structure Completed (m : Mode) (names : Names) (hs : List Handle) (w w' : Workspace) (s s' : Symbol)
    (cs : List (List UInt8)) : Prop where
  laid : LaidOut m w.pool hs cs
  symbol : s' = { s with code := cs.flatten }
  pool : w'.pool =
    setOffsets w.pool (hs.zip (offsets cs (counts 0 (stepsOf m w.pool hs))))
  diagnostics : w'.ctx.diagnostics.toList =
    w.ctx.diagnostics.toList ++ reports names m w.pool s.name hs

/-- What becomes of a function that cannot be laid out. -/
structure Failed (m : Mode) (names : Names) (hs : List Handle) (w w' : Workspace) (s s' : Symbol)
    (e : EncodingError) : Prop where
  not_laid : ¬ ∃ cs, LaidOut m w.pool hs cs
  symbol : s' = { s with code := [] }
  pool : w'.pool = w.pool
  diagnostics : w'.ctx.diagnostics.toList =
    w.ctx.diagnostics.toList ++ reports names m w.pool s.name hs ++ [failureMessage s.name e]

theorem assemble_of_chunks_error (m : Mode) (names : Names) (chain : w.pool.chain s.text = .ok hs)
    (nonempty : hs ≠ []) {e : EncodingError}
    (run : chunks m (targets w.pool hs).contains (stepsOf m w.pool hs) = .ok (.error e)) :
    assemble m names w s =
      (Workspace.report { w with ctx := w.ctx.reportAll (reports names m w.pool s.name hs) }
        (failureMessage s.name e), .ok { s with code := [] }) := by
  cases hs with
  | nil => exact absurd rfl nonempty
  | cons h rest =>
      rw [stepsOf] at run
      simp only [assemble, chain, run]
      rfl

theorem assemble_of_chunks_ok (m : Mode) (names : Names) (chain : w.pool.chain s.text = .ok hs)
    (nonempty : hs ≠ []) {cs : List (List UInt8)} {ns : List Nat}
    (run : chunks m (targets w.pool hs).contains (stepsOf m w.pool hs) = .ok (.ok (cs, ns))) :
    assemble m names w s =
      (Workspace.note
        { w with
          ctx := w.ctx.reportAll (reports names m w.pool s.name hs)
          pool := setOffsets w.pool (hs.zip (offsets cs ns)) } .debug
        s!"{s.name}: {hs.length} records, {cs.flatten.length} bytes",
        .ok { s with code := cs.flatten }) := by
  cases hs with
  | nil => exact absurd rfl nonempty
  | cons h rest =>
      rw [stepsOf] at run
      simp only [assemble, chain, run]
      rfl

theorem failed_of_chunks {m : Mode} (names : Names) (chain : w.pool.chain s.text = .ok hs)
    (nonempty : hs ≠ []) {e : EncodingError}
    (run : chunks m (targets w.pool hs).contains (stepsOf m w.pool hs) = .ok (.error e))
    (not_laid : ¬ ∃ cs, LaidOut m w.pool hs cs) :
    ∃ w' s', assemble m names w s = (w', .ok s') ∧ Failed m names hs w w' s s' e := by
  refine ⟨_, _, assemble_of_chunks_error m names chain nonempty run, not_laid, rfl, rfl, ?_⟩
  rw [Workspace.report, Context.diagnostics_report, Array.toList_push, diagnostics_reportAll]

/-- There is no third outcome. -/
theorem assemble_outcome (m : Mode) (names : Names) (chain : w.pool.chain s.text = .ok hs) :
    ∃ w' s', assemble m names w s = (w', .ok s') ∧
      ((∃ cs, Completed m names hs w w' s s' cs) ∨ ∃ e, Failed m names hs w w' s s' e) := by
  by_cases nonempty : hs = []
  · subst nonempty
    have run : assemble m names w s =
        (w.note .debug s!"{s.name}: empty function", .ok { s with code := [] }) := by
      rw [assemble, chain]
    refine ⟨_, _, run, .inl ⟨[], ⟨nofun, rfl⟩, rfl, rfl, ?_⟩⟩
    exact (List.append_nil _).symm
  · have distinct := (Pool.chain_eq_ok_iff.mp chain).nodup
    have distinct_steps : ((stepsOf m w.pool hs).map Step.handle).Nodup := distinct_stepsOf distinct
    have run := chunks_eq m distinct_steps fun kind t => branches_stepsOf
    by_cases all : ((stepsOf m w.pool hs).filterMap Step.emission).all (existsIn m) = true
    · rw [if_pos all] at run
      cases layout : Layout.chunks m (pieces (targets w.pool hs).contains m (stepsOf m w.pool hs)) with
      | error e =>
          rw [layout] at run
          have not_laid : ¬ ∃ cs, LaidOut m w.pool hs cs := by
            rintro ⟨cs, laid⟩
            rw [laid.chunks] at layout
            cases layout
          obtain ⟨w', s', ran, failed⟩ := failed_of_chunks names chain nonempty run not_laid
          exact ⟨w', s', ran, .inr ⟨_, failed⟩⟩
      | ok cs =>
          rw [layout] at run
          refine ⟨_, _, assemble_of_chunks_ok m names chain nonempty run,
            .inl ⟨cs, ⟨all_existsIn_iff.mp all, layout⟩, rfl, rfl, ?_⟩⟩
          exact diagnostics_reportAll _ _
    · rw [if_neg all] at run
      have not_laid : ¬ ∃ cs, LaidOut m w.pool hs cs := by
        rintro ⟨cs, laid⟩
        exact all (all_existsIn_iff.mpr laid.exist)
      obtain ⟨w', s', ran, failed⟩ := failed_of_chunks names chain nonempty run not_laid
      exact ⟨w', s', ran, .inr ⟨_, failed⟩⟩

end Outcome

section Messages

theorem toList_failureMessage (function : String) (e : EncodingError) :
    ∃ rest, (failureMessage function e).toList = function.toList ++ ':' :: ' ' :: 'e' :: rest := by
  refine ⟨"ncoding failed: ".toList ++ e.message.toList, ?_⟩
  simp only [failureMessage, toString, String.toList_append, List.append_assoc]
  rfl

theorem toList_message (names : Names) (function : String) (h : Handle) (op : Opcode) (r : Report) :
    ∃ rest, (r.message names function h op).toList = function.toList ++ ':' :: ' ' :: 'i' :: rest := by
  cases r with
  | unsetOpcode =>
      refine ⟨"nst".toList ++ (h.index.repr.toList ++ ": instruction with unset opcode".toList), ?_⟩
      simp only [Report.message, Handle.text, toString, String.toList_append, List.append_assoc]
      rfl
  | rejected cause =>
      refine ⟨"nst".toList ++ (h.index.repr.toList ++ (": ".toList ++ ((names.opcode op).toList ++
        (": ".toList ++ cause.message.toList)))), ?_⟩
      simp only [Report.message, Handle.text, toString, String.toList_append, List.append_assoc]
      rfl

/-- A report about a record never reads like the failure of a whole function. -/
theorem message_ne_failureMessage (names : Names) (function : String) (h : Handle) (op : Opcode) (r : Report)
    (e : EncodingError) : r.message names function h op ≠ failureMessage function e := by
  intro same
  obtain ⟨_, failure⟩ := toList_failureMessage function e
  obtain ⟨_, report⟩ := toList_message names function h op r
  rw [same, failure] at report
  simp at report

theorem failureMessage_notMem_reports (names : Names) (m : Mode) (pool : Pool) (function : String)
    (hs : List Handle) (e : EncodingError) :
    failureMessage function e ∉ reports names m pool function hs := by
  intro met
  obtain ⟨l, -, message⟩ := List.mem_filterMap.mp met
  unfold Lowered.message? at message
  split at message
  case h_1 => cases message
  case h_2 r _ => exact message_ne_failureMessage _ _ _ _ _ _ (Option.some.inj message)

end Messages

end Assembly

open Assembly X86.Frame

/-- The backends, each with the mode that it writes code for. -/
def IsBackend (m : Mode) (b : Backend) : Prop := m = .bits64 ∧ b = amd64 ∨ m = .bits32 ∧ b = i386

theorem IsBackend.has_code {m : Mode} {b : Backend} (known : IsBackend m b) : m ≠ .bits16 := by
  rcases known with ⟨rfl, -⟩ | ⟨rfl, -⟩ <;> decide

theorem IsBackend.assemble_eq {m : Mode} {b : Backend} (known : IsBackend m b) :
    b.assemble = assemble m := by
  rcases known with ⟨rfl, rfl⟩ | ⟨rfl, rfl⟩ <;> rfl

/-- Whether a function was reported as not encodable between two states of a workspace. -/
def EncodingFailed (function : String) (w w' : Workspace) : Prop :=
  ∃ e, failureMessage function e ∈ w'.ctx.diagnostics.toList.drop w.ctx.diagnostics.size

/-- The records of a function after assembly: the list given, with its frame. -/
structure Assembled (m : Mode) (w w' : Workspace) (s s' : Symbol) (hs final : List Handle) : Prop where
  chain : w'.pool.chain s'.text = .ok final
  program : w'.pool.program final =
    framed m s.frameSize w.ctx.framePointer w.pool.issued (w.pool.program hs)

section Whole

variable {m : Mode} {w : Workspace} {s : Symbol} {hs : List Handle}

theorem record_setOffsets (pool : Pool) (offs : List (Handle × Nat)) (h : Handle) :
    ((setOffsets pool offs).record h).toPayload = (pool.record h).toPayload ∧
      ((setOffsets pool offs).get? h).map Record.link = (pool.get? h).map Record.link := by
  obtain ⟨pc, same⟩ := get?_setOffsets pool offs h
  rw [Pool.record, Pool.record, same]
  cases pool.get? h <;> exact ⟨rfl, rfl⟩

theorem emits_setOffsets (pool : Pool) (offs : List (Handle × Nat)) (h : Handle) (x : Emission) :
    Emits m (setOffsets pool offs) hs h x ↔ Emits m pool hs h x := by
  rw [Emits, Emits, (record_setOffsets pool offs h).1]

theorem program_setOffsets (pool : Pool) (offs : List (Handle × Nat)) (hs : List Handle) :
    (setOffsets pool offs).program hs = pool.program hs := by
  refine List.map_congr_left fun h _ => ?_
  rw [(record_setOffsets pool offs h).1]

theorem stepsOf_setOffsets (pool : Pool) (offs : List (Handle × Nat)) (hs : List Handle) :
    stepsOf m (setOffsets pool offs) hs = stepsOf m pool hs := by
  have same : lowerChain m (setOffsets pool offs) hs = lowerChain m pool hs := by
    refine List.map_congr_left fun h _ => ?_
    rw [(record_setOffsets pool offs h).1]
  rw [stepsOf, stepsOf, same]

theorem Frame.Spliced.program {w w' : Workspace} {a : Option Handle} {hs : List Handle}
    {text : List (Handle × Payload)} (spliced : Spliced w w' a hs text) :
    w'.pool.program (text.map Prod.fst) = text := by
  rw [Pool.program, List.map_map]
  refine (List.map_congr_left fun x met => ?_).trans (List.map_id text)
  exact Prod.ext rfl (spliced.payloads x met)

theorem exists_setOffsets {w' : Workspace} {s' : Symbol}
    (outcome : (∃ cs, Completed m names hs w w' s s' cs) ∨ ∃ e, Failed m names hs w w' s s' e) :
    s'.text = s.text ∧ ∃ offs, w'.pool = setOffsets w.pool offs := by
  rcases outcome with ⟨cs, done⟩ | ⟨e, failed⟩
  · exact ⟨by rw [done.symbol], _, done.pool⟩
  · exact ⟨by rw [failed.symbol], [], failed.pool⟩

/-- Assembly of a list of issued records never faults. What is assembled is the list with its frame,
in the workspace `w₁` that its frame was made in. -/
theorem assemble_final (chain : w.pool.chain s.text = .ok hs)
    (issued : ∀ h ∈ hs, h.index < w.pool.issued) :
    ∃ w₁ s₁ w' s' final, assemble m w s = (w', .ok s') ∧ Assembled m w w' s s' hs final ∧
      final.Nodup ∧ (∀ h ∈ final, ∃ r, w₁.pool.get? h = some r) ∧ Spliced w w₁ s₁.text hs
        (framed m s.frameSize w.ctx.framePointer w.pool.issued (w.pool.program hs)) ∧
      s₁.name = s.name ∧
      ((∃ cs, Completed m names final w₁ w' s₁ s' cs) ∨ ∃ e, Failed m names final w₁ w' s₁ s' e) := by
  obtain ⟨w₁, text, expanded, spliced⟩ := expand_spliced m w s hs chain issued
  have path := spliced.path
  have nodup := path.nodup
  obtain ⟨w', s', run, outcome⟩ := assemble_outcome (s := { s with text }) m names
    (Pool.chain_eq_ok_iff.mpr path)
  obtain ⟨same_text, offs, same_pool⟩ := exists_setOffsets outcome
  refine ⟨w₁, { s with text }, w', s', _, ?_, ⟨?_, ?_⟩, nodup, fun h => path.exists_record, spliced, rfl,
    outcome⟩
  · rw [assemble, expanded]
    exact run
  · rw [same_text, same_pool, Pool.chain_eq_ok_iff]
    exact path.congr fun h _ => (record_setOffsets _ _ h).2
  · rw [same_pool, program_setOffsets, spliced.program]

section Failure

variable {w₁ w' : Workspace} {s₁ s' : Symbol} (agrees : w.ctx.Agrees w₁.ctx)
include agrees

theorem drop_diagnostics {new : List String}
    (diagnostics : w'.ctx.diagnostics.toList = w₁.ctx.diagnostics.toList ++ new) :
    w'.ctx.diagnostics.toList.drop w.ctx.diagnostics.size = new := by
  have same : w₁.ctx.diagnostics = w.ctx.diagnostics := by rw [agrees]
  rw [diagnostics, same, ← Array.length_toList, List.drop_left]

theorem Assembly.Completed.not_encodingFailed {cs : List (List UInt8)}
    (done : Completed m names hs w₁ w' s₁ s' cs) : ¬ EncodingFailed s₁.name w w' := by
  rintro ⟨e, met⟩
  rw [drop_diagnostics agrees done.diagnostics] at met
  exact failureMessage_notMem_reports _ _ _ _ _ _ met

theorem Assembly.Failed.encodingFailed {e : EncodingError}
    (failed : Failed m names hs w₁ w' s₁ s' e) : EncodingFailed s₁.name w w' := by
  refine ⟨e, ?_⟩
  rw [drop_diagnostics agrees (failed.diagnostics.trans (List.append_assoc _ _ _))]
  exact List.mem_append_right _ List.mem_cons_self

end Failure

end Whole

end InstrStream.X86
