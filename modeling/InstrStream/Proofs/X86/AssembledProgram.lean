import InstrStream.Proofs.X86.FramedList
import InstrStream.Proofs.X86.MachineCode

/-! Assembly as a function of the program. What a list assembles to depends on the pool only through the
program of the list: its handles with their payloads, in order, after the frame was added. So two lists
assemble alike when one program can be carried over to the other in such a way that the instructions
correspond and every record keeps the number of instructions before it. -/
namespace InstrStream.X86

open Assembly X86.Frame

section Program

variable (m : Mode) (inFunction : Handle → Bool) (text : List (Handle × Payload))

/-- What becomes of a record of a program. -/
def loweredIn (x : Handle × Payload) : Lowered := ⟨x.1, x.2.op, lowerRecord m inFunction x.2⟩

/-- The handles of a program, as the records that its branches may name. -/
def functionOf : Handle → Bool := (text.map Prod.fst).contains

/-- The steps of a program. -/
def stepsFor : List Step := text.map fun x => (loweredIn m (functionOf text) x).step

/-- The handles of a program that some destination operand of it branches to. -/
def targetsIn : List Handle :=
  (text.filterMap fun x => x.2.dst.target?).filter (· ∈ text.map Prod.fst)

/-- The diagnostics about the records of a program. -/
def reportsFor (function : String) : List String :=
  text.filterMap fun x => (loweredIn m (functionOf text) x).message? names function

/-- The bytes of the instructions of a program, or why there are none. -/
def layoutFor : Except EncodingError (List (List UInt8)) :=
  if ((stepsFor m text).filterMap Step.emission).all (existsIn m) then
    (Layout.chunks m (pieces (targetsIn text).contains m (stepsFor m text))).mapError .stream
  else .error (.stream .only64Bit)

end Program

/-- The code of a function. -/
def codeOf : Except EncodingError (List (List UInt8)) → List UInt8
  | .ok cs => cs.flatten
  | .error _ => []

/-- What is reported about a function as a whole. -/
def failureReport (function : String) : Except EncodingError (List (List UInt8)) → List String
  | .ok _ => []
  | .error e => [failureMessage function e]

section Lists

variable {m : Mode} (pool : Pool) (hs : List Handle)

theorem functionOf_eq_true_iff {text : List (Handle × Payload)} {t : Handle} :
    functionOf text t = true ↔ t ∈ text.map Prod.fst := by
  rw [functionOf, List.contains_eq_mem, decide_eq_true_eq]

theorem functionOf_program : functionOf (pool.program hs) = hs.contains := by
  rw [functionOf, map_fst_program]

theorem lowerChain_eq : lowerChain m pool hs =
    (pool.program hs).map (loweredIn m (functionOf (pool.program hs))) := by
  rw [functionOf_program, Pool.program, List.map_map]
  rfl

theorem stepsOf_eq_stepsFor : stepsOf m pool hs = stepsFor m (pool.program hs) := by
  rw [stepsOf, lowerChain_eq, List.map_map]
  rfl

theorem targets_eq_targetsIn : targets pool hs = targetsIn (pool.program hs) := by
  rw [targets, targetsIn, map_fst_program, Pool.program, List.filterMap_map]
  rfl

theorem reports_eq_reportsFor (function : String) :
    reports names m pool function hs = reportsFor m (pool.program hs) function := by
  rw [reports, messages, lowerChain_eq, List.filterMap_map]
  rfl

theorem map_handle_steps (m : Mode) (inFunction : Handle → Bool) (text : List (Handle × Payload)) :
    (text.map fun x => (loweredIn m inFunction x).step).map Step.handle = text.map Prod.fst := by
  rw [List.map_map]
  apply List.map_congr_left
  intro x _
  exact handle_step _

theorem map_handle_stepsFor (m : Mode) (text : List (Handle × Payload)) :
    (stepsFor m text).map Step.handle = text.map Prod.fst :=
  map_handle_steps m (functionOf text) text

variable {pool hs}

theorem laidOut_iff {cs : List (List UInt8)} :
    LaidOut m pool hs cs ↔ layoutFor m (pool.program hs) = .ok cs := by
  rw [layoutFor, ← stepsOf_eq_stepsFor, ← targets_eq_targetsIn]
  constructor
  · intro laid
    rw [if_pos (all_existsIn_iff.mpr laid.exist), laid.chunks]
    rfl
  · intro layout
    split at layout
    · rename_i exist
      refine ⟨all_existsIn_iff.mp exist, ?_⟩
      cases run : Layout.chunks m (pieces (targets pool hs).contains m (stepsOf m pool hs)) with
      | error e =>
          rw [run] at layout
          cases layout
      | ok chunks =>
          rw [run] at layout
          cases layout
          rfl
    · cases layout

theorem chunks_of_layout_error (distinct : hs.Nodup) {e : EncodingError}
    (layout : layoutFor m (pool.program hs) = .error e) :
    chunks m (targets pool hs).contains (stepsOf m pool hs) = .ok (.error e) := by
  rw [chunks_eq m (distinct_stepsOf distinct) fun kind t => branches_stepsOf]
  rw [layoutFor, ← stepsOf_eq_stepsFor, ← targets_eq_targetsIn] at layout
  congr 1
  split
  · rename_i exist
    rw [if_pos exist] at layout
    rw [layout]
    rfl
  · rename_i missing
    rw [if_neg missing] at layout
    exact congrArg Except.error (Except.error.inj layout)

/-- The layout of the program decides between the two outcomes of assembly, and gives the reason of a
failure. -/
theorem assemble_of_layout {w : Workspace} {s : Symbol} (chain : w.pool.chain s.text = .ok hs) :
    ∃ w' s', Assembly.assemble m names w s = (w', .ok s') ∧
      ((∃ cs, layoutFor m (w.pool.program hs) = .ok cs ∧ Completed m names hs w w' s s' cs) ∨
        ∃ e, layoutFor m (w.pool.program hs) = .error e ∧ Failed m names hs w w' s s' e) := by
  cases layout : layoutFor m (w.pool.program hs) with
  | ok cs =>
      obtain ⟨w', s', run, outcome⟩ := assemble_outcome m names chain
      refine ⟨w', s', run, .inl ⟨cs, rfl, ?_⟩⟩
      rcases outcome with ⟨cs', done⟩ | ⟨e, failed⟩
      · obtain rfl : cs = cs' := Except.ok.inj (layout.symm.trans (laidOut_iff.mp done.laid))
        exact done
      · exact absurd ⟨cs, laidOut_iff.mpr layout⟩ failed.not_laid
  | error e =>
      have not_laid : ¬ ∃ cs, LaidOut m w.pool hs cs := by
        rintro ⟨cs, laid⟩
        rw [laidOut_iff.mp laid] at layout
        cases layout
      have nonempty : hs ≠ [] := by
        rintro rfl
        exact not_laid ⟨[], nofun, rfl⟩
      have refused := chunks_of_layout_error (Pool.chain_eq_ok_iff.mp chain).nodup layout
      obtain ⟨w', s', run, failed⟩ := failed_of_chunks names chain nonempty refused not_laid
      exact ⟨w', s', run, .inr ⟨e, rfl, failed⟩⟩

end Lists

section Offsets

variable {m : Mode} {w w₁ : Workspace} {s s₁ : Symbol} {hs : List Handle}

/-- The offset of a record that is not laid out: that of an empty record where one was issued, and what
it was everywhere else. -/
def keptOffset (pool pool' : Pool) (h : Handle) : Int :=
  if pool.issued ≤ h.index ∧ h.index < pool'.issued then 0 else (pool.record h).pc

theorem pc_expand (chain : w.pool.chain s.text = .ok hs) (issued : ∀ h ∈ hs, h.index < w.pool.issued)
    (expanded : expand m w s = .ok (w₁, s₁)) {text : List (Handle × Payload)}
    (spliced : Spliced w w₁ s₁.text hs text) (h : Handle) :
    (w₁.pool.record h).pc = keptOffset w.pool w₁.pool h := by
  have kept := spliced.offsetsKept
  unfold keptOffset
  split
  · rename_i new
    exact kept.new h new.1 new.2
  · rename_i notNew
    by_cases old : h.index < w.pool.issued
    · exact kept.old h old
    · have beyond : w₁.pool.issued ≤ h.index := by omega
      rw [Pool.record_congr (get?_expand_of_ge chain issued expanded beyond)]

theorem issued_setOffsets (pool : Pool) (offs : List (Handle × Nat)) :
    (setOffsets pool offs).issued = pool.issued := setOffsets_keeps Pool.issued_modify pool offs

end Offsets

/-- What assembly makes of a list, where `text` is the program of the list with its frame. -/
structure Produced (m : Mode) (w w' : Workspace) (s s' : Symbol) (hs : List Handle)
    (text : List (Handle × Payload)) : Prop where
  text_eq : text = framed m s.frameSize w.ctx.framePointer w.pool.issued (w.pool.program hs)
  assembled : Assembled m w w' s s' hs (text.map Prod.fst)
  distinct : (text.map Prod.fst).Nodup
  present : ∀ h ∈ text.map Prod.fst, ∃ r, w'.pool.get? h = some r
  issued : w'.pool.issued + hs.length = w.pool.issued + text.length
  code : s'.code = codeOf (layoutFor m text)
  placed : ∀ cs, layoutFor m text = .ok cs → ∀ h ∈ text.map Prod.fst,
    (w'.pool.record h).pc = Layout.offset cs (before (stepsFor m text) h)
  kept : ∀ h, (∃ e, layoutFor m text = .error e) ∨ h ∉ text.map Prod.fst →
    (w'.pool.record h).pc = keptOffset w.pool w'.pool h
  diagnostics : w'.ctx.diagnostics.toList = w.ctx.diagnostics.toList ++
    (reportsFor m text s.name ++ failureReport s.name (layoutFor m text))

section Production

variable {m : Mode} {w : Workspace} {s : Symbol} {hs : List Handle}

theorem Assembly.Completed.pc_eq {w₁ w' : Workspace} {s₁ s' : Symbol} {cs : List (List UInt8)}
    (done : Completed m names hs w₁ w' s₁ s' cs) (distinct : hs.Nodup)
    (present : ∀ h ∈ hs, ∃ r, w₁.pool.get? h = some r) {h : Handle} (met : h ∈ hs) :
    (w'.pool.record h).pc = Layout.offset cs (before (stepsOf m w₁.pool hs) h) := by
  rw [done.pc distinct present (List.getElem?_idxOf met), offset_slices, before, map_handle_stepsOf]

theorem Assembly.Completed.record_of_notMem {w₁ w' : Workspace} {s₁ s' : Symbol}
    {cs : List (List UInt8)} (done : Completed m names hs w₁ w' s₁ s' cs) {h : Handle} (off : h ∉ hs) :
    w'.pool.record h = w₁.pool.record h := by
  rw [done.pool]
  apply Pool.record_congr
  apply get?_setOffsets_of_notMem
  intro met
  obtain ⟨x, on, rfl⟩ := List.mem_map.mp met
  exact off (List.of_mem_zip on).1

/-- A list of issued records is always assembled, and its program alone decides what comes of it. -/
theorem assemble_produces {b : Backend} (known : IsBackend m b) (chain : w.pool.chain s.text = .ok hs)
    (issued : ∀ h ∈ hs, h.index < w.pool.issued) :
    ∃ w' s', b.assemble w s = (w', .ok s') ∧ Produced m w w' s s' hs
      (framed m s.frameSize w.ctx.framePointer w.pool.issued (w.pool.program hs)) := by
  obtain ⟨w₁, head, expanded, spliced⟩ := expand_spliced m w s hs chain issued
  set text := framed m s.frameSize w.ctx.framePointer w.pool.issued (w.pool.program hs) with text_def
  have path := spliced.path
  have present₁ : ∀ h ∈ text.map Prod.fst, ∃ r, w₁.pool.get? h = some r := fun h => path.exists_record
  have program := spliced.program
  obtain ⟨w', s', run, outcome⟩ := assemble_of_layout (m := m) (s := { s with text := head })
    (Pool.chain_eq_ok_iff.mpr path)
  rw [program] at outcome
  have either : (∃ cs, Completed m names (text.map Prod.fst) w₁ w' { s with text := head } s' cs) ∨
      ∃ e, Failed m names (text.map Prod.fst) w₁ w' { s with text := head } s' e := by
    rcases outcome with ⟨cs, -, done⟩ | ⟨e, -, failed⟩
    · exact .inl ⟨cs, done⟩
    · exact .inr ⟨e, failed⟩
  -- Whatever the outcome, nothing but offsets is written into the list that its frame left behind.
  obtain ⟨same_text, offs, same_pool⟩ := exists_setOffsets either
  have same_issued : w'.pool.issued = w₁.pool.issued := by rw [same_pool, issued_setOffsets]
  have old_pc : ∀ h, (w₁.pool.record h).pc = keptOffset w.pool w'.pool h := by
    intro h
    rw [pc_expand chain issued expanded spliced h, keptOffset, keptOffset, same_issued]
  have old_diagnostics : w₁.ctx.diagnostics = w.ctx.diagnostics := by rw [spliced.ctx]
  have reports_eq : reports names m w₁.pool s.name (text.map Prod.fst) = reportsFor m text s.name := by
    rw [reports_eq_reportsFor, program]
  refine ⟨w', s', ?_, rfl, ⟨?_, ?_⟩, path.nodup, ?_, ?_, ?_, ?_, ?_, ?_⟩
  · rw [known.assemble_eq, assemble, expanded]
    exact run
  · rw [same_text, same_pool, Pool.chain_eq_ok_iff]
    exact path.congr fun h _ => (record_setOffsets _ _ h).2
  · rw [same_pool, program_setOffsets, program]
  · intro h met
    obtain ⟨r, found⟩ := present₁ h met
    obtain ⟨pc, changed⟩ := get?_setOffsets w₁.pool offs h
    exact ⟨_, by rw [same_pool, changed, found, Option.map_some]⟩
  · rw [same_issued]
    exact spliced.count
  · rcases outcome with ⟨cs, layout, done⟩ | ⟨e, layout, failed⟩
    · rw [layout, done.symbol]
      rfl
    · rw [layout, failed.symbol]
      rfl
  · intro cs layout h met
    rcases outcome with ⟨cs', layout', done⟩ | ⟨e, layout', -⟩
    · obtain rfl : cs = cs' := Except.ok.inj (layout.symm.trans layout')
      rw [done.pc_eq path.nodup present₁ met, stepsOf_eq_stepsFor, program]
    · rw [layout] at layout'
      cases layout'
  · intro h unplaced
    rcases outcome with ⟨cs, layout, done⟩ | ⟨e, layout, failed⟩
    · rcases unplaced with ⟨e, layout'⟩ | off
      · rw [layout] at layout'
        cases layout'
      · rw [done.record_of_notMem off, old_pc]
    · rw [← old_pc, failed.pool]
  · rcases outcome with ⟨cs, layout, done⟩ | ⟨e, layout, failed⟩
    · rw [layout, done.diagnostics, old_diagnostics, reports_eq, failureReport, List.append_nil]
    · rw [layout, failed.diagnostics, old_diagnostics, reports_eq, failureReport, List.append_assoc]

section Outcome

variable {w' : Workspace} {s' : Symbol} {text : List (Handle × Payload)} (produced : Produced m w w' s s' hs text)
include produced

theorem Produced.program : w'.pool.program (text.map Prod.fst) = text :=
  produced.assembled.program.trans produced.text_eq.symm

theorem Produced.added : w'.ctx.diagnostics.toList.drop w.ctx.diagnostics.size =
    reportsFor m text s.name ++ failureReport s.name (layoutFor m text) :=
  drop_diagnostics (.refl w.ctx) produced.diagnostics

theorem Produced.encodingFailed_iff :
    EncodingFailed s.name w w' ↔ ∃ e, layoutFor m text = .error e := by
  rw [EncodingFailed, produced.added]
  cases layout : layoutFor m text with
  | ok cs =>
      refine iff_of_false ?_ nofun
      rintro ⟨e, met⟩
      rw [failureReport, List.append_nil, ← produced.program, ← reports_eq_reportsFor] at met
      exact failureMessage_notMem_reports _ _ _ _ _ _ met
  | error e =>
      refine iff_of_true ?_ ⟨e, rfl⟩
      exact ⟨e, List.mem_append_right _ List.mem_cons_self⟩

end Outcome

end Production

section Waiting

variable {isTarget : Handle → Bool} {steps : List Step}

theorem before_append {front rest : List Step} {s : Step}
    (distinct : ((front ++ s :: rest).map Step.handle).Nodup) :
    before (front ++ s :: rest) s.handle = front.countP Step.emits := by
  rw [List.map_append, List.map_cons] at distinct
  have off : s.handle ∉ front.map Step.handle := by
    intro met
    exact (List.nodup_append.mp distinct).2.2 _ met _ List.mem_cons_self rfl
  have position : ((front ++ s :: rest).map Step.handle).idxOf s.handle = front.length := by
    rw [List.map_append, List.map_cons, List.idxOf_append_of_notMem off, List.idxOf_cons_self,
      List.length_map]
    rfl
  rw [before, position, List.take_left]

theorem isSome_waitingAfter (first : Option Handle) (s : Step) :
    (waitingAfter isTarget first s).isSome = (!s.emits && (first.isSome || isTarget s.handle)) := by
  unfold waitingAfter waitingAt
  cases s.emits <;> cases first <;> cases isTarget s.handle <;> rfl

/-- A target waits behind all steps exactly if nothing is emitted from it on. -/
theorem isSome_waitingEnd_iff_append (first : Option Handle) (steps : List Step) :
    (waitingEnd isTarget first steps).isSome ↔
      first.isSome ∧ (∀ u ∈ steps, u.emits = false) ∨
        ∃ front s rest, steps = front ++ s :: rest ∧ isTarget s.handle = true ∧
          ∀ u ∈ s :: rest, u.emits = false := by
  -- The target that waits in front of the steps changes along them, so the induction is for all of them.
  induction steps generalizing first with
  | nil => simp [waitingEnd]
  | cons s steps ih =>
      rw [waitingEnd, List.foldl_cons]
      refine (ih _).trans ?_
      simp only [isSome_waitingAfter, Bool.and_eq_true, Bool.not_eq_true', Bool.or_eq_true]
      constructor
      · rintro (⟨⟨quiet, waits⟩, silent⟩ | ⟨front, t, rest, rfl, target, silent⟩)
        · have all_silent : ∀ u ∈ s :: steps, u.emits = false := by
            simpa only [List.forall_mem_cons] using ⟨quiet, silent⟩
          rcases waits with before | target
          · exact .inl ⟨before, all_silent⟩
          · exact .inr ⟨[], s, steps, rfl, target, all_silent⟩
        · exact .inr ⟨s :: front, t, rest, rfl, target, silent⟩
      · rintro (⟨before, silent⟩ | ⟨front, t, rest, split, target, silent⟩)
        · obtain ⟨quiet, silent⟩ := List.forall_mem_cons.mp silent
          exact .inl ⟨⟨quiet, .inl before⟩, silent⟩
        · cases front with
          | nil =>
              cases split
              obtain ⟨quiet, silent⟩ := List.forall_mem_cons.mp silent
              exact .inl ⟨⟨quiet, .inr target⟩, silent⟩
          | cons u front =>
              cases split
              exact .inr ⟨front, t, rest, rfl, target, silent⟩

theorem isSome_waitingEnd_iff (distinct : (steps.map Step.handle).Nodup) :
    (waitingEnd isTarget none steps).isSome ↔
      ∃ t ∈ steps.map Step.handle, isTarget t = true ∧ before steps t = steps.countP Step.emits := by
  rw [isSome_waitingEnd_iff_append]
  constructor
  · rintro (⟨waits, -⟩ | ⟨front, s, rest, rfl, target, silent⟩)
    · cases waits
    · refine ⟨s.handle, List.mem_map_of_mem (List.mem_append_right _ List.mem_cons_self), target, ?_⟩
      have quiet : (s :: rest).countP Step.emits = 0 := by
        rw [List.countP_eq_zero]
        intro u met
        simp [silent u met]
      rw [before_append distinct, List.countP_append, quiet, Nat.add_zero]
  · rintro ⟨t, met, target, at_end⟩
    obtain ⟨s, on, rfl⟩ := List.mem_map.mp met
    obtain ⟨front, rest, rfl⟩ := List.append_of_mem on
    rw [before_append distinct, List.countP_append] at at_end
    have quiet : (s :: rest).countP Step.emits = 0 := by omega
    refine .inr ⟨front, s, rest, rfl, target, ?_⟩
    intro u later
    simpa using List.countP_eq_zero.mp quiet u later

end Waiting

/-- An emission with the target of its branch replaced. -/
def Emission.retarget (φ : Handle → Handle) : Emission → Emission
  | .plain i => .plain i
  | .branch kind t => .branch kind (φ t)

/-- Two programs with the same instructions, where `φ` takes the targets of branches from the first to
the second and each record to one with as many instructions before it. -/
structure Carries (m : Mode) (φ : Handle → Handle) (text text' : List (Handle × Payload)) : Prop where
  emissions : (stepsFor m text').filterMap Step.emission =
    ((stepsFor m text).filterMap Step.emission).map (Emission.retarget φ)
  before_eq : ∀ t ∈ text.map Prod.fst, before (stepsFor m text') (φ t) = before (stepsFor m text) t
  targets : ∀ u, u ∈ targetsIn text' ↔ ∃ t ∈ targetsIn text, φ t = u

section Carried

variable {m : Mode} {φ : Handle → Handle} {text text' : List (Handle × Payload)}

theorem mem_targetsIn {t : Handle} :
    t ∈ targetsIn text ↔ (∃ x ∈ text, x.2.dst.target? = some t) ∧ t ∈ text.map Prod.fst := by
  rw [targetsIn, List.mem_filter, List.mem_filterMap, decide_eq_true_eq]

/-- What a program branches to is one of its targets. -/
theorem target_of_emission {kind : Branch} {t : Handle}
    (emitted : .branch kind t ∈ (stepsFor m text).filterMap Step.emission) : t ∈ targetsIn text := by
  rw [stepsFor, List.filterMap_map] at emitted
  obtain ⟨x, met, emits⟩ := List.mem_filterMap.mp emitted
  have lowered : lower m (functionOf text) x.2 = .ok (some (.branch kind t)) := emission_step.mp emits
  have sound : Sound m (functionOf text) (fun _ _ => True) x.2 (.branch kind t) := lower_sound lowered
  obtain ⟨dst, inside, -⟩ := sound
  exact mem_targetsIn.mpr ⟨⟨x, met, by rw [dst]; rfl⟩, functionOf_eq_true_iff.mp inside⟩

theorem existsIn_retarget (x : Emission) : existsIn m (x.retarget φ) = existsIn m x := by
  cases x <;> rfl

theorem Carries.countP (carries : Carries m φ text text') :
    (stepsFor m text').countP Step.emits = (stepsFor m text).countP Step.emits := by
  rw [← length_filterMap_emission, ← length_filterMap_emission, carries.emissions, List.length_map]

theorem Carries.isSome_waitingEnd (carries : Carries m φ text text')
    (distinct : (text.map Prod.fst).Nodup) (distinct' : (text'.map Prod.fst).Nodup) :
    (waitingEnd (targetsIn text').contains none (stepsFor m text')).isSome =
      (waitingEnd (targetsIn text).contains none (stepsFor m text)).isSome := by
  rw [Bool.eq_iff_iff, isSome_waitingEnd_iff (by rwa [map_handle_stepsFor]),
    isSome_waitingEnd_iff (by rwa [map_handle_stepsFor]), carries.countP]
  simp only [map_handle_stepsFor, List.contains_eq_mem, decide_eq_true_eq]
  constructor
  · rintro ⟨u, -, target', at_end⟩
    obtain ⟨t, target, rfl⟩ := (carries.targets u).mp target'
    have met := (mem_targetsIn.mp target).2
    exact ⟨t, met, target, (carries.before_eq t met).symm.trans at_end⟩
  · rintro ⟨t, met, target, at_end⟩
    have target' := (carries.targets (φ t)).mpr ⟨t, target, rfl⟩
    exact ⟨φ t, (mem_targetsIn.mp target').2, target', (carries.before_eq t met).trans at_end⟩

/-- Programs that are carried over to each other are laid out alike. -/
theorem Carries.layoutFor_eq (carries : Carries m φ text text')
    (distinct : (text.map Prod.fst).Nodup) (distinct' : (text'.map Prod.fst).Nodup) :
    layoutFor m text' = layoutFor m text := by
  have exist : ((stepsFor m text').filterMap Step.emission).all (existsIn m) =
      ((stepsFor m text).filterMap Step.emission).all (existsIn m) := by
    rw [carries.emissions, List.all_map]
    congr 1
    funext x
    exact existsIn_retarget x
  have same : pieces (targetsIn text').contains m (stepsFor m text') =
      pieces (targetsIn text).contains m (stepsFor m text) := by
    rw [pieces, pieces, carries.isSome_waitingEnd distinct distinct', carries.emissions, List.map_map]
    congr 1
    apply List.map_congr_left
    intro x emitted
    cases x with
    | plain i => rfl
    | branch kind t =>
        exact congrArg (Piece.branch kind)
          (carries.before_eq t (mem_targetsIn.mp (target_of_emission emitted)).2)
  rw [layoutFor, layoutFor, exist, same]

end Carried

end InstrStream.X86
