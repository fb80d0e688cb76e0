import InstrStream.Proofs.Configuring
import InstrStream.Proofs.X86.Renaming

/-! Assembly does not depend on how records are stored. Two builders may have blocks of different size, have
made their records in different orders and more of them than they appended, and hold different leftovers in
the fields that no program consists of; when their lists are the same program, position by position, they
assemble to the same code with the same offsets, listing and diagnostics, up to the handles named in the
diagnostics. -/
namespace InstrStream

/-- Operands of two lists that say the same. Where one branches to a record of its list, the other branches
to the record at the same place of its own. -/
inductive Operand.Corresponds (hs ks : List Handle) : Operand → Operand → Prop
  | same {o : Operand} : o.target? = Option.none → Corresponds hs ks o o
  | branch {h k : Handle} (i : Nat) :
      hs[i]? = some h → ks[i]? = some k → Corresponds hs ks (.branch h) (.branch k)

/-- Payloads of two lists that say the same. The scratch bits are free. -/
structure Payload.Corresponds (hs ks : List Handle) (p q : Payload) : Prop where
  op : q.op = p.op
  src : p.src.Corresponds hs ks q.src
  reg : q.reg = p.reg
  dst : p.dst.Corresponds hs ks q.dst

/-- Two lists of records that are the same program, position by position. -/
def SameProgram (p : Pool) (hs : List Handle) (q : Pool) (ks : List Handle) : Prop :=
  List.Forall₂ (fun h k => (p.record h).toPayload.Corresponds hs ks (q.record k).toPayload) hs ks

/-- The builder of this history belongs to a backend and has not been assembled. -/
def History.Ready (backend : Backend) (x : History) : Prop :=
  x.builder.phase = .constructed ∧ ∃ registry arch capacity id b,
    Builder.create registry arch capacity id = .ok b ∧ b.backend = backend ∧ Configured b x

namespace X86

open Assembly X86.Frame

section Correspondence

variable {hs ks : List Handle} {n n' : Nat}

/-- Takes the handles of one list to those of another, and the records issued from `n` on to those
issued from `n'` on. -/
def counterpart (hs ks : List Handle) (n n' : Nat) (h : Handle) : Handle :=
  if h.index < n then ks.getD (hs.idxOf h) h else ⟨n' + (h.index - n)⟩

theorem counterpart_issued (i : Nat) : counterpart hs ks n n' ⟨n + i⟩ = ⟨n' + i⟩ := by
  rw [counterpart, if_neg (Nat.not_lt.mpr (Nat.le_add_right n i)), Nat.add_sub_cancel_left]

variable (distinct : hs.Nodup) (issued : ∀ h ∈ hs, h.index < n)
include distinct issued

theorem counterpart_at {i : Nat} {h k : Handle} (first : hs[i]? = some h) (second : ks[i]? = some k) :
    counterpart hs ks n n' h = k := by
  obtain ⟨inside, at_i⟩ := List.getElem?_eq_some_iff.mp first
  have position : hs.idxOf h = i := by
    rw [← at_i]
    exact distinct.idxOf_getElem i inside
  rw [counterpart, if_pos (issued h (List.mem_of_getElem? first)), position, List.getD_eq_getElem?_getD, second,
    Option.getD_some]

theorem retarget_counterpart {o o' : Operand} (corresponds : o.Corresponds hs ks o') :
    o.retarget (counterpart hs ks n n') = o' := by
  cases corresponds with
  | same other => exact Operand.retarget_of_target?_eq_none _ other
  | branch i first second => exact congrArg Operand.branch (counterpart_at distinct issued first second)

theorem renamed_counterpart {p q : Payload} (corresponds : p.Corresponds hs ks q) :
    p.renamed (counterpart hs ks n n') = q.renamed id := by
  simp only [Payload.renamed, corresponds.op, corresponds.reg, Operand.retarget_id,
    retarget_counterpart distinct issued corresponds.src, retarget_counterpart distinct issued corresponds.dst]

/-- Lists that are the same program differ in handles only. -/
theorem renames_of_sameProgram {p q : Pool} (same : SameProgram p hs q ks) :
    Renames (counterpart hs ks n n') (p.program hs) (q.program ks) := by
  obtain ⟨length, at_each⟩ := List.forall₂_iff_get.mp same
  constructor
  · apply List.ext_getElem
    · simpa only [renamedText, Pool.program, List.length_map] using length
    · intro i inside inside'
      simp only [renamedText, Pool.program, List.length_map] at inside inside'
      have corresponds := at_each i inside inside'
      simp only [List.get_eq_getElem] at corresponds
      have handle : counterpart hs ks n n' hs[i] = ks[i] :=
        counterpart_at distinct issued (List.getElem?_eq_getElem inside) (List.getElem?_eq_getElem inside')
      simp only [renamedText, Pool.program, List.getElem_map, Prod.map_apply, id_eq, handle,
        renamed_counterpart distinct issued corresponds]
  · intro x met t branch
    rw [map_fst_program]
    obtain ⟨h, on, rfl⟩ := List.mem_map.mp met
    obtain ⟨i, inside, rfl⟩ := List.getElem_of_mem on
    have corresponds := at_each i inside (length ▸ inside)
    have named : ∀ {o o' : Operand}, o.Corresponds hs ks o' → o = .branch t → t ∈ hs := by
      rintro o o' corresponds rfl
      cases corresponds with
      | same other => cases other
      | branch i first => exact List.mem_of_getElem? first
    exact branch.elim (named corresponds.src) (named corresponds.dst)

end Correspondence

section Programs

variable {ρ : Handle → Handle} {p q : Pool} {hs ks : List Handle}
  (renames : Renames ρ (p.program hs) (q.program ks))
include renames

theorem Renames.list : ks = hs.map ρ := by
  have handles := renames.handles
  rwa [map_fst_program, map_fst_program] at handles

theorem Renames.payload {h : Handle} (met : h ∈ hs) :
    (q.record (ρ h)).toPayload.renamed id = (p.record h).toPayload.renamed ρ := by
  have same := renames.same
  rw [renames.list] at same
  simp only [renamedText, Pool.program, List.map_map] at same
  exact congrArg Prod.snd (List.map_inj_left.mp same h met).symm

theorem Renames.target_mem {h t : Handle} (met : h ∈ hs)
    (branch : (p.record h).src = .branch t ∨ (p.record h).dst = .branch t) : t ∈ hs := by
  have inside := renames.closed (h, (p.record h).toPayload) (List.mem_map_of_mem met) t branch
  rwa [map_fst_program] at inside

end Programs

/-- Two builders after the assembly of lists `hs` and `ks`, that agree in all but the handles of their
records. With what the backend added the lists are `final` and `final'`. -/
structure Alike (b c : Builder) (hs ks final final' : List Handle) : Prop where
  chain : b.pool.chain b.text = .ok final
  chain' : c.pool.chain c.text = .ok final'
  code : c.code = b.code
  offsets : List.Forall₂ (fun h k => (c.pool.record k).pc = (b.pool.record h).pc) hs ks
  all_offsets : List.Forall₂ (fun h k => (c.pool.record k).pc = (b.pool.record h).pc) final final'
  listing : ∃ text, b.listing = .ok text ∧ c.listing = .ok text
  /-- Each diagnostic names the records at the same place. -/
  diagnostics : List.Forall₂ (fun a a' => ∃ (i : Nat) (h k : Handle), final[i]? = some h ∧ final'[i]? = some k ∧
    DifferInHandle h k a a') b.ctx.diagnostics.toList c.ctx.diagnostics.toList

section Backends

variable {m : Mode} {backend : Backend} (known : IsBackend m backend)
include known

theorem IsBackend.names_eq : backend.names = names := by
  rcases known with ⟨rfl, rfl⟩ | ⟨rfl, rfl⟩ <;> rfl

theorem IsBackend.framePointer_init (c : Context) : (backend.init c).framePointer = (m = .bits64 : Bool) := by
  rcases known with ⟨rfl, rfl⟩ | ⟨rfl, rfl⟩ <;> rfl

theorem IsBackend.diagnostics_init (c : Context) : (backend.init c).diagnostics = c.diagnostics := by
  rcases known with ⟨rfl, rfl⟩ | ⟨rfl, rfl⟩ <;> rfl

/-- What is known of a builder that is about to be assembled. -/
theorem builder_of_ready {x : History} (ready : x.Ready backend) :
    x.builder.Lists x.appended ∧ x.builder.backend = backend ∧
      x.builder.ctx.framePointer = (m = .bits64 : Bool) ∧ x.builder.ctx.diagnostics = #[] := by
  obtain ⟨under, registry, arch, capacity, id, b, created, own, history⟩ := ready
  rcases history.assembled_or_lists (Builder.lists_create created) with assembled | ⟨lists, job⟩
  · rw [assembled] at under
    cases under
  · rw [Builder.create] at created
    split at created
    · cases created
    · cases created
      obtain rfl : _ = backend := own
      refine ⟨lists, job.backend, ?_, ?_⟩
      · rw [job.framePointer]
        exact known.framePointer_init _
      · rw [job.diagnostics]
        exact known.diagnostics_init _

end Backends

/-- The program of a builder that is about to be assembled, with its frame. -/
def programOf (m : Mode) (x : History) : List (Handle × Payload) :=
  framed m x.builder.frameSize (m = .bits64) x.builder.pool.issued (x.builder.pool.program x.appended)

/-- A builder whose backend left the workspace `w` and the symbol `s`. -/
structure Finished (m : Mode) (x : History) (w : Workspace) (s : Symbol) : Prop where
  produced : Produced m x.builder.workspace w x.builder.symbol s x.appended (programOf m x)
  blank : x.builder.ctx.diagnostics = #[]
  answer : x.builder.assemble.2 = .ok s.code
  pool : x.builder.assemble.1.pool = w.pool
  text : x.builder.assemble.1.text = s.text
  code : x.builder.assemble.1.code = s.code
  listing : x.builder.assemble.1.listing = Listing.render names w.pool s.text
  diagnostics : x.builder.assemble.1.ctx.diagnostics = w.ctx.diagnostics

/-- A builder that is ready is assembled, and what comes of it is decided by its program. -/
theorem exists_finished {m : Mode} {backend : Backend} (known : IsBackend m backend) {x : History}
    (ready : x.Ready backend) : ∃ w s, Finished m x w s := by
  obtain ⟨lists, own, framePointer, blank⟩ := builder_of_ready known ready
  obtain ⟨w, s, run, produced⟩ := assemble_produces (s := x.builder.symbol) known
    (Pool.chain_eq_ok_iff.mpr lists.path) lists.issued
  have text : framed m x.builder.symbol.frameSize x.builder.workspace.ctx.framePointer
      x.builder.workspace.pool.issued (x.builder.workspace.pool.program x.appended) = programOf m x := by
    rw [programOf, ← framePointer]
    rfl
  rw [text] at produced
  rw [← own] at run
  obtain ⟨note, result⟩ := Builder.assemble_of_symbol lists.phase run
  refine ⟨w, s, produced, blank, congrArg Prod.snd result, congrArg (·.1.pool) result,
    congrArg (·.1.text) result, congrArg (·.1.code) result, (congrArg (·.1.listing) result).trans ?_,
    congrArg (·.1.ctx.diagnostics) result⟩
  rw [← known.names_eq, ← own]
  rfl

theorem Finished.encodingFailed_iff {m : Mode} {x : History} {w : Workspace} {s : Symbol}
    (finished : Finished m x w s) :
    EncodingFailed x.builder.name x.builder.workspace x.builder.assemble.1.workspace ↔
      ∃ e, layoutFor m (programOf m x) = .error e := by
  rw [← finished.produced.encodingFailed_iff, EncodingFailed, EncodingFailed, ← finished.diagnostics]
  rfl

section TwoRuns

variable {m : Mode} {w w' : Workspace} {v v' : Workspace} {s s' t t' : Symbol} {hs ks : List Handle}
  {ρ : Handle → Handle} {text text' : List (Handle × Payload)} (renames : Renames ρ text text')
  (one : Produced m w w' s s' hs text) (two : Produced m v v' t t' ks text')
include renames one two

theorem Renames.code_eq : t'.code = s'.code := by
  rw [one.code, two.code, (renames.layout two.distinct).1]

variable {cs : List (List UInt8)} (layout : layoutFor m text = .ok cs)
include layout

/-- A record and the one it is renamed to start at the same place. -/
theorem Renames.sameOffset {h : Handle} (met : h ∈ text.map Prod.fst) :
    SameOffset w'.pool v'.pool ρ h := by
  obtain ⟨same_layout, before_eq⟩ := renames.layout (m := m) two.distinct
  have met' : ρ h ∈ text'.map Prod.fst := by
    rw [renames.handles]
    exact List.mem_map_of_mem met
  obtain ⟨r, found⟩ := one.present h met
  obtain ⟨r', found'⟩ := two.present (ρ h) met'
  refine ⟨r, r', found, found', ?_⟩
  have pc := one.placed cs layout h met
  have pc' := two.placed cs (same_layout.trans layout) (ρ h) met'
  rw [Pool.record_eq_of_get? found] at pc
  rw [Pool.record_eq_of_get? found', before_eq h met] at pc'
  rw [pc, pc']

theorem Renames.offsets {xs : List Handle} (inside : ∀ h ∈ xs, h ∈ text.map Prod.fst) :
    List.Forall₂ (fun h k => (v'.pool.record k).pc = (w'.pool.record h).pc) xs (xs.map ρ) := by
  rw [List.forall₂_map_right_iff, List.forall₂_same]
  intro h met
  obtain ⟨r, r', found, found', pc⟩ := renames.sameOffset one two layout (inside h met)
  rw [Pool.record_eq_of_get? found, Pool.record_eq_of_get? found', pc]

theorem Renames.listing :
    ∃ listing, Listing.render names w'.pool s'.text = .ok listing ∧
      Listing.render names v'.pool t'.text = .ok listing := by
  have again : Renames ρ (w'.pool.program (text.map Prod.fst)) (v'.pool.program (text'.map Prod.fst)) := by
    rwa [one.program, two.program]
  have chain' := two.assembled.chain
  rw [renames.handles] at chain'
  apply render_renamed names one.assembled.chain chain'
  · intro h met
    exact renames.sameOffset one two layout met
  · intro h met
    exact again.payload met
  · intro h met t branch
    exact again.target_mem met branch

/-- The diagnostics name the records at the same places. -/
theorem Renames.diagnostics (name : t.name = s.name) (blank : w.ctx.diagnostics = #[])
    (blank' : v.ctx.diagnostics = #[]) :
    List.Forall₂ (fun a a' => ∃ (i : Nat) (h k : Handle), (text.map Prod.fst)[i]? = some h ∧
      (text'.map Prod.fst)[i]? = some k ∧ DifferInHandle h k a a')
      w'.ctx.diagnostics.toList v'.ctx.diagnostics.toList := by
  have layout' := (renames.layout (m := m) two.distinct).1.trans layout
  rw [one.diagnostics, two.diagnostics, layout, layout', blank, blank', name]
  simp only [failureReport, List.append_nil, List.nil_append]
  refine (renames.reports s.name).imp ?_
  rintro a a' ⟨h, met, differ⟩
  have position := List.getElem?_idxOf met
  refine ⟨_, h, ρ h, position, ?_, differ⟩
  rw [renames.handles, List.getElem?_map, position, Option.map_some]

end TwoRuns

/-- Builders whose programs differ in handles only agree in all but handles. -/
theorem Finished.alike {m : Mode} {x y : History} {w v : Workspace} {s t : Symbol} {ρ : Handle → Handle}
    (one : Finished m x w s) (two : Finished m y v t) (name : y.builder.name = x.builder.name)
    (appended : y.appended = x.appended.map ρ) (renames : Renames ρ (programOf m x) (programOf m y))
    {cs : List (List UInt8)} (layout : layoutFor m (programOf m x) = .ok cs) :
    Alike x.builder.assemble.1 y.builder.assemble.1 x.appended y.appended
      ((programOf m x).map Prod.fst) ((programOf m y).map Prod.fst) where
  chain := by
    rw [one.pool, one.text]
    exact one.produced.assembled.chain
  chain' := by
    rw [two.pool, two.text]
    exact two.produced.assembled.chain
  code := by
    rw [one.code, two.code, renames.code_eq one.produced two.produced]
  offsets := by
    rw [one.pool, two.pool, appended]
    apply renames.offsets one.produced two.produced layout
    intro h met
    apply handle_mem_framed
    rwa [map_fst_program]
  all_offsets := by
    rw [one.pool, two.pool, renames.handles]
    exact renames.offsets one.produced two.produced layout fun h met => met
  listing := by
    rw [one.listing, two.listing]
    exact renames.listing one.produced two.produced layout
  diagnostics := by
    rw [one.diagnostics, two.diagnostics]
    exact renames.diagnostics one.produced two.produced layout name one.blank two.blank

/-- Assembly depends on the program only. Two builders for one backend, with the same name and frame size,
whose lists are the same program, both assemble, and encoding fails for both or for neither. If it does not
fail they give the same code, and offsets, listings and diagnostics agree up to handles. -/
theorem assembly_ignores_storage {m : Mode} {backend : Backend} (known : IsBackend m backend)
    {x y : History} (ready : x.Ready backend) (ready' : y.Ready backend)
    (name : y.builder.name = x.builder.name) (size : y.builder.frameSize = x.builder.frameSize)
    (same : SameProgram x.builder.pool x.appended y.builder.pool y.appended) :
    (∃ code, x.builder.assemble.2 = .ok code) ∧ (∃ code, y.builder.assemble.2 = .ok code) ∧
      (EncodingFailed y.builder.name y.builder.workspace y.builder.assemble.1.workspace ↔
        EncodingFailed x.builder.name x.builder.workspace x.builder.assemble.1.workspace) ∧
      (¬ EncodingFailed x.builder.name x.builder.workspace x.builder.assemble.1.workspace →
        y.builder.assemble.2 = x.builder.assemble.2 ∧
          ∃ final final', Alike x.builder.assemble.1 y.builder.assemble.1 x.appended y.appended
            final final') := by
  obtain ⟨lists, -⟩ := builder_of_ready known ready
  obtain ⟨w, s, one⟩ := exists_finished known ready
  obtain ⟨v, t, two⟩ := exists_finished known ready'
  -- Records that are issued for the frames correspond in the order in which they are issued.
  set ρ := counterpart x.appended y.appended x.builder.pool.issued y.builder.pool.issued
  have lists_rename : Renames ρ (x.builder.pool.program x.appended) (y.builder.pool.program y.appended) :=
    renames_of_sameProgram lists.path.nodup lists.issued same
  have renames : Renames ρ (programOf m x) (programOf m y) := by
    rw [programOf, programOf, size]
    exact lists_rename.framed m x.builder.frameSize _ counterpart_issued
  refine ⟨⟨_, one.answer⟩, ⟨_, two.answer⟩, ?_, ?_⟩
  · rw [one.encodingFailed_iff, two.encodingFailed_iff, (renames.layout two.produced.distinct).1]
  · intro encoded
    rw [one.encodingFailed_iff] at encoded
    cases layout : layoutFor m (programOf m x) with
    | error e => exact absurd ⟨e, layout⟩ encoded
    | ok cs =>
        refine ⟨?_, _, _, one.alike two name lists_rename.list renames layout⟩
        rw [one.answer, two.answer, renames.code_eq one.produced two.produced]

section Samples

/-- A builder for 64-bit code, before the first record. -/
def blankBuilder (capacity : Nat) (id : ContextId) : Builder :=
  let arch := "amd64"
  let ctx := amd64.init { id, target := amd64Target, listener := .journal }
  { backend := amd64
    workspace :=
      { ctx := ctx.note .debug s!"builder for {arch} ({ctx.system.name}), {capacity} pooled records"
        pool := .ofCapacity capacity } }

/-- A jump over a record without an opcode to a return, made in this order in a block of three. -/
def inOrder : List Edit :=
  [.newRecord, .newRecord, .newRecord,
   .write ⟨0⟩ (fun _ => { op := .jmp, dst := .branch ⟨2⟩ }) id, .write ⟨2⟩ (fun _ => { op := .ret }) id,
   .append ⟨0⟩, .append ⟨1⟩, .append ⟨2⟩]

/-- The same, with leftovers in the records and among others that are not used. -/
def scattered : List Edit :=
  [.newRecord, .newRecord, .newRecord, .newRecord, .newRecord,
   .relink ⟨4⟩ (some ⟨4⟩), .write ⟨4⟩ (fun _ => { op := .jmp, dst := .branch ⟨2⟩, mark := 9 }) fun _ => 77,
   .append ⟨4⟩, .relink ⟨0⟩ (some ⟨1⟩), .append ⟨0⟩,
   .write ⟨2⟩ (fun _ => { op := .ret, mark := 3 }) fun _ => -5, .append ⟨2⟩]

/-- The history of a builder with a name and a frame. -/
def historyOf (capacity : Nat) (id : ContextId) (es : List Edit) : History :=
  es.foldl History.step ⟨((blankBuilder capacity id).setName "f").setFrameSize 16, []⟩

theorem ready_historyOf {capacity : Nat} {id : ContextId} {es : List Edit}
    (allowed : (historyOf capacity id []).AllowsAll es)
    (under : (historyOf capacity id es).builder.phase = .constructed) :
    (historyOf capacity id es).Ready amd64 :=
  ⟨under, ⟨[("amd64", amd64)]⟩, "amd64", capacity, id, blankBuilder capacity id, rfl, rfl,
    .edits (.setFrameSize 16 (.setName "f" .start)) allowed⟩

theorem ready_inOrder : (historyOf 3 ⟨0⟩ inOrder).Ready amd64 := by
  refine ready_historyOf ?_ rfl
  exact ⟨trivial, trivial, trivial, trivial, trivial, trivial, trivial, trivial, trivial⟩

theorem ready_scattered : (historyOf 1 ⟨7⟩ scattered).Ready amd64 := by
  have notAppended : (⟨0⟩ : Handle) ∉ [⟨4⟩] := by decide
  refine ready_historyOf ?_ rfl
  exact ⟨trivial, trivial, trivial, trivial, trivial, List.not_mem_nil, trivial, trivial, notAppended,
    trivial, trivial, trivial, trivial⟩

theorem not_encodingFailed_inOrder : ¬ EncodingFailed "f" (historyOf 3 ⟨0⟩ inOrder).builder.workspace
    (historyOf 3 ⟨0⟩ inOrder).builder.assemble.1.workspace := by
  have reported : (historyOf 3 ⟨0⟩ inOrder).builder.assemble.1.ctx.diagnostics.toList.drop 0 =
      ["f: inst1: instruction with unset opcode"] := by
    decide +kernel
  rintro ⟨e, met⟩
  have letters := congrArg String.toList (List.mem_singleton.mp (reported ▸ met))
  simp [failureMessage, toString] at letters

/-- The jump stands beyond the block and behind its target in the pool, and still both builders agree. -/
theorem assembly_ignores_storage_scattered :
    (historyOf 1 ⟨7⟩ scattered).appended = [⟨4⟩, ⟨0⟩, ⟨2⟩] ∧
      (historyOf 1 ⟨7⟩ scattered).builder.assemble.2 = (historyOf 3 ⟨0⟩ inOrder).builder.assemble.2 ∧
      ∃ final final', Alike (historyOf 3 ⟨0⟩ inOrder).builder.assemble.1
        (historyOf 1 ⟨7⟩ scattered).builder.assemble.1 [⟨0⟩, ⟨1⟩, ⟨2⟩] [⟨4⟩, ⟨0⟩, ⟨2⟩] final final' := by
  have same : SameProgram (historyOf 3 ⟨0⟩ inOrder).builder.pool [⟨0⟩, ⟨1⟩, ⟨2⟩]
      (historyOf 1 ⟨7⟩ scattered).builder.pool [⟨4⟩, ⟨0⟩, ⟨2⟩] :=
    .cons ⟨rfl, .same rfl, rfl, .branch 2 rfl rfl⟩
      (.cons ⟨rfl, .same rfl, rfl, .same rfl⟩ (.cons ⟨rfl, .same rfl, rfl, .same rfl⟩ .nil))
  have result := assembly_ignores_storage (.inl ⟨rfl, rfl⟩) ready_inOrder ready_scattered rfl rfl same
  exact ⟨rfl, result.2.2.2 not_encodingFailed_inOrder⟩

end Samples

end X86

end InstrStream
