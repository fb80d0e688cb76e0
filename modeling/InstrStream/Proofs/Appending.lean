import InstrStream.Builder
import InstrStream.Proofs.Ownership
import InstrStream.Sample.FixedByte

/-! The list of a builder. Records are made, written and appended in any order, and some of these calls
fault; whatever the run, the list is the sequence of the appends that went through. What carries this is
one invariant about the links, the marks of the records in the list and the owners of the records issued,
which every edit keeps. -/
namespace InstrStream

/-- One call on a builder. -/
inductive Edit where
  | newRecord
  | append (h : Handle)
  | setPayload (h : Handle) (other : Record)
  /-- Writes some of opcode, operands, scratch bits and offset. -/
  | write (h : Handle) (payload : Payload → Payload) (pc : Int → Int)
  | relink (h : Handle) (link : Option Handle)
  | assemble

/-- A builder, and the handles of the appends to it that went through. -/
structure History where
  builder : Builder
  appended : List Handle

namespace History

/-- A write. Past every slot it faults and changes nothing. -/
def update (x : History) (h : Handle) (f : Record → Record) : History :=
  match x.builder.update h f with
  | .ok builder => { x with builder }
  | .error _ => x

/-- The history after one more call. A call that faults changes nothing. -/
def step (x : History) : Edit → History
  | .newRecord =>
    match x.builder.newRecord with
    | .ok (_, builder) => { x with builder }
    | .error _ => x
  | .append h =>
    match x.builder.append h with
    | .ok builder => ⟨builder, x.appended ++ [h]⟩
    | .error _ => x
  | .setPayload h other => x.update h fun r => r.setPayload other
  | .write h payload pc => x.update h fun r =>
      { r with toPayload := payload r.toPayload, pc := pc r.pc }
  | .relink h link => x.update h fun r => { r with link }
  | .assemble => { x with builder := x.builder.assemble.1 }

/-- Only the links of records that were not appended may be written, and assembly has to go through. -/
def Allows (x : History) : Edit → Prop
  | .relink h _ => h ∉ x.appended
  | .assemble => ∃ code, x.builder.assemble.2 = .ok code
  | _ => True

inductive Of (b : Builder) : History → Prop
  | start : Of b ⟨b, []⟩
  | step {x : History} {e : Edit} : Of b x → x.Allows e → Of b (x.step e)

end History

namespace Builder

/-- The list of a builder under construction is `hs`. -/
structure Lists (b : Builder) (hs : List Handle) : Prop where
  phase : b.phase = .constructed
  path : b.pool.Path b.first hs none
  last : b.last = hs.getLast?
  issued : ∀ h ∈ hs, h.index < b.pool.issued
  linked : ∀ h r, b.pool.get? h = some r → (r.linked = true ↔ h ∈ hs)
  owner : ∀ h r, b.pool.get? h = some r → (r.owner = some b.ctx.id ↔ h.index < b.pool.issued)

theorem Lists.accounts {b : Builder} {hs : List Handle} (lists : b.Lists hs) : b.workspace.Accounts hs :=
  ⟨lists.issued, lists.linked, lists.owner⟩

/-- Owners and marks of a list are settled apart from its links. -/
theorem Lists.of_accounts {b : Builder} {hs : List Handle} (accounts : b.workspace.Accounts hs)
    (phase : b.phase = .constructed) (path : b.pool.Path b.first hs none) (last : b.last = hs.getLast?) :
    b.Lists hs :=
  ⟨phase, path, last, accounts.issued, accounts.linked, accounts.owner⟩

theorem lists_create {registry : Registry} {arch : String} {capacity : Nat} {id : ContextId} {b : Builder}
    (created : create registry arch capacity id = .ok b) : b.Lists [] := by
  have accounts := accounts_create created
  rw [create] at created
  split at created
  · cases created
  · cases created
    exact .of_accounts accounts rfl (.stop none) rfl

variable {b b' : Builder} {hs : List Handle}

theorem newRecord_eq (under : b.phase = .constructed) :
    b.newRecord = .ok (⟨b.pool.issued⟩, { b with workspace := b.workspace.alloc.2 }) := by
  unfold newRecord
  split
  · rename_i assembled
    rw [under] at assembled
    cases assembled
  · have handle : b.workspace.alloc.1 = ⟨b.pool.issued⟩ := b.workspace.alloc_fst
    rw [← handle]

theorem newRecord_assembled (assembled : b.phase = .assembled) :
    b.newRecord = .error .alreadyAssembled := by
  rw [newRecord, assembled]

theorem append_assembled (assembled : b.phase = .assembled) (h : Handle) :
    b.append h = .error .alreadyAssembled := by
  rw [append, refusal?, assembled]

/-- An assembly that goes through leaves the builder assembled, with the bytes that it returned. -/
theorem assemble_returned {code : List UInt8} (run : b.assemble.2 = .ok code) :
    b.assemble.1.phase = .assembled ∧ b.assemble.1.code = code := by
  unfold assemble at run ⊢
  split
  · rename_i under
    rw [under] at run
    unfold runBackend at run ⊢
    split
    · rename_i refused
      rw [refused] at run
      cases run
    · rename_i went_through
      rw [went_through] at run
      exact ⟨rfl, Except.ok.inj run⟩
  · rename_i assembled
    rw [assembled] at run
    exact ⟨assembled, Except.ok.inj run⟩

theorem phase_assemble {code : List UInt8} (run : b.assemble.2 = .ok code) :
    b.assemble.1.phase = .assembled :=
  (assemble_returned run).1

/-- Before assembly the backend makes the result. -/
theorem assemble_of_symbol (under : b.phase = .constructed) {w : Workspace} {s : Symbol}
    (run : b.backend.assemble b.workspace b.symbol = (w, .ok s)) :
    ∃ note, b.assemble =
      ({ b with workspace := w.note .debug note, phase := .assembled, text := s.text, code := s.code },
        .ok s.code) := by
  rw [assemble, under]
  simp only [runBackend, run]
  exact ⟨_, rfl⟩

/-- A backend that faults without a trace leaves the builder as it was. -/
theorem assemble_of_fault (under : b.phase = .constructed) {fault : Fault}
    (run : b.backend.assemble b.workspace b.symbol = (b.workspace, .error fault)) :
    b.assemble = (b, .error fault) := by
  rw [assemble, under]
  simp only [runBackend, run]

/-- A new record is none of those before, whatever was written into its slot. -/
theorem Lists.newRecord (lists : b.Lists hs) :
    Lists { b with workspace := b.workspace.alloc.2 } hs := by
  have pool : Builder.pool { b with workspace := b.workspace.alloc.2 } = (b.pool.issue b.ctx.id).2 := rfl
  refine .of_accounts (lists.accounts.extend b.workspace.extends_alloc) lists.phase ?_ lists.last
  -- Only the slot of the new record is written, and every record of the list has a smaller number.
  apply lists.path.congr
  intro k met
  rw [pool, Pool.get?_issue, if_neg (Nat.ne_of_lt (lists.issued k met))]

/-- A write that leaves owner and mark alone, and the link of a record in the list. -/
theorem Lists.modify (lists : b.Lists hs) {h : Handle} {f : Record → Record}
    (linked : ∀ r, (f r).linked = r.linked) (owner : ∀ r, (f r).owner = r.owner)
    (link : h ∈ hs → ∀ r, (f r).link = r.link) :
    Lists { b with workspace := b.workspace.modify h f } hs := by
  have pool : Builder.pool { b with workspace := b.workspace.modify h f } = b.pool.modify h f := rfl
  have more := b.workspace.extends_modify h (f := f) fun r => ⟨owner r, linked r⟩
  refine .of_accounts (lists.accounts.extend more) lists.phase ?_ lists.last
  apply lists.path.congr
  intro k met
  rw [pool, Pool.get?_modify]
  split
  · rename_i same
    subst same
    rw [Option.map_map]
    congr 1
    funext r
    exact link met r
  · rfl

section Attach

variable {h : Handle}

theorem last_attach (b : Builder) (h : Handle) : (b.attach h).last = some h := by
  unfold attach
  split <;> rfl

theorem phase_attach (b : Builder) (h : Handle) : (b.attach h).phase = b.phase := by
  unfold attach
  split <;> rfl

theorem first_attach (b : Builder) (h : Handle) :
    (b.attach h).first = if b.last = none then some h else b.first := by
  unfold attach
  split
  · rename_i last
    rw [if_neg (by rw [last]; exact nofun)]
  · rename_i last
    rw [if_pos last]

/-- Appending a record that is not the last one marks it and links the last one to it. -/
theorem get?_attach (other : b.last ≠ some h) (k : Handle) :
    (b.attach h).pool.get? k = (b.pool.get? k).map fun r =>
      if k = h then { r with linked := true, link := none }
      else if b.last = some k then { r with link := some h } else r := by
  unfold attach
  split
  · rename_i l last
    change ((b.pool.modify h _).modify l _).get? k = _
    rw [Pool.get?_modify, Pool.get?_modify]
    by_cases here : h = k
    · subst here
      have apart : l ≠ h := by
        rintro rfl
        exact other last
      rw [if_neg apart, if_pos rfl]
      simp only [if_true]
    · rw [if_neg here]
      simp only [last, Option.some.injEq, Ne.symm here, if_false]
      split
      · rfl
      · rw [Option.map_id']
  · rename_i last
    change (b.pool.modify h _).get? k = _
    rw [Pool.get?_modify]
    by_cases here : h = k
    · subst here
      simp only [if_true]
    · simp only [if_neg here, last, Ne.symm here, if_false, reduceCtorEq, Option.map_id']

/-- The list up to its last record stays as it is; the last record leads to the new one, and the new one
to the end. -/
theorem Lists.path_attach (lists : b.Lists hs) (issued : h.index < b.pool.issued) (fresh : h ∉ hs)
    (other : b.last ≠ some h) : (b.attach h).pool.Path (b.attach h).first (hs ++ [h]) none := by
  have inside := Pool.get?_eq_some_record (Pool.lt_size_of_lt_issued issued)
  have found := get?_attach other
  have entered : (b.attach h).pool.Path (some h) [h] none := by
    refine .visit (r := { b.pool.record h with linked := true, link := none }) ?_ (.stop none)
    rw [found, inside, Option.map_some, if_pos rfl]
  have at_end := lists.last
  rw [first_attach]
  cases last : b.last with
  | none =>
      rw [last] at at_end
      obtain rfl := List.getLast?_eq_none_iff.mp at_end.symm
      exact entered
  | some l =>
      rw [last] at at_end
      obtain ⟨ks, rfl⟩ := List.getLast?_eq_some_iff.mp at_end.symm
      obtain ⟨c, front, back⟩ := lists.path.split
      obtain rfl := back.head_eq (h := l) rfl
      have apart : l ≠ h := by
        rintro rfl
        exact other last
      rw [if_neg nofun, List.append_assoc]
      refine Pool.Path.append (front.congr ?_) ?_
      · intro k met
        have not_h : k ≠ h := by
          rintro rfl
          exact fresh (List.mem_append_left _ met)
        have not_l : l ≠ k := by
          rintro rfl
          exact (List.nodup_append.mp lists.path.nodup).2.2 l met l List.mem_cons_self rfl
        rw [found, last]
        simp only [if_neg not_h, Option.some.injEq, if_neg not_l, Option.map_id']
      · have kept := Pool.get?_eq_some_record
          (Pool.lt_size_of_lt_issued (lists.issued l (List.mem_append_right _ List.mem_cons_self)))
        refine .visit (r := { b.pool.record l with link := some h }) ?_ entered
        rw [found, kept, Option.map_some, if_neg apart, if_pos last]

/-- A record that is appended stands at the end of the list, wherever its link led. -/
theorem Lists.attach (lists : b.Lists hs) (issued : h.index < b.pool.issued) (fresh : h ∉ hs) :
    (b.attach h).Lists (hs ++ [h]) := by
  have other : b.last ≠ some h := by
    intro last
    rw [lists.last] at last
    exact fresh (List.mem_of_getLast? last)
  refine .of_accounts (accounts_attach lists.accounts issued) ((phase_attach b h).trans lists.phase)
    (lists.path_attach issued fresh other) ?_
  rw [last_attach, List.getLast?_append, List.getLast?_singleton, Option.some_or]

end Attach

/-- Every record that was issued and is not in the list can be appended, and no other. -/
theorem Lists.refusal?_eq_none_iff (lists : b.Lists hs) {h : Handle} :
    b.refusal? h = none ↔ h.index < b.pool.issued ∧ h ∉ hs :=
  refusal?_eq_none_iff_of_accounts lists.accounts lists.phase

theorem append_eq_ok_iff {h : Handle} : b.append h = .ok b' ↔ b.refusal? h = none ∧ b.attach h = b' := by
  rw [append]
  cases b.refusal? h with
  | none => exact ⟨fun run => ⟨rfl, Except.ok.inj run⟩, fun both => congrArg Except.ok both.2⟩
  | some fault => exact ⟨nofun, nofun⟩

theorem eq_of_update {h : Handle} {f : Record → Record} (run : b.update h f = .ok b') :
    b' = { b with workspace := b.workspace.modify h f } := by
  rw [update, Workspace.update, Pool.update] at run
  split at run
  · exact (Except.ok.inj run).symm
  · cases run

end Builder

namespace History

variable {x : History}

theorem lists_update (lists : x.builder.Lists x.appended) {h : Handle} {f : Record → Record}
    (linked : ∀ r, (f r).linked = r.linked) (owner : ∀ r, (f r).owner = r.owner)
    (link : h ∈ x.appended → ∀ r, (f r).link = r.link) :
    (x.update h f).builder.Lists (x.update h f).appended := by
  rw [update]
  split
  · rename_i builder run
    rw [Builder.eq_of_update run]
    exact lists.modify linked owner link
  · exact lists

/-- Before assembly every call keeps the list in step with the history. -/
theorem lists_step (lists : x.builder.Lists x.appended) {e : Edit} (allowed : x.Allows e) :
    (x.step e).builder.phase = .assembled ∨ (x.step e).builder.Lists (x.step e).appended := by
  cases e with
  | newRecord =>
      right
      rw [step, Builder.newRecord_eq lists.phase]
      exact lists.newRecord
  | append h =>
      right
      rw [step]
      split
      · rename_i builder run
        obtain ⟨free, rfl⟩ := Builder.append_eq_ok_iff.mp run
        obtain ⟨issued, fresh⟩ := lists.refusal?_eq_none_iff.mp free
        exact lists.attach issued fresh
      · exact lists
  | setPayload h other =>
      right
      exact lists_update lists (fun _ => rfl) (fun _ => rfl) fun _ _ => rfl
  | write h payload pc =>
      right
      exact lists_update lists (fun _ => rfl) (fun _ => rfl) fun _ _ => rfl
  | relink h link =>
      right
      refine lists_update lists (fun _ => rfl) (fun _ => rfl) ?_
      intro met
      exact absurd met allowed
  | assemble =>
      obtain ⟨code, run⟩ := allowed
      exact .inl (Builder.phase_assemble run)

/-- After assembly every call leaves the builder assembled. -/
theorem assembled_step (assembled : x.builder.phase = .assembled) {e : Edit} (allowed : x.Allows e) :
    (x.step e).builder.phase = .assembled := by
  have after_update : ∀ h f, (x.update h f).builder.phase = .assembled := by
    intro h f
    rw [update]
    split
    · rename_i builder run
      rw [Builder.eq_of_update run]
      exact assembled
    · exact assembled
  cases e with
  | newRecord =>
      rw [step, Builder.newRecord_assembled assembled]
      exact assembled
  | append h =>
      rw [step, Builder.append_assembled assembled]
      exact assembled
  | setPayload h other => exact after_update _ _
  | write h payload pc => exact after_update _ _
  | relink h link => exact after_update _ _
  | assemble =>
      obtain ⟨code, run⟩ := allowed
      exact Builder.phase_assemble run

theorem assembled_or_lists {b : Builder} (start : b.Lists []) (history : Of b x) :
    x.builder.phase = .assembled ∨ x.builder.Lists x.appended := by
  induction history with
  | start => exact .inr start
  | @step x e _ allowed ih =>
      rcases ih with assembled | lists
      · exact .inl (assembled_step assembled allowed)
      · exact lists_step lists allowed

end History

namespace Builder

/-- Before assembly the list of a builder is the sequence of the appends that went through, whatever else
was called. An append goes through exactly before assembly, for a record that was issued and not appended
before, and changes nothing otherwise. -/
theorem handles_eq_appended {registry : Registry} {arch : String} {capacity : Nat} {id : ContextId}
    {b : Builder} (created : create registry arch capacity id = .ok b) {x : History}
    (history : History.Of b x) :
    (x.builder.phase = .constructed →
      x.builder.handles = .ok x.appended ∧ x.appended.Nodup ∧
        x.builder.first = x.appended.head? ∧ x.builder.last = x.appended.getLast? ∧
        (∀ h, x.builder.last = some h → ∃ r, x.builder.pool.get? h = some r ∧ r.link = none) ∧
        ∀ h, (∃ r, x.builder.pool.get? h = some r ∧ r.linked = true) ↔ h ∈ x.appended) ∧
      (∀ h, (∃ b', x.builder.append h = .ok b') ↔
        x.builder.phase = .constructed ∧ h.index < x.builder.pool.issued ∧ h ∉ x.appended) ∧
      ∀ h, (∀ b', x.builder.append h ≠ .ok b') → x.step (.append h) = x := by
  have refused_keeps : ∀ h, (∀ b', x.builder.append h ≠ .ok b') → x.step (.append h) = x := by
    intro h refused
    rw [History.step]
    split
    · rename_i b' run
      exact absurd run (refused b')
    · rfl
  rcases History.assembled_or_lists (lists_create created) history with assembled | lists
  · refine ⟨?_, ?_, refused_keeps⟩
    · intro under
      rw [assembled] at under
      cases under
    · intro h
      rw [append_assembled assembled, assembled]
      constructor
      · rintro ⟨b', run⟩
        cases run
      · rintro ⟨under, -⟩
        cases under
  · refine ⟨fun _ => ⟨Pool.chain_eq_ok_iff.mpr lists.path, lists.path.nodup, lists.path.head?_eq,
      lists.last, ?_, ?_⟩, ?_, refused_keeps⟩
    · intro h last
      rw [lists.last] at last
      exact lists.path.link_getLast? last
    · intro h
      constructor
      · rintro ⟨r, found, linked⟩
        exact (lists.linked h r found).mp linked
      · intro met
        obtain ⟨r, found⟩ := lists.path.exists_record met
        exact ⟨r, found, (lists.linked h r found).mpr met⟩
    · intro h
      rw [← lists.refusal?_eq_none_iff]
      constructor
      · rintro ⟨b', run⟩
        exact ⟨lists.phase, (append_eq_ok_iff.mp run).1⟩
      · rintro ⟨-, free⟩
        exact ⟨_, append_eq_ok_iff.mpr ⟨free, rfl⟩⟩

/-- A builder with two slots. -/
def sampled : Builder where
  backend := Sample.plain
  workspace :=
    { ctx :=
        { id := ⟨0⟩, target := Sample.target, listener := .journal
          journal := #[⟨.debug, "builder for plain (Linux), 2 pooled records"⟩] }
      pool := .ofCapacity 2 }

/-- A stale link, a link in a slot that was not issued, and two appends that are refused. -/
theorem handles_eq_appended_sampled :
    ∃ x, create ⟨[("plain", Sample.plain)]⟩ "plain" 2 ⟨0⟩ = .ok sampled ∧ History.Of sampled x ∧
      x.builder.handles = .ok [⟨0⟩, ⟨2⟩, ⟨1⟩] ∧ ¬ ∃ b', x.builder.append ⟨2⟩ = .ok b' := by
  have created : create ⟨[("plain", Sample.plain)]⟩ "plain" 2 ⟨0⟩ = .ok sampled := rfl
  have made := (History.Of.start (b := sampled)).step (e := .newRecord) trivial
  have stale := made.step (e := .relink ⟨0⟩ (some ⟨1⟩)) List.not_mem_nil
  have unissued := stale.step (e := .relink ⟨1⟩ (some ⟨0⟩)) List.not_mem_nil
  have early := unissued.step (e := .append ⟨1⟩) trivial
  have first := early.step (e := .append ⟨0⟩) trivial
  have more := (first.step (e := .newRecord) trivial).step (e := .newRecord) trivial
  have twice := (more.step (e := .append ⟨2⟩) trivial).step (e := .append ⟨0⟩) trivial
  have last := twice.step (e := .append ⟨1⟩) trivial
  have result := handles_eq_appended created last
  refine ⟨_, created, last, (result.1 rfl).1, ?_⟩
  rw [result.2.1]
  decide

end Builder

end InstrStream
