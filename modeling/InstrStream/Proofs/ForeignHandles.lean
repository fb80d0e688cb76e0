import InstrStream.Proofs.Finality

/-! Handles of other builders. A handle is a number and does not say who issued it, so a builder that is given
the handle of another one looks at the record that it has itself under that number. It refuses the handle when
it has no record there, or one that it has not issued or has appended already; otherwise its own record goes
into the list. -/
namespace InstrStream

/-- The trailing record is issued before the list is walked, and stays issued when that faults. -/
theorem Sample.extends_of_trailer_fault {w w' : Workspace} {s : Symbol} {fault : Fault}
    (run : assembleTrailer w s = (w', .error fault)) : w.Extends w' := by
  have written := w.extends_alloc.trans
    (w.alloc.2.extends_modify w.alloc.1 (f := fun r => { r with op := .ret }) fun _ => ⟨rfl, rfl⟩)
  have of_plain : ∀ {v : Workspace} {t : Symbol}, assemblePlain v t = (w', .error fault) → w' = v := by
    intro v t run
    rw [assemblePlain] at run
    split at run
    · exact (Prod.mk.inj run).1.symm
    · cases (Prod.mk.inj run).2
  simp only [assembleTrailer] at run
  split at run
  · rw [← (Prod.mk.inj run).1]
    exact written
  · split at run
    · rw [of_plain run]
      exact written.trans (Workspace.extends_modify _ _ fun _ => ⟨rfl, rfl⟩)
    · rw [of_plain run]
      exact written

namespace Builder

/-- A call that leaves it to the builder whose a record is and whether it is in the list: no write touches
that, and neither does an assembly that faults. -/
def Respects (b : Builder) : Call → Prop
  | .update _ f => ∀ r, (f r).owner = r.owner ∧ (f r).linked = r.linked
  | .assemble => ∀ fault, b.assemble.2 = .error fault → b.workspace.Extends b.assemble.1.workspace
  | _ => True

def RespectsAll (b : Builder) : List Call → Prop
  | [] => True
  | c :: calls => b.Respects c ∧ (b.call c).1.RespectsAll calls

/-- The record that entered the list by a call with this answer. -/
def joins? : Call → Answer → Option Handle
  | .append h, .done => some h
  | _, _ => none

/-- The records that entered the list in a run, in order. -/
def joined (b : Builder) : List Call → List Handle
  | [] => []
  | c :: calls => (joins? c (b.call c).2).toList ++ (b.call c).1.joined calls

/-- Appending this handle faults and leaves the builder as it was. -/
def Refuses (b : Builder) (h : Handle) : Prop := ∃ cause, b.call (.append h) = (b, .fault cause)

/-- As long as records can be appended, owners and marks tell what was issued and what was appended. -/
def Accounted (b : Builder) (hs : List Handle) : Prop := b.phase = .constructed → b.workspace.Accounts hs

section Calls

variable {b : Builder} {hs : List Handle} {h : Handle} {c : Call}

theorem call_append_of_refusal {cause : Fault} (refusal : b.refusal? h = some cause) :
    b.call (.append h) = (b, .fault cause) := by
  simp only [call, append, refusal]

theorem call_append_of_free (free : b.refusal? h = none) : b.call (.append h) = (b.attach h, .done) := by
  simp only [call, append, free]

theorem answer_append_eq_fault_iff {cause : Fault} :
    (b.call (.append h)).2 = .fault cause ↔ b.refusal? h = some cause := by
  cases refusal : b.refusal? h with
  | none =>
      rw [call_append_of_free refusal]
      exact iff_of_false nofun nofun
  | some other =>
      rw [call_append_of_refusal refusal, Answer.fault.injEq, Option.some.injEq]

theorem refuses_iff : b.Refuses h ↔ b.refusal? h ≠ none := by
  rw [Option.ne_none_iff_exists']
  constructor
  · rintro ⟨cause, refused⟩
    exact ⟨cause, answer_append_eq_fault_iff.mp (congrArg Prod.snd refused)⟩
  · rintro ⟨cause, refusal⟩
    exact ⟨cause, call_append_of_refusal refusal⟩

/-- What decides is the record that the builder itself has under the handle. -/
theorem refuses_iff_record : b.Refuses h ↔ b.phase = .assembled ∨
    ∀ r, b.pool.get? h = some r → r.linked = true ∨ r.owner ≠ some b.ctx.id := by
  rw [refuses_iff, refusal?]
  cases phase : b.phase with
  | assembled => simp
  | constructed =>
      cases found : b.pool.get? h with
      | none => simp
      | some r =>
          simp only [reduceCtorEq, false_or, Option.some.injEq, forall_eq']
          by_cases linked : r.linked = true
          · simp [linked]
          · by_cases owner : r.owner = some b.ctx.id <;> simp [linked, owner]

/-- Assembly respects owners and marks if the backend has done nothing but extend the workspace whenever it
faults. -/
theorem respects_assemble (extends_of_fault : ∀ w s w' fault,
    b.backend.assemble w s = (w', .error fault) → w.Extends w') : b.Respects .assemble := by
  intro fault faulted
  unfold assemble at faulted ⊢
  split
  · rename_i under
    rw [under] at faulted
    unfold runBackend at faulted ⊢
    split
    · rename_i run
      exact extends_of_fault _ _ _ _ run
    · rename_i run
      rw [run] at faulted
      cases faulted
  · rename_i assembled
    rw [assembled] at faulted
    cases faulted

/-- Until it is assembled, a builder only has records issued and written by calls that append nothing. -/
theorem extends_call (under : b.phase = .constructed) (respects : b.Respects c)
    (other : ∀ h, c ≠ .append h) (still : (b.call c).1.phase = .constructed) :
    b.workspace.Extends (b.call c).1.workspace := by
  cases c with
  | newRecord =>
      simp only [call, newRecord_eq under]
      exact b.workspace.extends_alloc
  | append h => exact absurd rfl (other h)
  | update h f =>
      rw [call]
      split
      · rename_i b' run
        rw [eq_of_update run]
        exact b.workspace.extends_modify h respects
      · exact .of_pool rfl rfl
  | setName _ | setFrameSize _ | setListener _ => exact .of_pool rfl rfl
  | assemble =>
      have same : (b.call .assemble).1 = b.assemble.1 := by
        rw [call]
        split <;> simp_all
      rw [same] at still ⊢
      -- An assembly that goes through ends the construction, so only faults are left.
      cases run : b.assemble.2 with
      | error fault => exact respects fault run
      | ok code =>
          rw [phase_assemble run] at still
          cases still
  | listing =>
      rw [call_listing_fst]
      exact .of_pool rfl rfl

theorem joins?_of_other (other : ∀ h, c ≠ .append h) (answer : Answer) : joins? c answer = none := by
  cases c with
  | append h => exact absurd rfl (other h)
  | _ => rfl

/-- Being assembled is final, so whoever is under construction after a call was so before it. -/
theorem constructed_of_call (still : (b.call c).1.phase = .constructed) : b.phase = .constructed := by
  cases phase : b.phase with
  | constructed => rfl
  | assembled =>
      rw [((frozen_refl phase).call c).phase] at still
      cases still

/-- A call keeps owners and marks in step with the appends that went through. -/
theorem Accounted.call (accounted : b.Accounted hs) (respects : b.Respects c) :
    (b.call c).1.Accounted (hs ++ (joins? c (b.call c).2).toList) := by
  intro still
  have under := constructed_of_call still
  have accounts := accounted under
  by_cases append : ∃ h, c = .append h
  · obtain ⟨h, rfl⟩ := append
    cases refusal : b.refusal? h with
    | none =>
        have issued := ((refusal?_eq_none_iff_of_accounts accounts under).mp refusal).1
        rw [call_append_of_free refusal]
        exact accounts_attach accounts issued
    | some cause =>
        rw [call_append_of_refusal refusal]
        exact (List.append_nil hs).symm ▸ accounts
  · rw [not_exists] at append
    rw [joins?_of_other append, Option.toList_none, List.append_nil]
    exact accounts.extend (extends_call under respects append still)

theorem Accounted.run (accounted : b.Accounted hs) {calls : List Call} (respects : b.RespectsAll calls) :
    (b.run calls).1.Accounted (hs ++ b.joined calls) := by
  induction calls generalizing b hs with
  | nil =>
      rw [joined, List.append_nil]
      exact accounted
  | cons c calls ih =>
      rw [joined, ← List.append_assoc]
      exact ih (accounted.call respects.1) respects.2

theorem get?_of_newRecord {b' : Builder} (made : b.newRecord = .ok (h, b')) :
    b'.pool.get? h = some (.fresh b.ctx.id) := by
  cases phase : b.phase with
  | assembled =>
      rw [newRecord_assembled phase] at made
      cases made
  | constructed =>
      rw [newRecord_eq phase] at made
      cases made
      exact (b.pool.get?_issue b.ctx.id ⟨b.pool.issued⟩).trans (if_pos rfl)

end Calls

/-- A builder cannot tell whether a handle is its own. Let one builder make a record, and let another one be
given the handle, after any calls on it. It refuses the handle, and does not change, exactly if it is
assembled or if its own record of that number is missing, marked or not owned by it; if it takes the handle,
what enters its list is not the record that was made. Where owners and marks were left to the builder, it
refuses exactly if it is assembled, has not issued that number or has appended it already, and it finds the
record to be another's only if the number is that of a slot which it has not issued yet. -/
theorem foreign_append_refused_iff {a a' : Builder} {h : Handle} (made : a.newRecord = .ok (h, a'))
    {registry : Registry} {arch : String} {capacity : Nat} {id : ContextId} {b : Builder}
    (created : create registry arch capacity id = .ok b) (calls : List Call)
    (apart : a.ctx.id ≠ (b.run calls).1.ctx.id) :
    let there := (b.run calls).1
    (there.Refuses h ↔ there.phase = .assembled ∨
      ∀ r, there.pool.get? h = some r → r.linked = true ∨ r.owner ≠ some there.ctx.id) ∧
    (¬ there.Refuses h → (there.call (.append h)).2 = .done ∧
      ∃ theirs mine, a'.pool.get? h = some theirs ∧ there.pool.get? h = some mine ∧
        theirs.owner ≠ mine.owner) ∧
    (b.RespectsAll calls →
      (there.Refuses h ↔
        there.phase = .assembled ∨ there.pool.issued ≤ h.index ∨ h ∈ b.joined calls) ∧
      ((there.call (.append h)).2 = .fault (.foreignRecord h) ↔
        there.phase = .constructed ∧ there.pool.issued ≤ h.index ∧ h.index < there.pool.capacity)) := by
  intro there
  refine ⟨refuses_iff_record, ?_, ?_⟩
  · intro taken
    have free : there.refusal? h = none := not_not.mp fun refused => taken (refuses_iff.mpr refused)
    have own := mt refuses_iff_record.mpr taken
    push Not at own
    obtain ⟨-, mine, found, -, owner⟩ := own
    refine ⟨by rw [call_append_of_free free], _, mine, get?_of_newRecord made, found, ?_⟩
    rw [owner]
    exact fun same => apart (Option.some.inj same)
  · intro respects
    have start : b.Accounted [] := fun _ => accounts_create created
    have accounted : there.Accounted (b.joined calls) := start.run respects
    rw [answer_append_eq_fault_iff, refuses_iff]
    cases phase : there.phase with
    | assembled =>
        have refusal : there.refusal? h = some .alreadyAssembled := by rw [refusal?, phase]
        rw [refusal]
        simp
    | constructed =>
        have accounts := accounted phase
        rw [Ne, refusal?_eq_none_iff_of_accounts accounts phase,
          refusal?_eq_foreignRecord_iff_of_accounts accounts phase]
        constructor
        · rw [not_and_or, Nat.not_lt, not_not]
          exact (or_iff_right Phase.noConfusion).symm
        · exact ⟨fun both => ⟨rfl, both⟩, And.right⟩

/-- A builder of another context, whose backend issues a record of its own. -/
def trailing : Builder where
  backend := Sample.trailer
  workspace :=
    { ctx :=
        { id := ⟨1⟩, target := Sample.target, listener := .journal
          journal := #[⟨.debug, "builder for trailer (Linux), 3 pooled records"⟩] }
      pool := .ofCapacity 3 }

/-- One record, which is appended and then linked past every slot, so that assembly faults. -/
def dangling : List Call :=
  [.newRecord, .append ⟨0⟩, .update ⟨0⟩ fun r => { r with link := some ⟨9⟩ }, .assemble]

/-- The second and the third handle of another builder. Nobody was given the record that the backend left
behind under the second number, and yet it enters the list; the slot of the third number was not issued. -/
theorem foreign_append_refused_dangling :
    let there := (trailing.run dangling).1
    (∃ a', (sampled.run [.newRecord]).1.newRecord = .ok (⟨1⟩, a')) ∧
      create ⟨[("trailer", Sample.trailer)]⟩ "trailer" 3 ⟨1⟩ = .ok trailing ∧
      trailing.RespectsAll dangling ∧
      (trailing.run dangling).2 = [.made ⟨0⟩, .done, .done, .fault (.outOfBounds ⟨9⟩)] ∧
      ¬ there.Refuses ⟨1⟩ ∧ (there.call (.append ⟨1⟩)).2 = .done ∧
      (there.call (.append ⟨2⟩)).2 = .fault (.foreignRecord ⟨2⟩) := by
  intro there
  have second : ∃ a', (sampled.run [.newRecord]).1.newRecord = .ok (⟨1⟩, a') := ⟨_, rfl⟩
  have third : ∃ a', (sampled.run [.newRecord, .newRecord]).1.newRecord = .ok (⟨2⟩, a') := ⟨_, rfl⟩
  have created : create ⟨[("trailer", Sample.trailer)]⟩ "trailer" 3 ⟨1⟩ = .ok trailing := rfl
  have respects : trailing.RespectsAll dangling :=
    ⟨trivial, trivial, fun _ => ⟨rfl, rfl⟩,
      respects_assemble fun _ _ _ _ => Sample.extends_of_trailer_fault, trivial⟩
  obtain ⟨_, made⟩ := second
  obtain ⟨_, made'⟩ := third
  obtain ⟨-, accepted, fits⟩ := foreign_append_refused_iff made created dangling (by decide +kernel)
  obtain ⟨-, -, fits'⟩ := foreign_append_refused_iff made' created dangling (by decide +kernel)
  have taken : ¬ there.Refuses ⟨1⟩ := by
    rw [(fits respects).1]
    decide +kernel
  refine ⟨⟨_, made⟩, created, respects, by decide +kernel, taken, (accepted taken).1, ?_⟩
  exact (fits' respects).2.mpr (by decide +kernel)

end Builder

end InstrStream
