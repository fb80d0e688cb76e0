import InstrStream.Builder
import InstrStream.Proofs.Chain

/-! Whose a record is, and whether it is in a list. A builder reads both off the record that a handle names
in its own pool, so what it makes of a handle depends on what was issued and appended there before. While
nobody else writes owners and marks, these say just that: the records owned by the context are the ones it
issued, and the marked ones are the ones appended. -/
namespace InstrStream

namespace Workspace

variable {w w' w'' : Workspace} {hs : List Handle}

theorem id_alloc (w : Workspace) : w.alloc.2.ctx.id = w.ctx.id := by
  simp only [alloc, overflowed]
  split
  · rfl
  · split <;> rfl

/-- What may come of a workspace while its list stays as it is: some records are issued, and all others keep
their owners and marks. -/
structure Extends (w w' : Workspace) : Prop where
  id : w'.ctx.id = w.ctx.id
  grows : w.pool.issued ≤ w'.pool.issued
  new : ∀ h r, w'.pool.get? h = some r → w.pool.issued ≤ h.index → h.index < w'.pool.issued →
    r.owner = some w.ctx.id ∧ r.linked = false
  kept : ∀ h r, w'.pool.get? h = some r → h.index < w.pool.issued ∨ w'.pool.issued ≤ h.index →
    ∃ r', w.pool.get? h = some r' ∧ r.owner = r'.owner ∧ r.linked = r'.linked

theorem Extends.of_pool (id : w'.ctx.id = w.ctx.id) (pool : w'.pool = w.pool) : w.Extends w' := by
  refine ⟨id, Nat.le_of_eq (congrArg Pool.issued pool).symm, ?_, ?_⟩
  · intro h r _ old new
    rw [pool] at new
    exact absurd new (Nat.not_lt.mpr old)
  · intro h r found _
    rw [pool] at found
    exact ⟨r, found, rfl, rfl⟩

theorem Extends.trans (first : w.Extends w') (second : w'.Extends w'') : w.Extends w'' := by
  have grows := first.grows
  have grows' := second.grows
  refine ⟨second.id.trans first.id, Nat.le_trans grows grows', ?_, ?_⟩
  · intro h r found old new
    -- A record that is new to the first state was issued on the way to the second or after it.
    by_cases between : h.index < w'.pool.issued
    · obtain ⟨r', found', owner, linked⟩ := second.kept h r found (.inl between)
      obtain ⟨owned, free⟩ := first.new h r' found' old between
      exact ⟨owner.trans owned, linked.trans free⟩
    · obtain ⟨owned, free⟩ := second.new h r found (Nat.le_of_not_lt between) new
      exact ⟨by rw [owned, first.id], free⟩
  · intro h r found outside
    obtain ⟨r', found', owner', linked'⟩ := second.kept h r found (by omega)
    obtain ⟨r'', found'', owner, linked⟩ := first.kept h r' found' (by omega)
    exact ⟨r'', found'', owner'.trans owner, linked'.trans linked⟩

theorem extends_alloc (w : Workspace) : w.Extends w.alloc.2 := by
  have pool : w.alloc.2.pool = (w.pool.issue w.ctx.id).2 := rfl
  refine ⟨w.id_alloc, ?_, ?_, ?_⟩
  · rw [pool, Pool.issued_issue]
    exact Nat.le_succ _
  · intro h r found old new
    rw [pool, Pool.issued_issue] at new
    rw [pool, Pool.get?_issue, if_pos (by omega)] at found
    cases found
    exact ⟨rfl, rfl⟩
  · intro h r found outside
    rw [pool, Pool.issued_issue] at outside
    rw [pool, Pool.get?_issue, if_neg (by omega)] at found
    exact ⟨r, found, rfl, rfl⟩

/-- A write that leaves owner and mark alone. -/
theorem extends_modify (w : Workspace) (h : Handle) {f : Record → Record}
    (keeps : ∀ r, (f r).owner = r.owner ∧ (f r).linked = r.linked) : w.Extends (w.modify h f) := by
  have pool : (w.modify h f).pool = w.pool.modify h f := rfl
  have issued : (w.modify h f).pool.issued = w.pool.issued := Pool.issued_modify ..
  refine ⟨rfl, issued.ge, ?_, ?_⟩
  · intro k r _ old new
    exact absurd (issued ▸ new) (Nat.not_lt.mpr old)
  · intro k r found _
    rw [pool, Pool.get?_modify] at found
    split at found
    · obtain ⟨r', found', rfl⟩ := Option.map_eq_some_iff.mp found
      exact ⟨r', found', (keeps r').1, (keeps r').2⟩
    · exact ⟨r, found, rfl, rfl⟩

/-- The records in the list are `hs`, and the records of the context are those issued. -/
structure Accounts (w : Workspace) (hs : List Handle) : Prop where
  issued : ∀ h ∈ hs, h.index < w.pool.issued
  linked : ∀ h r, w.pool.get? h = some r → (r.linked = true ↔ h ∈ hs)
  owner : ∀ h r, w.pool.get? h = some r → (r.owner = some w.ctx.id ↔ h.index < w.pool.issued)

theorem Accounts.extend (accounts : w.Accounts hs) (more : w.Extends w') : w'.Accounts hs := by
  have grows := more.grows
  refine ⟨fun h met => Nat.lt_of_lt_of_le (accounts.issued h met) grows, ?_, ?_⟩
  · intro h r found
    by_cases new : w.pool.issued ≤ h.index ∧ h.index < w'.pool.issued
    · rw [(more.new h r found new.1 new.2).2]
      refine iff_of_false nofun ?_
      intro met
      exact absurd (accounts.issued h met) (Nat.not_lt.mpr new.1)
    · obtain ⟨r', found', -, linked⟩ := more.kept h r found (by omega)
      rw [linked, accounts.linked h r' found']
  · intro h r found
    rw [more.id]
    by_cases new : w.pool.issued ≤ h.index ∧ h.index < w'.pool.issued
    · exact iff_of_true (more.new h r found new.1 new.2).1 new.2
    · obtain ⟨r', found', owner, -⟩ := more.kept h r found (by omega)
      rw [owner, accounts.owner h r' found']
      omega

end Workspace

namespace Builder

variable {b : Builder} {hs : List Handle} {h : Handle}

theorem accounts_create {registry : Registry} {arch : String} {capacity : Nat} {id : ContextId}
    (created : create registry arch capacity id = .ok b) : b.workspace.Accounts [] := by
  rw [create] at created
  split at created
  · cases created
  · cases created
    have blank : ∀ h r, (Pool.ofCapacity capacity).get? h = some r → r = {} := by
      intro h r found
      rw [Pool.get?_ofCapacity] at found
      split at found
      · exact (Option.some.inj found).symm
      · cases found
    refine ⟨by simp, ?_, ?_⟩
    · intro h r found
      rw [blank h r found]
      simp
    · intro h r found
      rw [blank h r found]
      constructor
      · intro owned
        cases owned
      · intro below
        exact absurd below (Nat.not_lt_zero _)

theorem ctx_attach (b : Builder) (h : Handle) : (b.attach h).ctx = b.ctx := by
  unfold attach
  split <;> rfl

theorem issued_attach (b : Builder) (h : Handle) : (b.attach h).pool.issued = b.pool.issued := by
  unfold attach
  split
  · exact (Pool.issued_modify ..).trans (Pool.issued_modify ..)
  · exact Pool.issued_modify ..

/-- Appending a record marks it, and touches no other owner or mark. -/
theorem get?_attach_eq_some {k : Handle} {r : Record} (found : (b.attach h).pool.get? k = some r) :
    ∃ r', b.pool.get? k = some r' ∧ r.owner = r'.owner ∧ (r.linked = true ↔ r'.linked = true ∨ k = h) := by
  have marked : ∀ r, (b.pool.modify h fun r => { r with linked := true, link := none }).get? k = some r →
      ∃ r', b.pool.get? k = some r' ∧ r.owner = r'.owner ∧
        (r.linked = true ↔ r'.linked = true ∨ k = h) := by
    intro r found
    rw [Pool.get?_modify] at found
    split at found
    · rename_i here
      obtain ⟨r', before, rfl⟩ := Option.map_eq_some_iff.mp found
      exact ⟨r', before, rfl, by simp [here]⟩
    · rename_i other
      exact ⟨r, found, rfl, by simp [Ne.symm other]⟩
  unfold attach at found
  split at found
  · rename_i last _
    change ((b.pool.modify h _).modify last _).get? k = some r at found
    rw [Pool.get?_modify] at found
    split at found
    · obtain ⟨r', between, rfl⟩ := Option.map_eq_some_iff.mp found
      exact marked r' between
    · exact marked r found
  · exact marked r found

theorem accounts_attach (accounts : b.workspace.Accounts hs) (issued : h.index < b.pool.issued) :
    (b.attach h).workspace.Accounts (hs ++ [h]) := by
  have same_id : (b.attach h).workspace.ctx.id = b.ctx.id := by
    change (b.attach h).ctx.id = b.ctx.id
    rw [ctx_attach]
  have same_issued : (b.attach h).workspace.pool.issued = b.pool.issued := issued_attach b h
  refine ⟨?_, ?_, ?_⟩
  · intro k met
    rw [same_issued]
    rcases List.mem_append.mp met with old | new
    · exact accounts.issued k old
    · rwa [List.mem_singleton.mp new]
  · intro k r found
    obtain ⟨r', before, -, mark⟩ := get?_attach_eq_some found
    rw [mark, accounts.linked k r' before, List.mem_append, List.mem_singleton]
  · intro k r found
    obtain ⟨r', before, whose, -⟩ := get?_attach_eq_some found
    rw [whose, same_id, same_issued]
    exact accounts.owner k r' before

/-- Why a builder refuses a handle before assembly. That the record is another's is said of the slots alone
that the builder has not issued yet. -/
theorem refusal?_of_accounts (accounts : b.workspace.Accounts hs) (under : b.phase = .constructed)
    (h : Handle) : b.refusal? h =
      if max b.pool.capacity b.pool.issued ≤ h.index then some (.outOfBounds h)
      else if h ∈ hs then some (.appendedTwice h)
      else if b.pool.issued ≤ h.index then some (.foreignRecord h)
      else none := by
  rw [refusal?, under]
  cases found : b.pool.get? h with
  | none => rw [if_pos ((b.pool.get?_eq_none_iff h).mp found)]
  | some r =>
      have inside : ¬ max b.pool.capacity b.pool.issued ≤ h.index := by
        rw [← Pool.get?_eq_none_iff, found]
        exact nofun
      have mark := accounts.linked h r found
      have whose : r.owner ≠ some b.ctx.id ↔ b.pool.issued ≤ h.index := by
        rw [← Nat.not_lt]
        exact not_congr (accounts.owner h r found)
      rw [if_neg inside]
      simp only [mark, whose]

/-- A builder takes the handles of the records that it issued and that are not in its list. -/
theorem refusal?_eq_none_iff_of_accounts (accounts : b.workspace.Accounts hs) (under : b.phase = .constructed) :
    b.refusal? h = none ↔ h.index < b.pool.issued ∧ h ∉ hs := by
  rw [refusal?_of_accounts accounts under]
  split
  · exact iff_of_false nofun (by omega)
  · split
    · rename_i met
      exact iff_of_false nofun fun free => free.2 met
    · rename_i off
      split
      · exact iff_of_false nofun (by omega)
      · exact iff_of_true rfl ⟨by omega, off⟩

theorem refusal?_eq_foreignRecord_iff_of_accounts (accounts : b.workspace.Accounts hs)
    (under : b.phase = .constructed) :
    b.refusal? h = some (.foreignRecord h) ↔ b.pool.issued ≤ h.index ∧ h.index < b.pool.capacity := by
  rw [refusal?_of_accounts accounts under]
  split
  · exact iff_of_false nofun (by omega)
  · split
    · rename_i met
      have issued : h.index < b.pool.issued := accounts.issued h met
      exact iff_of_false nofun (by omega)
    · split
      · exact iff_of_true rfl (by omega)
      · exact iff_of_false nofun (by omega)

end Builder

end InstrStream
