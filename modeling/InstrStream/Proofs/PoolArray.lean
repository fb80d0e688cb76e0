import InstrStream.Proofs.Appending

/-! A pool is an array of records to which records are only ever added. The block, the store behind it and the
place where handles pass from one to the other are not to be seen in it: whoever issues records, and whatever
was written where and when, the records are numbered in the order in which they were issued, each starts out
fresh, and a write changes the record it names and no other. -/
namespace InstrStream

/-- The records issued, in order, and what stands in the slots that were not issued. -/
structure Ledger where
  issued : List Record
  drafts : Nat → Record

namespace Ledger

def empty : Ledger := ⟨[], fun _ => {}⟩

def issue (l : Ledger) (id : ContextId) : Ledger := { l with issued := l.issued ++ [.fresh id] }

def write (l : Ledger) (h : Handle) (f : Record → Record) : Ledger :=
  if h.index < l.issued.length then { l with issued := l.issued.modify h.index f }
  else { l with drafts := Function.update l.drafts h.index (f (l.drafts h.index)) }

/-- What is read at a handle, beside a block of this size. -/
def read? (l : Ledger) (capacity : Nat) (h : Handle) : Option Record :=
  if h.index < l.issued.length then l.issued[h.index]?
  else if h.index < capacity then some (l.drafts h.index)
  else none

variable (l : Ledger) (capacity : Nat)

@[simp] theorem length_issue (id : ContextId) : (l.issue id).issued.length = l.issued.length + 1 :=
  List.length_append

@[simp] theorem length_write (h : Handle) (f : Record → Record) :
    (l.write h f).issued.length = l.issued.length := by
  unfold write
  split
  · exact List.length_modify ..
  · rfl

theorem read?_issue (id : ContextId) (h : Handle) :
    (l.issue id).read? capacity h =
      if h.index = l.issued.length then some (.fresh id) else l.read? capacity h := by
  simp only [read?, length_issue]
  -- A draft of the new record is hidden from now on, since issued records are looked up first.
  by_cases new : h.index = l.issued.length
  · rw [if_pos (by omega), if_pos new, issue, new, List.getElem?_concat_length]
  · rw [if_neg new]
    by_cases old : h.index < l.issued.length
    · rw [if_pos (by omega), if_pos old, issue, List.getElem?_append_left old]
    · rw [if_neg (by omega), if_neg old]
      rfl

theorem read?_write (h k : Handle) (f : Record → Record) :
    (l.write h f).read? capacity k =
      if k = h then (l.read? capacity k).map f else l.read? capacity k := by
  obtain ⟨i⟩ := h
  obtain ⟨j⟩ := k
  simp only [read?, length_write, Handle.mk.injEq]
  by_cases old : i < l.issued.length
  · simp only [write, if_pos old, List.getElem?_modify]
    grind
  · simp only [write, if_neg old, Function.update_apply]
    grind

end Ledger

/-- The calls on a builder of one context, and the array that they come to. Its last argument counts the
records that were issued outside the pool. -/
inductive Usage (ctx : Context) (capacity : Nat) : Builder → Ledger → Nat → Prop
  | start {b : Builder} : b.workspace = ⟨ctx, .ofCapacity capacity⟩ → Usage ctx capacity b .empty 0
  /-- A record is issued by whoever has the workspace, such as a backend. -/
  | alloc {b : Builder} {l : Ledger} {singles : Nat} : Usage ctx capacity b l singles →
      Usage ctx capacity { b with workspace := b.workspace.alloc.2 } (l.issue ctx.id) singles
  | newRecord {b b' : Builder} {l : Ledger} {singles : Nat} {h : Handle} : Usage ctx capacity b l singles →
      b.newRecord = .ok (h, b') → Usage ctx capacity b' (l.issue ctx.id) singles
  | write {b b' : Builder} {l : Ledger} {singles : Nat} {h : Handle} {f : Record → Record} :
      Usage ctx capacity b l singles → b.update h f = .ok b' → Usage ctx capacity b' (l.write h f) singles
  /-- A record is issued by the context, outside the pool. -/
  | single {b : Builder} {l : Ledger} {singles : Nat} : Usage ctx capacity b l singles →
      Usage ctx capacity { b with workspace := { b.workspace with ctx := b.ctx.issueRecord.2 } } l
        (singles + 1)
  /-- Settings, reports and notes leave the records alone. -/
  | other {b b' : Builder} {l : Ledger} {singles : Nat} : Usage ctx capacity b l singles →
      b'.pool = b.pool → b'.ctx.id = b.ctx.id → b'.ctx.individual = b.ctx.individual →
      Usage ctx capacity b' l singles

/-- A builder whose pool is the array `l`. -/
structure Builder.Holds (ctx : Context) (capacity : Nat) (b : Builder) (l : Ledger) (singles : Nat) :
    Prop where
  id : b.ctx.id = ctx.id
  block : b.pool.capacity = capacity
  issued : b.pool.issued = l.issued.length
  reads : ∀ h, b.pool.get? h = l.read? capacity h
  individual : b.ctx.individual = ctx.individual + (l.issued.length - capacity) + singles

namespace Builder.Holds

variable {ctx : Context} {capacity singles : Nat} {b b' : Builder} {l : Ledger}

theorem individual_alloc (w : Workspace) : w.alloc.2.ctx.individual =
    w.ctx.individual + if w.pool.issued < w.pool.capacity then 0 else 1 := by
  simp only [Workspace.alloc, Workspace.overflowed, Pool.hasRoom_iff]
  split
  · rfl
  · split <;> rfl

theorem start (begins : b.workspace = ⟨ctx, .ofCapacity capacity⟩) : b.Holds ctx capacity .empty 0 := by
  have pool : b.pool = .ofCapacity capacity := congrArg Workspace.pool begins
  have context : b.ctx = ctx := congrArg Workspace.ctx begins
  refine ⟨by rw [context], by rw [pool, Pool.capacity_ofCapacity], by rw [pool]; rfl, ?_, ?_⟩
  · intro h
    rw [pool, Pool.get?_ofCapacity]
    rfl
  · rw [context]
    simp [Ledger.empty]

theorem alloc (holds : b.Holds ctx capacity l singles) :
    Holds ctx capacity { b with workspace := b.workspace.alloc.2 } (l.issue ctx.id) singles := by
  have pool : Builder.pool { b with workspace := b.workspace.alloc.2 } = (b.pool.issue ctx.id).2 := by
    rw [← holds.id]
    rfl
  constructor
  · exact b.workspace.id_alloc.trans holds.id
  · rw [pool, Pool.capacity_issue, holds.block]
  · rw [pool, Pool.issued_issue, holds.issued, Ledger.length_issue]
  · intro h
    rw [pool, Pool.get?_issue, Ledger.read?_issue, holds.issued, holds.reads]
  · -- Behind the block every record is also counted as a single one.
    have before : b.workspace.ctx.individual = _ := holds.individual
    have issued : b.workspace.pool.issued = _ := holds.issued
    have block : b.workspace.pool.capacity = _ := holds.block
    change b.workspace.alloc.2.ctx.individual = _
    rw [individual_alloc, before, issued, block, Ledger.length_issue]
    split <;> omega

theorem write (holds : b.Holds ctx capacity l singles) {h : Handle} {f : Record → Record}
    (run : b.update h f = .ok b') : b'.Holds ctx capacity (l.write h f) singles := by
  obtain rfl := eq_of_update run
  have pool : Builder.pool { b with workspace := b.workspace.modify h f } = b.pool.modify h f := rfl
  refine ⟨holds.id, ?_, ?_, ?_, ?_⟩
  · rw [pool, Pool.capacity_modify, holds.block]
  · rw [pool, Pool.issued_modify, holds.issued, Ledger.length_write]
  · intro k
    rw [pool, Pool.get?_modify, Ledger.read?_write, holds.reads]
    simp only [eq_comm]
  · rw [Ledger.length_write]
    exact holds.individual

theorem single (holds : b.Holds ctx capacity l singles) :
    Holds ctx capacity { b with workspace := { b.workspace with ctx := b.ctx.issueRecord.2 } } l
      (singles + 1) := by
  refine ⟨holds.id, holds.block, holds.issued, holds.reads, ?_⟩
  change b.ctx.individual + 1 = _
  rw [holds.individual, Nat.add_assoc]

theorem other (holds : b.Holds ctx capacity l singles) (pool : b'.pool = b.pool)
    (id : b'.ctx.id = b.ctx.id) (individual : b'.ctx.individual = b.ctx.individual) :
    b'.Holds ctx capacity l singles := by
  refine ⟨id.trans holds.id, ?_, ?_, ?_, individual.trans holds.individual⟩
  · rw [pool, holds.block]
  · rw [pool, holds.issued]
  · rw [pool]
    exact holds.reads

end Builder.Holds

/-- A record was issued: its handle is the next number, it is fresh, and no other record changed. -/
structure Issues (id : ContextId) (n : Nat) (p p' : Pool) (h : Handle) : Prop where
  number : h = ⟨n⟩
  fresh : p'.get? h = some (.fresh id)
  others : ∀ k, k ≠ h → p'.get? k = p.get? k

section Refinement

variable {ctx : Context} {capacity singles : Nat} {b : Builder} {l : Ledger}

theorem Usage.holds (usage : Usage ctx capacity b l singles) : b.Holds ctx capacity l singles := by
  induction usage with
  | start begins => exact .start begins
  | alloc _ ih => exact ih.alloc
  | @newRecord b b' l singles h _ run ih =>
      cases phase : b.phase with
      | constructed =>
          rw [Builder.newRecord_eq phase] at run
          cases run
          exact ih.alloc
      | assembled =>
          rw [Builder.newRecord_assembled phase] at run
          cases run
  | write _ run ih => exact ih.write run
  | single _ ih => exact ih.single
  | other _ pool id individual ih => exact ih.other pool id individual

theorem Builder.Holds.issues (holds : b.Holds ctx capacity l singles) :
    Issues ctx.id l.issued.length b.pool b.workspace.alloc.2.pool b.workspace.alloc.1 := by
  have pool : b.workspace.alloc.2.pool = (b.pool.issue ctx.id).2 := by
    rw [← holds.id]
    rfl
  have handle : b.workspace.alloc.1 = ⟨b.pool.issued⟩ := b.workspace.alloc_fst
  rw [pool, handle, holds.issued]
  refine ⟨rfl, ?_, ?_⟩
  · rw [Pool.get?_issue, if_pos holds.issued.symm]
  · rintro ⟨k⟩ apart
    have other : k ≠ b.pool.issued := by
      rw [holds.issued]
      rintro rfl
      exact apart rfl
    rw [Pool.get?_issue, if_neg other]

theorem Builder.update_eq (b : Builder) (h : Handle) (f : Record → Record) :
    b.update h f = if h.index < b.pool.size then
      .ok { b with workspace := b.workspace.modify h f } else .error (.outOfBounds h) := by
  rw [Builder.update, Workspace.update, Pool.update_eq]
  change Except.bind (Except.bind (if h.index < b.pool.size then _ else _) _) _ = _
  split <;> rfl

theorem Pool.get_fault_iff (p : Pool) (h : Handle) :
    (∃ fault, p.get h = .error fault) ↔ p.size ≤ h.index := by
  rw [← get?_eq_none_iff_size, get]
  cases p.get? h with
  | none => simp
  | some r => simp

theorem Builder.update_fault_iff (b : Builder) (h : Handle) (f : Record → Record) :
    (∃ fault, b.update h f = .error fault) ↔ b.pool.size ≤ h.index := by
  rw [Builder.update_eq, ← Nat.not_lt]
  split
  · rename_i inside
    simp [inside]
  · rename_i past
    simp [past]

theorem Builder.Holds.size (holds : b.Holds ctx capacity l singles) :
    b.pool.size = max l.issued.length capacity := by
  rw [b.pool.size_eq, holds.block, holds.issued, max_comm]

/-- A pool is an array that only grows. After any calls on a builder it reads as the array of the records
issued and of what was written into slots of the block in advance. The next record issued, by the builder or
by a backend, gets the next number and is fresh, and no other record changes. The counts of block, overflow
and single records follow from the number of records, reads and writes fault exactly past every slot, and
a write changes one record. -/
theorem pool_refines_array (usage : Usage ctx capacity b l singles) :
    (∀ h, b.pool.get? h = l.read? capacity h) ∧
      Issues ctx.id l.issued.length b.pool b.workspace.alloc.2.pool b.workspace.alloc.1 ∧
      (b.phase = .constructed → ∃ h b', b.newRecord = .ok (h, b') ∧
        Issues ctx.id l.issued.length b.pool b'.pool h) ∧
      b.stats = { capacity, blockUsed := min l.issued.length capacity
                  overflow := l.issued.length - min l.issued.length capacity } ∧
      (∀ h, b.pool.isPooled h = true ↔ h.index < min l.issued.length capacity) ∧
      b.ctx.individual =
        ctx.individual + (l.issued.length - min l.issued.length capacity) + singles ∧
      (∀ h, (∃ fault, b.pool.get h = .error fault) ↔ max l.issued.length capacity ≤ h.index) ∧
      (∀ h f, (∃ fault, b.update h f = .error fault) ↔ max l.issued.length capacity ≤ h.index) ∧
      ∀ h f b', b.update h f = .ok b' →
        ∀ k, b'.pool.get? k = if k = h then (b.pool.get? k).map f else b.pool.get? k := by
  have holds := usage.holds
  have overflow : l.issued.length - capacity = l.issued.length - min l.issued.length capacity := by omega
  refine ⟨holds.reads, holds.issues, ?_, ?_, ?_, ?_, ?_, ?_, ?_⟩
  · intro under
    have next := holds.issues
    rw [Workspace.alloc_fst] at next
    exact ⟨_, _, Builder.newRecord_eq under, next⟩
  · rw [Builder.stats, Pool.stats, Pool.used_eq, Pool.overflow_eq, holds.block, holds.issued]
  · intro h
    rw [Pool.isPooled, Pool.used_eq, holds.block, holds.issued, decide_eq_true_eq]
  · rw [holds.individual, overflow]
  · intro h
    rw [b.pool.get_fault_iff, holds.size]
  · intro h f
    rw [b.update_fault_iff, holds.size]
  · intro h f b' run k
    obtain rfl := Builder.eq_of_update run
    change (b.pool.modify h f).get? k = _
    rw [Pool.get?_modify]
    simp only [eq_comm]

end Refinement

/-- In a block of two, the second slot is written before it is issued; a backend issues the third record,
which comes after the block, and one record is issued outside the pool. -/
theorem pool_refines_array_sampled :
    ∃ b l, Usage Builder.sampled.ctx 2 b l 1 ∧ l.issued.length = 3 ∧
      b.pool.get? ⟨1⟩ = some (.fresh ⟨0⟩) ∧ b.pool.get? ⟨2⟩ = some { owner := some ⟨0⟩, mark := 5 } ∧
      b.stats = ⟨2, 2, 1⟩ ∧ b.ctx.individual = 2 ∧ b.workspace.alloc.1 = ⟨3⟩ ∧
      ∃ fault, b.pool.get ⟨3⟩ = .error fault := by
  have start : Usage Builder.sampled.ctx 2 Builder.sampled .empty 0 := .start rfl
  have early := start.write (h := ⟨1⟩) (f := fun r => { r with op := .nop, pc := 9 }) rfl
  have block := (early.newRecord rfl).newRecord rfl
  have last := (block.alloc.single).write (h := ⟨2⟩) (f := fun r => { r with mark := 5 }) rfl
  obtain ⟨reads, issues, -, stats, -, individual, faults, -⟩ := pool_refines_array last
  exact ⟨_, _, last, rfl, reads ⟨1⟩, reads ⟨2⟩, stats, individual, issues.number,
    (faults ⟨3⟩).mpr (by decide)⟩

end InstrStream
