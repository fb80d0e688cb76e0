import InstrStream.Fault
import InstrStream.Record

/-! Pools of records. A pool has a block of slots that exists from the start and, behind it, the records that
were issued one by one after the block was used up. Handles below the capacity name slots of the block, the
others what comes behind it. Slots of the block can be read and written before they are issued; issuing one
makes it fresh again. No slot is ever given back. -/
namespace InstrStream

structure Pool where
  /-- The slots that exist from the start, issued or not. -/
  block : Array Record
  /-- How many slots of the block were issued. -/
  used : Nat
  /-- The records issued behind the block. -/
  extra : Array Record
  used_le : used ≤ block.size
  full_of_extra : 0 < extra.size → used = block.size
deriving DecidableEq, Repr

namespace Pool

def ofCapacity (capacity : Nat) : Pool :=
  ⟨Array.replicate capacity {}, 0, #[], Nat.zero_le _, fun some => absurd some (Nat.lt_irrefl 0)⟩

def capacity (p : Pool) : Nat := p.block.size

/-- Number of records issued after the block was used up. -/
def overflow (p : Pool) : Nat := p.extra.size

/-- Number of records issued, in the block and behind it. -/
def issued (p : Pool) : Nat := p.used + p.extra.size

/-- Number of slots, issued or not. -/
def size (p : Pool) : Nat := p.block.size + p.extra.size

/-- The record at a handle. Only handles past every slot have none. -/
def get? (p : Pool) (h : Handle) : Option Record :=
  if h.index < p.block.size then p.block[h.index]? else p.extra[h.index - p.block.size]?

/-- The record at a handle that is known to have one; an empty record elsewhere. -/
def record (p : Pool) (h : Handle) : Record := (p.get? h).getD {}

def get (p : Pool) (h : Handle) : Except Fault Record :=
  match p.get? h with
  | some r => .ok r
  | none => .error (.outOfBounds h)

/-- Changes the record at one handle. A handle past every slot changes nothing. -/
def modify (p : Pool) (h : Handle) (f : Record → Record) : Pool :=
  if h.index < p.block.size then
    { p with
      block := p.block.modify h.index f
      used_le := by rw [Array.size_modify]; exact p.used_le
      full_of_extra := by rw [Array.size_modify]; exact p.full_of_extra }
  else
    { p with
      extra := p.extra.modify (h.index - p.block.size) f
      full_of_extra := by rw [Array.size_modify]; exact p.full_of_extra }

/-- Changes the record at one handle, or faults past every slot. -/
def update (p : Pool) (h : Handle) (f : Record → Record) : Except Fault Pool :=
  match p.get? h with
  | some _ => .ok (p.modify h f)
  | none => .error (.outOfBounds h)

/-- Whether the next record still comes from the block. -/
def hasRoom (p : Pool) : Bool := p.used < p.block.size

/-- Issues the next record to context `id`. -/
def issue (p : Pool) (id : ContextId) : Handle × Pool :=
  if room : p.used < p.block.size then
    (⟨p.used⟩,
      { p with
        block := p.block.setIfInBounds p.used (.fresh id)
        used := p.used + 1
        used_le := by rw [Array.size_setIfInBounds]; exact room
        full_of_extra := fun some => absurd (p.full_of_extra some) (Nat.ne_of_lt room) })
  else
    (⟨p.block.size + p.extra.size⟩,
      { p with
        extra := p.extra.push (.fresh id)
        full_of_extra := fun _ => Nat.le_antisymm p.used_le (Nat.le_of_not_lt room) })

/-- Whether a handle names an issued slot of the block. -/
def isPooled (p : Pool) (h : Handle) : Bool := h.index < p.used

/-- Whether a handle lies in the block, issued or not. -/
def inBlock (p : Pool) (h : Handle) : Bool := h.index < p.block.size

/-- The slots of the block are issued first. -/
theorem used_eq (p : Pool) : p.used = min p.issued p.capacity := by
  have le := p.used_le
  have full := p.full_of_extra
  unfold issued capacity
  omega

/-- What does not fit in the block comes behind it. -/
theorem overflow_eq (p : Pool) : p.overflow = p.issued - min p.issued p.capacity := by
  rw [← used_eq, issued, overflow, Nat.add_sub_cancel_left]

theorem hasRoom_iff (p : Pool) : p.hasRoom = true ↔ p.issued < p.capacity := by
  have le := p.used_le
  have full := p.full_of_extra
  unfold hasRoom issued capacity
  rw [decide_eq_true_eq]
  omega

/-- A pool has more slots than records issued as long as its block is not used up, and as many after that. -/
theorem size_eq (p : Pool) : p.size = max p.capacity p.issued := by
  have le := p.used_le
  have full := p.full_of_extra
  unfold size capacity issued
  omega

theorem get?_eq_none_iff_size (p : Pool) (h : Handle) : p.get? h = none ↔ p.size ≤ h.index := by
  unfold get? size
  split
  · rename_i inside
    rw [Array.getElem?_eq_none_iff]
    omega
  · rename_i behind
    rw [Array.getElem?_eq_none_iff]
    omega

theorem get?_eq_none_iff (p : Pool) (h : Handle) :
    p.get? h = none ↔ max p.capacity p.issued ≤ h.index := by
  rw [get?_eq_none_iff_size, size_eq]

@[simp] theorem capacity_ofCapacity (capacity : Nat) : (ofCapacity capacity).capacity = capacity :=
  Array.size_replicate

theorem get?_ofCapacity (capacity : Nat) (h : Handle) :
    (ofCapacity capacity).get? h = if h.index < capacity then some {} else none := by
  unfold get? ofCapacity
  simp only [Array.size_replicate, Array.getElem?_replicate]
  split
  · rfl
  · rfl

theorem update_eq (p : Pool) (h : Handle) (f : Record → Record) :
    p.update h f = if h.index < p.size then .ok (p.modify h f) else .error (.outOfBounds h) := by
  unfold update
  cases found : p.get? h with
  | none => rw [if_neg (Nat.not_lt.mpr ((p.get?_eq_none_iff_size h).mp found))]
  | some r =>
      have inside : ¬ p.size ≤ h.index := by
        rw [← get?_eq_none_iff_size, found]
        exact Option.some_ne_none r
      rw [if_pos (Nat.not_le.mp inside)]

section Modify

variable (p : Pool) (h : Handle) (f : Record → Record)

@[simp] theorem capacity_modify : (p.modify h f).capacity = p.capacity := by
  unfold modify capacity
  split
  · exact Array.size_modify
  · rfl

@[simp] theorem used_modify : (p.modify h f).used = p.used := by
  unfold modify
  split <;> rfl

@[simp] theorem overflow_modify : (p.modify h f).overflow = p.overflow := by
  unfold modify overflow
  split
  · rfl
  · exact Array.size_modify

@[simp] theorem issued_modify : (p.modify h f).issued = p.issued := by
  change (p.modify h f).used + (p.modify h f).overflow = p.used + p.overflow
  rw [used_modify, overflow_modify]

@[simp] theorem size_modify : (p.modify h f).size = p.size := by
  change (p.modify h f).capacity + (p.modify h f).overflow = p.capacity + p.overflow
  rw [capacity_modify, overflow_modify]

/-- A write stays in the store that its handle points to, and so meets no other record. -/
theorem get?_modify (k : Handle) :
    (p.modify h f).get? k = if h = k then (p.get? k).map f else p.get? k := by
  rcases h with ⟨i⟩
  rcases k with ⟨j⟩
  simp only [Handle.mk.injEq]
  unfold modify get?
  by_cases inBlock : i < p.block.size
  · simp only [if_pos inBlock, Array.size_modify, Array.getElem?_modify]
    split
    · rfl
    · rw [if_neg (by omega)]
  · simp only [if_neg inBlock, Array.getElem?_modify]
    split
    · rw [if_neg (by omega)]
    · simp only [show i - p.block.size = j - p.block.size ↔ i = j by omega]

end Modify

section Issue

variable (p : Pool) (id : ContextId)

/-- Records are numbered as they are issued, whether they come from the block or from behind it. -/
@[simp] theorem issue_fst : (p.issue id).1 = ⟨p.issued⟩ := by
  have full := p.full_of_extra
  have le := p.used_le
  unfold issue issued
  split
  · rw [Handle.mk.injEq]
    omega
  · rw [Handle.mk.injEq]
    omega

@[simp] theorem capacity_issue : (p.issue id).2.capacity = p.capacity := by
  unfold issue capacity
  split
  · exact Array.size_setIfInBounds
  · rfl

@[simp] theorem issued_issue : (p.issue id).2.issued = p.issued + 1 := by
  unfold issue issued
  split
  · exact Nat.add_right_comm ..
  · simp only [Array.size_push]
    exact (Nat.add_assoc ..).symm

theorem size_le_issue : p.size ≤ (p.issue id).2.size := by
  rw [size_eq, size_eq, capacity_issue, issued_issue]
  omega

theorem issue_fst_lt : (p.issue id).1.index < (p.issue id).2.size := by
  rw [size_eq, issue_fst, issued_issue]
  exact Nat.lt_of_lt_of_le (Nat.lt_succ_self _) (Nat.le_max_right _ _)

/-- Issuing a record makes it fresh and leaves every other record as it was. -/
theorem get?_issue (k : Handle) :
    (p.issue id).2.get? k = if k.index = p.issued then some (.fresh id) else p.get? k := by
  have full := p.full_of_extra
  have le := p.used_le
  unfold issue get? issued
  split
  · rename_i room
    have none_extra : p.extra.size = 0 := by omega
    simp only [Array.size_setIfInBounds, Array.getElem?_setIfInBounds, none_extra, Nat.add_zero]
    grind
  · simp only [Array.getElem?_push]
    grind

end Issue

structure Stats where
  capacity : Nat
  blockUsed : Nat
  overflow : Nat
deriving DecidableEq, Repr

def stats (p : Pool) : Stats := ⟨p.capacity, p.used, p.overflow⟩

@[simp] theorem stats_modify (p : Pool) (h : Handle) (f : Record → Record) :
    (p.modify h f).stats = p.stats := by
  rw [stats, capacity_modify, used_modify, overflow_modify, stats]

def Stats.text (s : Stats) : String := s!"{s.blockUsed}/{s.capacity} pooled, {s.overflow} overflow"

def Stats.describe (s : Stats) : String :=
  s!"PoolStats \x7b capacity: {s.capacity}, block_used: {s.blockUsed}, overflow: {s.overflow} \x7d"

end Pool

end InstrStream
