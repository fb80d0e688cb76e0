import InstrStream.Proofs.CheckedAccess
import InstrStream.Proofs.X86.Outcome

/-! The accesses of assembly. A walk faults where the list leads past every slot; behind it assembly touches only
records that the walk has met and records that were issued since, so no access of its own can miss. Adding a
frame with every read and write checked is the same function, on every workspace and every list. -/
namespace InstrStream.X86

open X86.Frame Assembly

namespace Frame

def newRecordChecked (w : Workspace) (p : Payload) : Except Fault (Handle × Workspace) :=
  let (h, w) := w.alloc
  return (h, ← w.update h fun r => { r with toPayload := p, linked := true })

def newRecordsChecked : Workspace → List Payload → Except Fault (List Handle × Workspace)
  | w, [] => .ok ([], w)
  | w, p :: rest => do
    let (h, w) ← newRecordChecked w p
    let (hs, w) ← newRecordsChecked w rest
    return (h :: hs, w)

def expandReturnChecked (m : Mode) (size : UInt32) (w : Workspace) (h : Handle) : Except Fault Workspace := do
  let saved ← w.pool.get h
  let (tail, w) ← newRecordsChecked w (epilogueTail m w.ctx.framePointer saved.toPayload)
  let w ← w.update h fun r => { r with toPayload := release m size }
  return { w with pool := ← w.pool.linkAllChecked saved.link (h :: tail) }

/-- The returns among some records, each of which is read. -/
def returnsChecked (pool : Pool) : List Handle → Except Fault (List Handle)
  | [] => .ok []
  | h :: rest => do
    let r ← pool.get h
    let returns ← returnsChecked pool rest
    return if r.op = .ret then h :: returns else returns

/-- Adds a frame as `expand` does, with every access checked. -/
def expandChecked (m : Mode) (w : Workspace) (s : Symbol) : Except Fault (Workspace × Symbol) :=
  match s.text with
  | none => .ok (w, s)
  | some head =>
    if s.frameSize = 0 then .ok (w, s)
    else do
      let returns ← returnsChecked w.pool (← w.pool.chain (some head))
      let w ← returns.foldlM (expandReturnChecked m s.frameSize) w
      let (entry, w) ← newRecordsChecked w (prologue m w.ctx.framePointer s.frameSize)
      let w := { w with pool := ← w.pool.linkAllChecked (some head) entry }
      return (w.note .debug (summary s entry returns), { s with text := entry.head? })

theorem newRecordChecked_eq (w : Workspace) (p : Payload) : newRecordChecked w p = .ok (newRecord w p) := by
  have inside : w.alloc.1.index < w.alloc.2.pool.size := w.pool.issue_fst_lt w.ctx.id
  change (Except.bind (Workspace.update w.alloc.2 w.alloc.1 _) _ : Except Fault _) = _
  rw [Workspace.update_eq_ok inside]
  rfl

theorem newRecordsChecked_eq (w : Workspace) (ps : List Payload) :
    newRecordsChecked w ps = .ok (newRecords w ps) := by
  induction ps generalizing w with
  | nil => rfl
  | cons p ps ih =>
      rw [newRecordsChecked, newRecordChecked_eq]
      change (Except.bind (newRecordsChecked (newRecord w p).2 ps) _ : Except Fault _) = _
      rw [ih]
      rfl

theorem size_le_newRecords (w : Workspace) (ps : List Payload) :
    w.pool.size ≤ (newRecords w ps).2.pool.size := by
  induction ps generalizing w with
  | nil => exact Nat.le_refl _
  | cons p ps ih =>
      have one : w.pool.size ≤ (newRecord w p).2.pool.size := by
        change w.pool.size ≤ (Pool.modify w.alloc.2.pool w.alloc.1 _).size
        rw [Pool.size_modify]
        exact w.pool.size_le_issue w.ctx.id
      exact Nat.le_trans one (ih (newRecord w p).2)

theorem newRecords_inside (w : Workspace) (ps : List Payload) :
    ∀ h ∈ (newRecords w ps).1, h.index < (newRecords w ps).2.pool.size := by
  intro h met
  apply Pool.lt_size_of_lt_issued
  rw [newRecords_fst] at met
  rw [issued_newRecords]
  exact (mem_issuedFrom.mp met).2

section Returns

variable {m : Mode} {size : UInt32} {w : Workspace} {h : Handle}

theorem size_le_expandReturn : w.pool.size ≤ (expandReturn m size w h).pool.size := by
  rw [expandReturn, Pool.size_linkAll]
  change _ ≤ (Pool.modify _ h _).size
  rw [Pool.size_modify]
  exact size_le_newRecords w _

theorem expandReturnChecked_eq (inside : h.index < w.pool.size) :
    expandReturnChecked m size w h = .ok (expandReturn m size w h) := by
  set payloads := epilogueTail m w.ctx.framePointer (w.pool.record h).toPayload
  set w₁ := (newRecords w payloads).2
  set w₂ := w₁.modify h fun r => { r with toPayload := release m size }
  have inside₁ : h.index < w₁.pool.size := Nat.lt_of_lt_of_le inside (size_le_newRecords w payloads)
  have inside₂ : ∀ k ∈ h :: (newRecords w payloads).1, k.index < w₂.pool.size := by
    intro k met
    have same : w₂.pool.size = w₁.pool.size := Pool.size_modify ..
    rw [same]
    rcases List.mem_cons.mp met with rfl | met
    · exact inside₁
    · exact newRecords_inside w payloads k met
  rw [expandReturnChecked, Pool.get_eq_ok inside]
  change (Except.bind (newRecordsChecked w payloads) _ : Except Fault Workspace) = _
  rw [newRecordsChecked_eq]
  change (Except.bind (Workspace.update w₁ h _) _ : Except Fault Workspace) = _
  rw [Workspace.update_eq_ok inside₁]
  change (Except.bind (w₂.pool.linkAllChecked (w.pool.record h).link (h :: (newRecords w payloads).1)) _ :
    Except Fault Workspace) = _
  rw [Pool.linkAllChecked_eq inside₂]
  rfl

theorem foldlM_expandReturnChecked {hs : List Handle} (inside : ∀ h ∈ hs, h.index < w.pool.size) :
    hs.foldlM (expandReturnChecked m size) w = .ok (hs.foldl (expandReturn m size) w) := by
  induction hs generalizing w with
  | nil => rfl
  | cons h hs ih =>
      rw [List.foldlM_cons, expandReturnChecked_eq (inside h List.mem_cons_self)]
      apply ih
      intro k met
      exact Nat.lt_of_lt_of_le (inside k (List.mem_cons_of_mem h met)) size_le_expandReturn

theorem size_le_foldl_expandReturn (hs : List Handle) :
    w.pool.size ≤ (hs.foldl (expandReturn m size) w).pool.size := by
  induction hs generalizing w with
  | nil => exact Nat.le_refl _
  | cons h hs ih => exact Nat.le_trans size_le_expandReturn ih

theorem returnsChecked_eq {pool : Pool} {hs : List Handle} (inside : ∀ h ∈ hs, h.index < pool.size) :
    returnsChecked pool hs = .ok (hs.filter fun h => (pool.record h).op = .ret) := by
  induction hs with
  | nil => rfl
  | cons h hs ih =>
      rw [returnsChecked, Pool.get_eq_ok (inside h List.mem_cons_self),
        ih fun k met => inside k (List.mem_cons_of_mem h met), List.filter_cons]
      simp only [decide_eq_true_eq]
      rfl

end Returns

/-- With every access checked, adding a frame gives the same, and the same fault where the list cannot be
walked. -/
theorem expandChecked_eq (m : Mode) (w : Workspace) (s : Symbol) : expandChecked m w s = expand m w s := by
  rw [expandChecked, expand]
  cases s.text with
  | none => rfl
  | some head =>
      by_cases frameless : s.frameSize = 0
      · simp only [if_pos frameless]
      · simp only [if_neg frameless]
        cases chain : w.pool.chain (some head) with
        | error fault => rfl
        | ok hs =>
            have inside := Pool.index_lt_of_chain chain
            set returns := hs.filter fun h => (w.pool.record h).op = .ret
            set w₁ := returns.foldl (expandReturn m s.frameSize) w
            set entry := newRecords w₁ (prologue m w₁.ctx.framePointer s.frameSize) with entry_def
            have on : ∀ h ∈ returns, h.index < w.pool.size :=
              fun h met => inside h (List.mem_of_mem_filter met)
            change (Except.bind (returnsChecked w.pool hs) _ : Except Fault (Workspace × Symbol)) = _
            rw [returnsChecked_eq inside]
            change (Except.bind (returns.foldlM _ w) _ : Except Fault (Workspace × Symbol)) = _
            rw [foldlM_expandReturnChecked on]
            change (Except.bind (newRecordsChecked w₁ _) _ : Except Fault (Workspace × Symbol)) = _
            rw [newRecordsChecked_eq, ← entry_def]
            change (Except.bind (entry.2.pool.linkAllChecked (some head) entry.1) _ :
              Except Fault (Workspace × Symbol)) = _
            rw [Pool.linkAllChecked_eq (newRecords_inside w₁ _)]
            rfl

theorem size_le_expand {m : Mode} {w w' : Workspace} {s s' : Symbol} (expanded : expand m w s = .ok (w', s')) :
    w.pool.size ≤ w'.pool.size := by
  rw [expand] at expanded
  split at expanded
  · cases expanded
    exact Nat.le_refl _
  · split at expanded
    · cases expanded
      exact Nat.le_refl _
    · split at expanded
      · cases expanded
      · cases expanded
        change _ ≤ (Pool.linkAll _ _ _).size
        rw [Pool.size_linkAll]
        exact Nat.le_trans (size_le_foldl_expandReturn _) (size_le_newRecords _ _)

end Frame

namespace Assembly

/-- Writes offsets as `setOffsets` does, with every write checked. -/
def setOffsetsChecked (pool : Pool) (offsets : List (Handle × Nat)) : Except Fault Pool :=
  offsets.foldlM (fun pool (h, pc) => pool.update h fun r => { r with pc }) pool

theorem setOffsetsChecked_eq {pool : Pool} {offs : List (Handle × Nat)}
    (inside : ∀ x ∈ offs, x.1.index < pool.size) :
    setOffsetsChecked pool offs = .ok (setOffsets pool offs) := by
  induction offs generalizing pool with
  | nil => rfl
  | cons x offs ih =>
      obtain ⟨h, pc⟩ := x
      have here : h.index < pool.size := inside (h, pc) List.mem_cons_self
      simp only [setOffsetsChecked, List.foldlM_cons, Pool.update_eq_ok here]
      apply ih
      intro y met
      rw [Pool.size_modify]
      exact inside y (List.mem_cons_of_mem _ met)

/-- Encoding reads the records of a chain and writes the offsets of these records, and all of them are there. -/
theorem accesses_checked {pool : Pool} {a : Option Handle} {hs : List Handle} (chain : pool.chain a = .ok hs) :
    hs.mapM pool.get = .ok (hs.map pool.record) ∧
      ∀ ns, setOffsetsChecked pool (hs.zip ns) = .ok (setOffsets pool (hs.zip ns)) := by
  have inside := Pool.index_lt_of_chain chain
  refine ⟨Pool.mapM_get inside, fun ns => setOffsetsChecked_eq fun x met => ?_⟩
  exact inside x.1 (List.of_mem_zip met).1

end Assembly

/-- Backends only add slots, also when the list that they have added a frame to leads nowhere. -/
theorem IsBackend.keepsSlots {m : Mode} {backend : Backend} (known : IsBackend m backend) :
    backend.KeepsSlots := by
  intro w s w' fault run
  rw [known.assemble_eq, assemble] at run
  split at run
  · rw [← (Prod.mk.inj run).1]
  · rename_i w₁ s₁ expanded
    refine Nat.le_trans (size_le_expand expanded) ?_
    -- A frame may close a loop in the list, so the second walk can fault where the first did not.
    cases chain : w₁.pool.chain s₁.text with
    | error stuck =>
        rw [Assembly.assemble, chain] at run
        rw [← (Prod.mk.inj run).1]
    | ok hs =>
        obtain ⟨v, t, done, -⟩ := assemble_outcome m names chain
        rw [done] at run
        cases (Prod.mk.inj run).2

end InstrStream.X86
