import InstrStream.Proofs.ForeignHandles

/-! Accesses that cannot miss. A handle past every slot is a fault, but a handle that was met on a chain or that
was just issued has a slot, and no slot is ever given back. So linking records and appending to a list need not
check each access again: done with checks they give the same result and no fault. -/
namespace InstrStream

namespace Pool

variable {p : Pool} {a next : Option Handle} {hs : List Handle} {h : Handle}

theorem get_eq_ok (inside : h.index < p.size) : p.get h = .ok (p.record h) := by
  rw [get, get?_eq_some_record inside]

theorem update_eq_ok (inside : h.index < p.size) (f : Record → Record) :
    p.update h f = .ok (p.modify h f) := by
  rw [update_eq, if_pos inside]

theorem mapM_get (inside : ∀ h ∈ hs, h.index < p.size) : hs.mapM p.get = .ok (hs.map p.record) := by
  induction hs with
  | nil => rfl
  | cons h hs ih =>
      rw [List.mapM_cons, get_eq_ok (inside h List.mem_cons_self),
        ih fun k met => inside k (List.mem_cons_of_mem h met)]
      rfl

theorem index_lt_of_chain (chain : p.chain a = .ok hs) : ∀ h ∈ hs, h.index < p.size :=
  fun _ => (chain_eq_ok_iff.mp chain).index_lt

/-- Links as `linkAll` does, with every write checked. -/
def linkAllChecked (p : Pool) (next : Option Handle) : List Handle → Except Fault Pool
  | [] => .ok p
  | [h] => p.update h fun r => { r with link := next }
  | h :: k :: rest => do
    let p ← p.update h fun r => { r with link := some k }
    linkAllChecked p next (k :: rest)

theorem linkAllChecked_eq (inside : ∀ h ∈ hs, h.index < p.size) :
    p.linkAllChecked next hs = .ok (p.linkAll next hs) := by
  fun_induction linkAll p next hs with
  | case1 => rfl
  | case2 p h => exact update_eq_ok (inside h List.mem_cons_self) _
  | case3 p h k rest ih =>
      rw [linkAllChecked, update_eq_ok (inside h List.mem_cons_self)]
      apply ih
      intro l met
      rw [size_modify]
      exact inside l (List.mem_cons_of_mem h met)

end Pool

theorem Workspace.update_eq_ok {w : Workspace} {h : Handle} (inside : h.index < w.pool.size)
    (f : Record → Record) : w.update h f = .ok (w.modify h f) := by
  rw [update, Pool.update_eq_ok inside]
  rfl

/-- A backend that gives no slot back when it faults. -/
def Backend.KeepsSlots (backend : Backend) : Prop :=
  ∀ w s w' fault, backend.assemble w s = (w', .error fault) → w.pool.size ≤ w'.pool.size

namespace Builder

/-- Appends as `attach` does, with both writes checked. -/
def attachChecked (b : Builder) (h : Handle) : Except Fault Builder := do
  let workspace ← b.workspace.update h fun r => { r with linked := true, link := none }
  match b.last with
  | some last =>
    let workspace ← workspace.update last fun r => { r with link := some h }
    return { b with workspace, last := some h }
  | none => return { b with workspace, first := some h, last := some h }

def appendChecked (b : Builder) (h : Handle) : Except Fault Builder :=
  match b.refusal? h with
  | some fault => .error fault
  | none => b.attachChecked h

/-- As long as records can be appended, no slot is given back and the last record of the list has one. -/
def LastInside (b : Builder) : Prop :=
  b.phase = .constructed → b.backend.KeepsSlots ∧ ∀ h, b.last = some h → h.index < b.pool.size

variable {b : Builder} {h : Handle}

theorem attachChecked_eq (inside : h.index < b.pool.size)
    (last : ∀ l, b.last = some l → l.index < b.pool.size) : b.attachChecked h = .ok (b.attach h) := by
  rw [attachChecked, Workspace.update_eq_ok inside, attach]
  cases at_end : b.last with
  | none => rfl
  | some l =>
      have still : l.index < (b.workspace.modify h fun r => { r with linked := true, link := none }).pool.size := by
        rw [Workspace.modify, Pool.size_modify]
        exact last l at_end
      change (Except.bind (Workspace.update _ l _) _ : Except Fault Builder) = _
      rw [Workspace.update_eq_ok still]
      rfl

theorem inside_of_refusal?_eq_none (free : b.refusal? h = none) :
    b.phase = .constructed ∧ h.index < b.pool.size := by
  unfold refusal? at free
  split at free
  · cases free
  · cases free
  · rename_i r under found
    exact ⟨under, Pool.get?_eq_some_iff_lt.mp ⟨r, found⟩⟩

theorem appendChecked_eq (inside : b.LastInside) (h : Handle) : b.appendChecked h = b.append h := by
  rw [appendChecked, append]
  cases refusal : b.refusal? h with
  | some fault => rfl
  | none =>
      obtain ⟨under, present⟩ := inside_of_refusal?_eq_none refusal
      exact attachChecked_eq present (inside under).2

theorem backend_attach (b : Builder) (h : Handle) : (b.attach h).backend = b.backend := by
  unfold attach
  split <;> rfl

theorem size_attach (b : Builder) (h : Handle) : (b.attach h).pool.size = b.pool.size := by
  unfold attach
  split
  · exact (Pool.size_modify ..).trans (Pool.size_modify ..)
  · exact Pool.size_modify ..

/-- What no call but an append changes as long as the builder is under construction. -/
structure Keeps (b b' : Builder) : Prop where
  backend : b'.backend = b.backend
  last : b'.last = b.last
  slots : b.pool.size ≤ b'.pool.size

/-- An assembly that leaves the builder under construction has faulted. -/
theorem keeps_assemble (slots : b.backend.KeepsSlots) (under : b.phase = .constructed)
    (still : (b.call .assemble).1.phase = .constructed) : b.Keeps (b.call .assemble).1 := by
  simp only [call, assemble, under, runBackend] at still ⊢
  cases run : b.backend.assemble b.workspace b.symbol with
  | mk w result =>
      rw [run] at still
      cases result with
      | error fault => exact ⟨rfl, rfl, slots _ _ _ _ run⟩
      | ok s => cases still

theorem keeps_call (slots : b.backend.KeepsSlots) (under : b.phase = .constructed) {c : Call}
    (other : ∀ h, c ≠ .append h) (still : (b.call c).1.phase = .constructed) : b.Keeps (b.call c).1 := by
  cases c with
  | newRecord =>
      simp only [call, newRecord_eq under]
      exact ⟨rfl, rfl, b.pool.size_le_issue b.ctx.id⟩
  | append h => exact absurd rfl (other h)
  | update h f =>
      rw [call]
      split
      · rename_i b' run
        rw [eq_of_update run]
        exact ⟨rfl, rfl, (b.pool.size_modify h f).ge⟩
      · exact ⟨rfl, rfl, Nat.le_refl _⟩
  | setName _ | setFrameSize _ | setListener _ => exact ⟨rfl, rfl, Nat.le_refl _⟩
  | assemble => exact keeps_assemble slots under still
  | listing =>
      rw [call_listing_fst]
      exact ⟨rfl, rfl, Nat.le_refl _⟩

theorem LastInside.call (inside : b.LastInside) (c : Call) : (b.call c).1.LastInside := by
  intro still
  have under := constructed_of_call still
  obtain ⟨slots, last⟩ := inside under
  by_cases append : ∃ h, c = .append h
  · obtain ⟨h, rfl⟩ := append
    cases refusal : b.refusal? h with
    | none =>
        rw [call_append_of_free refusal]
        refine ⟨by rw [backend_attach]; exact slots, ?_⟩
        intro l at_end
        rw [last_attach, Option.some.injEq] at at_end
        rw [size_attach, ← at_end]
        exact (inside_of_refusal?_eq_none refusal).2
    | some cause =>
        rw [call_append_of_refusal refusal]
        exact ⟨slots, last⟩
  · have kept := keeps_call slots under (not_exists.mp append) still
    refine ⟨kept.backend ▸ slots, ?_⟩
    intro l at_end
    rw [kept.last] at at_end
    exact Nat.lt_of_lt_of_le (last l at_end) kept.slots

theorem LastInside.run (inside : b.LastInside) (calls : List Call) : (b.run calls).1.LastInside := by
  induction calls generalizing b with
  | nil => exact inside
  | cons c calls ih => exact ih (inside.call c)

/-- Appending never misses a slot, whatever was called before. -/
theorem appendChecked_run {registry : Registry} {arch : String} {capacity : Nat} {id : ContextId}
    (created : create registry arch capacity id = .ok b) (slots : b.backend.KeepsSlots) (calls : List Call)
    (h : Handle) : (b.run calls).1.appendChecked h = (b.run calls).1.append h := by
  have start : b.LastInside := by
    intro _
    refine ⟨slots, ?_⟩
    intro l at_end
    rw [create] at created
    split at created
    · cases created
    · cases created
      cases at_end
  exact appendChecked_eq (start.run calls) h

end Builder

end InstrStream
