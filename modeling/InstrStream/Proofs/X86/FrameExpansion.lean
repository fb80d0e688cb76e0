import InstrStream.Proofs.Chain
import InstrStream.X86.Frame

/-! What adding a frame does to a list. The list before and after is compared as a program: its handles
with their payloads, in order. Records off the list keep everything, and no record that was issued
before gets another owner or offset. -/
namespace InstrStream

/-- The contexts differ in their journals and their counts of single records only. -/
def Context.Agrees (c d : Context) : Prop :=
  d = { c with journal := d.journal, individual := d.individual }

theorem Context.Agrees.refl (c : Context) : c.Agrees c := rfl

theorem Context.Agrees.trans {c d e : Context} (first : c.Agrees d) (second : d.Agrees e) :
    c.Agrees e := by
  unfold Agrees at *
  rw [second, first]

theorem Context.agrees_note (c : Context) (level : Level) (message : String) :
    c.Agrees (c.note level message) := rfl

theorem Workspace.agrees_alloc (w : Workspace) : w.ctx.Agrees w.alloc.2.ctx := by
  simp only [alloc, overflowed]
  split
  · exact .refl _
  · split <;> rfl

/-- The records of a list with what they say, in order. -/
def Pool.program (p : Pool) (hs : List Handle) : List (Handle × Payload) :=
  hs.map fun h => (h, (p.record h).toPayload)

namespace X86.Frame

variable (m : Mode) (size : UInt32) (fp : Bool)

/-- The handles of so many records issued one after another, from number `n` on. -/
def issuedFrom (n k : Nat) : List Handle := (List.range' n k).map Handle.mk

/-- A record with a payload of the frame. -/
def made (id : ContextId) (p : Payload) : Record :=
  { Record.fresh id with toPayload := p, linked := true }

/-- A program whose returns have become epilogues, when the next record issued has number `n`. -/
def withEpilogues : Nat → List (Handle × Payload) → List (Handle × Payload)
  | _, [] => []
  | n, (h, p) :: rest =>
    if p.op = .ret then
      let tail := epilogueTail m fp p
      (h, release m size) :: (issuedFrom n tail.length).zip tail ++ withEpilogues (n + tail.length) rest
    else (h, p) :: withEpilogues n rest

theorem length_issuedFrom (n k : Nat) : (issuedFrom n k).length = k := by
  simp only [issuedFrom, List.length_map, List.length_range']

theorem mem_issuedFrom {n k : Nat} {h : Handle} :
    h ∈ issuedFrom n k ↔ n ≤ h.index ∧ h.index < n + k := by
  simp only [issuedFrom, List.mem_map, List.mem_range'_1]
  constructor
  · rintro ⟨i, bounds, rfl⟩
    exact bounds
  · intro bounds
    exact ⟨h.index, bounds, rfl⟩

theorem nodup_issuedFrom (n k : Nat) : (issuedFrom n k).Nodup :=
  (List.nodup_range' 1).map fun _ _ same => congrArg Handle.index same

theorem issuedFrom_succ (n k : Nat) : issuedFrom n (k + 1) = ⟨n⟩ :: issuedFrom (n + 1) k := by
  rw [issuedFrom, List.range'_succ, List.map_cons, issuedFrom]

theorem newRecord_fst (w : Workspace) (p : Payload) : (newRecord w p).1 = ⟨w.pool.issued⟩ := w.alloc_fst

theorem issued_newRecord (w : Workspace) (p : Payload) :
    (newRecord w p).2.pool.issued = w.pool.issued + 1 := by
  simp only [newRecord, Workspace.alloc, Workspace.modify, Pool.issued_modify, Pool.issued_issue]

theorem get?_newRecord (w : Workspace) (p : Payload) (k : Handle) :
    (newRecord w p).2.pool.get? k =
      if k = ⟨w.pool.issued⟩ then some (made w.ctx.id p) else w.pool.get? k := by
  rcases k with ⟨i⟩
  simp only [newRecord, Workspace.alloc, Workspace.modify, Pool.get?_modify, Pool.get?_issue,
    Pool.issue_fst, Handle.mk.injEq]
  by_cases same : i = w.pool.issued
  · subst same
    simp only [if_true, Option.map_some, made]
  · rw [if_neg fun eq => same eq.symm, if_neg same, if_neg same]

theorem agrees_newRecord (w : Workspace) (p : Payload) : w.ctx.Agrees (newRecord w p).2.ctx :=
  w.agrees_alloc

theorem newRecords_fst (w : Workspace) (ps : List Payload) :
    (newRecords w ps).1 = issuedFrom w.pool.issued ps.length := by
  induction ps generalizing w with
  | nil => rfl
  | cons p ps ih =>
      rw [newRecords, List.length_cons, issuedFrom_succ, ← issued_newRecord w p, ← ih, ← newRecord_fst w p]

theorem issued_newRecords (w : Workspace) (ps : List Payload) :
    (newRecords w ps).2.pool.issued = w.pool.issued + ps.length := by
  induction ps generalizing w with
  | nil => rfl
  | cons p ps ih =>
      have rest := ih (newRecord w p).2
      rw [issued_newRecord] at rest
      rw [newRecords, List.length_cons]
      exact rest.trans (by omega)

theorem agrees_newRecords (w : Workspace) (ps : List Payload) :
    w.ctx.Agrees (newRecords w ps).2.ctx := by
  induction ps generalizing w with
  | nil => exact .refl _
  | cons p ps ih => exact (agrees_newRecord w p).trans (ih (newRecord w p).2)

theorem get?_newRecords_of_notMem (w : Workspace) (ps : List Payload) {k : Handle}
    (off : k ∉ issuedFrom w.pool.issued ps.length) :
    (newRecords w ps).2.pool.get? k = w.pool.get? k := by
  induction ps generalizing w with
  | nil => rfl
  | cons p ps ih =>
      rw [List.length_cons, issuedFrom_succ, List.mem_cons, not_or] at off
      have rest := ih (newRecord w p).2 (by rw [issued_newRecord]; exact off.2)
      rw [get?_newRecord, if_neg off.1] at rest
      exact rest

theorem get?_newRecords_of_lt (w : Workspace) (ps : List Payload) {k : Handle}
    (old : k.index < w.pool.issued) : (newRecords w ps).2.pool.get? k = w.pool.get? k := by
  apply get?_newRecords_of_notMem
  intro met
  exact absurd (mem_issuedFrom.mp met).1 (Nat.not_le.mpr old)

theorem get?_newRecords (w : Workspace) (ps : List Payload) {i : Nat} {p : Payload}
    (at_i : ps[i]? = some p) :
    (newRecords w ps).2.pool.get? ⟨w.pool.issued + i⟩ = some (made w.ctx.id p) := by
  induction ps generalizing w i with
  | nil => simp at at_i
  | cons q ps ih =>
      change (newRecords (newRecord w q).2 ps).2.pool.get? _ = _
      have same : (newRecord w q).2.ctx.id = w.ctx.id := by rw [agrees_newRecord w q]
      cases i with
      | zero =>
          obtain rfl := Option.some.inj at_i
          have below : w.pool.issued < (newRecord w q).2.pool.issued := by
            rw [issued_newRecord]
            exact Nat.lt_succ_self _
          rw [Nat.add_zero, get?_newRecords_of_lt (newRecord w q).2 ps (k := ⟨w.pool.issued⟩) below,
            get?_newRecord, if_pos rfl]
      | succ i =>
          have rest := ih (newRecord w q).2 at_i
          rw [issued_newRecord, same] at rest
          rw [← rest, Nat.add_right_comm, Nat.add_assoc]

/-- What the expansion of the return `h` leaves behind. -/
structure Returned (w w' : Workspace) (h : Handle) : Prop where
  ctx : w.ctx.Agrees w'.ctx
  issued : w'.pool.issued =
    w.pool.issued + (epilogueTail m w.ctx.framePointer (w.pool.record h).toPayload).length
  kept : ∀ k, k ≠ h → k.index < w.pool.issued → w'.pool.get? k = w.pool.get? k
  released : ∃ link, w'.pool.get? h = some { w.pool.record h with toPayload := release m size, link }
  tail : ∀ i p, (epilogueTail m w.ctx.framePointer (w.pool.record h).toPayload)[i]? = some p →
    ∃ link, w'.pool.get? ⟨w.pool.issued + i⟩ = some { made w.ctx.id p with link }
  path : w'.pool.Path (some h)
    (h :: issuedFrom w.pool.issued
      (epilogueTail m w.ctx.framePointer (w.pool.record h).toPayload).length) (w.pool.record h).link

theorem expandReturn_returned (w : Workspace) (h : Handle) (issued : h.index < w.pool.issued) :
    Returned m size w (expandReturn m size w h) h := by
  set payloads := epilogueTail m w.ctx.framePointer (w.pool.record h).toPayload with payloads_def
  set tail := issuedFrom w.pool.issued payloads.length with tail_def
  set w₁ := (newRecords w payloads).2 with w₁_def
  set pool := w₁.pool.modify h fun r => { r with toPayload := release m size } with pool_def
  have result : expandReturn m size w h =
      { w₁ with pool := pool.linkAll (w.pool.record h).link (h :: tail) } := by
    simp only [expandReturn, Workspace.modify]
    rw [← payloads_def, newRecords_fst]
  have issued₁ : w₁.pool.issued = w.pool.issued + payloads.length := issued_newRecords w payloads
  have notTail : ∀ k : Handle, k.index < w.pool.issued → k ∉ tail := by
    intro k old met
    have := (mem_issuedFrom.mp met).1
    omega
  have get_h : pool.get? h = some { w.pool.record h with toPayload := release m size } := by
    rw [pool_def, Pool.get?_modify, if_pos rfl, w₁_def, get?_newRecords_of_lt _ _ issued,
      Pool.get?_eq_some_record (Pool.lt_size_of_lt_issued issued), Option.map_some]
  rw [result]
  refine ⟨agrees_newRecords w payloads, ?_, ?_, ?_, ?_, ?_⟩
  · rw [Pool.issued_linkAll, pool_def, Pool.issued_modify, issued₁]
  · intro k other old
    have off : k ∉ h :: tail := fun met => (List.mem_cons.mp met).elim other (notTail k old)
    rw [Pool.get?_linkAll_of_notMem _ _ _ off, pool_def, Pool.get?_modify,
      if_neg fun same => other same.symm, w₁_def, get?_newRecords_of_lt _ _ old]
  · obtain ⟨link, changed⟩ := pool.get?_linkAll (w.pool.record h).link (h :: tail) h
    exact ⟨link, by rw [changed, get_h, Option.map_some]⟩
  · intro i p at_i
    obtain ⟨link, changed⟩ := pool.get?_linkAll (w.pool.record h).link (h :: tail) ⟨w.pool.issued + i⟩
    refine ⟨link, ?_⟩
    have other : h ≠ ⟨w.pool.issued + i⟩ := by
      rintro rfl
      exact absurd issued (by simp only [Nat.not_lt]; omega)
    rw [changed, pool_def, Pool.get?_modify, if_neg other, w₁_def, get?_newRecords w payloads at_i,
      Option.map_some]
  · refine pool.path_linkAll _ h tail (List.nodup_cons.mpr ⟨notTail h issued, nodup_issuedFrom _ _⟩) ?_
    intro k met
    apply Pool.lt_size_of_lt_issued
    rw [pool_def, Pool.issued_modify, issued₁]
    rcases List.mem_cons.mp met with rfl | met
    · omega
    · exact (mem_issuedFrom.mp met).2

/-- What the expansion of all returns on a list leaves behind. `text` is the list as a program. -/
structure Spliced (w w' : Workspace) (a : Option Handle) (hs : List Handle)
    (text : List (Handle × Payload)) : Prop where
  ctx : w.ctx.Agrees w'.ctx
  grows : w.pool.issued ≤ w'.pool.issued
  count : w'.pool.issued + hs.length = w.pool.issued + text.length
  kept : ∀ k, k.index < w.pool.issued → (k ∈ hs → (w.pool.record k).op ≠ .ret) →
    w'.pool.get? k = w.pool.get? k
  changed : ∀ k, k.index < w.pool.issued →
    ∃ payload link, w'.pool.get? k = (w.pool.get? k).map fun r => { r with toPayload := payload, link }
  new : ∀ k, w.pool.issued ≤ k.index → k.index < w'.pool.issued →
    ∃ payload link, w'.pool.get? k = some { made w.ctx.id payload with link }
  path : w'.pool.Path a (text.map Prod.fst) none
  payloads : ∀ x ∈ text, (w'.pool.record x.1).toPayload = x.2
  members : ∀ x ∈ text, x.1.index < w'.pool.issued

theorem mem_zip_issuedFrom {n : Nat} {ps : List Payload} {x : Handle × Payload}
    (met : x ∈ (issuedFrom n ps.length).zip ps) : ∃ i, x.1 = ⟨n + i⟩ ∧ ps[i]? = some x.2 := by
  induction ps generalizing n with
  | nil => simp at met
  | cons p ps ih =>
      rw [List.length_cons, issuedFrom_succ, List.zip_cons_cons] at met
      rcases List.mem_cons.mp met with rfl | met
      · exact ⟨0, rfl, rfl⟩
      · obtain ⟨i, handle, payload⟩ := ih met
        refine ⟨i + 1, ?_, payload⟩
        rw [handle, Nat.add_right_comm, Nat.add_assoc]

theorem map_fst_zip_issuedFrom (n : Nat) (ps : List Payload) :
    ((issuedFrom n ps.length).zip ps).map Prod.fst = issuedFrom n ps.length :=
  List.map_fst_zip (Nat.le_of_eq (length_issuedFrom _ _))

variable {m size}

theorem Returned.new {w w' : Workspace} {h : Handle} (step : Returned m size w w' h)
    {x : Handle × Payload} {tail : List Payload}
    (tail_def : tail = epilogueTail m w.ctx.framePointer (w.pool.record h).toPayload)
    (met : x ∈ (issuedFrom w.pool.issued tail.length).zip tail) :
    w.pool.issued ≤ x.1.index ∧ x.1.index < w'.pool.issued ∧ (w'.pool.record x.1).toPayload = x.2 := by
  obtain ⟨i, handle, payload⟩ := mem_zip_issuedFrom met
  obtain ⟨inside, -⟩ := List.getElem?_eq_some_iff.mp payload
  subst tail_def
  obtain ⟨link, found⟩ := step.tail i _ payload
  rw [handle, step.issued]
  exact ⟨Nat.le_add_right _ _, by simp only; omega, by rw [Pool.record_eq_of_get? found]; rfl⟩

theorem Returned.exists_made {w w' : Workspace} {h k : Handle} (step : Returned m size w w' h)
    (from_here : w.pool.issued ≤ k.index) (below : k.index < w'.pool.issued) :
    ∃ payload link, w'.pool.get? k = some { made w.ctx.id payload with link } := by
  obtain ⟨i, index⟩ := Nat.exists_eq_add_of_le from_here
  rw [step.issued, index] at below
  have at_i := List.getElem?_eq_getElem (Nat.lt_of_add_lt_add_left below)
  obtain ⟨link, found⟩ := step.tail i _ at_i
  rw [← index] at found
  exact ⟨_, link, found⟩

theorem Spliced.nil (w : Workspace) : Spliced w w none [] [] := by
  refine ⟨.refl _, Nat.le_refl _, rfl, fun _ _ _ => rfl, ?_, ?_, .stop none, ?_, ?_⟩
  · intro k old
    refine ⟨(w.pool.record k).toPayload, (w.pool.record k).link, ?_⟩
    rw [Pool.get?_eq_some_record (Pool.lt_size_of_lt_issued old), Option.map_some]
  · intro k from_here below
    exact absurd below (Nat.not_lt.mpr from_here)
  · intro x met
    cases met
  · intro x met
    cases met

/-- A record that is no return stays in front of the expanded rest of its list. -/
theorem Spliced.cons {w w' : Workspace} {h : Handle} {hs : List Handle}
    {text : List (Handle × Payload)} (tail : Spliced w w' (w.pool.record h).link hs text)
    (issued : h.index < w.pool.issued) (off : h ∉ hs) :
    Spliced w w' (some h) (h :: hs) ((h, (w.pool.record h).toPayload) :: text) := by
  have same := tail.kept h issued fun met => absurd met off
  have found := Pool.get?_eq_some_record (Pool.lt_size_of_lt_issued issued)
  refine ⟨tail.ctx, tail.grows, congrArg (· + 1) tail.count, ?_, tail.changed, tail.new,
    .visit (same.trans found) tail.path, ?_, ?_⟩
  · intro k old notRet
    exact tail.kept k old fun met => notRet (List.mem_cons_of_mem h met)
  · intro x met
    rcases List.mem_cons.mp met with rfl | met
    · exact congrArg Record.toPayload (Pool.record_congr same)
    · exact tail.payloads x met
  · intro x met
    rcases List.mem_cons.mp met with rfl | met
    · exact Nat.lt_of_lt_of_le issued tail.grows
    · exact tail.members x met

/-- A return and its epilogue stay in front of the expanded rest of the list, because the records of
the rest are others. -/
theorem Returned.cons {w w₁ w' : Workspace} {h : Handle} {hs : List Handle}
    {text : List (Handle × Payload)} {tail : List Payload} (step : Returned m size w w₁ h)
    (rest : Spliced w₁ w' (w.pool.record h).link hs text) (issued : h.index < w.pool.issued)
    (isRet : (w.pool.record h).op = .ret) (off : h ∉ hs)
    (issued_rest : ∀ k ∈ hs, k.index < w.pool.issued)
    (tail_def : tail = epilogueTail m w.ctx.framePointer (w.pool.record h).toPayload) :
    Spliced w w' (some h) (h :: hs)
      ((h, release m size) :: (issuedFrom w.pool.issued tail.length).zip tail ++ text) := by
  have grows : w.pool.issued ≤ w₁.pool.issued := by
    rw [step.issued]
    exact Nat.le_add_right _ _
  have kept_new : ∀ k, k ∉ hs → k.index < w₁.pool.issued → w'.pool.get? k = w₁.pool.get? k :=
    fun k away below => rest.kept k below fun met => absurd met away
  have new_off : ∀ k, w.pool.issued ≤ k.index → k ∉ hs :=
    fun k new met => absurd (issued_rest k met) (Nat.not_lt.mpr new)
  have kept_h := kept_new h off (Nat.lt_of_lt_of_le issued grows)
  refine ⟨step.ctx.trans rest.ctx, Nat.le_trans grows rest.grows, ?_, ?_, ?_, ?_, ?_, ?_, ?_⟩
  · have count := rest.count
    rw [step.issued, ← tail_def] at count
    simp only [List.length_append, List.length_cons, List.length_zip, length_issuedFrom, Nat.min_self]
    omega
  · intro k old notRet
    have other : k ≠ h := by
      rintro rfl
      exact notRet List.mem_cons_self isRet
    have same := step.kept k other old
    refine (rest.kept k (Nat.lt_of_lt_of_le old grows) fun met => ?_).trans same
    rw [Pool.record_congr same]
    exact notRet (List.mem_cons_of_mem h met)
  · intro k old
    by_cases same : k = h
    · subst same
      obtain ⟨link, found⟩ := step.released
      refine ⟨release m size, link, ?_⟩
      rw [kept_h, found, Pool.get?_eq_some_record (Pool.lt_size_of_lt_issued issued), Option.map_some]
    · obtain ⟨payload, link, found⟩ := rest.changed k (Nat.lt_of_lt_of_le old grows)
      exact ⟨payload, link, by rw [found, step.kept k same old]⟩
  · intro k from_here below
    by_cases before : k.index < w₁.pool.issued
    · obtain ⟨payload, link, found⟩ := step.exists_made from_here before
      exact ⟨payload, link, (kept_new k (new_off k from_here) before).trans found⟩
    · obtain ⟨payload, link, found⟩ := rest.new k (Nat.le_of_not_lt before) below
      rw [step.ctx] at found
      exact ⟨payload, link, found⟩
  · have front : w'.pool.Path (some h) (h :: issuedFrom w.pool.issued tail.length)
        (w.pool.record h).link := by
      rw [tail_def]
      refine step.path.congr fun k met => ?_
      rcases List.mem_cons.mp met with rfl | met
      · rw [kept_h]
      · obtain ⟨new, below⟩ := mem_issuedFrom.mp met
        rw [kept_new k (new_off k new) (by rw [step.issued]; exact below)]
    simpa only [List.map_append, List.map_cons, map_fst_zip_issuedFrom] using front.append rest.path
  · intro x met
    rcases List.mem_append.mp met with met | met
    · rcases List.mem_cons.mp met with rfl | met
      · obtain ⟨link, found⟩ := step.released
        rw [Pool.record_eq_of_get? (kept_h.trans found)]
      · obtain ⟨new, below, payload⟩ := step.new tail_def met
        rw [Pool.record_congr (kept_new x.1 (new_off x.1 new) below), payload]
    · exact rest.payloads x met
  · intro x met
    rcases List.mem_append.mp met with met | met
    · rcases List.mem_cons.mp met with rfl | met
      · exact Nat.lt_of_lt_of_le issued (Nat.le_trans grows rest.grows)
      · exact Nat.lt_of_lt_of_le (step.new tail_def met).2.1 rest.grows
    · exact rest.members x met

variable (m size)

/-- The expansion of all returns on a list, by induction along the list: the step at its head leaves
the rest of the list as it was. -/
theorem expandReturns_spliced (w : Workspace) (a : Option Handle) (hs : List Handle)
    (path : w.pool.Path a hs none) (issued : ∀ h ∈ hs, h.index < w.pool.issued) :
    Spliced w
      ((hs.filter fun h => (w.pool.record h).op = .ret).foldl (expandReturn m size) w) a hs
      (withEpilogues m size w.ctx.framePointer w.pool.issued (w.pool.program hs)) := by
  induction hs generalizing w a with
  | nil =>
      cases path
      exact .nil w
  | cons h hs ih =>
      obtain ⟨off, -⟩ := List.nodup_cons.mp path.nodup
      have issued_h := issued h List.mem_cons_self
      have issued_rest : ∀ k ∈ hs, k.index < w.pool.issued :=
        fun k met => issued k (List.mem_cons_of_mem h met)
      cases path with
      | visit found rest =>
          obtain rfl := Pool.record_eq_of_get? found
          by_cases isRet : (w.pool.record h).op = .ret
          · have step := expandReturn_returned m size w h issued_h
            have same : ∀ k ∈ hs, (expandReturn m size w h).pool.get? k = w.pool.get? k :=
              fun k met => step.kept k (fun eq => off (eq ▸ met)) (issued_rest k met)
            have tail := ih (expandReturn m size w h) _
              (rest.congr fun k met => by rw [same k met])
              (fun k met => by rw [step.issued]; exact Nat.lt_add_right _ (issued_rest k met))
            have returns : (hs.filter fun k => ((expandReturn m size w h).pool.record k).op = .ret) =
                hs.filter fun k => (w.pool.record k).op = .ret :=
              List.filter_congr fun k met => by rw [Pool.record_congr (same k met)]
            have program : (expandReturn m size w h).pool.program hs = w.pool.program hs :=
              List.map_congr_left fun k met => by rw [Pool.record_congr (same k met)]
            have framePointer : (expandReturn m size w h).ctx.framePointer = w.ctx.framePointer := by
              rw [step.ctx]
            rw [returns, program, framePointer, step.issued] at tail
            rw [List.filter_cons_of_pos (by simpa using isRet), List.foldl_cons]
            simpa only [Pool.program, List.map_cons, withEpilogues, if_pos isRet] using
              step.cons tail issued_h isRet off issued_rest rfl
          · rw [List.filter_cons_of_neg (by simpa using isRet)]
            simpa only [Pool.program, List.map_cons, withEpilogues, if_neg isRet] using
              (ih w _ rest issued_rest).cons issued_h off

/-- A program with its frame, when the next record issued has number `n`. -/
def framed (n : Nat) (text : List (Handle × Payload)) : List (Handle × Payload) :=
  if size = 0 ∨ text = [] then text
  else
    let entry := prologue m fp size
    let body := withEpilogues m size fp n text
    (issuedFrom (n + (body.length - text.length)) entry.length).zip entry ++ body

theorem map_fst_program (p : Pool) (hs : List Handle) : (p.program hs).map Prod.fst = hs := by
  simp only [Pool.program, List.map_map]
  exact List.map_id hs

theorem Spliced.refl (w : Workspace) (a : Option Handle) (hs : List Handle)
    (path : w.pool.Path a hs none) (issued : ∀ h ∈ hs, h.index < w.pool.issued) :
    Spliced w w a hs (w.pool.program hs) := by
  refine ⟨.refl _, Nat.le_refl _, by simp only [Pool.program, List.length_map], fun _ _ _ => rfl,
    (Spliced.nil w).changed, (Spliced.nil w).new, ?_, ?_, ?_⟩
  · rw [map_fst_program]
    exact path
  · intro x met
    obtain ⟨h, -, rfl⟩ := List.mem_map.mp met
    rfl
  · intro x met
    obtain ⟨h, on, rfl⟩ := List.mem_map.mp met
    exact issued h on

section Entry

variable (w : Workspace) (ps : List Payload) (next : Option Handle)

theorem get?_linkAll_newRecords_of_lt {k : Handle} (old : k.index < w.pool.issued) :
    ((newRecords w ps).2.pool.linkAll next (issuedFrom w.pool.issued ps.length)).get? k =
      w.pool.get? k := by
  have off : k ∉ issuedFrom w.pool.issued ps.length :=
    fun met => absurd (mem_issuedFrom.mp met).1 (Nat.not_le.mpr old)
  rw [Pool.get?_linkAll_of_notMem _ _ _ off, get?_newRecords_of_lt _ _ old]

theorem exists_link_newRecords {i : Nat} {p : Payload} (at_i : ps[i]? = some p) :
    ∃ link, ((newRecords w ps).2.pool.linkAll next (issuedFrom w.pool.issued ps.length)).get?
      ⟨w.pool.issued + i⟩ = some { made w.ctx.id p with link } := by
  obtain ⟨link, found⟩ := (newRecords w ps).2.pool.get?_linkAll next
    (issuedFrom w.pool.issued ps.length) ⟨w.pool.issued + i⟩
  rw [get?_newRecords _ _ at_i, Option.map_some] at found
  exact ⟨link, found⟩

theorem path_newRecords (nonempty : ps ≠ []) :
    ((newRecords w ps).2.pool.linkAll next (issuedFrom w.pool.issued ps.length)).Path
      (issuedFrom w.pool.issued ps.length).head? (issuedFrom w.pool.issued ps.length) next := by
  obtain ⟨first, rest, cons_eq⟩ := List.exists_cons_of_ne_nil nonempty
  have head_eq : issuedFrom w.pool.issued ps.length =
      ⟨w.pool.issued⟩ :: issuedFrom (w.pool.issued + 1) rest.length := by
    rw [cons_eq, List.length_cons, issuedFrom_succ]
  have distinct := nodup_issuedFrom w.pool.issued ps.length
  have inside : ∀ k ∈ issuedFrom w.pool.issued ps.length,
      k.index < (newRecords w ps).2.pool.size := by
    intro k met
    apply Pool.lt_size_of_lt_issued
    rw [issued_newRecords]
    exact (mem_issuedFrom.mp met).2
  rw [head_eq] at distinct inside ⊢
  exact (newRecords w ps).2.pool.path_linkAll _ _ _ distinct inside

end Entry

/-- New records put in front of an expanded list. -/
theorem Spliced.enter {w w₁ : Workspace} {head : Handle} {hs : List Handle}
    {text : List (Handle × Payload)} (body : Spliced w w₁ (some head) hs text) {entry : List Payload}
    (nonempty : entry ≠ []) :
    Spliced w
      { (newRecords w₁ entry).2 with
        pool := (newRecords w₁ entry).2.pool.linkAll (some head) (newRecords w₁ entry).1 }
      (newRecords w₁ entry).1.head? hs
      ((issuedFrom w₁.pool.issued entry.length).zip entry ++ text) := by
  have issued₂ := issued_newRecords w₁ entry
  rw [newRecords_fst]
  have kept : ∀ k : Handle, k.index < w₁.pool.issued → _ :=
    fun k => get?_linkAll_newRecords_of_lt w₁ entry (some head)
  refine ⟨body.ctx.trans (agrees_newRecords _ _), ?_, ?_, ?_, ?_, ?_, ?_, ?_, ?_⟩
  · rw [Pool.issued_linkAll, issued₂]
    exact Nat.le_trans body.grows (Nat.le_add_right _ _)
  · have count := body.count
    rw [Pool.issued_linkAll, issued₂]
    simp only [List.length_append, List.length_zip, length_issuedFrom, Nat.min_self]
    omega
  · intro k old notRet
    rw [kept k (Nat.lt_of_lt_of_le old body.grows), body.kept k old notRet]
  · intro k old
    rw [kept k (Nat.lt_of_lt_of_le old body.grows)]
    exact body.changed k old
  · intro k from_here below
    by_cases before : k.index < w₁.pool.issued
    · rw [kept k before]
      exact body.new k from_here before
    · obtain ⟨i, index⟩ := Nat.exists_eq_add_of_le (Nat.le_of_not_lt before)
      rw [Pool.issued_linkAll, issued₂, index] at below
      have at_i := List.getElem?_eq_getElem (Nat.lt_of_add_lt_add_left below)
      obtain ⟨link, found⟩ := exists_link_newRecords w₁ entry (some head) at_i
      rw [body.ctx, ← index] at found
      exact ⟨_, link, found⟩
  · have back := body.path.congr fun k met => by
      obtain ⟨x, on, rfl⟩ := List.mem_map.mp met
      rw [kept x.1 (body.members x on)]
    rw [List.map_append, map_fst_zip_issuedFrom]
    exact (path_newRecords w₁ entry (some head) nonempty).append back
  · intro x met
    rcases List.mem_append.mp met with met | met
    · obtain ⟨i, handle, payload⟩ := mem_zip_issuedFrom met
      obtain ⟨link, found⟩ := exists_link_newRecords w₁ entry (some head) payload
      rw [handle, Pool.record_eq_of_get? found]
      rfl
    · rw [Pool.record_congr (kept x.1 (body.members x met)), body.payloads x met]
  · intro x met
    rw [Pool.issued_linkAll, issued₂]
    rcases List.mem_append.mp met with met | met
    · exact (mem_issuedFrom.mp (List.of_mem_zip met).1).2
    · exact Nat.lt_add_right _ (body.members x met)

theorem Spliced.note {w w' : Workspace} {a : Option Handle} {hs : List Handle}
    {text : List (Handle × Payload)} (done : Spliced w w' a hs text) (level : Level)
    (message : String) : Spliced w (w'.note level message) a hs text :=
  ⟨done.ctx.trans (Context.agrees_note _ _ _), done.grows, done.count, done.kept, done.changed,
    done.new, done.path, done.payloads, done.members⟩

theorem prologue_ne_nil : prologue m fp size ≠ [] :=
  List.append_ne_nil_of_right_ne_nil _ (List.cons_ne_nil _ _)

/-- Adding a frame to a list of issued records never faults, and it makes the program the framed one. -/
theorem expand_spliced (w : Workspace) (s : Symbol) (hs : List Handle)
    (chain : w.pool.chain s.text = .ok hs) (issued : ∀ h ∈ hs, h.index < w.pool.issued) :
    ∃ w' text', expand m w s = .ok (w', { s with text := text' }) ∧
      Spliced w w' text' hs
        (framed m s.frameSize w.ctx.framePointer w.pool.issued (w.pool.program hs)) := by
  have path := Pool.chain_eq_ok_iff.mp chain
  obtain ⟨name, text, frameSize, code⟩ := s
  cases text with
  | none =>
      cases path
      refine ⟨w, none, rfl, ?_⟩
      rw [framed, if_pos (.inr rfl)]
      exact .nil w
  | some head =>
      by_cases noFrame : frameSize = 0
      · refine ⟨w, some head, if_pos noFrame, ?_⟩
        rw [framed, if_pos (.inl noFrame)]
        exact .refl w _ hs path issued
      · have body := expandReturns_spliced m frameSize w _ hs path issued
        set w₁ := (hs.filter fun h => (w.pool.record h).op = .ret).foldl (expandReturn m frameSize) w
          with w₁_def
        have framePointer : w₁.ctx.framePointer = w.ctx.framePointer := by rw [body.ctx]
        have count := body.count
        have notEmpty : ¬(frameSize = 0 ∨ w.pool.program hs = []) := by
          rintro (zero | empty)
          · exact noFrame zero
          · obtain rfl := List.map_eq_nil_iff.mp empty
            cases path
        have next : w.pool.issued + ((withEpilogues m frameSize w.ctx.framePointer w.pool.issued
            (w.pool.program hs)).length - (w.pool.program hs).length) = w₁.pool.issued := by
          have grows := body.grows
          rw [Pool.program, List.length_map]
          rw [Pool.program] at count
          omega
        have whole := body.enter (prologue_ne_nil m frameSize w₁.ctx.framePointer)
        have text : framed m frameSize w.ctx.framePointer w.pool.issued (w.pool.program hs) =
            (issuedFrom w₁.pool.issued (prologue m w₁.ctx.framePointer frameSize).length).zip
                (prologue m w₁.ctx.framePointer frameSize) ++
              withEpilogues m frameSize w.ctx.framePointer w.pool.issued (w.pool.program hs) := by
          rw [framed, if_neg notEmpty]
          simp only
          rw [next, framePointer]
        refine ⟨_, _, ?_, (congrArg (Spliced w _ _ hs) text).mpr (whole.note .debug ?_)⟩
        · simp only [expand, if_neg noFrame, chain]
          rfl

end X86.Frame

end InstrStream
