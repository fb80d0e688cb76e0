import InstrStream.Proofs.X86.FramedList

/-! Frames on lists that may meet slots not issued yet. Such a slot is part of the list as far as links
go, and adding a frame may issue it for a record of its own. If no epilogue takes a slot of the list,
the list stays finite exactly if the prologue takes none either: otherwise the prologue leads to the
list, and the list back to the prologue. -/
namespace InstrStream

namespace Pool

variable {p : Pool} {a b : Option Handle} {hs ks : List Handle}

/-- A list that ends goes on to its end from every place that it arrives at. -/
theorem Path.resume (front : p.Path a hs b) (whole : p.Path a ks none) :
    ∃ rest, ks = hs ++ rest ∧ p.Path b rest none := by
  induction front generalizing ks with
  | stop a => exact ⟨ks, rfl, whole⟩
  | visit found _ ih =>
      cases whole with
      | visit found' whole =>
          obtain rfl := Option.some.inj (found.symm.trans found')
          obtain ⟨rest, rfl, path⟩ := ih whole
          exact ⟨rest, rfl, path⟩

end Pool

namespace X86.Frame

/-- The handles that the epilogues of a list are issued. -/
def epilogueHandles (w : Workspace) (hs : List Handle) : List Handle :=
  issuedFrom w.pool.issued (perReturn w.ctx.framePointer * hs.countP (isReturn w.pool))

/-- The handles that the prologue of a list is issued, after all epilogues. -/
def prologueHandles (m : Mode) (size : UInt32) (w : Workspace) (hs : List Handle) : List Handle :=
  issuedFrom (entryStart w hs) (prologue m w.ctx.framePointer size).length

variable (m : Mode) (size : UInt32)

theorem mem_issuedFrom_add {n j k : Nat} {h : Handle} :
    h ∈ issuedFrom n (k + j) ↔ h ∈ issuedFrom n j ∨ h ∈ issuedFrom (n + j) k := by
  simp only [mem_issuedFrom]
  omega

section Return

variable (w : Workspace) (h : Handle)

theorem pool_expandReturn : (expandReturn m size w h).pool =
    ((newRecords w (epilogueTail m w.ctx.framePointer (w.pool.record h).toPayload)).2.pool.modify h
      fun r => { r with toPayload := release m size }).linkAll (w.pool.record h).link
        (h :: issuedFrom w.pool.issued (perReturn w.ctx.framePointer)) := by
  simp only [expandReturn, Workspace.modify]
  rw [newRecords_fst, length_epilogueTail]

theorem framePointer_expandReturn :
    (expandReturn m size w h).ctx.framePointer = w.ctx.framePointer := by
  have agrees := agrees_newRecords w (epilogueTail m w.ctx.framePointer (w.pool.record h).toPayload)
  change (newRecords w _).2.ctx.framePointer = _
  rw [agrees]

theorem issued_expandReturn : (expandReturn m size w h).pool.issued =
    w.pool.issued + perReturn w.ctx.framePointer := by
  rw [pool_expandReturn, Pool.issued_linkAll, Pool.issued_modify, issued_newRecords,
    length_epilogueTail]

variable {w h}

/-- The expansion of a return touches the return and the slots that it is issued. -/
theorem get?_expandReturn {k : Handle} (other : k ≠ h)
    (off : k ∉ issuedFrom w.pool.issued (perReturn w.ctx.framePointer)) :
    (expandReturn m size w h).pool.get? k = w.pool.get? k := by
  have notLinked : k ∉ h :: issuedFrom w.pool.issued (perReturn w.ctx.framePointer) :=
    fun met => (List.mem_cons.mp met).elim other off
  rw [pool_expandReturn, Pool.get?_linkAll_of_notMem _ _ _ notLinked, Pool.get?_modify,
    if_neg other.symm, get?_newRecords_of_notMem _ _ (by rwa [length_epilogueTail])]

/-- A return that is not issued again leads through its epilogue to where it led before. -/
theorem path_expandReturn (inside : h.index < w.pool.size)
    (off : h ∉ issuedFrom w.pool.issued (perReturn w.ctx.framePointer)) :
    (expandReturn m size w h).pool.Path (some h)
      (h :: issuedFrom w.pool.issued (perReturn w.ctx.framePointer)) (w.pool.record h).link := by
  rw [pool_expandReturn]
  refine Pool.path_linkAll _ _ h _ (List.nodup_cons.mpr ⟨off, nodup_issuedFrom _ _⟩) ?_
  intro k met
  rw [Pool.size_modify]
  rcases List.mem_cons.mp met with rfl | met
  · rw [← Pool.get?_eq_some_iff_lt, get?_newRecords_of_notMem _ _ (by rwa [length_epilogueTail]),
      Pool.get?_eq_some_iff_lt]
    exact inside
  · apply Pool.lt_size_of_lt_issued
    rw [issued_newRecords, length_epilogueTail]
    exact (mem_issuedFrom.mp met).2

end Return

/-- The list `hs` became `list`, its returns followed by the records that were issued for them. -/
structure Rejoined (w w' : Workspace) (a : Option Handle) (hs list : List Handle) : Prop where
  framePointer : w'.ctx.framePointer = w.ctx.framePointer
  issued : w'.pool.issued = entryStart w hs
  kept : ∀ k, k ∉ hs → k ∉ epilogueHandles w hs → w'.pool.get? k = w.pool.get? k
  path : w'.pool.Path a list none
  members : ∀ k, k ∈ list ↔ k ∈ hs ∨ k ∈ epilogueHandles w hs

section Steps

variable {w w' : Workspace} {h : Handle} {hs list : List Handle}

theorem isReturn_congr {p q : Pool} (same : q.get? h = p.get? h) : isReturn q h = isReturn p h := by
  rw [isReturn, Pool.record_congr same, isReturn]

theorem map_fst_withEpilogues_cons (is_ret : isReturn w.pool h = true) {fp : Bool} {n : Nat} :
    (withEpilogues m size fp n (w.pool.program (h :: hs))).map Prod.fst =
      h :: issuedFrom n (perReturn fp) ++
        (withEpilogues m size fp (n + perReturn fp) (w.pool.program hs)).map Prod.fst := by
  rw [withEpilogues_cons, rewritten_of_return m size fp w.pool is_ret, if_pos is_ret, Nat.mul_one,
    List.map_append, List.map_cons, map_fst_zip_issuedFrom, length_epilogueTail]

/-- A record that is no return stays in front of its list. -/
theorem Rejoined.cons (rest : Rejoined w w' (w.pool.record h).link hs list)
    (other : isReturn w.pool h = false) (inside : h.index < w.pool.size) (off : h ∉ hs)
    (apart : h ∉ epilogueHandles w hs) : Rejoined w w' (some h) (h :: hs) (h :: list) := by
  have count : (h :: hs).countP (isReturn w.pool) = hs.countP (isReturn w.pool) :=
    List.countP_cons_of_neg (by simp [other])
  have handles : epilogueHandles w (h :: hs) = epilogueHandles w hs := by
    rw [epilogueHandles, count, epilogueHandles]
  have found : w'.pool.get? h = some (w.pool.record h) :=
    (rest.kept h off apart).trans (Pool.get?_eq_some_record inside)
  refine ⟨rest.framePointer, ?_, ?_, .visit found rest.path, ?_⟩
  · rw [rest.issued, entryStart, entryStart, count]
  · intro k away
    rw [handles]
    exact rest.kept k fun met => away (List.mem_cons_of_mem h met)
  · intro k
    rw [handles, List.mem_cons, List.mem_cons, rest.members, or_assoc]

theorem mem_epilogueHandles_cons (is_ret : isReturn w.pool h = true)
    (same : hs.countP (isReturn (expandReturn m size w h).pool) = hs.countP (isReturn w.pool))
    {k : Handle} :
    k ∈ epilogueHandles w (h :: hs) ↔
      k ∈ issuedFrom w.pool.issued (perReturn w.ctx.framePointer) ∨
        k ∈ epilogueHandles (expandReturn m size w h) hs := by
  rw [epilogueHandles, List.countP_cons_of_pos is_ret, Nat.mul_succ, mem_issuedFrom_add,
    epilogueHandles, same, issued_expandReturn, framePointer_expandReturn]

/-- A return and its epilogue stay in front of the list, unless the list meets a slot that is issued. -/
theorem Rejoined.cons_return
    (rest : Rejoined (expandReturn m size w h) w' (w.pool.record h).link hs list)
    (is_ret : isReturn w.pool h = true) (inside : h.index < w.pool.size) (off : h ∉ hs)
    (same : hs.countP (isReturn (expandReturn m size w h).pool) = hs.countP (isReturn w.pool))
    (apart : ∀ k ∈ h :: hs, k ∉ epilogueHandles w (h :: hs)) :
    Rejoined w w' (some h) (h :: hs)
      (h :: issuedFrom w.pool.issued (perReturn w.ctx.framePointer) ++ list) := by
  have split {k : Handle} := mem_epilogueHandles_cons (k := k) m size is_ret same
  have tail_off {k : Handle} (met : k ∈ issuedFrom w.pool.issued (perReturn w.ctx.framePointer)) :
      k ∉ hs ∧ k ∉ epilogueHandles (expandReturn m size w h) hs := by
    refine ⟨fun on => apart k (List.mem_cons_of_mem h on) (split.mpr (.inl met)), fun later => ?_⟩
    have below := (mem_issuedFrom.mp met).2
    have above := (mem_issuedFrom.mp later).1
    rw [issued_expandReturn] at above
    omega
  obtain ⟨h_tail, h_later⟩ := not_or.mp fun met => apart h List.mem_cons_self (split.mpr met)
  refine ⟨?_, ?_, ?_, ?_, ?_⟩
  · rw [rest.framePointer, framePointer_expandReturn]
  · rw [rest.issued, entryStart, entryStart, same, issued_expandReturn, framePointer_expandReturn,
      List.countP_cons_of_pos is_ret, Nat.mul_succ]
    omega
  · intro k away new
    obtain ⟨other, k_off⟩ := not_or.mp fun met => away (List.mem_cons.mpr met)
    obtain ⟨k_tail, k_later⟩ := not_or.mp fun met => new (split.mpr met)
    rw [rest.kept k k_off k_later, get?_expandReturn m size other k_tail]
  · have front : w'.pool.Path (some h)
        (h :: issuedFrom w.pool.issued (perReturn w.ctx.framePointer)) (w.pool.record h).link := by
      refine (path_expandReturn m size inside h_tail).congr fun k met => ?_
      rcases List.mem_cons.mp met with rfl | met
      · rw [rest.kept k off h_later]
      · rw [rest.kept k (tail_off met).1 (tail_off met).2]
    exact front.append rest.path
  · intro k
    rw [split, List.mem_append, List.mem_cons, List.mem_cons, rest.members]
    tauto

end Steps

/-- The expansion of all returns on a list that meets no slot issued for an epilogue. The induction
follows the list: the step at its head leaves the rest as it was. -/
theorem expandReturns_rejoined (w : Workspace) (a : Option Handle) (hs : List Handle)
    (path : w.pool.Path a hs none) (apart : ∀ h ∈ hs, h ∉ epilogueHandles w hs) :
    Rejoined w ((hs.filter (isReturn w.pool)).foldl (expandReturn m size) w) a hs
      ((withEpilogues m size w.ctx.framePointer w.pool.issued (w.pool.program hs)).map Prod.fst) := by
  induction hs generalizing w a with
  | nil =>
      cases path
      exact ⟨rfl, rfl, fun _ _ _ => rfl, .stop none, fun k => by
        simp [epilogueHandles, issuedFrom, withEpilogues, Pool.program]⟩
  | cons h hs ih =>
      obtain ⟨off, -⟩ := List.nodup_cons.mp path.nodup
      have inside := path.index_lt List.mem_cons_self
      cases path with
      | visit found rest =>
          obtain rfl := Pool.record_eq_of_get? found
          cases is_ret : isReturn w.pool h with
          | true =>
              have kept : ∀ k ∈ hs, (expandReturn m size w h).pool.get? k = w.pool.get? k := by
                intro k met
                refine get?_expandReturn m size (fun eq => off (eq ▸ met)) fun new => ?_
                apply apart k (List.mem_cons_of_mem h met)
                rw [epilogueHandles, List.countP_cons_of_pos is_ret, Nat.mul_succ, mem_issuedFrom_add]
                exact .inl new
              have count : hs.countP (isReturn (expandReturn m size w h).pool) =
                  hs.countP (isReturn w.pool) :=
                List.countP_congr fun k met => by rw [isReturn_congr (kept k met)]
              have returns : hs.filter (isReturn (expandReturn m size w h).pool) =
                  hs.filter (isReturn w.pool) :=
                List.filter_congr fun k met => isReturn_congr (kept k met)
              have program : (expandReturn m size w h).pool.program hs = w.pool.program hs :=
                List.map_congr_left fun k met => by rw [Pool.record_congr (kept k met)]
              have tail := ih (expandReturn m size w h) _
                (rest.congr fun k met => by rw [kept k met])
                (fun k met later => apart k (List.mem_cons_of_mem h met)
                  ((mem_epilogueHandles_cons m size is_ret count).mpr (.inr later)))
              rw [returns, program, framePointer_expandReturn, issued_expandReturn] at tail
              rw [List.filter_cons_of_pos is_ret, List.foldl_cons, map_fst_withEpilogues_cons m size is_ret]
              exact tail.cons_return m size is_ret inside off count apart
          | false =>
              have apart' : ∀ k ∈ h :: hs, k ∉ epilogueHandles w hs := by
                intro k met
                rw [epilogueHandles, ← List.countP_cons_of_neg (by simp [is_ret] : ¬ isReturn w.pool h)]
                exact apart k met
              have tail := ih w _ rest fun k met => apart' k (List.mem_cons_of_mem h met)
              rw [List.filter_cons_of_neg (by simp [is_ret]), withEpilogues_cons,
                rewritten_of_other m size _ w.pool is_ret, is_ret]
              exact tail.cons is_ret inside off (apart' h List.mem_cons_self)

/-- New records in front of a finite list keep it finite exactly if they are none of its own. If they
are, following links never leaves the loop through them. -/
theorem path_enter_iff {w : Workspace} {ps : List Payload} (nonempty : ps ≠ []) {head : Handle}
    {body list : List Handle} (path : w.pool.Path (some head) body none) :
    ((newRecords w ps).2.pool.linkAll (some head) (issuedFrom w.pool.issued ps.length)).Path
        (issuedFrom w.pool.issued ps.length).head? list none ↔
      (∀ k ∈ body, k ∉ issuedFrom w.pool.issued ps.length) ∧
        list = issuedFrom w.pool.issued ps.length ++ body := by
  have entry := path_newRecords w ps (some head) nonempty
  have kept : ∀ k, k ∉ issuedFrom w.pool.issued ps.length →
      ((newRecords w ps).2.pool.linkAll (some head) (issuedFrom w.pool.issued ps.length)).get? k =
        w.pool.get? k := by
    intro k off
    rw [Pool.get?_linkAll_of_notMem _ _ _ off, get?_newRecords_of_notMem _ _ off]
  constructor
  · intro whole
    obtain ⟨rest, rfl, back⟩ := entry.resume whole
    -- What follows the new records meets none of them again, so it is the list as it was.
    have off : ∀ k ∈ rest, k ∉ issuedFrom w.pool.issued ps.length :=
      fun k later first => (List.disjoint_of_nodup_append whole.nodup) first later
    obtain rfl := path.unique (back.congr fun k met => by rw [kept k (off k met)])
    exact ⟨off, rfl⟩
  · rintro ⟨off, rfl⟩
    exact entry.append (path.congr fun k met => by rw [kept k (off k met)])

section Expand

variable {w w₁ : Workspace} {s : Symbol} {a : Option Handle} {head : Handle} {hs list : List Handle}

theorem expand_unframed (unframed : s.frameSize = 0 ∨ s.text = none) : expand m w s = .ok (w, s) := by
  rw [expand]
  cases text : s.text with
  | none => rfl
  | some head =>
      rw [text] at unframed
      exact if_pos (unframed.resolve_right (Option.some_ne_none head))

/-- Adding a frame: the returns are expanded one after another, then the prologue goes in front. -/
theorem exists_expand (text : s.text = some head) (frame : s.frameSize ≠ 0)
    (chain : w.pool.chain s.text = .ok hs)
    (expanded : w₁ = (hs.filter (isReturn w.pool)).foldl (expandReturn m s.frameSize) w) :
    ∃ w', expand m w s = .ok (w', { s with text :=
        (newRecords w₁ (prologue m w₁.ctx.framePointer s.frameSize)).1.head? }) ∧
      w'.pool = (newRecords w₁ (prologue m w₁.ctx.framePointer s.frameSize)).2.pool.linkAll (some head)
        (newRecords w₁ (prologue m w₁.ctx.framePointer s.frameSize)).1 := by
  subst expanded
  rw [text] at chain
  simp only [expand, text, if_neg frame, chain]
  exact ⟨_, rfl, rfl⟩

theorem Rejoined.prologueHandles_eq (body : Rejoined w w₁ a hs list) :
    prologueHandles m size w hs =
      issuedFrom w₁.pool.issued (prologue m w₁.ctx.framePointer size).length := by
  rw [prologueHandles, body.issued, body.framePointer]

/-- The epilogues are issued before the prologue, so only the old list can meet it. -/
theorem Rejoined.apart_iff (body : Rejoined w w₁ a hs list) :
    (∀ k ∈ list, k ∉ prologueHandles m size w hs) ↔ ∀ h ∈ hs, h ∉ prologueHandles m size w hs := by
  constructor
  · exact fun apart h met => apart h ((body.members h).mpr (.inl met))
  · intro apart k met
    rcases (body.members k).mp met with met | met
    · exact apart k met
    · intro later
      have below := (mem_issuedFrom.mp met).2
      have above := (mem_issuedFrom.mp later).1
      rw [entryStart] at above
      omega

theorem map_fst_framed (frame : size ≠ 0) (nonempty : hs ≠ []) :
    (framed m size w.ctx.framePointer w.pool.issued (w.pool.program hs)).map Prod.fst =
      prologueHandles m size w hs ++
        (withEpilogues m size w.ctx.framePointer w.pool.issued (w.pool.program hs)).map Prod.fst := by
  have not_empty : ¬(size = 0 ∨ w.pool.program hs = []) := by
    rintro (zero | empty)
    · exact frame zero
    · exact nonempty (List.map_eq_nil_iff.mp empty)
  have length : (w.pool.program hs).length = hs.length := List.length_map _
  rw [framed, if_neg not_empty]
  simp only [length_withEpilogues, length, Nat.add_sub_cancel_left, List.map_append,
    map_fst_zip_issuedFrom, prologueHandles, entryStart]

/-- Adding a frame to a finite list, no slot of which an epilogue takes, leaves a finite list exactly
if the prologue takes none of its slots either. The list is then the prologue and the old list with its
epilogues. -/
theorem finite_list_stays_finite_iff (chain : w.pool.chain s.text = .ok hs)
    (apart : s.frameSize ≠ 0 → ∀ h ∈ hs, h ∉ epilogueHandles w hs) :
    ∃ w' text', expand m w s = .ok (w', { s with text := text' }) ∧
      ∀ list, w'.pool.chain text' = .ok list ↔
        (s.frameSize ≠ 0 → ∀ h ∈ hs, h ∉ prologueHandles m s.frameSize w hs) ∧
          list = (framed m s.frameSize w.ctx.framePointer w.pool.issued
            (w.pool.program hs)).map Prod.fst := by
  have path := Pool.chain_eq_ok_iff.mp chain
  by_cases unframed : s.frameSize = 0 ∨ s.text = none
  · have empty : s.text = none → hs = [] := by
      intro none_eq
      rw [none_eq] at path
      cases path
      rfl
    have same : framed m s.frameSize w.ctx.framePointer w.pool.issued (w.pool.program hs) =
        w.pool.program hs := if_pos (unframed.imp_right fun none_eq => by rw [empty none_eq]; rfl)
    have free : s.frameSize ≠ 0 → ∀ h ∈ hs, h ∉ prologueHandles m s.frameSize w hs := by
      intro frame h met
      rw [empty (unframed.resolve_left frame)] at met
      cases met
    refine ⟨w, s.text, expand_unframed m unframed, fun list => ?_⟩
    rw [same, map_fst_program, chain, Except.ok.injEq, and_iff_right free, eq_comm]
  · obtain ⟨frame, present⟩ := not_or.mp unframed
    obtain ⟨head, text⟩ := Option.ne_none_iff_exists'.mp present
    have nonempty : hs ≠ [] := by
      rintro rfl
      rw [text] at path
      cases path
    rw [text] at path
    have body := expandReturns_rejoined m s.frameSize w _ hs path (apart frame)
    obtain ⟨w', run, pool⟩ := exists_expand m text frame chain rfl
    refine ⟨w', _, run, fun list => ?_⟩
    rw [newRecords_fst] at pool ⊢
    rw [Pool.chain_eq_ok_iff, pool, path_enter_iff (prologue_ne_nil _ _ _) body.path,
      ← body.prologueHandles_eq, body.apart_iff, map_fst_framed m s.frameSize frame nonempty,
      imp_iff_right frame]

end Expand

/-- One issued record at the start of a block, linked to a slot of it that is not issued. -/
def linkedAhead (capacity : Nat) (op : Opcode) (slot : Nat) : Workspace where
  ctx := { id := ⟨0⟩, target := i386Target }
  pool := ((Pool.ofCapacity capacity).issue ⟨0⟩).2.modify ⟨0⟩ fun r =>
    { r with op, link := some ⟨slot⟩, linked := true }

def aheadSymbol : Symbol := { name := "ahead", text := some ⟨0⟩, frameSize := 16 }

/-- A return linked to a slot that is not issued for the frame: the slot ends the list as before. -/
theorem finite_list_stays_finite_ahead :
    (linkedAhead 8 .ret 7).pool.chain aheadSymbol.text = .ok [⟨0⟩, ⟨7⟩] ∧
      ∃ w' text', expand .bits32 (linkedAhead 8 .ret 7) aheadSymbol =
          .ok (w', { aheadSymbol with text := text' }) ∧
        w'.pool.chain text' = .ok [⟨2⟩, ⟨0⟩, ⟨1⟩, ⟨7⟩] := by
  have chain : (linkedAhead 8 .ret 7).pool.chain aheadSymbol.text = .ok [⟨0⟩, ⟨7⟩] := rfl
  obtain ⟨w', text', run, ends_iff⟩ :=
    finite_list_stays_finite_iff .bits32 chain fun _ => by decide
  exact ⟨chain, w', text', run, (ends_iff _).mpr ⟨fun _ => by decide, rfl⟩⟩

/-- A record linked to the slot that is issued next: the prologue takes the slot, and the list of two
records becomes an endless one. -/
theorem endless_when_prologue_on_list :
    (linkedAhead 4 .nop 1).pool.chain aheadSymbol.text = .ok [⟨0⟩, ⟨1⟩] ∧
      ∃ w' s', expand .bits32 (linkedAhead 4 .nop 1) aheadSymbol = .ok (w', s') ∧
        ∀ list, ¬ w'.pool.Path s'.text list none := by
  refine ⟨rfl, _, _, rfl, fun list path => ?_⟩
  have ends := Pool.chain_eq_ok_iff.mpr path
  cases ends

end X86.Frame

end InstrStream
