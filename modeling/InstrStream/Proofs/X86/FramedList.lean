import InstrStream.Proofs.X86.FrameExpansion
import InstrStream.X86.Backend

/-! The list of a function with a frame, written out: the prologue, then the records as they were, each
return turned into the release of the frame and followed by the rest of its epilogue. Every handle on it
is known in advance, since records are issued in order: those of the epilogues first, return by return,
then those of the prologue. Adding a frame gives exactly this list and changes nothing else. -/
namespace InstrStream.X86.Frame

/-- `op src, dst` on whole words of the mode. -/
def native (m : Mode) (op : Width → Mnemonic) (src dst : Operand) : Payload :=
  { op := (op m.nativeWidth).opcode, src, reg := .none, dst, mark := 0 }

def isReturn (p : Pool) (h : Handle) : Bool := (p.record h).op = .ret

/-- Number of returns on a list before the record `h`. -/
def returnsBefore (p : Pool) (hs : List Handle) (h : Handle) : Nat :=
  (hs.takeWhile (· ≠ h)).countP (isReturn p)

/-- Number of records issued for each return. -/
def perReturn (framePointer : Bool) : Nat := if framePointer then 2 else 1

/-- Number of the first record issued for the return `h`. -/
def epilogueStart (w : Workspace) (hs : List Handle) (h : Handle) : Nat :=
  w.pool.issued + perReturn w.ctx.framePointer * returnsBefore w.pool hs h

/-- Number of the first record issued for the prologue. -/
def entryStart (w : Workspace) (hs : List Handle) : Nat :=
  w.pool.issued + perReturn w.ctx.framePointer * hs.countP (isReturn w.pool)

section Lists

variable (m : Mode) (size : UInt32)

/-- What stands in the place of a record, when the next record issued has number `n`. -/
def rewritten (framePointer : Bool) (p : Pool) (n : Nat) (h : Handle) : List (Handle × Payload) :=
  let old := (p.record h).toPayload
  if isReturn p h then
    (h, native m (.binary (.arith .add)) (.const (.ofNat size.toNat)) (.reg sp)) ::
      if framePointer then [(⟨n⟩, native m .pop .none (.reg bp)), (⟨n + 1⟩, old)] else [(⟨n⟩, old)]
  else [(h, old)]

/-- The prologue, when the next record issued has number `n`. -/
def entry (framePointer : Bool) (n : Nat) : List (Handle × Payload) :=
  let reserve := native m (.binary (.arith .sub)) (.const (.ofNat size.toNat)) (.reg sp)
  if framePointer then
    [(⟨n⟩, native m .push (.reg bp) .none), (⟨n + 1⟩, native m (.binary .mov) (.reg sp) (.reg bp)),
     (⟨n + 2⟩, reserve)]
  else [(⟨n⟩, reserve)]

/-- The list of a function with its frame, as a program. -/
def framedList (w : Workspace) (hs : List Handle) : List (Handle × Payload) :=
  entry m size w.ctx.framePointer (entryStart w hs) ++
    hs.flatMap fun h => rewritten m size w.ctx.framePointer w.pool (epilogueStart w hs h) h

end Lists

section Shape

variable (m : Mode) (size : UInt32) (fp : Bool) (p : Pool)

theorem length_epilogueTail (ret : Payload) : (epilogueTail m fp ret).length = perReturn fp := by
  cases fp <;> rfl

theorem zip_prologue (n : Nat) :
    (issuedFrom n (prologue m fp size).length).zip (prologue m fp size) = entry m size fp n := by
  cases fp <;> rfl

theorem rewritten_of_return {h : Handle} (ret : isReturn p h = true) (n : Nat) :
    rewritten m size fp p n h =
      (h, release m size) :: (issuedFrom n (epilogueTail m fp (p.record h).toPayload).length).zip
        (epilogueTail m fp (p.record h).toPayload) := by
  rw [rewritten, if_pos ret]
  cases fp <;> rfl

theorem rewritten_of_other {h : Handle} (other : isReturn p h = false) (n : Nat) :
    rewritten m size fp p n h = [(h, (p.record h).toPayload)] := by
  rw [rewritten, other]
  rfl

theorem length_rewritten (n : Nat) (h : Handle) :
    (rewritten m size fp p n h).length = 1 + perReturn fp * if isReturn p h then 1 else 0 := by
  cases ret : isReturn p h with
  | false =>
      rw [rewritten_of_other m size fp p ret]
      rfl
  | true =>
      rw [rewritten, if_pos ret]
      cases fp <;> rfl

theorem withEpilogues_cons (n : Nat) (h : Handle) (hs : List Handle) :
    withEpilogues m size fp n (p.program (h :: hs)) =
      rewritten m size fp p n h ++
        withEpilogues m size fp (n + perReturn fp * if isReturn p h then 1 else 0) (p.program hs) := by
  rw [Pool.program, List.map_cons, withEpilogues]
  by_cases ret : (p.record h).op = .ret
  · have isRet : isReturn p h = true := decide_eq_true ret
    rw [if_pos ret, rewritten_of_return m size fp p isRet, isRet, if_pos rfl, Nat.mul_one]
    simp only [length_epilogueTail]
    rfl
  · have other : isReturn p h = false := decide_eq_false ret
    rw [if_neg ret, rewritten_of_other m size fp p other, other]
    rfl

theorem returnsBefore_self (h : Handle) (hs : List Handle) : returnsBefore p (h :: hs) h = 0 := by
  rw [returnsBefore, List.takeWhile_cons_of_neg (by simp)]
  rfl

theorem returnsBefore_cons {h k : Handle} (hs : List Handle) (other : h ≠ k) :
    returnsBefore p (h :: hs) k = (if isReturn p h then 1 else 0) + returnsBefore p hs k := by
  rw [returnsBefore, List.takeWhile_cons_of_pos (by simpa using other), List.countP_cons, returnsBefore,
    Nat.add_comm]

/-- Counting the records issued on the way gives each return the number that its place among the returns
gives it. -/
theorem withEpilogues_eq_flatMap (n : Nat) (hs : List Handle) (distinct : hs.Nodup) :
    withEpilogues m size fp n (p.program hs) =
      hs.flatMap fun h => rewritten m size fp p (n + perReturn fp * returnsBefore p hs h) h := by
  induction hs generalizing n with
  | nil => rfl
  | cons h hs ih =>
      obtain ⟨off, distinct⟩ := List.nodup_cons.mp distinct
      rw [withEpilogues_cons, ih _ distinct, List.flatMap_cons, returnsBefore_self, Nat.mul_zero,
        Nat.add_zero]
      congr 1
      apply List.flatMap_congr
      intro k met
      have other : h ≠ k := by
        rintro rfl
        exact off met
      rw [returnsBefore_cons p hs other, Nat.mul_add, Nat.add_assoc]

theorem length_withEpilogues (n : Nat) (hs : List Handle) :
    (withEpilogues m size fp n (p.program hs)).length =
      hs.length + perReturn fp * hs.countP (isReturn p) := by
  induction hs generalizing n with
  | nil => rfl
  | cons h hs ih =>
      rw [withEpilogues_cons, List.length_append, length_rewritten, ih, List.countP_cons,
        List.length_cons, Nat.mul_add]
      omega

/-- The framed program is the list written out. -/
theorem framed_eq_framedList (w : Workspace) {hs : List Handle} (distinct : hs.Nodup)
    (hasFrame : size ≠ 0) (nonempty : hs ≠ []) :
    framed m size w.ctx.framePointer w.pool.issued (w.pool.program hs) = framedList m size w hs := by
  have notEmpty : ¬(size = 0 ∨ w.pool.program hs = []) := by
    rintro (zero | empty)
    · exact hasFrame zero
    · exact nonempty (List.map_eq_nil_iff.mp empty)
  have grown : (withEpilogues m size w.ctx.framePointer w.pool.issued (w.pool.program hs)).length -
      (w.pool.program hs).length =
        perReturn w.ctx.framePointer * hs.countP (isReturn w.pool) := by
    rw [length_withEpilogues, Pool.program, List.length_map, Nat.add_sub_cancel_left]
  rw [framed, if_neg notEmpty]
  simp only
  rw [grown, zip_prologue, withEpilogues_eq_flatMap m size _ w.pool _ hs distinct]
  rfl

end Shape

section Beyond

variable {m : Mode} {size : UInt32}

theorem le_issued_expandReturns (w : Workspace) (rs : List Handle)
    (issued : ∀ h ∈ rs, h.index < w.pool.issued) :
    w.pool.issued ≤ (rs.foldl (expandReturn m size) w).pool.issued := by
  induction rs generalizing w with
  | nil => exact Nat.le_refl _
  | cons h rs ih =>
      have step := (expandReturn_returned m size w h (issued h List.mem_cons_self)).issued
      have grows : w.pool.issued ≤ (expandReturn m size w h).pool.issued := by
        rw [step]
        exact Nat.le_add_right _ _
      apply Nat.le_trans grows
      apply ih
      intro k met
      exact Nat.lt_of_lt_of_le (issued k (List.mem_cons_of_mem h met)) grows

theorem get?_expandReturn_of_ge (w : Workspace) {h k : Handle} (issued : h.index < w.pool.issued)
    (beyond : (expandReturn m size w h).pool.issued ≤ k.index) :
    (expandReturn m size w h).pool.get? k = w.pool.get? k := by
  rw [(expandReturn_returned m size w h issued).issued] at beyond
  have other : h ≠ k := by
    rintro rfl
    omega
  have off : k ∉ issuedFrom w.pool.issued
      (epilogueTail m w.ctx.framePointer (w.pool.record h).toPayload).length := by
    intro met
    exact absurd (mem_issuedFrom.mp met).2 (Nat.not_lt.mpr beyond)
  simp only [expandReturn, Workspace.modify, newRecords_fst]
  rw [Pool.get?_linkAll_of_notMem _ _ _ (by simp [Ne.symm other, off]), Pool.get?_modify, if_neg other,
    get?_newRecords_of_notMem _ _ off]

theorem get?_expandReturns_of_ge (w : Workspace) (rs : List Handle) {k : Handle}
    (issued : ∀ h ∈ rs, h.index < w.pool.issued)
    (beyond : (rs.foldl (expandReturn m size) w).pool.issued ≤ k.index) :
    (rs.foldl (expandReturn m size) w).pool.get? k = w.pool.get? k := by
  induction rs generalizing w with
  | nil => rfl
  | cons h rs ih =>
      have issued_h := issued h List.mem_cons_self
      have grows : w.pool.issued ≤ (expandReturn m size w h).pool.issued :=
        le_issued_expandReturns w [h] (by simpa using issued_h)
      have issued_rest : ∀ k ∈ rs, k.index < (expandReturn m size w h).pool.issued := by
        intro k met
        exact Nat.lt_of_lt_of_le (issued k (List.mem_cons_of_mem h met)) grows
      have rest := ih (expandReturn m size w h) issued_rest beyond
      rw [List.foldl_cons, rest]
      apply get?_expandReturn_of_ge w issued_h
      exact Nat.le_trans (le_issued_expandReturns _ rs issued_rest) beyond

/-- Slots that were not reached by issuing records keep what they held. -/
theorem get?_expand_of_ge {w w' : Workspace} {s s' : Symbol} {hs : List Handle}
    (chain : w.pool.chain s.text = .ok hs) (issued : ∀ h ∈ hs, h.index < w.pool.issued)
    (expanded : expand m w s = .ok (w', s')) {k : Handle} (beyond : w'.pool.issued ≤ k.index) :
    w'.pool.get? k = w.pool.get? k := by
  rw [expand] at expanded
  split at expanded
  · cases expanded
    rfl
  · rename_i head text
    split at expanded
    · cases expanded
      rfl
    · rw [← text, chain] at expanded
      cases expanded
      simp only [Workspace.note, newRecords_fst, Pool.issued_linkAll, issued_newRecords] at beyond ⊢
      set rs := hs.filter fun h => (w.pool.record h).op = .ret with rs_def
      have issued_rs : ∀ h ∈ rs, h.index < w.pool.issued := fun h met =>
        issued h (List.mem_filter.mp met).1
      have off : ∀ ps : List Payload, (rs.foldl (expandReturn m s.frameSize) w).pool.issued + ps.length ≤
          k.index → k ∉ issuedFrom (rs.foldl (expandReturn m s.frameSize) w).pool.issued ps.length := by
        intro ps after met
        exact absurd (mem_issuedFrom.mp met).2 (Nat.not_lt.mpr after)
      rw [Pool.get?_linkAll_of_notMem _ _ _ (off _ beyond), get?_newRecords_of_notMem _ _ (off _ beyond)]
      apply get?_expandReturns_of_ge w rs issued_rs
      exact Nat.le_trans (Nat.le_add_right _ _) beyond

end Beyond

/-- What adding the frame of a symbol with the list `hs` leaves behind. -/
structure Framed (m : Mode) (w w' : Workspace) (s s' : Symbol) (hs : List Handle) : Prop where
  symbol : s' = { s with text := some ⟨entryStart w hs⟩ }
  walk : w'.pool.chain s'.text = .ok ((framedList m s.frameSize w hs).map Prod.fst)
  payloads : ∀ x ∈ framedList m s.frameSize w hs, (w'.pool.record x.1).toPayload = x.2
  distinct : ((framedList m s.frameSize w hs).map Prod.fst).Nodup
  issued : w'.pool.issued = entryStart w hs + if w.ctx.framePointer then 3 else 1
  new : ∀ k, w.pool.issued ≤ k.index → k.index < w'.pool.issued → ∃ payload link,
    w'.pool.get? k = some { toPayload := payload, owner := some w.ctx.id, link, pc := 0, linked := true }
  /-- A return gives up its payload and its link, and nothing else. -/
  returns : ∀ h ∈ hs, isReturn w.pool h = true → ∃ payload link,
    w'.pool.get? h = some { w.pool.record h with toPayload := payload, link }
  others : ∀ k, ¬ (w.pool.issued ≤ k.index ∧ k.index < w'.pool.issued) →
    (k ∈ hs → isReturn w.pool k = false) → w'.pool.get? k = w.pool.get? k
  context : w.ctx.Agrees w'.ctx

theorem head?_framedList (m : Mode) (size : UInt32) (w : Workspace) (hs : List Handle) :
    ((framedList m size w hs).map Prod.fst).head? = some ⟨entryStart w hs⟩ := by
  rw [framedList, entry]
  cases w.ctx.framePointer <;> rfl

theorem length_framedList (m : Mode) (size : UInt32) (w : Workspace) {hs : List Handle}
    (distinct : hs.Nodup) :
    w.pool.issued + (framedList m size w hs).length =
      entryStart w hs + (if w.ctx.framePointer then 3 else 1) + hs.length := by
  have body := length_withEpilogues m size w.ctx.framePointer w.pool w.pool.issued hs
  rw [withEpilogues_eq_flatMap m size _ w.pool _ hs distinct] at body
  have front : (entry m size w.ctx.framePointer (entryStart w hs)).length =
      if w.ctx.framePointer then 3 else 1 := by
    cases w.ctx.framePointer <;> rfl
  rw [framedList, List.length_append, front]
  simp only [epilogueStart, entryStart, body]
  omega

/-- Adding a frame to a list of issued records gives the list written out. -/
theorem expand_framed (m : Mode) (w : Workspace) (s : Symbol) {hs : List Handle}
    (chain : w.pool.chain s.text = .ok hs) (issued : ∀ h ∈ hs, h.index < w.pool.issued)
    (nonempty : hs ≠ []) (hasFrame : s.frameSize ≠ 0) :
    ∃ w' s', expand m w s = .ok (w', s') ∧ Framed m w w' s s' hs := by
  have distinct := (Pool.chain_eq_ok_iff.mp chain).nodup
  obtain ⟨w', text, expanded, spliced⟩ := expand_spliced m w s hs chain issued
  rw [framed_eq_framedList m s.frameSize w distinct hasFrame nonempty] at spliced
  obtain rfl := spliced.path.head_eq (head?_framedList m s.frameSize w hs)
  have count := spliced.count
  have length := length_framedList m s.frameSize w distinct
  refine ⟨w', _, expanded, rfl, Pool.chain_eq_ok_iff.mpr spliced.path, spliced.payloads,
    spliced.path.nodup, by omega, spliced.new, ?_, ?_, spliced.ctx⟩
  · intro h met _
    obtain ⟨payload, link, found⟩ := spliced.changed h (issued h met)
    rw [Pool.get?_eq_some_record (Pool.lt_size_of_lt_issued (issued h met)), Option.map_some] at found
    exact ⟨payload, link, found⟩
  · intro k notNew notRet
    by_cases old : k.index < w.pool.issued
    · apply spliced.kept k old
      intro met
      exact of_decide_eq_false (notRet met)
    · apply get?_expand_of_ge chain issued expanded
      omega

/-- Adding a frame produces exactly the specified list and changes nothing else. Without a frame or
without records nothing changes at all. -/
theorem frame_expansion_exact (m : Mode) (w : Workspace) (s : Symbol) :
    (s.frameSize = 0 ∨ s.text = none → expand m w s = .ok (w, s)) ∧
      ∀ hs, w.pool.chain s.text = .ok hs → (∀ h ∈ hs, h.index < w.pool.issued) → hs ≠ [] →
        s.frameSize ≠ 0 → ∃ w' s', expand m w s = .ok (w', s') ∧ Framed m w w' s s' hs := by
  constructor
  · intro without
    rw [expand]
    cases text : s.text with
    | none => rfl
    | some head =>
        rcases without with zero | none
        · simp only [if_pos zero]
        · rw [text] at none
          cases none
  · intro hs chain issued nonempty hasFrame
    exact expand_framed m w s chain issued nonempty hasFrame

/-- A list that starts and ends with a return, in a block with two slots left. -/
def returning : Workspace where
  ctx := { id := ⟨0⟩, target := amd64Target, framePointer := true }
  pool :=
    { block := #[
        { op := .ret, owner := some ⟨0⟩, link := some ⟨1⟩, linked := true },
        { op := .nop, owner := some ⟨0⟩, link := some ⟨2⟩, linked := true },
        { op := .ret, src := .const 8, mark := 7, owner := some ⟨0⟩, linked := true }, {}, {}]
      used := 3
      extra := #[]
      used_le := by decide
      full_of_extra := by decide }

def returningSymbol : Symbol := { name := "returning", text := some ⟨0⟩, frameSize := 16 }

/-- The epilogue of the first return takes what is left of the block. -/
theorem frame_expansion_returning :
    ∃ w' s', expand .bits64 returning returningSymbol = .ok (w', s') ∧
      w'.pool.chain s'.text = .ok [⟨7⟩, ⟨8⟩, ⟨9⟩, ⟨0⟩, ⟨3⟩, ⟨4⟩, ⟨1⟩, ⟨2⟩, ⟨5⟩, ⟨6⟩] ∧
      (w'.pool.record ⟨6⟩).toPayload = { op := .ret, src := .const 8, mark := 7 } ∧
      w'.pool.get? ⟨1⟩ = returning.pool.get? ⟨1⟩ := by
  obtain ⟨w', s', expanded, framed⟩ := (frame_expansion_exact .bits64 returning returningSymbol).2
    [⟨0⟩, ⟨1⟩, ⟨2⟩] rfl (by decide) (by decide) (by decide)
  exact ⟨w', s', expanded, framed.walk, framed.payloads (⟨6⟩, _) (by decide),
    framed.others ⟨1⟩ (fun new => absurd new.1 (by decide)) fun _ => rfl⟩

end InstrStream.X86.Frame
