import InstrStream.Proofs.X86.FramedList

/-! Control paths. Control goes from a record to the one it is linked to or to the one it jumps to, and a
route ends at the first return. In a function with a frame the routes are those of the function without,
with the prologue in front and an epilogue behind: this is a simulation in both directions, in which a
record that is no return matches itself and a return matches its whole epilogue. -/
namespace InstrStream.X86

/-- A jump, conditional or not, to the record `t`. -/
def JumpsTo (p : Payload) (t : Handle) : Prop :=
  p.dst = .branch t ∧ (p.op = .jmp ∨ ∃ c, Mnemonic.ofOpcode? p.op = some (.jump c))

/-- Control can go from the record `h` of a list to another. A jump off the list goes nowhere. Whether
control can run past an unconditional jump is left open: `passed` tells past which of them, such as those
that have no encoding and are left out, or all. -/
inductive Follows (passed : Payload → Prop) (pool : Pool) (hs : List Handle) (h : Handle) :
    Handle → Prop
  | next {k : Handle} :
      ((pool.record h).op = .jmp → passed (pool.record h).toPayload) → (pool.record h).link = some k →
      Follows passed pool hs h k
  | jump {t : Handle} : JumpsTo (pool.record h).toPayload t → t ∈ hs → Follows passed pool hs h t

/-- The records that control goes through on its way to a return, which is not one of them. -/
inductive Route (passed : Payload → Prop) (pool : Pool) (hs : List Handle) :
    Handle → List Handle → Handle → Prop
  | arrive {r : Handle} : r ∈ hs → (pool.record r).op = .ret → Route passed pool hs r [] r
  | step {h k r : Handle} {body : List Handle} :
      h ∈ hs → (pool.record h).op ≠ .ret → Follows passed pool hs h k → Route passed pool hs k body r →
      Route passed pool hs h (h :: body) r

theorem Mnemonic.toNat_opcode (mnemonic : Mnemonic) :
    mnemonic.opcode.code.toNat = Opcode.archBase.toNat + all.idxOf mnemonic := by
  have bound : all.idxOf mnemonic ≤ 83 := List.idxOf_le_length
  have base : Opcode.archBase.toNat = 64 := rfl
  rw [opcode, UInt16.toNat_add, UInt16.toNat_ofNat', base]
  omega

/-- No opcode of this backend is one of the generic ones. -/
theorem Mnemonic.isGeneric_opcode (mnemonic : Mnemonic) : mnemonic.opcode.isGeneric = false := by
  rw [Opcode.isGeneric, decide_eq_false_iff_not, UInt16.lt_iff_toNat_lt, toNat_opcode]
  omega

/-- Control only goes on to the next record. -/
def FallsThrough (p : Payload) : Prop := p.op ≠ .ret ∧ p.op ≠ .jmp ∧ p.dst.target? = none

variable {passed : Payload → Prop} {pool : Pool} {hs : List Handle}

/-- Control that is on a straight line runs to its end. -/
theorem route_iff_of_path {a b r : Handle} {ks body : List Handle} (path : pool.Path (some a) ks (some b))
    (straight : ∀ k ∈ ks, k ∈ hs ∧ FallsThrough (pool.record k).toPayload) :
    Route passed pool hs a body r ↔ ∃ rest, body = ks ++ rest ∧ Route passed pool hs b rest r := by
  induction ks generalizing a body with
  | nil =>
      cases path
      constructor
      · intro route
        exact ⟨body, rfl, route⟩
      · rintro ⟨rest, rfl, route⟩
        exact route
  | cons k ks ih =>
      obtain ⟨met, notRet, notJmp, noTarget⟩ := straight k List.mem_cons_self
      cases path with
      | @visit _ record _ _ found rest =>
          have same := Pool.record_eq_of_get? found
          obtain ⟨n, link⟩ := rest.exists_head
          rw [link] at rest
          have later : ∀ body, Route passed pool hs n body r ↔
              ∃ rest, body = ks ++ rest ∧ Route passed pool hs b rest r :=
            fun body => ih rest fun l on => straight l (List.mem_cons_of_mem k on)
          -- A record that falls through has its link as the only way out.
          constructor
          · intro route
            cases route with
            | arrive _ ret => exact absurd ret notRet
            | step _ _ follows route =>
                cases follows with
                | jump jumps =>
                    rw [jumps.1] at noTarget
                    cases noTarget
                | next _ leads =>
                    obtain rfl := Option.some.inj (link.symm.trans (same ▸ leads))
                    obtain ⟨rest, rfl, onward⟩ := (later _).mp route
                    exact ⟨rest, rfl, onward⟩
          · rintro ⟨rest, rfl, route⟩
            apply Route.step met notRet (.next ?_ (same ▸ link)) ((later _).mpr ⟨rest, rfl, route⟩)
            intro jmp
            exact absurd jmp notJmp

theorem Route.of_return {r c : Handle} {body : List Handle} (route : Route passed pool hs r body c)
    (ret : (pool.record r).op = .ret) : body = [] ∧ c = r := by
  cases route with
  | arrive => exact ⟨rfl, rfl⟩
  | step _ notRet => exact absurd ret notRet

theorem Route.end_isReturn {h r : Handle} {body : List Handle} (route : Route passed pool hs h body r) :
    r ∈ hs ∧ Frame.isReturn pool r = true := by
  induction route with
  | arrive met ret => exact ⟨met, decide_eq_true ret⟩
  | step _ _ _ _ ih => exact ih

theorem Route.body_ordinary {h r : Handle} {body : List Handle} (route : Route passed pool hs h body r) :
    ∀ k ∈ body, k ∈ hs ∧ Frame.isReturn pool k = false := by
  induction route with
  | arrive => exact nofun
  | step met notRet _ _ ih =>
      intro k on
      rcases List.mem_cons.mp on with rfl | on
      · exact ⟨met, decide_eq_false notRet⟩
      · exact ih k on

namespace Frame

/-- The epilogue of the return `h` up to the copy of the return, when the next record issued has number
`n`. -/
def exit (m : Mode) (size : UInt32) (framePointer : Bool) (n : Nat) (h : Handle) :
    List (Handle × Payload) :=
  (h, native m (.binary (.arith .add)) (.const (.ofNat size.toNat)) (.reg sp)) ::
    if framePointer then [(⟨n⟩, native m .pop .none (.reg bp))] else []

def returnCopy (framePointer : Bool) (n : Nat) : Handle := ⟨if framePointer then n + 1 else n⟩

section Members

variable (m : Mode) (size : UInt32) (fp : Bool) (p : Pool) (n : Nat)

theorem rewritten_eq_exit {h : Handle} (ret : isReturn p h = true) :
    rewritten m size fp p n h =
      exit m size fp n h ++ [(returnCopy fp n, (p.record h).toPayload)] := by
  rw [rewritten, if_pos ret, exit, returnCopy]
  cases fp <;> rfl

theorem le_of_mem_entry {x : Handle × Payload} (met : x ∈ entry m size fp n) : n ≤ x.1.index := by
  cases fp <;> simp only [entry, Bool.false_eq_true, if_false, if_true, List.mem_cons, List.not_mem_nil,
    or_false] at met
  · rw [met]
  · rcases met with rfl | rfl | rfl <;> simp

theorem le_of_mem_exit {h : Handle} {x : Handle × Payload} (met : x ∈ exit m size fp n h) :
    x.1 = h ∨ n ≤ x.1.index := by
  rcases List.mem_cons.mp met with rfl | met
  · exact .inl rfl
  · cases fp with
    | false => cases met
    | true =>
        obtain rfl := List.mem_singleton.mp met
        exact .inr (Nat.le_refl n)

theorem le_of_mem_rewritten {h : Handle} {x : Handle × Payload}
    (met : x ∈ rewritten m size fp p n h) : x.1 = h ∨ n ≤ x.1.index := by
  cases ret : isReturn p h with
  | false =>
      rw [rewritten_of_other m size fp p ret] at met
      obtain rfl := List.mem_singleton.mp met
      exact .inl rfl
  | true =>
      rw [rewritten_eq_exit m size fp p n ret] at met
      rcases List.mem_append.mp met with met | met
      · exact le_of_mem_exit m size fp n met
      · obtain rfl := List.mem_singleton.mp met
        right
        cases fp <;> simp [returnCopy]

theorem self_mem_rewritten (h : Handle) : ∃ payload, (h, payload) ∈ rewritten m size fp p n h := by
  cases ret : isReturn p h with
  | false => exact ⟨_, by rw [rewritten_of_other m size fp p ret]; exact List.mem_cons_self⟩
  | true => exact ⟨_, by rw [rewritten_eq_exit m size fp p n ret]; exact List.mem_cons_self⟩

theorem fallsThrough_native (op : Width → Mnemonic) (src dst : Operand) (noTarget : dst.target? = none) :
    FallsThrough (native m op src dst) := by
  have specific := (op m.nativeWidth).isGeneric_opcode
  refine ⟨?_, ?_, noTarget⟩
  · intro ret
    change (op m.nativeWidth).opcode = .ret at ret
    rw [ret] at specific
    cases specific
  · intro jmp
    change (op m.nativeWidth).opcode = .jmp at jmp
    rw [jmp] at specific
    cases specific

theorem fallsThrough_entry {x : Handle × Payload} (met : x ∈ entry m size fp n) : FallsThrough x.2 := by
  cases fp <;> simp only [entry, Bool.false_eq_true, if_false, if_true, List.mem_cons, List.not_mem_nil,
    or_false] at met
  · subst met
    exact fallsThrough_native m _ _ _ rfl
  · rcases met with rfl | rfl | rfl <;> exact fallsThrough_native m _ _ _ rfl

theorem fallsThrough_exit {h : Handle} {x : Handle × Payload} (met : x ∈ exit m size fp n h) :
    FallsThrough x.2 := by
  rcases List.mem_cons.mp met with rfl | met
  · exact fallsThrough_native m _ _ _ rfl
  · cases fp with
    | false => cases met
    | true =>
        obtain rfl := List.mem_singleton.mp met
        exact fallsThrough_native m _ _ _ rfl

end Members

section Simulation

variable {m : Mode} {w w' : Workspace} {s s' : Symbol}

def framedHandles (m : Mode) (size : UInt32) (w : Workspace) (hs : List Handle) : List Handle :=
  (framedList m size w hs).map Prod.fst

def entryOf (m : Mode) (size : UInt32) (w : Workspace) (hs : List Handle) : List (Handle × Payload) :=
  entry m size w.ctx.framePointer (entryStart w hs)

def exitOf (m : Mode) (size : UInt32) (w : Workspace) (hs : List Handle) (r : Handle) :
    List (Handle × Payload) :=
  exit m size w.ctx.framePointer (epilogueStart w hs r) r

/-- The copy of the return `r`, where its epilogue leads. -/
def copyOf (w : Workspace) (hs : List Handle) (r : Handle) : Handle :=
  returnCopy w.ctx.framePointer (epilogueStart w hs r)

/-- Of the records that were issued before, those on the list are still on it, and no others are. -/
theorem mem_framedHandles_iff (size : UInt32) {h : Handle} (old : h.index < w.pool.issued) :
    h ∈ framedHandles m size w hs ↔ h ∈ hs := by
  rw [framedHandles, framedList, List.map_append, List.mem_append]
  constructor
  · rintro (front | back)
    · obtain ⟨x, met, rfl⟩ := List.mem_map.mp front
      have := le_of_mem_entry m size _ _ met
      rw [entryStart] at this
      omega
    · obtain ⟨x, met, rfl⟩ := List.mem_map.mp back
      obtain ⟨k, on, met⟩ := List.mem_flatMap.mp met
      rcases le_of_mem_rewritten m size _ _ _ met with same | new
      · rwa [same]
      · rw [epilogueStart] at new
        omega
  · intro met
    obtain ⟨payload, self⟩ :=
      self_mem_rewritten m size w.ctx.framePointer w.pool (epilogueStart w hs h) h
    exact .inr (List.mem_map.mpr ⟨_, List.mem_flatMap.mpr ⟨h, met, self⟩, rfl⟩)

theorem Framed.record_of_other (framed : Framed m w w' s s' hs) {h : Handle}
    (old : h.index < w.pool.issued) (other : isReturn w.pool h = false) :
    w'.pool.record h = w.pool.record h := by
  apply Pool.record_congr
  apply framed.others h
  · rintro ⟨new, -⟩
    omega
  · intro _
    exact other

/-- Control that enters a framed list runs through the prologue to the old head. -/
theorem Framed.path_entry (framed : Framed m w w' s s' hs) {head : Handle} {rest : List Handle}
    (start : hs = head :: rest) :
    w'.pool.Path (some ⟨entryStart w hs⟩) ((entryOf m s.frameSize w hs).map Prod.fst) (some head) := by
  have path := Pool.chain_eq_ok_iff.mp framed.walk
  rw [framed.symbol, framedList, List.map_append] at path
  obtain ⟨b, front, back⟩ := path.split
  obtain ⟨payload, tail, first⟩ : ∃ payload tail, rewritten m s.frameSize w.ctx.framePointer w.pool
      (epilogueStart w hs head) head = (head, payload) :: tail := by
    rw [rewritten]
    split
    · exact ⟨_, _, rfl⟩
    · exact ⟨_, _, rfl⟩
  obtain rfl := back.head_eq (h := head) (by rw [start, List.flatMap_cons, ← start, first]; rfl)
  exact front

/-- Control that reaches a return runs through its epilogue to the copy of the return. -/
theorem Framed.path_exit (framed : Framed m w w' s s' hs) {r : Handle} (met : r ∈ hs)
    (ret : isReturn w.pool r = true) :
    w'.pool.Path (some r) ((exitOf m s.frameSize w hs r).map Prod.fst) (some (copyOf w hs r)) := by
  have path := Pool.chain_eq_ok_iff.mp framed.walk
  rw [framedList, List.map_append] at path
  obtain ⟨b, -, path⟩ := path.split
  obtain ⟨left, right, cut⟩ := List.append_of_mem met
  rw [List.flatMap_def, cut, List.map_append, List.map_cons, List.flatten_append, List.flatten_cons,
    ← cut, rewritten_eq_exit m _ _ _ _ ret, List.map_append, List.map_append, List.map_append] at path
  obtain ⟨c, -, path⟩ := path.split
  obtain ⟨d, path, -⟩ := path.split
  obtain ⟨e, path, last⟩ := path.split
  obtain rfl := path.head_eq (h := r) rfl
  obtain rfl := last.head_eq (h := copyOf w hs r) rfl
  exact path

section Returns

variable (size : UInt32) {r : Handle} (met : r ∈ hs) (ret : isReturn w.pool r = true)

include met ret

theorem exitOf_sublist : (exitOf m size w hs r ++ [(copyOf w hs r, (w.pool.record r).toPayload)]).Sublist
    (hs.flatMap fun h => rewritten m size w.ctx.framePointer w.pool (epilogueStart w hs h) h) := by
  rw [List.flatMap_def, exitOf, copyOf, ← rewritten_eq_exit m size _ _ _ ret]
  exact List.sublist_flatten_of_mem (List.mem_map_of_mem met)

theorem mem_framedList_of_exitOf {x : Handle × Payload} (on : x ∈ exitOf m size w hs r) :
    x ∈ framedList m size w hs := by
  apply List.mem_append_right
  apply (exitOf_sublist size met ret).subset
  exact List.mem_append_left _ on

theorem copyOf_mem_framedList :
    (copyOf w hs r, (w.pool.record r).toPayload) ∈ framedList m size w hs := by
  apply List.mem_append_right
  apply (exitOf_sublist size met ret).subset
  exact List.mem_append_right _ List.mem_cons_self

end Returns

theorem Framed.straight (framed : Framed m w w' s s' hs) {xs : List (Handle × Payload)}
    (on : ∀ x ∈ xs, x ∈ framedList m s.frameSize w hs) (falls : ∀ x ∈ xs, FallsThrough x.2) :
    ∀ k ∈ xs.map Prod.fst,
      k ∈ framedHandles m s.frameSize w hs ∧ FallsThrough (w'.pool.record k).toPayload := by
  intro k among
  obtain ⟨x, met, rfl⟩ := List.mem_map.mp among
  rw [framed.payloads x (on x met)]
  exact ⟨List.mem_map_of_mem (on x met), falls x met⟩

/-- A return does in the framed list what its epilogue does. -/
theorem Framed.route_return_iff (framed : Framed m w w' s s' hs) {r c : Handle} {body : List Handle}
    (met : r ∈ hs) (ret : isReturn w.pool r = true) :
    Route passed w'.pool (framedHandles m s.frameSize w hs) r body c ↔
      body = (exitOf m s.frameSize w hs r).map Prod.fst ∧ c = copyOf w hs r := by
  have copied := copyOf_mem_framedList (m := m) s.frameSize met ret
  have copy_ret : (w'.pool.record (copyOf w hs r)).op = .ret :=
    (congrArg Payload.op (framed.payloads _ copied)).trans (of_decide_eq_true ret)
  have straight := framed.straight (fun x on => mem_framedList_of_exitOf s.frameSize met ret on)
    (fun x on => fallsThrough_exit m s.frameSize w.ctx.framePointer (epilogueStart w hs r) on)
  rw [route_iff_of_path (framed.path_exit met ret) straight]
  constructor
  · rintro ⟨rest, rfl, route⟩
    obtain ⟨rfl, rfl⟩ := route.of_return copy_ret
    exact ⟨List.append_nil _, rfl⟩
  · rintro ⟨rfl, rfl⟩
    exact ⟨[], (List.append_nil _).symm, .arrive (List.mem_map_of_mem copied) copy_ret⟩

/-- From the same record, control goes the same ways in both lists. -/
theorem follows_framed_iff {size : UInt32}
    (targets : ∀ h ∈ hs, ∀ t, (w.pool.record h).dst = .branch t → t.index < w.pool.issued) {h k : Handle}
    (met : h ∈ hs) (same : w'.pool.record h = w.pool.record h) :
    Follows passed w'.pool (framedHandles m size w hs) h k ↔ Follows passed w.pool hs h k := by
  constructor
  · intro follows
    cases follows with
    | next past link =>
        rw [same] at past link
        exact .next past link
    | jump jumps on =>
        rw [same] at jumps
        exact .jump jumps ((mem_framedHandles_iff _ (targets h met k jumps.1)).mp on)
  · intro follows
    cases follows with
    | next past link =>
        rw [← same] at past link
        exact .next past link
    | jump jumps on =>
        have old := targets h met k jumps.1
        rw [← same] at jumps
        exact .jump jumps ((mem_framedHandles_iff _ old).mpr on)

/-- From a record of the old list, the routes of the framed list are the old ones, each with the epilogue
of its return behind it. -/
theorem Framed.route_iff (framed : Framed m w w' s s' hs) (chain : w.pool.chain s.text = .ok hs)
    (issued : ∀ h ∈ hs, h.index < w.pool.issued)
    (targets : ∀ h ∈ hs, ∀ t, (w.pool.record h).dst = .branch t → t.index < w.pool.issued)
    {h c : Handle} {walked : List Handle} (met : h ∈ hs) :
    Route passed w'.pool (framedHandles m s.frameSize w hs) h walked c ↔
      ∃ body r, Route passed w.pool hs h body r ∧
        walked = body ++ (exitOf m s.frameSize w hs r).map Prod.fst ∧ c = copyOf w hs r := by
  constructor
  · -- By induction on the new route, until it comes to a return of the old list.
    intro route
    induction route with
    | @arrive h on ret' =>
        cases ret : isReturn w.pool h with
        | true =>
            have route : Route passed w'.pool (framedHandles m s.frameSize w hs) h [] h := .arrive on ret'
            cases ((framed.route_return_iff met ret).mp route).1
        | false =>
            rw [framed.record_of_other (issued h met) ret] at ret'
            exact absurd ret' (of_decide_eq_false ret)
    | @step h k c walked on notRet follows route ih =>
        cases ret : isReturn w.pool h with
        | true =>
            obtain ⟨whole, same⟩ := (framed.route_return_iff met ret).mp (.step on notRet follows route)
            exact ⟨[], h, .arrive met (of_decide_eq_true ret), whole, same⟩
        | false =>
            have same := framed.record_of_other (issued h met) ret
            have old := (follows_framed_iff targets met same).mp follows
            have next : k ∈ hs := by
              cases old with
              | next _ link => exact (Pool.chain_eq_ok_iff.mp chain).link_mem met link
              | jump _ on => exact on
            obtain ⟨body, r, before, rfl, copy⟩ := ih next
            exact ⟨h :: body, r, .step met (of_decide_eq_false ret) old before, rfl, copy⟩
  · rintro ⟨body, r, route, rfl, rfl⟩
    induction route with
    | arrive met ret => exact (framed.route_return_iff met (decide_eq_true ret)).mpr ⟨rfl, rfl⟩
    | @step h k r body met notRet follows route ih =>
        have next : k ∈ hs := by
          cases route with
          | arrive met => exact met
          | step met => exact met
        have same := framed.record_of_other (issued h met) (decide_eq_false notRet)
        rw [← same] at notRet
        apply Route.step ((mem_framedHandles_iff s.frameSize (issued h met)).mpr met) notRet
          ((follows_framed_iff targets met same).mpr follows) (ih next)

/-- The routes of a framed list from its start are the routes of the old list from its head, each with the
prologue before it and the epilogue of its return behind it. -/
theorem Framed.route_start_iff (framed : Framed m w w' s s' hs) (chain : w.pool.chain s.text = .ok hs)
    (issued : ∀ h ∈ hs, h.index < w.pool.issued)
    (targets : ∀ h ∈ hs, ∀ t, (w.pool.record h).dst = .branch t → t.index < w.pool.issued)
    {head c : Handle} {walked : List Handle} (text : s.text = some head) :
    Route passed w'.pool (framedHandles m s.frameSize w hs) ⟨entryStart w hs⟩ walked c ↔
      ∃ body r, Route passed w.pool hs head body r ∧
        walked = (entryOf m s.frameSize w hs).map Prod.fst ++ body ++
          (exitOf m s.frameSize w hs r).map Prod.fst ∧
        c = copyOf w hs r := by
  obtain ⟨rest, start⟩ : ∃ rest, hs = head :: rest := by
    have path := Pool.chain_eq_ok_iff.mp chain
    rw [text] at path
    cases path with
    | visit => exact ⟨_, rfl⟩
  have met : head ∈ hs := by
    rw [start]
    exact List.mem_cons_self
  have straight := framed.straight (fun x on => List.mem_append_left _ on)
    (fun x on => fallsThrough_entry m s.frameSize w.ctx.framePointer (entryStart w hs) on)
  rw [route_iff_of_path (framed.path_entry start) straight]
  constructor
  · rintro ⟨later, rfl, route⟩
    obtain ⟨body, r, old, rfl, rfl⟩ := (framed.route_iff chain issued targets met).mp route
    exact ⟨body, r, old, (List.append_assoc _ _ _).symm, rfl⟩
  · rintro ⟨body, r, old, rfl, rfl⟩
    exact ⟨_, List.append_assoc _ _ _, (framed.route_iff chain issued targets met).mpr
      ⟨body, r, old, rfl, rfl⟩⟩

end Simulation

/-- The records of a list that its frame neither makes nor changes. -/
def own (p : Pool) (hs : List Handle) (h : Handle) : Bool := hs.contains h && !isReturn p h

/-- A walk through a framed list is the walk `body` to the return `r` of the list without its frame, with
the prologue before it and the epilogue of `r` behind it. Of the records of the frame it meets no others,
and these once. -/
structure Encloses (m : Mode) (size : UInt32) (w w' : Workspace) (hs body : List Handle) (r : Handle)
    (walked : List Handle) (c : Handle) : Prop where
  program : w'.pool.program walked =
    entryOf m size w hs ++ w.pool.program body ++ exitOf m size w hs r
  copy : c = copyOf w hs r
  payload : (w'.pool.record c).toPayload = (w.pool.record r).toPayload
  once : ((entryOf m size w hs ++ exitOf m size w hs r).map Prod.fst).Nodup
  frame : walked.filter (fun h => !own w.pool hs h) =
    (entryOf m size w hs ++ exitOf m size w hs r).map Prod.fst
  rest : walked.filter (own w.pool hs) = body

section Enclosing

variable {m : Mode} {w w' : Workspace} {s s' : Symbol}

theorem own_eq_true_iff {p : Pool} {h : Handle} :
    own p hs h = true ↔ h ∈ hs ∧ isReturn p h = false := by
  rw [own, Bool.and_eq_true, List.contains_iff_mem, Bool.not_eq_true']

theorem Framed.program_eq (framed : Framed m w w' s s' hs) {xs : List (Handle × Payload)}
    (on : ∀ x ∈ xs, x ∈ framedList m s.frameSize w hs) : w'.pool.program (xs.map Prod.fst) = xs := by
  rw [Pool.program, List.map_map]
  conv_rhs => rw [← List.map_id xs]
  apply List.map_congr_left
  intro x met
  exact Prod.ext rfl (framed.payloads x (on x met))

theorem not_own_entryOf (issued : ∀ h ∈ hs, h.index < w.pool.issued) {size : UInt32} {h : Handle}
    (met : h ∈ (entryOf m size w hs).map Prod.fst) : own w.pool hs h = false := by
  obtain ⟨x, on, rfl⟩ := List.mem_map.mp met
  have new := le_of_mem_entry m size _ _ on
  rw [entryStart] at new
  rw [← Bool.not_eq_true, own_eq_true_iff]
  rintro ⟨old, -⟩
  have := issued x.1 old
  omega

theorem not_own_exitOf (issued : ∀ h ∈ hs, h.index < w.pool.issued) {size : UInt32} {r h : Handle}
    (ret : isReturn w.pool r = true) (met : h ∈ (exitOf m size w hs r).map Prod.fst) :
    own w.pool hs h = false := by
  obtain ⟨x, on, rfl⟩ := List.mem_map.mp met
  rw [← Bool.not_eq_true, own_eq_true_iff]
  rintro ⟨old, other⟩
  rcases le_of_mem_exit m size _ _ on with same | new
  · rw [same, ret] at other
    cases other
  · have := issued x.1 old
    rw [epilogueStart] at new
    omega

theorem filter_between {keep : Handle → Bool} {front body back : List Handle}
    (off_front : ∀ h ∈ front, keep h = false) (on_body : ∀ h ∈ body, keep h = true)
    (off_back : ∀ h ∈ back, keep h = false) :
    (front ++ body ++ back).filter keep = body ∧
      (front ++ body ++ back).filter (fun h => !keep h) = front ++ back := by
  have front_gone : front.filter keep = [] := by simpa [List.filter_eq_nil_iff] using off_front
  have back_gone : back.filter keep = [] := by simpa [List.filter_eq_nil_iff] using off_back
  have body_gone : body.filter (fun h => !keep h) = [] := by
    simpa [List.filter_eq_nil_iff] using on_body
  have front_kept : front.filter (fun h => !keep h) = front := by
    simpa [List.filter_eq_self] using off_front
  have back_kept : back.filter (fun h => !keep h) = back := by
    simpa [List.filter_eq_self] using off_back
  simp only [List.filter_append, front_gone, back_gone, body_gone, front_kept, back_kept,
    List.filter_eq_self.mpr on_body, List.nil_append, List.append_nil, and_self]

theorem Framed.encloses (framed : Framed m w w' s s' hs) (issued : ∀ h ∈ hs, h.index < w.pool.issued)
    {head r : Handle} {body : List Handle} (route : Route passed w.pool hs head body r) :
    Encloses m s.frameSize w w' hs body r
      ((entryOf m s.frameSize w hs).map Prod.fst ++ body ++ (exitOf m s.frameSize w hs r).map Prod.fst)
      (copyOf w hs r) := by
  obtain ⟨met, ret⟩ := route.end_isReturn
  have body_own : ∀ h ∈ body, own w.pool hs h = true := by
    intro h on
    exact own_eq_true_iff.mpr (route.body_ordinary h on)
  have kept : w'.pool.program body = w.pool.program body := by
    apply List.map_congr_left
    intro h on
    obtain ⟨old, other⟩ := route.body_ordinary h on
    rw [framed.record_of_other (issued h old) other]
  have entry_same : w'.pool.program ((entryOf m s.frameSize w hs).map Prod.fst) =
      entryOf m s.frameSize w hs := framed.program_eq fun x on => List.mem_append_left _ on
  have exit_same := framed.program_eq fun x on => mem_framedList_of_exitOf s.frameSize met ret on
  obtain ⟨rest, frame⟩ := filter_between (fun h on => not_own_entryOf issued on) body_own
    (fun h on => not_own_exitOf (m := m) issued ret on)
  refine ⟨?_, rfl, ?_, ?_, ?_, rest⟩
  · rw [← kept]
    conv_rhs => rw [← entry_same, ← exit_same]
    simp only [Pool.program, List.map_append]
  · exact framed.payloads _ (copyOf_mem_framedList s.frameSize met ret)
  · refine List.Nodup.sublist (List.Sublist.map _ ?_) framed.distinct
    exact (List.Sublist.refl _).append
      ((List.sublist_append_left _ _).trans (exitOf_sublist s.frameSize met ret))
  · rw [frame, List.map_append]

end Enclosing

end Frame

end InstrStream.X86
