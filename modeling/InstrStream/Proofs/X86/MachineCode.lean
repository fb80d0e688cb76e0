import InstrStream.Proofs.X86.Outcome
import Mathlib.Data.Nat.Find

/-! The machine code of a function. It can be cut into the bytes of its records, each of them empty or one
instruction that the processor reads as what the record says; the offsets of the records are where the
cuts are; and branches arrive at the records they name. -/
namespace InstrStream.X86

open Assembly Decoder

/-- What the processor reads in the bytes of an emission. Only a branch has a displacement. -/
def Emission.reading (m : Mode) (d : Int) : Emission → Reading
  | .plain i => i.reading m
  | .branch kind _ => ⟨branchOperation kind, none, [.codeFromNext d]⟩

/-- Code cut into the bytes of records: no bytes for a record that emits nothing, one complete
instruction for any other. A single NOP may be left over. -/
structure Cut (m : Mode) (pool : Pool) (hs : List Handle) (code : List UInt8)
    (parts : List (List UInt8)) (rest : List UInt8) : Prop where
  length : parts.length = hs.length
  whole : code = parts.flatten ++ rest
  left_over : rest = [] ∨ rest = [0x90]
  silent : ∀ (i : Nat) h, hs[i]? = some h → (∀ x, ¬ Emits m pool hs h x) → parts[i]? = some []
  loud : ∀ (i : Nat) h x, hs[i]? = some h → Emits m pool hs h x →
    ∃ part d, parts[i]? = some part ∧ read m part = some (x.reading m d, [])

/-- Where control arrives that goes to the record at position `j`: at the first instruction from there
on, or at the NOP behind all records if there is none. -/
inductive Arrives (m : Mode) (pool : Pool) (hs : List Handle) (parts : List (List UInt8))
    (rest : List UInt8) (j : Nat) : Int → Prop
  | instruction {n : Nat} {u : Handle} {x : Emission} :
      j ≤ n → hs[n]? = some u → Emits m pool hs u x →
      (∀ (i : Nat) v, j ≤ i → i < n → hs[i]? = some v → ∀ y, ¬ Emits m pool hs v y) →
      Arrives m pool hs parts rest j (Layout.offset parts n)
  | nop :
      (∀ (i : Nat) v, j ≤ i → hs[i]? = some v → ∀ y, ¬ Emits m pool hs v y) → rest = [0x90] →
      Arrives m pool hs parts rest j parts.flatten.length

section Parts

theorem offset_slices (steps : List Step) (cs : List (List UInt8)) (i : Nat) :
    Layout.offset (slices steps cs) i = Layout.offset cs ((steps.take i).countP Step.emits) := by
  rw [Layout.offset, flatten_take_slices, Layout.offset]

theorem offset_succ {cs : List (List UInt8)} {n : Nat} {c : List UInt8} (at_n : cs[n]? = some c) :
    Layout.offset cs (n + 1) = Layout.offset cs n + c.length := by
  rw [Layout.offset, Layout.offset, List.take_add_one, at_n, Option.toList_some, List.flatten_append,
    List.length_append, List.flatten_singleton]

theorem offset_le (cs : List (List UInt8)) (n : Nat) : Layout.offset cs n ≤ cs.flatten.length := by
  conv_rhs => rw [← List.take_append_drop n cs, List.flatten_append, List.length_append]
  exact Nat.le_add_right _ _

theorem offset_mono (cs : List (List UInt8)) {i j : Nat} (le : i ≤ j) :
    Layout.offset cs i ≤ Layout.offset cs j := by
  have shorter := offset_le (cs.take j) i
  rwa [Layout.offset, List.take_take, Nat.min_eq_left le] at shorter

/-- Between two cuts stands what was cut out there. -/
theorem take_drop_offset {parts : List (List UInt8)} {i : Nat} {part : List UInt8}
    (at_i : parts[i]? = some part) (rest : List UInt8) :
    ((parts.flatten ++ rest).drop (Layout.offset parts i)).take
      (Layout.offset parts (i + 1) - Layout.offset parts i) = part := by
  obtain ⟨inside, rfl⟩ := List.getElem?_eq_some_iff.mp at_i
  have whole : parts.flatten ++ rest =
      (parts.take i).flatten ++ (parts[i] ++ ((parts.drop (i + 1)).flatten ++ rest)) := by
    have split := congrArg List.flatten (List.take_append_drop i parts)
    rw [List.drop_eq_getElem_cons inside, List.flatten_append, List.flatten_cons] at split
    rw [← split, List.append_assoc, List.append_assoc]
  rw [offset_succ at_i, Nat.add_sub_cancel_left, whole, Layout.offset, List.drop_left, List.take_left]

end Parts

/-- What layout writes for an emission is read as that emission. -/
theorem read_written {m : Mode} (has_code : m ≠ .bits16) {steps : List Step} {cs : List (List UInt8)}
    {n : Nat} {x : Emission} {c : List UInt8} (at_n : cs[n]? = some c)
    (written : Layout.Written m cs n (pieceOf m steps x) c) (fits : ∀ i, x = .plain i → i.FitsIn m)
    (exist : existsIn m x = true) :
    ∃ d, read m c = some (x.reading m d, []) ∧
      ∀ kind t, x = .branch kind t → cs.flatten.length < 0x80000000 →
        (Layout.offset cs (n + 1) : Int) + d = Layout.offset cs (before steps t) := by
  cases x with
  | plain i =>
      cases written with
      | plain =>
          refine ⟨0, ?_, nofun⟩
          have whole := read_bytes has_code (fits i rfl) exist []
          rwa [List.append_nil] at whole
  | branch kind t =>
      change Layout.Written m cs n (.branch kind (before steps t)) c at written
      cases written with
      | @branch _ _ form d decided reach d_eq =>
          obtain ⟨d', reads, same⟩ := read_branch has_code reach []
          rw [List.append_nil] at reads
          refine ⟨d', reads, ?_⟩
          rintro _ _ ⟨⟩ short
          -- The displacement was wrapped before it was written. Below 2 GiB that changes nothing.
          have from_le := offset_le cs (n + 1)
          have to_le := offset_le cs (before steps t)
          rw [← Int.natCast_add, ← offset_succ at_n,
            Layout.wrap_eq_self m has_code (by omega) (by omega)] at d_eq
          rw [same (by omega) (by omega)]
          omega

section Completed

variable {m : Mode} {hs : List Handle} {w w' : Workspace} {s s' : Symbol} {cs : List (List UInt8)}

theorem Assembly.Completed.emits_iff (done : Completed m names hs w w' s s' cs) (h : Handle)
    (x : Emission) : Emits m w'.pool hs h x ↔ Emits m w.pool hs h x := by
  rw [done.pool]
  exact emits_setOffsets _ _ h x

/-- Each record has the offset of its bytes. -/
theorem Assembly.Completed.pc (done : Completed m names hs w w' s s' cs) (distinct : hs.Nodup)
    (present : ∀ h ∈ hs, ∃ r, w.pool.get? h = some r) {i : Nat} {h : Handle} (at_i : hs[i]? = some h) :
    (w'.pool.record h).pc = Layout.offset (slices (stepsOf m w.pool hs) cs) i := by
  obtain ⟨inside, -⟩ := List.getElem?_eq_some_iff.mp at_i
  have offs_i := getElem?_offsets cs
    (getElem?_counts (n := 0) (Nat.lt_of_lt_of_eq inside (length_stepsOf m w.pool hs).symm))
  rw [Nat.zero_add, ← offset_slices] at offs_i
  have met : (h, _) ∈ hs.zip (offsets cs (counts 0 (stepsOf m w.pool hs))) :=
    List.mem_of_getElem? (List.getElem?_zip_eq_some.mpr ⟨at_i, offs_i⟩)
  have keys : ((hs.zip (offsets cs (counts 0 (stepsOf m w.pool hs)))).map Prod.fst).Nodup := by
    rwa [List.map_fst_zip]
    rw [offsets, List.length_map, length_counts, length_stepsOf]
  obtain ⟨r, found⟩ := present h (List.mem_of_getElem? at_i)
  have set : (setOffsets w.pool _).get? h = _ := get?_setOffsets_of_mem keys met
  rw [found, Option.map_some] at set
  rw [done.pool, Pool.record_eq_of_get? set]
  rfl

theorem Assembly.Completed.loud (done : Completed m names hs w w' s s' cs) (has_code : m ≠ .bits16)
    (distinct : hs.Nodup) (present : ∀ h ∈ hs, ∃ r, w.pool.get? h = some r) {i : Nat} {h : Handle}
    {x : Emission} (at_i : hs[i]? = some h) (emits : Emits m w'.pool hs h x) :
    ∃ part d, (slices (stepsOf m w.pool hs) cs)[i]? = some part ∧
      read m part = some (x.reading m d, []) ∧
      ∀ kind t, x = .branch kind t → s'.code.length < 0x80000000 →
        (Layout.offset (slices (stepsOf m w.pool hs) cs) (i + 1) : Int) + d = (w'.pool.record t).pc := by
  rw [done.emits_iff] at emits
  obtain ⟨step, at_step, -, emission⟩ := exists_step m w.pool at_i
  obtain ⟨part, found, chunk, written⟩ := exists_slice (distinct_stepsOf distinct)
    (fun kind t => branches_stepsOf) done.laid.chunks at_step ((emission x).mpr emits)
  have fits : ∀ i, x = .plain i → i.FitsIn m := by
    rintro i rfl
    exact (emits.sound fun _ _ => True).1
  have exist := done.laid.exist h (List.mem_of_getElem? at_i) x emits
  obtain ⟨d, reads, lands⟩ := read_written has_code chunk written fits exist
  refine ⟨part, d, found, reads, ?_⟩
  rintro kind t rfl short
  rw [done.symbol] at short
  have inside := emits.target_mem.2
  have pc := done.pc distinct present (List.getElem?_idxOf inside)
  have next : ((stepsOf m w.pool hs).take (i + 1)).countP Step.emits =
      ((stepsOf m w.pool hs).take i).countP Step.emits + 1 := by
    have loud : step.emits = true := by simp [Step.emits, (emission _).mpr emits]
    rw [List.take_add_one, at_step, Option.toList_some, List.countP_append, List.countP_singleton,
      if_pos loud]
  rw [pc, offset_slices, offset_slices, next, lands kind t rfl short, before, map_handle_stepsOf]

theorem Assembly.Completed.cut (done : Completed m names hs w w' s s' cs) (has_code : m ≠ .bits16)
    (distinct : hs.Nodup) (present : ∀ h ∈ hs, ∃ r, w.pool.get? h = some r) :
    Cut m w'.pool hs s'.code (slices (stepsOf m w.pool hs) cs)
      (trailer (targets w.pool hs).contains (stepsOf m w.pool hs)) where
  length := by rw [length_slices, length_stepsOf]
  whole := by
    rw [done.symbol]
    exact flatten_chunks (distinct_stepsOf distinct) (fun kind t => branches_stepsOf) done.laid.chunks
  left_over := by
    unfold trailer
    split
    · exact .inr rfl
    · exact .inl rfl
  silent i h at_i silent := by
    obtain ⟨step, at_step, -, emission⟩ := exists_step m w.pool at_i
    have quiet : step.emits = false := by
      rw [Step.emits, Option.isSome_eq_false_iff, Option.isNone_iff_eq_none,
        Option.eq_none_iff_forall_ne_some]
      intro x emits
      exact silent x ((done.emits_iff h x).mpr ((emission x).mp emits))
    rw [getElem?_slices at_step, quiet]
    rfl
  loud i h x at_i emits := by
    obtain ⟨part, d, found, reads, -⟩ := done.loud has_code distinct present at_i emits
    exact ⟨part, d, found, reads⟩

/-- A target of a branch that nothing follows is followed by a NOP. -/
theorem Assembly.Completed.nop (done : Completed m names hs w w' s s' cs) (distinct : hs.Nodup)
    {h t : Handle} {kind : Branch} (met : h ∈ hs) (emits : Emits m w'.pool hs h (.branch kind t))
    {j : Nat} (at_j : hs[j]? = some t)
    (silent : ∀ (i : Nat) v, j ≤ i → hs[i]? = some v → ∀ y, ¬ Emits m w'.pool hs v y) :
    trailer (targets w.pool hs).contains (stepsOf m w.pool hs) = [0x90] := by
  have emitted : .branch kind t ∈ (stepsOf m w.pool hs).filterMap Step.emission :=
    mem_emissions.mpr ⟨h, met, (done.emits_iff h _).mp emits⟩
  obtain ⟨target, inside⟩ := branches_stepsOf emitted
  apply trailer_of_silent (distinct_stepsOf distinct) target inside
  obtain ⟨below, rfl⟩ := List.getElem?_eq_some_iff.mp at_j
  have split := List.take_append_drop j (stepsOf m w.pool hs)
  have quiet : ((stepsOf m w.pool hs).drop j).countP Step.emits = 0 := by
    rw [List.countP_eq_zero]
    intro step later loud
    obtain ⟨k, at_k⟩ := List.getElem?_of_mem later
    rw [List.getElem?_drop] at at_k
    obtain ⟨inside_k, -⟩ := List.getElem?_eq_some_iff.mp at_k
    rw [length_stepsOf] at inside_k
    have at_v : hs[j + k]? = some hs[j + k] := List.getElem?_eq_getElem inside_k
    obtain ⟨_, at_step, -, emission⟩ := exists_step m w.pool at_v
    obtain rfl := Option.some.inj (at_k.symm.trans at_step)
    obtain ⟨x, emits_x⟩ := Option.isSome_iff_exists.mp loud
    exact silent (j + k) _ (Nat.le_add_right _ _) at_v x
      ((done.emits_iff _ x).mpr ((emission x).mp emits_x))
  rw [before, map_handle_stepsOf, distinct.idxOf_getElem]
  conv_rhs => rw [← split, List.countP_append, quiet, Nat.add_zero]

end Completed

section Arrival

variable {m : Mode} {pool : Pool} {hs : List Handle} {code : List UInt8} {parts : List (List UInt8)}
  {rest : List UInt8}

/-- Records that emit nothing leave the offset as it is. -/
theorem Cut.offset_eq (cut : Cut m pool hs code parts rest) {j n : Nat} (le : j ≤ n)
    (inside : n ≤ hs.length)
    (silent : ∀ (i : Nat) v, j ≤ i → i < n → hs[i]? = some v → ∀ y, ¬ Emits m pool hs v y) :
    Layout.offset parts n = Layout.offset parts j := by
  induction n, le using Nat.le_induction with
  | base => rfl
  | succ n le ih =>
      have before_n := ih (Nat.le_of_succ_le inside) fun i v low high =>
        silent i v low (Nat.lt_succ_of_lt high)
      have at_n : hs[n]? = some hs[n] := List.getElem?_eq_getElem inside
      have empty := cut.silent n _ at_n (silent n _ le (Nat.lt_succ_self n) at_n)
      rw [offset_succ empty, List.length_nil, Nat.add_zero, before_n]

/-- The offset of a record is where control arrives that goes to it, if there is a NOP for it when
nothing follows. -/
theorem Cut.arrives (cut : Cut m pool hs code parts rest) {j : Nat} {t : Handle}
    (at_j : hs[j]? = some t) (pc : (pool.record t).pc = Layout.offset parts j)
    (nop : (∀ (i : Nat) v, j ≤ i → hs[i]? = some v → ∀ y, ¬ Emits m pool hs v y) → rest = [0x90]) :
    Arrives m pool hs parts rest j (pool.record t).pc := by
  classical
  obtain ⟨inside, -⟩ := List.getElem?_eq_some_iff.mp at_j
  by_cases some_emits : ∃ n, j ≤ n ∧ ∃ u x, hs[n]? = some u ∧ Emits m pool hs u x
  · obtain ⟨le, u, x, at_n, emits⟩ := Nat.find_spec some_emits
    have silent : ∀ (i : Nat) v, j ≤ i → i < Nat.find some_emits → hs[i]? = some v →
        ∀ y, ¬ Emits m pool hs v y := by
      intro i v low high at_i y emits_y
      exact Nat.find_min some_emits high ⟨low, v, y, at_i, emits_y⟩
    obtain ⟨below, -⟩ := List.getElem?_eq_some_iff.mp at_n
    rw [pc, ← cut.offset_eq le (Nat.le_of_lt below) silent]
    exact .instruction le at_n emits silent
  · have silent : ∀ (i : Nat) v, j ≤ i → hs[i]? = some v → ∀ y, ¬ Emits m pool hs v y := by
      intro i v low at_i y emits_y
      exact some_emits ⟨i, low, v, y, at_i, emits_y⟩
    have last := cut.offset_eq (Nat.le_of_lt inside) (Nat.le_refl _) fun i v low _ => silent i v low
    rw [pc, ← last, Layout.offset, ← cut.length, List.take_length]
    exact .nop silent (nop silent)

end Arrival

/-- Code cut into the bytes of records, with their offsets where the cuts are, and with the displacement
of each branch leading to the offset of its target if the code is short enough for it to be written. -/
structure Placed (m : Mode) (pool : Pool) (hs : List Handle) (code : List UInt8)
    (parts : List (List UInt8)) (rest : List UInt8) : Prop extends Cut m pool hs code parts rest where
  pc : ∀ (i : Nat) h, hs[i]? = some h → (pool.record h).pc = Layout.offset parts i
  branch : ∀ (i : Nat) h kind t, hs[i]? = some h → Emits m pool hs h (.branch kind t) →
    ∃ part d j, parts[i]? = some part ∧
      read m part = some (⟨branchOperation kind, none, [.codeFromNext d]⟩, []) ∧
      (code.length < 0x80000000 → (Layout.offset parts (i + 1) : Int) + d = (pool.record t).pc) ∧
      hs[j]? = some t ∧ Arrives m pool hs parts rest j (pool.record t).pc

theorem Assembly.Completed.placed {m : Mode} {hs : List Handle} {w w' : Workspace} {s s' : Symbol}
    {cs : List (List UInt8)} (done : Completed m names hs w w' s s' cs) (has_code : m ≠ .bits16)
    (distinct : hs.Nodup) (present : ∀ h ∈ hs, ∃ r, w.pool.get? h = some r) :
    ∃ parts rest, Placed m w'.pool hs s'.code parts rest := by
  have cut := done.cut has_code distinct present
  refine ⟨_, _, cut, fun i h => done.pc distinct present, ?_⟩
  intro i h kind t at_i emits
  obtain ⟨part, d, found, reads, leads⟩ := done.loud has_code distinct present at_i emits
  have inside := emits.target_mem.2
  have at_j := List.getElem?_idxOf inside
  refine ⟨part, d, _, found, reads, leads kind t rfl, at_j, ?_⟩
  exact cut.arrives at_j (done.pc distinct present at_j)
    (done.nop distinct (List.mem_of_getElem? at_i) emits at_j)

/-- Issued records keep their offsets, and those issued since have the offset of an empty record. -/
structure OffsetsKept (pool pool' : Pool) : Prop where
  old : ∀ h, h.index < pool.issued → (pool'.record h).pc = (pool.record h).pc
  new : ∀ h, pool.issued ≤ h.index → h.index < pool'.issued → (pool'.record h).pc = 0

theorem Frame.Spliced.offsetsKept {w w' : Workspace} {a : Option Handle} {hs : List Handle}
    {text : List (Handle × Payload)} (spliced : Frame.Spliced w w' a hs text) :
    OffsetsKept w.pool w'.pool := by
  constructor
  · intro h old
    obtain ⟨payload, link, changed⟩ := spliced.changed h old
    rw [Pool.record, Pool.record, changed]
    cases w.pool.get? h <;> rfl
  · intro h from_here below
    obtain ⟨payload, link, made⟩ := spliced.new h from_here below
    rw [Pool.record_eq_of_get? made]
    rfl

/-- A list of issued records is assembled. If encoding fails there is no code and every offset stays;
otherwise the code is that of the records. -/
theorem assemble_placed {m : Mode} {b : Backend} (known : IsBackend m b) {w : Workspace} {s : Symbol}
    {hs : List Handle} (chain : w.pool.chain s.text = .ok hs)
    (issued : ∀ h ∈ hs, h.index < w.pool.issued) :
    ∃ w' s' final, b.assemble w s = (w', .ok s') ∧ Assembled m w w' s s' hs final ∧
      (¬ EncodingFailed s.name w w' → ∃ parts rest, Placed m w'.pool final s'.code parts rest) ∧
      (EncodingFailed s.name w w' → s'.code = [] ∧ OffsetsKept w.pool w'.pool) := by
  obtain ⟨w₁, s₁, w', s', final, run, assembled, distinct, present, spliced, name, outcome⟩ :=
    assemble_final (m := m) chain issued
  refine ⟨w', s', final, by rw [known.assemble_eq, run], assembled, ?_, ?_⟩
  all_goals rw [← name]
  · intro encoded
    rcases outcome with ⟨cs, done⟩ | ⟨e, failed⟩
    · exact done.placed known.has_code distinct present
    · exact absurd (failed.encodingFailed spliced.ctx) encoded
  · intro not_encoded
    rcases outcome with ⟨cs, done⟩ | ⟨e, failed⟩
    · exact absurd not_encoded (done.not_encodingFailed spliced.ctx)
    · refine ⟨by rw [failed.symbol], ?_⟩
      rw [failed.pool]
      exact spliced.offsetsKept

/-- A workspace whose records are linked in order, all of them issued. -/
def listed (target : Target) (framePointer : Bool) (ps : List Payload) : Workspace where
  ctx := { id := ⟨0⟩, target, framePointer }
  pool :=
    { block := #[]
      used := 0
      extra := (ps.zipIdx.map fun (p, i) =>
        { toPayload := p, owner := some ⟨0⟩, linked := true
          link := if i + 1 < ps.length then some ⟨i + 1⟩ else none : Record }).toArray
      used_le := Nat.le_refl 0
      full_of_extra := fun _ => rfl }

/-- A load between a jump to the end, where nothing follows, and one back to a record without bytes. -/
def loop : List Payload :=
  [{ op := .jmp, dst := .branch ⟨4⟩ }, { op := .nop },
   { op := Mnemonic.opcode (.binary .mov .quad), src := .mem ⟨14⟩ ⟨10⟩ 4 8, dst := .reg ⟨1⟩ },
   { op := Mnemonic.opcode (.jump .equal), dst := .branch ⟨1⟩ }, { op := .nop }]

def loopSymbol : Symbol := { name := "loop", text := some ⟨0⟩, frameSize := 8 }

theorem loop_run {w' : Workspace} {s' : Symbol}
    (run : amd64.assemble (listed amd64Target true loop) loopSymbol = (w', .ok s')) :
    ¬ EncodingFailed loopSymbol.name (listed amd64Target true loop) w' ∧ s'.code.length = 18 ∧
      w'.pool.chain s'.text = .ok [⟨5⟩, ⟨6⟩, ⟨7⟩, ⟨0⟩, ⟨1⟩, ⟨2⟩, ⟨3⟩, ⟨4⟩] ∧
      (w'.pool.record ⟨0⟩).toPayload = loop[0] ∧ (w'.pool.record ⟨2⟩).toPayload = loop[2] := by
  have symbol : (amd64.assemble (listed amd64Target true loop) loopSymbol).2 = .ok s' := by rw [run]
  have workspace : (amd64.assemble (listed amd64Target true loop) loopSymbol).1 = w' := by rw [run]
  cases symbol
  subst workspace
  refine ⟨?_, by decide +kernel, rfl, rfl, rfl⟩
  rintro ⟨e, met⟩
  cases met

section

variable {m : Mode} {b : Backend} (known : IsBackend m b) (w : Workspace) (s : Symbol)
  (hs : List Handle) (chain : w.pool.chain s.text = .ok hs)
  (issued : ∀ h ∈ hs, h.index < w.pool.issued)
include known chain issued

/-- Branches arrive where the records say: the displacement of a branch leads from behind it to the
offset of its target, and there stands the first instruction from the target on, or a NOP. -/
theorem branches_arrive :
    ∃ w' s' final, b.assemble w s = (w', .ok s') ∧ Assembled m w w' s s' hs final ∧
      (¬ EncodingFailed s.name w w' → s'.code.length < 0x80000000 →
        ∃ parts rest, Cut m w'.pool final s'.code parts rest ∧
          ∀ (i : Nat) h kind t, final[i]? = some h → Emits m w'.pool final h (.branch kind t) →
            (w'.pool.record h).dst = .branch t ∧
            ∃ part d j, parts[i]? = some part ∧
              read m part = some (⟨branchOperation kind, none, [.codeFromNext d]⟩, []) ∧
              (Layout.offset parts (i + 1) : Int) + d = (w'.pool.record t).pc ∧
              final[j]? = some t ∧ Arrives m w'.pool final parts rest j (w'.pool.record t).pc) := by
  obtain ⟨w', s', final, run, assembled, encoded, -⟩ := assemble_placed known chain issued
  refine ⟨w', s', final, run, assembled, fun succeeds short => ?_⟩
  obtain ⟨parts, rest, placed⟩ := encoded succeeds
  refine ⟨parts, rest, placed.toCut, fun i h kind t at_i emits => ⟨?_, ?_⟩⟩
  · exact emits.target_mem.1
  · obtain ⟨part, d, j, found, reads, leads, at_j, arrives⟩ := placed.branch i h kind t at_i emits
    exact ⟨part, d, j, found, reads, leads short, at_j, arrives⟩

end

/-- The jump to the end leads to the NOP behind all records. -/
theorem branches_arrive_at_end :
    ∃ w' s' final parts rest part d,
      amd64.assemble (listed amd64Target true loop) loopSymbol = (w', .ok s') ∧
      Cut .bits64 w'.pool final s'.code parts rest ∧ parts[3]? = some part ∧
      read .bits64 part = some (⟨.jump, none, [.codeFromNext d]⟩, []) ∧
      (Layout.offset parts 4 : Int) + d = (w'.pool.record ⟨4⟩).pc := by
  obtain ⟨w', s', final, run, assembled, arrive⟩ := branches_arrive (.inl ⟨rfl, rfl⟩)
    (listed amd64Target true loop) loopSymbol [⟨0⟩, ⟨1⟩, ⟨2⟩, ⟨3⟩, ⟨4⟩] rfl (by decide)
  obtain ⟨encoded, length, chain, jump, -⟩ := loop_run run
  obtain rfl := Except.ok.inj (assembled.chain.symm.trans chain)
  obtain ⟨parts, rest, cut, branches⟩ := arrive encoded (by rw [length]; decide)
  obtain ⟨-, part, d, j, found, reads, leads, -⟩ := branches 3 ⟨0⟩ (.jump none) ⟨4⟩ rfl
    (by rw [Emits, jump]; rfl)
  exact ⟨w', s', _, parts, rest, part, d, run, cut, found, reads, leads⟩

section

variable {m : Mode} {b : Backend} (known : IsBackend m b) (w : Workspace) (s : Symbol)
  (hs : List Handle) (chain : w.pool.chain s.text = .ok hs)
  (issued : ∀ h ∈ hs, h.index < w.pool.issued)
include known chain issued

/-- Offsets partition the code: each is the sum of the lengths of the instructions before, and between
two of them stands the one instruction of a record. A function that cannot be encoded has no code, and
its records keep the offsets they had. -/
theorem offsets_partition_code :
    ∃ w' s' final, b.assemble w s = (w', .ok s') ∧ Assembled m w w' s s' hs final ∧
      (¬ EncodingFailed s.name w w' →
        ∃ parts rest, Cut m w'.pool final s'.code parts rest ∧
          (∀ (i : Nat) h, final[i]? = some h →
            (w'.pool.record h).pc = ((parts.take i).map List.length).sum) ∧
          (∀ (i j : Nat) h k, i ≤ j → final[i]? = some h → final[j]? = some k →
            (w'.pool.record h).pc ≤ (w'.pool.record k).pc) ∧
          (∀ (i : Nat) h k, final[i]? = some h → final[i + 1]? = some k →
            parts[i]? = some ((s'.code.drop (w'.pool.record h).pc.toNat).take
              ((w'.pool.record k).pc - (w'.pool.record h).pc).toNat)) ∧
          (∀ (i : Nat) h, final[i]? = some h →
            (∀ (j : Nat) k, i ≤ j → final[j]? = some k → ∀ x, ¬ Emits m w'.pool final k x) →
            (w'.pool.record h).pc + rest.length = s'.code.length)) ∧
      (EncodingFailed s.name w w' → s'.code = [] ∧ OffsetsKept w.pool w'.pool) := by
  obtain ⟨w', s', final, run, assembled, encoded, not_encoded⟩ := assemble_placed known chain issued
  refine ⟨w', s', final, run, assembled, fun succeeds => ?_, not_encoded⟩
  obtain ⟨parts, rest, placed⟩ := encoded succeeds
  refine ⟨parts, rest, placed.toCut, ?_, ?_, ?_, ?_⟩
  · intro i h at_i
    rw [placed.pc i h at_i, Layout.offset, List.length_flatten]
  · intro i j h k le at_i at_j
    rw [placed.pc i h at_i, placed.pc j k at_j]
    exact Int.ofNat_le.mpr (offset_mono parts le)
  · intro i h k at_i at_next
    obtain ⟨inside, -⟩ := List.getElem?_eq_some_iff.mp at_i
    rw [← placed.length] at inside
    have at_part : parts[i]? = some parts[i] := List.getElem?_eq_getElem inside
    rw [placed.pc i h at_i, placed.pc (i + 1) k at_next, Int.toNat_natCast,
      ← Int.natCast_sub (offset_mono parts (Nat.le_succ i)), Int.toNat_natCast, placed.whole,
      take_drop_offset at_part]
    exact at_part
  · intro i h at_i silent
    obtain ⟨inside, -⟩ := List.getElem?_eq_some_iff.mp at_i
    have last := placed.toCut.offset_eq (Nat.le_of_lt inside) (Nat.le_refl _) fun j k low _ =>
      silent j k low
    rw [placed.pc i h at_i, ← last, Layout.offset, ← placed.length, List.take_length]
    conv_rhs => rw [placed.whole, List.length_append]
    exact (Int.natCast_add _ _).symm

end

/-- The record behind the loop has the sum of all lengths as its offset, and the jump ends there. -/
theorem offsets_partition_loop :
    ∃ w' s' final parts rest,
      amd64.assemble (listed amd64Target true loop) loopSymbol = (w', .ok s') ∧
      Cut .bits64 w'.pool final s'.code parts rest ∧
      (w'.pool.record ⟨4⟩).pc = ((parts.take 7).map List.length).sum ∧
      parts[6]? = some ((s'.code.drop (w'.pool.record ⟨3⟩).pc.toNat).take
        ((w'.pool.record ⟨4⟩).pc - (w'.pool.record ⟨3⟩).pc).toNat) := by
  obtain ⟨w', s', final, run, assembled, succeeds, -⟩ := offsets_partition_code (.inl ⟨rfl, rfl⟩)
    (listed amd64Target true loop) loopSymbol [⟨0⟩, ⟨1⟩, ⟨2⟩, ⟨3⟩, ⟨4⟩] rfl (by decide)
  obtain ⟨encoded, -, chain, -, -⟩ := loop_run run
  obtain rfl := Except.ok.inj (assembled.chain.symm.trans chain)
  obtain ⟨parts, rest, cut, sums, -, between, -⟩ := succeeds encoded
  exact ⟨w', s', _, parts, rest, run, cut, sums 7 ⟨4⟩ rfl, between 6 ⟨3⟩ ⟨4⟩ rfl rfl⟩

section

variable {m : Mode} {b : Backend} (known : IsBackend m b) (w : Workspace) (s : Symbol)
  (hs : List Handle) (chain : w.pool.chain s.text = .ok hs)
  (issued : ∀ h ∈ hs, h.index < w.pool.issued)
include known chain issued

/-- The machine code means what the records say: the bytes of a record that emits are read as one
complete instruction, with the operation, the width and the operands of the record. -/
theorem code_denotes_records :
    ∃ w' s' final, b.assemble w s = (w', .ok s') ∧ Assembled m w w' s s' hs final ∧
      (¬ EncodingFailed s.name w w' →
        ∃ parts rest, Cut m w'.pool final s'.code parts rest ∧
          ∀ (i : Nat) h x, final[i]? = some h → Emits m w'.pool final h x →
            ∃ part reading, parts[i]? = some part ∧ read m part = some (reading, []) ∧
              Denotes m
                (fun t d => s'.code.length < 0x80000000 →
                  (Layout.offset parts (i + 1) : Int) + d = (w'.pool.record t).pc)
                (w'.pool.record h).toPayload reading) := by
  obtain ⟨w', s', final, run, assembled, encoded, -⟩ := assemble_placed known chain issued
  refine ⟨w', s', final, run, assembled, fun succeeds => ?_⟩
  obtain ⟨parts, rest, placed⟩ := encoded succeeds
  refine ⟨parts, rest, placed.toCut, fun i h x at_i emits => ?_⟩
  cases x with
  | plain instruction =>
      obtain ⟨part, d, found, reads⟩ := placed.loud i h _ at_i emits
      exact ⟨part, _, found, reads, (emits.sound _).2⟩
  | branch kind t =>
      obtain ⟨part, d, j, found, reads, leads, -⟩ := placed.branch i h kind t at_i emits
      exact ⟨part, _, found, reads, (emits.sound _).2.2 d leads⟩

end

/-- The load is read as a move of eight bytes from R13 + 4 * R9 + 8 to AX. -/
theorem code_denotes_load :
    ∃ w' s' final parts rest part reading,
      amd64.assemble (listed amd64Target true loop) loopSymbol = (w', .ok s') ∧
      Cut .bits64 w'.pool final s'.code parts rest ∧ parts[5]? = some part ∧
      read .bits64 part = some (reading, []) ∧
      ∃ leads, Denotes .bits64 leads loop[2] reading := by
  obtain ⟨w', s', final, run, assembled, succeeds⟩ := code_denotes_records (.inl ⟨rfl, rfl⟩)
    (listed amd64Target true loop) loopSymbol [⟨0⟩, ⟨1⟩, ⟨2⟩, ⟨3⟩, ⟨4⟩] rfl (by decide)
  obtain ⟨encoded, -, chain, -, load⟩ := loop_run run
  obtain rfl := Except.ok.inj (assembled.chain.symm.trans chain)
  obtain ⟨parts, rest, cut, denotes⟩ := succeeds encoded
  obtain ⟨part, reading, found, reads, means⟩ := denotes 5 ⟨2⟩ _ rfl (by rw [Emits, load]; rfl)
  rw [load] at means
  exact ⟨w', s', _, parts, rest, part, reading, run, cut, found, reads, _, means⟩

end InstrStream.X86
