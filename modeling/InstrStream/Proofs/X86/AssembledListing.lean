import InstrStream.Proofs.X86.StorageIndependence

/-! Listings of assembled builders. A listing writes one line for each record of the list as the backend left
it, and for a branch operand the offset of the record that it names. Assembly compares such a handle with
those of the list and goes on when it is not among them, but a listing has to look it up. So every assembled
builder has a listing with the right lines, except those with a branch operand past every slot: there the
listing faults. -/
namespace InstrStream

def OneLine (text : String) : Prop := '\n' ∉ text.toList

instance (text : String) : Decidable (OneLine text) := inferInstanceAs (Decidable ('\n' ∉ text.toList))

section Texts

theorem OneLine.append {s t : String} (first : OneLine s) (second : OneLine t) : OneLine (s ++ t) := by
  rw [OneLine, String.toList_append, List.mem_append, not_or]
  exact ⟨first, second⟩

theorem oneLine_nat (n : Nat) : OneLine (toString n) := by
  intro met
  change '\n' ∈ n.repr.toList at met
  rw [Nat.toList_repr] at met
  have digit := Nat.isDigit_of_mem_toDigits (by decide) (by decide) met
  cases digit

theorem oneLine_int (v : Int) : OneLine (toString v) := by
  cases v with
  | ofNat n => exact oneLine_nat n
  | negSucc n => exact .append (s := "-") (by decide) (oneLine_nat (n + 1))

theorem oneLine_zeroPadded (width : Nat) (v : Int) : OneLine (Text.zeroPadded width v) := by
  have sign : OneLine (if v < 0 then "-" else "") := by split <;> decide
  refine .append (.append sign ?_) (oneLine_nat _)
  rw [OneLine, String.toList_ofList]
  intro met
  cases List.eq_of_mem_replicate met

theorem oneLine_intercalate {sep : String} (fits : OneLine sep) {texts : List String}
    (each : ∀ text ∈ texts, OneLine text) : OneLine (sep.intercalate texts) := by
  induction texts with
  | nil =>
      rw [String.intercalate_nil]
      decide
  | cons text texts ih =>
      obtain ⟨head, tail⟩ := List.forall_mem_cons.mp each
      cases texts with
      | nil => simpa using head
      | cons next texts =>
          rw [String.intercalate_cons_cons]
          exact (head.append fits).append (ih tail)

end Texts

/-- The records that the operands of a payload branch to. -/
def Payload.branches (p : Payload) : List Handle := p.src.target?.toList ++ p.dst.target?.toList

def Pool.branches (pool : Pool) (hs : List Handle) : List Handle :=
  hs.flatMap fun h => (pool.record h).branches

/-- A line about a record: its offset in at least five digits, two blanks and more text. The only line break
is the one at the end. -/
def Record.IsLine (r : Record) (line : String) : Prop :=
  ∃ rest, line = Text.zeroPadded 5 r.pc ++ "  " ++ rest ++ "\n" ∧
    OneLine (Text.zeroPadded 5 r.pc ++ "  " ++ rest)

structure Names.OneLine (names : Names) : Prop where
  opcode : ∀ op, InstrStream.OneLine (names.opcode op)
  register : ∀ r, InstrStream.OneLine (names.register r)

namespace Listing

/-- What comes of writing something that branches to the records `ts`: a text if the pool has all of them, and
otherwise the fault of reading one that it does not have. -/
inductive Written {α : Type} (pool : Pool) (ts : List Handle) (good : α → Prop) : Except Fault α → Prop
  | text {a : α} : (∀ t ∈ ts, pool.get? t ≠ none) → good a → Written pool ts good (.ok a)
  | fault {t : Handle} : t ∈ ts → pool.get? t = none → Written pool ts good (.error (.outOfBounds t))

section Writing

variable {α β : Type} {pool : Pool} {ts us : List Handle} {good : α → Prop} {fine : β → Prop}

theorem Written.bind {x : Except Fault α} {f : α → Except Fault β} (first : Written pool ts good x)
    (second : ∀ a, good a → Written pool us fine (f a)) : Written pool (ts ++ us) fine (x >>= f) := by
  cases first with
  | fault met lacks => exact .fault (List.mem_append_left us met) lacks
  | text has holds =>
      rename_i a
      have rest := second a holds
      change Written pool (ts ++ us) fine (f a)
      generalize f a = y at rest ⊢
      cases rest with
      | fault met lacks => exact .fault (List.mem_append_right ts met) lacks
      | text has' holds' => exact .text (List.forall_mem_append.mpr ⟨has, has'⟩) holds'

theorem Written.map {x : Except Fault α} {f : α → β} (first : Written pool ts good x)
    (second : ∀ a, good a → fine (f a)) : Written pool ts fine (f <$> x) := by
  cases first with
  | fault met lacks => exact .fault met lacks
  | text has holds => exact .text has (second _ holds)

theorem written_pure {a : α} (holds : good a) : Written pool [] good (.ok a) := .text nofun holds

variable {names : Names} (fits : names.OneLine)
include fits

theorem written_operand (o : Operand) : Written pool o.target?.toList OneLine (operand names pool o) := by
  cases o with
  | none => exact written_pure (by decide)
  | reg r => exact written_pure (fits.register r)
  | const v => exact written_pure (.append (by decide) (oneLine_int _))
  | mem base index scale offset =>
      have text_offset : OneLine (if offset = 0 then "" else toString offset.toInt) := by
        split
        · decide
        · exact oneLine_int _
      have text_base : OneLine (if base.isNone then "" else "(" ++ names.register base ++ ")") := by
        split
        · decide
        · exact .append (.append (by decide) (fits.register base)) (by decide)
      have text_index :
          OneLine (if index.isNone then "" else "(" ++ names.register index ++ s!"*{scale.toNat})") := by
        split
        · decide
        · exact .append (.append (by decide) (fits.register index))
            (.append (.append (by decide) (oneLine_nat _)) (by decide))
      exact written_pure ((text_offset.append text_base).append text_index)
  | branch h =>
      rw [operand, Pool.get]
      cases found : pool.get? h with
      | none => exact .fault List.mem_cons_self found
      | some r =>
          refine .text ?_ (oneLine_int r.pc)
          intro t met
          rw [List.mem_singleton.mp met, found]
          exact Option.some_ne_none r

theorem written_operand? (o : Operand) :
    Written pool o.target?.toList (fun text => ∀ s ∈ text, OneLine s) (operand? names pool o) := by
  rw [operand?]
  split
  · cases o with
    | none => exact written_pure fun s met => absurd met (Option.not_mem_none s)
    | _ => contradiction
  · refine (written_operand fits o).map ?_
    rintro text oneLine _ ⟨⟩
    exact oneLine

theorem written_operands (p : Payload) :
    Written pool p.branches (fun texts => ∀ s ∈ texts, OneLine s) (operands names pool p) := by
  rw [operands]
  refine (written_operand? fits p.src).bind fun src src_fits => ?_
  refine (written_operand? fits p.dst).map fun dst dst_fits => ?_
  have reg_fits : ∀ s ∈ (if p.reg.isNone then none else some (names.register p.reg)), OneLine s := by
    intro s met
    split at met
    · cases met
    · cases met
      exact fits.register p.reg
  intro s met
  obtain ⟨text, among, found⟩ := List.mem_filterMap.mp met
  simp only [List.mem_cons, List.not_mem_nil, or_false] at among
  rcases among with rfl | rfl | rfl
  · exact src_fits s found
  · exact reg_fits s found
  · exact dst_fits s found

theorem written_line (r : Record) : Written pool r.branches r.IsLine (line names pool r) := by
  refine (written_operands fits r.toPayload).map fun ops ops_fit => ?_
  have tail_fits : OneLine (if ops.isEmpty then "" else "  " ++ ", ".intercalate ops) := by
    split
    · decide
    · exact .append (by decide) (oneLine_intercalate (by decide) ops_fit)
  refine ⟨names.opcode r.op ++ if ops.isEmpty then "" else "  " ++ ", ".intercalate ops, ?_, ?_⟩
  · simp only [String.append_assoc]
  · exact ((oneLine_zeroPadded 5 r.pc).append (by decide)).append ((fits.opcode r.op).append tail_fits)

theorem written_lines (hs : List Handle) :
    Written pool (pool.branches hs) (List.Forall₂ (fun h l => (pool.record h).IsLine l) hs)
      (hs.mapM fun h => line names pool (pool.record h)) := by
  induction hs with
  | nil => exact written_pure .nil
  | cons h hs ih =>
      rw [List.mapM_cons]
      refine (written_line fits (pool.record h)).bind fun l is_line => ?_
      exact ih.map fun lines are_lines => .cons is_line are_lines

/-- A list is written line by line. -/
theorem written_render {head : Option Handle} {hs : List Handle} (chain : pool.chain head = .ok hs) :
    Written pool (pool.branches hs)
      (fun text => ∃ lines, text = String.join lines ∧
        List.Forall₂ (fun h l => (pool.record h).IsLine l) hs lines) (render names pool head) := by
  rw [render, chain]
  exact (written_lines fits hs).map fun lines are_lines => ⟨lines, rfl, are_lines⟩

end Writing

end Listing

namespace X86

open Assembly X86.Frame

/-- Opcodes and registers are written without line breaks, also those that have no name. -/
theorem oneLine_names : names.OneLine where
  opcode op := by
    have generic : ∀ name ∈ ["XXX", "NOP", "JMP", "CALL", "RET"], OneLine name := by decide
    have own : ∀ mnemonic ∈ Mnemonic.all, OneLine mnemonic.name := by decide +kernel
    have named : ∀ name ∈ opcodeName? op, OneLine name := by
      intro name found
      rw [opcodeName?] at found
      split at found
      · exact generic name (List.mem_of_getElem? found)
      · obtain ⟨mnemonic, known, rfl⟩ := Option.map_eq_some_iff.mp found
        rw [Mnemonic.ofOpcode?] at known
        split at known
        · cases known
        · exact own mnemonic (List.mem_of_getElem? known)
    change OneLine ((opcodeName? op).getD _)
    cases found : opcodeName? op with
    | none => exact .append (by decide) (oneLine_nat _)
    | some name => exact named name found
  register r := by
    have own : ∀ g : Fin 16, OneLine (Gpr.baseName ⟨g⟩) := by decide +kernel
    change OneLine (((Gpr.ofReg? r).map Gpr.baseName).getD _)
    cases Gpr.ofReg? r with
    | none => exact .append (by decide) (oneLine_int _)
    | some g => exact own g.number

/-- The operands of a framed program branch where those of the program branch. -/
theorem mem_branches_iff {m : Mode} {x : History} {w : Workspace} {s : Symbol} (finished : Finished m x w s)
    {t : Handle} :
    t ∈ w.pool.branches ((programOf m x).map Prod.fst) ↔ t ∈ x.builder.pool.branches x.appended := by
  have of_program : ∀ (pool : Pool) (hs : List Handle),
      t ∈ pool.branches hs ↔ ∃ y ∈ pool.program hs, t ∈ y.2.branches := by
    intro pool hs
    simp only [Pool.branches, Pool.program, List.mem_flatMap, List.mem_map, exists_exists_and_eq_and]
  rw [of_program, of_program, finished.produced.program]
  constructor
  · rintro ⟨y, met, branch⟩
    rcases mem_framed _ _ _ met with ⟨z, on, same⟩ | ⟨src, dst⟩
    · exact ⟨z, on, same ▸ branch⟩
    · rw [Payload.branches, src, dst] at branch
      cases branch
  · rintro ⟨y, met, branch⟩
    obtain ⟨h, on, -⟩ := payload_mem_framed m x.builder.frameSize (m = .bits64) met
    exact ⟨(h, y.2), on, branch⟩

/-- An assembled builder can be listed, line by line, if the slots of its pool cover all branch operands that
were appended. If they do not, the listing faults on one of these operands. -/
theorem listing_of_assembled {m : Mode} {backend : Backend} (known : IsBackend m backend) {x : History}
    (ready : x.Ready backend) :
    let b := x.builder.assemble.1
    let branches := x.builder.pool.branches x.appended
    let slots := b.pool.capacity + b.pool.overflow
    (∃ code, x.builder.assemble.2 = .ok code) ∧ ∃ final, b.pool.chain b.listingHead = .ok final ∧
      ((∀ t ∈ branches, t.index < slots) → ∃ lines, b.listing = .ok (String.join lines) ∧
        List.Forall₂ (fun h l => (b.pool.record h).IsLine l) final lines) ∧
      ((∃ t ∈ branches, slots ≤ t.index) →
        ∃ t ∈ branches, slots ≤ t.index ∧ b.listing = .error (.outOfBounds t)) := by
  intro b branches slots
  obtain ⟨w, s, finished⟩ := exists_finished known ready
  have pool : b.pool = w.pool := finished.pool
  have head : b.listingHead = s.text := by
    rw [Builder.listingHead, Builder.phase_assemble finished.answer]
    exact finished.text
  have lacks_iff : ∀ t, w.pool.get? t = none ↔ slots ≤ t.index := by
    intro t
    simp only [slots, pool]
    exact w.pool.get?_eq_none_iff_size t
  refine ⟨⟨s.code, finished.answer⟩, (programOf m x).map Prod.fst, ?_, ?_⟩
  · rw [pool, head]
    exact finished.produced.assembled.chain
  · have written := Listing.written_render oneLine_names finished.produced.assembled.chain
    rw [← finished.listing] at written
    change Listing.Written _ _ _ b.listing at written
    rw [pool]
    generalize b.listing = result at written ⊢
    cases written with
    | text has lines =>
        obtain ⟨lines, rfl, are_lines⟩ := lines
        refine ⟨fun _ => ⟨lines, rfl, are_lines⟩, ?_⟩
        rintro ⟨t, branch, past⟩
        exact absurd ((lacks_iff t).mpr past) (has t ((mem_branches_iff finished).mpr branch))
    | fault met lacks =>
        rename_i t
        have branch : t ∈ branches := (mem_branches_iff finished).mp met
        have past := (lacks_iff t).mp lacks
        refine ⟨fun within => absurd past (Nat.not_le.mpr (within t branch)), fun _ => ?_⟩
        exact ⟨t, branch, past, rfl⟩

/-- A jump to a record that may not exist, and a return, in a block of three. -/
def jumpingTo (t : Handle) : List Edit :=
  [.newRecord, .newRecord,
   .write ⟨0⟩ (fun _ => { op := .jmp, dst := .branch t }) id, .write ⟨1⟩ (fun _ => { op := .ret }) id,
   .append ⟨0⟩, .append ⟨1⟩]

theorem ready_jumpingTo (t : Handle) : (historyOf 3 ⟨0⟩ (jumpingTo t)).Ready amd64 := by
  refine ready_historyOf ?_ rfl
  exact ⟨trivial, trivial, trivial, trivial, trivial, trivial, trivial⟩

/-- With seven slots after assembly, a jump to the last of them can be listed and a jump past it cannot. -/
theorem listing_of_assembled_jumping :
    (∃ lines, (historyOf 3 ⟨0⟩ (jumpingTo ⟨6⟩)).builder.assemble.1.listing = .ok (String.join lines) ∧
      lines.length = 7) ∧
    (historyOf 3 ⟨0⟩ (jumpingTo ⟨7⟩)).builder.assemble.1.listing = .error (.outOfBounds ⟨7⟩) := by
  constructor
  · obtain ⟨-, final, chain, listed, -⟩ := listing_of_assembled (.inl ⟨rfl, rfl⟩) (ready_jumpingTo ⟨6⟩)
    obtain ⟨lines, text, are_lines⟩ := listed (by decide +kernel)
    refine ⟨lines, text, are_lines.length_eq.symm.trans ?_⟩
    have same : final = [⟨4⟩, ⟨5⟩, ⟨6⟩, ⟨0⟩, ⟨1⟩, ⟨2⟩, ⟨3⟩] := Except.ok.inj (chain.symm.trans (by decide +kernel))
    rw [same]
    rfl
  · obtain ⟨-, _, -, -, faults⟩ := listing_of_assembled (.inl ⟨rfl, rfl⟩) (ready_jumpingTo ⟨7⟩)
    obtain ⟨t, branch, -, fault⟩ := faults ⟨⟨7⟩, by decide +kernel, by decide +kernel⟩
    obtain rfl := List.mem_singleton.mp branch
    exact fault

end X86

end InstrStream
