import InstrStream.Proofs.X86.EncodingFailure
import Mathlib.Data.Int.ModEq

/-! Constants in instructions. There are three ways to write one: in a byte that is sign-extended, in as many
bytes as the operation is wide but four at most, and for a move to a 64-bit register in eight. The count of a
shift is a byte of its own. Whichever way is taken, and whichever other would do, the processor reads the
constant back modulo the width of the operation, and a count as it is. Constants for which there is no way are
refused by name. -/
namespace InstrStream.X86

open Decoder

/-- The constants that an operation takes: below 64 bits those that have the width in a signed or in an unsigned
reading, at 64 bits those that are signed numbers of 32 bits. -/
def Width.InRange (w : Width) (v : Int64) : Prop :=
  match w with
  | .quad => -2 ^ 31 ≤ v.toInt ∧ v.toInt ≤ 2 ^ 31 - 1
  | w => -2 ^ (w.bits - 1) ≤ v.toInt ∧ v.toInt ≤ 2 ^ w.bits - 1

theorem Width.fits_iff {w : Width} {v : Int64} : w.fits v = true ↔ w.InRange v := by
  cases w <;> simp only [fits, fitsLong, InRange, bits, decide_eq_true_eq] <;> omega

instance (w : Width) (v : Int64) : Decidable (w.InRange v) := decidable_of_iff _ Width.fits_iff

theorem Width.inRange_of_fitsByte {v : Int64} (w : Width) (short : fitsByte v.toInt = true) : w.InRange v := by
  simp only [fitsByte, decide_eq_true_eq] at short
  cases w <;> simp only [InRange, bits] <;> omega

/-- An operation that has all its operands but a constant. -/
inductive ConstantUse where
  | binary (op : BinaryOp) (w : Width) (dst : RegMem)
  | multiply (w : Width) (dst src : Gpr)
  | shift (op : ShiftOp) (w : Width) (dst : RegMem)

namespace ConstantUse

/-- The constants that the operation takes. Any can be moved to a 64-bit register. -/
def Takes (v : Int64) : ConstantUse → Prop
  | .binary op w dst => w.InRange v ∨ op = .mov ∧ w = .quad ∧ ∃ r, dst = .reg r
  | .multiply w _ _ => w.InRange v
  | .shift _ _ _ => 0 ≤ v.toInt ∧ v.toInt ≤ 255

/-- The ways to write the operation with a constant. -/
inductive Encoding (v : Int64) : ConstantUse → Instruction → Prop
  | full {op : BinaryOp} {w : Width} {dst : RegMem} :
      w.InRange v → Encoding v (.binary op w dst) (.immediate op w dst v)
  | short {op : ArithOp} {w : Width} {dst : RegMem} :
      w ≠ .byte → -0x80 ≤ v.toInt → v.toInt ≤ 0x7f →
      Encoding v (.binary (.arith op) w dst) (.shortImmediate op w dst v)
  | wide {r : Gpr} : Encoding v (.binary .mov .quad (.reg r)) (.wideImmediate r v)
  | fullFactor {w : Width} {dst src : Gpr} :
      w.InRange v → Encoding v (.multiply w dst src) (.multiplyBy w dst src v)
  | shortFactor {w : Width} {dst src : Gpr} :
      -0x80 ≤ v.toInt → v.toInt ≤ 0x7f → Encoding v (.multiply w dst src) (.multiplyByShort w dst src v)
  | count {op : ShiftOp} {w : Width} {dst : RegMem} {n : UInt8} :
      (n.toNat : Int) = v.toInt → Encoding v (.shift op w dst) (.shiftBy op w dst n)

/-- What the processor reads when it reads this value for the constant. -/
def reading (value : Int) : ConstantUse → Reading
  | .binary op w dst => ⟨.binary op, some w, [rmArg w dst, .imm value]⟩
  | .multiply w dst src => ⟨.multiply, some w, [.reg w dst, .reg w src, .imm value]⟩
  | .shift op w dst => ⟨.shift op, some w, [rmArg w dst, .imm value]⟩

/-- A value does for a constant: it is the same number at the width of the operation, and for a shift it is the
constant itself. -/
def Does (value : Int) (v : Int64) : ConstantUse → Prop
  | .binary _ w _ | .multiply w _ _ => value ≡ v.toInt [ZMOD 2 ^ w.bits]
  | .shift _ _ _ => value = v.toInt

def FitsIn (m : Mode) : ConstantUse → Prop
  | .binary _ w dst | .shift _ w dst => dst.FitsIn m w
  | .multiply w dst src => w ≠ .byte ∧ dst.FitsIn m w ∧ src.FitsIn m w

section Reading

variable {use : ConstantUse} {v : Int64} {i : Instruction} {m : Mode}

theorem Encoding.fitsIn (encodes : use.Encoding v i) (fits : use.FitsIn m) : i.FitsIn m := by
  cases encodes with
  | full => exact fits
  | short wide => exact ⟨wide, fits⟩
  | wide => exact fits
  | fullFactor => exact fits
  | shortFactor => exact fits
  | count => exact fits

theorem modEq_of_inRange {w : Width} (inRange : w.InRange v) :
    v.toInt.bmod (span w.immediateSize) ≡ v.toInt [ZMOD 2 ^ w.bits] := by
  have same := bmod_immediate (Width.fits_iff.mpr inRange)
  cases w <;> exact same

theorem bmod_byte (low : -0x80 ≤ v.toInt) (high : v.toInt ≤ 0x7f) : v.toInt.bmod (span 1) = v.toInt :=
  bmod_span_one (decide_eq_true ⟨low, high⟩)

/-- Every encoding is read as the same operation with the same operands and a value that does. -/
theorem Encoding.reading_eq (encodes : use.Encoding v i) (m : Mode) :
    ∃ value, use.Does value v ∧ i.reading m = use.reading value := by
  cases encodes with
  | full inRange => exact ⟨_, modEq_of_inRange inRange, rfl⟩
  | short _ low high =>
      refine ⟨_, ?_, rfl⟩
      rw [bmod_byte low high]
      exact .refl _
  | wide => exact ⟨_, .refl _, rfl⟩
  | fullFactor inRange => exact ⟨_, modEq_of_inRange inRange, rfl⟩
  | shortFactor low high =>
      refine ⟨_, ?_, rfl⟩
      rw [bmod_byte low high]
      exact .refl _
  | count same => exact ⟨_, same, rfl⟩

end Reading

/-- The instruction that the operation becomes with a constant. -/
def lowered (v : Int64) : ConstantUse → Except EncodingError Instruction
  | .binary op w (.reg r) => lowerBinary op w (.reg r) (.imm v)
  | .binary op w (.mem a) => lowerBinary op w (.mem a) (.imm v)
  | .multiply w dst src =>
    if fitsByte v.toInt then .ok (.multiplyByShort w dst src v) else .multiplyBy w dst src <$> w.check v
  | .shift op w dst =>
    if 0 ≤ v.toInt ∧ v.toInt < 256 then .ok (.shiftBy op w dst (.ofNat v.toInt.toNat))
    else .error (.immediateOutOfRange v)

section Lowering

variable {v : Int64}

theorem check_of_inRange {w : Width} (inRange : w.InRange v) : w.check v = .ok v :=
  if_pos (Width.fits_iff.mpr inRange)

theorem check_of_not_inRange {w : Width} (outside : ¬ w.InRange v) :
    w.check v = .error (.immediateOutOfRange v) :=
  if_neg fun fits => outside (Width.fits_iff.mp fits)

theorem exists_lowerImmediate_of_inRange (op : BinaryOp) {w : Width} (dst : RegMem) (inRange : w.InRange v) :
    ∃ i, lowerImmediate op w dst v = .ok i ∧ Encoding v (.binary op w dst) i := by
  have plain : Instruction.immediate op w dst <$> w.check v = .ok (.immediate op w dst v) := by
    rw [check_of_inRange inRange]
    rfl
  cases op with
  | mov | test => exact ⟨_, plain, .full inRange⟩
  | arith a =>
      rw [lowerImmediate]
      split
      · rename_i short
        have bounds := of_decide_eq_true short.2
        exact ⟨_, rfl, .short short.1 bounds.1 bounds.2⟩
      · exact ⟨_, plain, .full inRange⟩

theorem lowerImmediate_of_not_inRange (op : BinaryOp) {w : Width} (dst : RegMem) (outside : ¬ w.InRange v) :
    lowerImmediate op w dst v = .error (.immediateOutOfRange v) := by
  have plain : Instruction.immediate op w dst <$> w.check v = .error (.immediateOutOfRange v) := by
    rw [check_of_not_inRange outside]
    rfl
  cases op with
  | mov | test => exact plain
  | arith a =>
      rw [lowerImmediate, if_neg, plain]
      rintro ⟨-, short⟩
      exact outside (w.inRange_of_fitsByte short)

/-- A constant that is taken is encoded in one of the ways. -/
theorem exists_lowered (use : ConstantUse) (takes : use.Takes v) :
    ∃ i, use.lowered v = .ok i ∧ use.Encoding v i := by
  cases use with
  | binary op w dst =>
      cases dst with
      | mem a =>
          rcases takes with inRange | ⟨-, -, r, other⟩
          · exact exists_lowerImmediate_of_inRange op (.mem a) inRange
          · cases other
      | reg r =>
          rw [lowered, lowerBinary]
          split
          · rename_i tooWide
            obtain ⟨rfl, rfl, -⟩ := tooWide
            exact ⟨_, rfl, .wide⟩
          · rename_i notWide
            apply exists_lowerImmediate_of_inRange
            rcases takes with inRange | ⟨rfl, rfl, -⟩
            · exact inRange
            · rw [← Width.fits_iff]
              simpa [Width.fits] using notWide
  | multiply w dst src =>
      rw [lowered]
      split
      · rename_i short
        have bounds := of_decide_eq_true short
        exact ⟨_, rfl, .shortFactor bounds.1 bounds.2⟩
      · rw [check_of_inRange takes]
        exact ⟨_, rfl, .fullFactor takes⟩
  | shift op w dst =>
      obtain ⟨low, high⟩ := takes
      have small : v.toInt < 256 := by omega
      exact ⟨_, if_pos ⟨low, small⟩, .count (toNat_count low small)⟩

/-- A constant that is not taken is refused by its value. -/
theorem lowered_of_not_takes (use : ConstantUse) (refuses : ¬ use.Takes v) :
    use.lowered v = .error (.immediateOutOfRange v) := by
  cases use with
  | binary op w dst =>
      have outside : ¬ w.InRange v := fun inRange => refuses (.inl inRange)
      cases dst with
      | mem a => exact lowerImmediate_of_not_inRange op (.mem a) outside
      | reg r =>
          rw [lowered, lowerBinary, if_neg, lowerImmediate_of_not_inRange op (.reg r) outside]
          rintro ⟨mov, quad, -⟩
          exact refuses (.inr ⟨mov, quad, r, rfl⟩)
  | multiply w dst src =>
      rw [lowered, if_neg, check_of_not_inRange refuses]
      · rfl
      · intro short
        exact refuses (w.inRange_of_fitsByte short)
  | shift op w dst =>
      rw [lowered, if_neg]
      rintro ⟨low, high⟩
      exact refuses ⟨low, by omega⟩

end Lowering

end ConstantUse

namespace Mnemonic

/-- Whether the operation can have a constant. -/
def takesConstant : Mnemonic → Bool
  | .binary _ _ | .imul _ | .shift _ _ => true
  | _ => false

/-- Comparisons read their operands the other way round. -/
def isComparison : Mnemonic → Bool
  | .binary op _ => op = .arith .cmp
  | _ => false

/-- The record with a constant in the place where the operation takes one. -/
def withConstant (mnemonic : Mnemonic) (v : Int64) (p : Payload) : Payload :=
  if mnemonic.isComparison then { p with dst := .const v } else { p with src := .const v }

theorem op_withConstant (mnemonic : Mnemonic) (v : Int64) (p : Payload) :
    (mnemonic.withConstant v p).op = p.op := by
  unfold withConstant
  split <;> rfl

end Mnemonic

/-- The operation of a record has the other operands that the record names. -/
inductive Uses (p : Payload) : Mnemonic → ConstantUse → Prop
  | binary {op : BinaryOp} {w : Width} {dst : RegMem} :
      Named w (if op = .arith .cmp then p.src else p.dst) (rmArg w dst) →
      Uses p (.binary op w) (.binary op w dst)
  | multiply {w : Width} {dst src : Gpr} :
      Named w p.dst (.reg w dst) → Named w (if p.reg.isNone then p.dst else .reg p.reg) (.reg w src) →
      Uses p (.imul w) (.multiply w dst src)
  | shift {op : ShiftOp} {w : Width} {dst : RegMem} :
      Named w p.dst (rmArg w dst) → Uses p (.shift op w) (.shift op w dst)

section Records

variable {m : Mode} {inFunction : Handle → Bool} {p : Payload} {u : Int64} {x : Option Emission}

/-- The other operand of a two-operand operation is resolved, and then the constant is looked at. -/
theorem lowerMnemonic_binary (op : BinaryOp) (w : Width) (v : Int64) :
    lowerMnemonic m inFunction (Mnemonic.withConstant (.binary op w) v p) (.binary op w) = do
      let d ← m.resolve w (if op = .arith .cmp then p.src else p.dst)
      return some (.plain (← lowerBinary op w d (.imm v))) := by
  by_cases cmp : op = .arith .cmp
  · simp only [lowerMnemonic, Mnemonic.withConstant, Mnemonic.isComparison, cmp, decide_true, if_pos]
    cases m.resolve w p.src <;> rfl
  · simp only [lowerMnemonic, Mnemonic.withConstant, Mnemonic.isComparison, cmp, decide_false, if_false,
      Bool.false_eq_true]
    cases m.resolve w p.dst <;> rfl

theorem exists_use_binary {op : BinaryOp} {w : Width}
    (accepted : lowerMnemonic m inFunction (Mnemonic.withConstant (.binary op w) u p) (.binary op w) = .ok x) :
    ∃ use, Uses p (.binary op w) use ∧ use.FitsIn m ∧ ∀ v,
      lowerMnemonic m inFunction (Mnemonic.withConstant (.binary op w) v p) (.binary op w) =
        (fun i => some (.plain i)) <$> use.lowered v := by
  rw [lowerMnemonic_binary] at accepted
  obtain ⟨d, resolved, accepted⟩ := bind_eq_ok.mp accepted
  obtain ⟨i, lowered, -⟩ := bind_eq_ok.mp accepted
  cases d with
  | imm v => cases lowered
  | reg r =>
      obtain ⟨named, fits⟩ := resolve_reg resolved
      refine ⟨.binary op w (.reg r), .binary named, fits, fun v => ?_⟩
      rw [lowerMnemonic_binary, resolved]
      rfl
  | mem a =>
      obtain ⟨named, fits⟩ := resolve_mem resolved
      refine ⟨.binary op w (.mem a), .binary named, fits, fun v => ?_⟩
      rw [lowerMnemonic_binary, resolved]
      rfl

theorem lowerImul_const (w : Width) (v : Int64) :
    lowerImul m w { p with src := .const v } = m.resolveReg w p.dst >>= fun dst =>
      (if p.reg.isNone then .ok dst else m.gpr p.reg w) >>= fun src =>
        ConstantUse.lowered v (.multiply w dst src) := by
  have chosen : ∀ dst src : Gpr, (if fitsByte v.toInt then .ok (.multiplyByShort w dst src v)
      else w.check v >>= fun v => .ok (.multiplyBy w dst src v)) =
        ConstantUse.lowered v (.multiply w dst src) := by
    intro dst src
    rw [ConstantUse.lowered]
    cases w.check v <;> rfl
  simp only [lowerImul, ← chosen]
  cases m.resolveReg w p.dst with
  | error e => rfl
  | ok dst =>
      by_cases absent : p.reg.isNone = true
      · simp only [if_pos absent]
        rfl
      · simp only [if_neg absent]
        rfl

theorem exists_use_imul {w : Width} {i : Instruction} (wide : w ≠ .byte)
    (accepted : lowerImul m w { p with src := .const u } = .ok i) :
    ∃ use, Uses p (.imul w) use ∧ use.FitsIn m ∧ ∀ v,
      lowerImul m w { p with src := .const v } = use.lowered v := by
  rw [lowerImul_const] at accepted
  obtain ⟨dst, dst_run, accepted⟩ := bind_eq_ok.mp accepted
  obtain ⟨src, src_run, -⟩ := bind_eq_ok.mp accepted
  obtain ⟨dst_named, dst_fits⟩ := resolveReg_eq_ok dst_run
  have src_operand : Named w (if p.reg.isNone then p.dst else .reg p.reg) (.reg w src) ∧ src.FitsIn m w := by
    split at src_run
    · rename_i absent
      obtain rfl : dst = src := Except.ok.inj src_run
      rw [if_pos absent]
      exact ⟨dst_named, dst_fits⟩
    · rename_i present
      obtain ⟨number, fits⟩ := gpr_eq_ok.mp src_run
      rw [if_neg present]
      exact ⟨.reg number, fits⟩
  refine ⟨.multiply w dst src, .multiply dst_named src_operand.1, ⟨wide, dst_fits, src_operand.2⟩, fun v => ?_⟩
  simp only [lowerImul_const, dst_run, bind, Except.bind, src_run]

theorem exists_use_shift {op : ShiftOp} {w : Width} {i : Instruction}
    (accepted : lowerShift m op w { p with src := .const u } = .ok i) :
    ∃ use, Uses p (.shift op w) use ∧ use.FitsIn m ∧ ∀ v,
      lowerShift m op w { p with src := .const v } = use.lowered v := by
  obtain ⟨dst, resolved, -⟩ := bind_eq_ok.mp accepted
  obtain ⟨named, fits⟩ := resolveRegMem_eq_ok resolved
  refine ⟨.shift op w dst, .shift named, fits, fun v => ?_⟩
  simp only [lowerShift, resolved, bind, Except.bind, ConstantUse.lowered]
  split <;> rfl

/-- What a record comes to with one constant or another depends on the constant only through its operation. -/
theorem exists_use {mnemonic : Mnemonic} (opcode : Mnemonic.ofOpcode? p.op = some mnemonic)
    (takes : mnemonic.takesConstant = true)
    (accepted : lower m inFunction (mnemonic.withConstant u p) = .ok x) :
    ∃ use, Uses p mnemonic use ∧ use.FitsIn m ∧ ∀ v,
      lower m inFunction (mnemonic.withConstant v p) = (fun i => some (.plain i)) <$> use.lowered v := by
  have own : ∀ v, lower m inFunction (mnemonic.withConstant v p) =
      lowerMnemonic m inFunction (mnemonic.withConstant v p) mnemonic := by
    intro v
    apply lower_eq_lowerMnemonic
    rw [Mnemonic.op_withConstant, opcode]
  simp only [own] at accepted ⊢
  cases mnemonic with
  | binary op w => exact exists_use_binary accepted
  | imul w =>
      obtain ⟨i, lowered, -⟩ := bind_eq_ok.mp accepted
      obtain ⟨use, uses, fits, all⟩ := exists_use_imul (wide_of_ofOpcode? (.inl opcode)) lowered
      refine ⟨use, uses, fits, fun v => ?_⟩
      rw [← all v]
      rfl
  | shift op w =>
      obtain ⟨i, lowered, -⟩ := bind_eq_ok.mp accepted
      obtain ⟨use, uses, fits, all⟩ := exists_use_shift lowered
      refine ⟨use, uses, fits, fun v => ?_⟩
      rw [← all v]
      rfl
  | lea | unary | push | pop | jump | int3 | syscall | hlt => cases takes

end Records

/-- Constants are never truncated. Let a record be accepted with some constant. With any constant that its
operation takes it is accepted as well, in one of the encodings that can hold the constant. All these encodings
are read back as the operation of the record on its operands, with a constant that is the same at the width of
the operation; the count of a shift is read as it is. With any other constant the record is refused because of
that constant. -/
theorem constants_never_truncated {m : Mode} (has_code : m ≠ .bits16) {inFunction : Handle → Bool} {p : Payload}
    {mnemonic : Mnemonic} (opcode : Mnemonic.ofOpcode? p.op = some mnemonic)
    (takes : mnemonic.takesConstant = true) {u : Int64} {x : Option Emission}
    (accepted : lower m inFunction (mnemonic.withConstant u p) = .ok x) :
    ∃ use, Uses p mnemonic use ∧ ∀ v,
      (use.Takes v → ∃ i, use.Encoding v i ∧
        lower m inFunction (mnemonic.withConstant v p) = .ok (some (.plain i))) ∧
      (¬ use.Takes v → lower m inFunction (mnemonic.withConstant v p) = .error (.immediateOutOfRange v)) ∧
      ∀ i, use.Encoding v i → i.existsIn m = true → ∃ value, use.Does value v ∧
        ∀ rest, read m (i.bytes m ++ rest) = some (use.reading value, rest) := by
  obtain ⟨use, uses, fits, lowers⟩ := exists_use opcode takes accepted
  refine ⟨use, uses, fun v => ⟨fun taken => ?_, fun refused => ?_, fun i encodes exists_in => ?_⟩⟩
  · obtain ⟨i, lowered, encodes⟩ := use.exists_lowered taken
    exact ⟨i, encodes, by rw [lowers v, lowered]; rfl⟩
  · rw [lowers v, use.lowered_of_not_takes refused]
    rfl
  · obtain ⟨value, does, reading⟩ := encodes.reading_eq m
    refine ⟨value, does, fun rest => ?_⟩
    rw [read_bytes has_code (encodes.fitsIn fits) exists_in, reading]

/-- `XORW` to AX, still without a constant. -/
def xorWord : Payload := { op := Mnemonic.opcode (.binary (.arith .xor) .word), dst := .reg ⟨1⟩ }

/-- A word that is negative in a signed reading is taken in its unsigned reading too, and one number further
there is no encoding. -/
theorem constants_never_truncated_word :
    ∃ i value, lower .bits64 (fun _ => false) { xorWord with src := .const 0xff80 } = .ok (some (.plain i)) ∧
      value ≡ 0xff80 [ZMOD 2 ^ 16] ∧
      read .bits64 (i.bytes .bits64) =
        some (⟨.binary (.arith .xor), some .word, [.reg .word ⟨0⟩, .imm value]⟩, []) ∧
      lower .bits64 (fun _ => false) { xorWord with src := .const 0x10000 } =
        .error (.immediateOutOfRange 0x10000) := by
  have accepted : ∃ x, lower .bits64 (fun _ => false)
      (Mnemonic.withConstant (.binary (.arith .xor) .word) 0 xorWord) = .ok x := ⟨_, rfl⟩
  obtain ⟨x, accepted⟩ := accepted
  obtain ⟨use, uses, all⟩ := constants_never_truncated (m := .bits64) (by decide) (p := xorWord) rfl rfl accepted
  cases uses with
  | @binary _ _ dst named =>
      obtain rfl : dst = .reg ⟨0⟩ := by
        cases dst with
        | mem a => cases named
        | reg g =>
            cases named with
            | reg number =>
                have zero : g.number.val = 0 := by
                  have one : (1 : Int) = g.number.val + 1 := number
                  omega
                exact congrArg (fun n => RegMem.reg ⟨n⟩) (Fin.ext zero)
      obtain ⟨taken, -, reads⟩ := all 0xff80
      obtain ⟨-, refused, -⟩ := all 0x10000
      obtain ⟨i, encodes, lowered⟩ := taken (.inl (by decide))
      obtain ⟨value, does, read⟩ := reads i encodes rfl
      have alone := read []
      rw [List.append_nil] at alone
      refine ⟨i, value, lowered, does, alone, refused ?_⟩
      rintro (inRange | ⟨⟨⟩, -⟩)
      exact absurd inRange (by decide)

end InstrStream.X86
