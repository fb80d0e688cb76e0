import InstrStream.Proofs.X86.EncodeDecode
import InstrStream.X86.Lowering

/-! The meaning of records. What a record asks for is said in the terms of the processor, with registers
by number, memory by effective address and constants by value, and without a word about encodings.
Lowering gives an instruction only where it is read as what the record says. -/
namespace InstrStream.X86

open Decoder

/-- Number of values of an operand. -/
def Width.values : Width → Nat
  | .byte => 0x100
  | .word => 0x10000
  | .long => 0x100000000
  | .quad => 0x10000000000000000

/-- The contents of a register, in a register file that goes by record numbers. No register counts
as zero. -/
def regValue (file : Int → Int) (r : Reg) : Int := if r.isNone then 0 else file r.number.toInt

/-- The contents of a register by its hardware number, which is one less than the record's. -/
def gprValue (file : Int → Int) (g : Gpr) : Int := file (g.number.val + 1)

/-- The address of a memory operand as the processor computes it. -/
def effectiveAddress (file : Int → Int) : Arg → Option Int
  | .mem base index d =>
    some (base.elim 0 (gprValue file) + index.elim 0 (fun i => gprValue file i.1 * i.2.factor) + d)
  | _ => none

/-- An argument is the register or the memory that an operand names. -/
inductive Named (w : Width) : Operand → Arg → Prop
  | reg {r : Reg} {g : Gpr} : r.number.toInt = g.number.val + 1 → Named w (.reg r) (.reg w g)
  | mem {base index : Reg} {scale : UInt8} {offset : Int32} {a : Arg} :
      (∀ file, effectiveAddress file a =
        some (regValue file base + regValue file index * scale.toNat + offset.toInt)) →
      Named w (.mem base index scale offset) a

/-- An argument is what an operand names, or a constant with the same value at this width. -/
inductive Given (w : Width) : Operand → Arg → Prop
  | named {o : Operand} {a : Arg} : Named w o a → Given w o a
  | const {v : Int64} {value : Int} :
      value % w.values = v.toInt % w.values → Given w (.const v) (.imm value)

/-- What the processor reads is what a record says. A displacement has to satisfy `leads` for the
record that the branch goes to. -/
inductive Denotes (m : Mode) (leads : Handle → Int → Prop) (p : Payload) : Reading → Prop
  | ret : p.op = .ret → Denotes m leads p ⟨.ret, none, []⟩
  | jump {t : Handle} {d : Int} :
      p.op = .jmp → p.dst = .branch t → leads t d → Denotes m leads p ⟨.jump, none, [.codeFromNext d]⟩
  | call {t : Handle} {d : Int} :
      p.op = .call → p.dst = .branch t → leads t d → Denotes m leads p ⟨.call, none, [.codeFromNext d]⟩
  | jumpIf {c : Condition} {t : Handle} {d : Int} :
      Mnemonic.ofOpcode? p.op = some (.jump c) → p.dst = .branch t → leads t d →
      Denotes m leads p ⟨.jumpIf c, none, [.codeFromNext d]⟩
  | jumpTo {a : Arg} :
      p.op = .jmp → Named m.nativeWidth p.dst a → Denotes m leads p ⟨.jump, some m.nativeWidth, [a]⟩
  | callTo {a : Arg} :
      p.op = .call → Named m.nativeWidth p.dst a → Denotes m leads p ⟨.call, some m.nativeWidth, [a]⟩
  | binary {op : BinaryOp} {w : Width} {dst src : Arg} :
      Mnemonic.ofOpcode? p.op = some (.binary op w) → op ≠ .arith .cmp → Given w p.dst dst →
      Given w p.src src → Denotes m leads p ⟨.binary op, some w, [dst, src]⟩
  -- A comparison reads its operands in the order of the record.
  | compare {w : Width} {a b : Arg} :
      Mnemonic.ofOpcode? p.op = some (.binary (.arith .cmp) w) → Given w p.src a → Given w p.dst b →
      Denotes m leads p ⟨.binary (.arith .cmp), some w, [a, b]⟩
  -- The order of a test does not matter.
  | test {w : Width} {a b : Arg} :
      Mnemonic.ofOpcode? p.op = some (.binary .test w) → Given w p.src a → Given w p.dst b →
      Denotes m leads p ⟨.binary .test, some w, [a, b]⟩
  | multiply {w : Width} {dst src : Arg} :
      Mnemonic.ofOpcode? p.op = some (.imul w) → Named w p.dst dst → Named w p.src src →
      Denotes m leads p ⟨.multiply, some w, [dst, src]⟩
  | multiplyBy {w : Width} {dst factor value : Arg} {v : Int64} :
      Mnemonic.ofOpcode? p.op = some (.imul w) → Named w p.dst dst →
      Named w (if p.reg.isNone then p.dst else .reg p.reg) factor → p.src = .const v →
      Given w p.src value → Denotes m leads p ⟨.multiply, some w, [dst, factor, value]⟩
  | lea {w : Width} {dst src : Arg} :
      Mnemonic.ofOpcode? p.op = some (.lea w) → Named w p.dst dst → Named w p.src src →
      Denotes m leads p ⟨.lea, some w, [dst, src]⟩
  | unary {op : UnaryOp} {w : Width} {dst : Arg} :
      Mnemonic.ofOpcode? p.op = some (.unary op w) → Named w p.dst dst →
      Denotes m leads p ⟨.unary op, some w, [dst]⟩
  | shiftBy {op : ShiftOp} {w : Width} {dst : Arg} {v : Int64} :
      Mnemonic.ofOpcode? p.op = some (.shift op w) → Named w p.dst dst → p.src = .const v →
      Denotes m leads p ⟨.shift op, some w, [dst, .imm v.toInt]⟩
  | shiftByCl {op : ShiftOp} {w : Width} {dst cl : Arg} :
      Mnemonic.ofOpcode? p.op = some (.shift op w) → Named w p.dst dst → p.src = .reg cx →
      Named .byte p.src cl → Denotes m leads p ⟨.shift op, some w, [dst, cl]⟩
  | push {a : Arg} :
      Mnemonic.ofOpcode? p.op = some (.push m.nativeWidth) → Named m.nativeWidth p.src a →
      Denotes m leads p ⟨.push, some m.nativeWidth, [a]⟩
  | pop {a : Arg} :
      Mnemonic.ofOpcode? p.op = some (.pop m.nativeWidth) → Named m.nativeWidth p.dst a →
      Denotes m leads p ⟨.pop, some m.nativeWidth, [a]⟩
  | int3 : Mnemonic.ofOpcode? p.op = some .int3 → Denotes m leads p ⟨.int3, none, []⟩
  | syscall : Mnemonic.ofOpcode? p.op = some .syscall → Denotes m leads p ⟨.syscall, none, []⟩
  | hlt : Mnemonic.ofOpcode? p.op = some .hlt → Denotes m leads p ⟨.hlt, none, []⟩

theorem bind_eq_ok {α β ε : Type} {x : Except ε α} {f : α → Except ε β} {b : β} :
    x >>= f = .ok b ↔ ∃ a, x = .ok a ∧ f a = .ok b := by
  cases x with
  | error e => exact ⟨nofun, nofun⟩
  | ok a => exact ⟨fun run => ⟨a, rfl, run⟩, by rintro ⟨_, ⟨⟩, run⟩; exact run⟩

theorem map_eq_ok {α β ε : Type} {f : α → β} {x : Except ε α} {b : β} :
    f <$> x = .ok b ↔ ∃ a, x = .ok a ∧ f a = b := by
  cases x with
  | error e => exact ⟨nofun, nofun⟩
  | ok a => exact ⟨fun | rfl => ⟨a, rfl, rfl⟩, by rintro ⟨_, ⟨⟩, rfl⟩; rfl⟩

theorem ofReg?_eq_some {r : Reg} {g : Gpr} :
    Gpr.ofReg? r = some g ↔ r.number.toInt = g.number.val + 1 := by
  obtain ⟨n⟩ := g
  have small := n.isLt
  simp only [Gpr.ofReg?]
  split
  · simp only [Option.some.injEq, Gpr.mk.injEq, Fin.ext_iff]
    omega
  · constructor
    · intro absent
      cases absent
    · intro same
      omega

/-- A register is resolved exactly where the mode can name it. -/
theorem gpr_eq_ok {m : Mode} {r : Reg} {w : Width} {g : Gpr} :
    m.gpr r w = .ok g ↔ r.number.toInt = g.number.val + 1 ∧ g.FitsIn m w := by
  rw [← ofReg?_eq_some]
  unfold Mode.gpr Gpr.FitsIn
  cases found : Gpr.ofReg? r with
  | none => simp
  | some h =>
      by_cases narrow : m = .bits32
      · by_cases quad : w = .quad
        · simp [narrow, quad]
        · by_cases outside : w.registersIn32 ≤ h.number.val
          · simp only [narrow, if_pos, quad, if_neg, outside, not_false_eq_true, reduceCtorEq, ne_eq,
              true_and, forall_const, false_iff, not_and, Option.some.injEq, not_lt]
            rintro rfl
            exact outside
          · simp only [narrow, if_pos, quad, if_neg, outside, not_false_eq_true, ne_eq, true_and,
              forall_const, Except.ok.injEq, Option.some.injEq, iff_self_and]
            rintro rfl
            omega
      · simp [narrow]

theorem regValue_of_some {r : Reg} {g : Gpr} (number : r.number.toInt = g.number.val + 1)
    (file : Int → Int) : regValue file r = gprValue file g := by
  have not_none : r.isNone = false := by
    simp only [Reg.isNone, decide_eq_false_iff_not]
    rintro rfl
    have zero : Reg.none.number.toInt = 0 := rfl
    omega
  simp [regValue, gprValue, not_none, number]

theorem addressReg_eq_ok {m : Mode} {r : Reg} {found : Option Gpr}
    (resolved : m.addressReg r = .ok found) :
    (∀ file, found.elim 0 (gprValue file) = regValue file r) ∧
      ∀ g ∈ found, r.number.toInt = g.number.val + 1 ∧ g.FitsIn m m.nativeWidth := by
  unfold Mode.addressReg at resolved
  split at resolved
  case isTrue absent =>
      cases resolved
      exact ⟨fun file => by simp [regValue, absent], nofun⟩
  case isFalse =>
      obtain ⟨g, run, rfl⟩ := map_eq_ok.mp resolved
      obtain ⟨number, fits⟩ := gpr_eq_ok.mp run
      refine ⟨fun file => (regValue_of_some number file).symm, ?_⟩
      rintro _ ⟨⟩
      exact ⟨number, fits⟩

theorem scale_factor {n : UInt8} {scale : Scale} (found : Scale.ofByte? n = some scale) :
    scale.factor = n.toNat := by
  unfold Scale.ofByte? at found
  split at found <;> cases found <;> rfl

theorem address_eq_ok {m : Mode} {o : Operand} {a : Address} (resolved : m.address o = .ok a)
    (w : Width) : Named w o (addressArg a) ∧ a.FitsIn m := by
  unfold Mode.address at resolved
  split at resolved
  case h_2 => cases resolved
  case h_1 base index n offset =>
      split at resolved
      case h_1 => cases resolved
      case h_2 scale found =>
          split at resolved
          case isTrue => cases resolved
          case isFalse not_sp =>
              obtain ⟨b, base_run, resolved⟩ := bind_eq_ok.mp resolved
              obtain ⟨i, index_run, resolved⟩ := bind_eq_ok.mp resolved
              cases resolved
              obtain ⟨base_value, base_fits⟩ := addressReg_eq_ok base_run
              obtain ⟨index_value, index_fits⟩ := addressReg_eq_ok index_run
              refine ⟨.mem fun file => ?_, fun g at_g => (base_fits g at_g).2, fun g at_g => ?_⟩
              · simp only [effectiveAddress, addressArg, ← base_value, ← index_value,
                  ← scale_factor found]
                cases i <;> simp
              · obtain ⟨number, fits⟩ := index_fits g at_g
                refine ⟨fits, fun four => not_sp ?_⟩
                have five : index.number.toInt = sp.number.toInt := by
                  rw [number, four]
                  rfl
                cases index
                exact congrArg Reg.mk (Int16.toInt_inj.mp five)

section Resolve

variable {m : Mode} {w : Width} {o : Operand}

theorem resolve_reg {g : Gpr} (resolved : m.resolve w o = .ok (.reg g)) :
    Named w o (.reg w g) ∧ g.FitsIn m w := by
  cases o with
  | none | branch | const => cases resolved
  | mem base index scale offset =>
      obtain ⟨_, _, other⟩ := map_eq_ok.mp resolved
      cases other
  | reg r =>
      obtain ⟨_, run, ⟨⟩⟩ := map_eq_ok.mp resolved
      obtain ⟨number, fits⟩ := gpr_eq_ok.mp run
      exact ⟨.reg number, fits⟩

theorem resolve_mem {a : Address} (resolved : m.resolve w o = .ok (.mem a)) :
    Named w o (addressArg a) ∧ a.FitsIn m := by
  cases o with
  | none | branch | const => cases resolved
  | mem base index scale offset =>
      obtain ⟨_, run, ⟨⟩⟩ := map_eq_ok.mp resolved
      exact address_eq_ok run w
  | reg r =>
      obtain ⟨_, _, other⟩ := map_eq_ok.mp resolved
      cases other

theorem resolve_imm {v : Int64} (resolved : m.resolve w o = .ok (.imm v)) : o = .const v := by
  cases o with
  | none | branch => cases resolved
  | const value =>
      cases resolved
      rfl
  | mem | reg =>
      obtain ⟨_, _, other⟩ := map_eq_ok.mp resolved
      cases other

theorem resolveRegMem_eq_ok {rm : RegMem} (resolved : m.resolveRegMem w o = .ok rm) :
    Named w o (rmArg w rm) ∧ rm.FitsIn m w := by
  obtain ⟨r, run, resolved⟩ := bind_eq_ok.mp resolved
  cases r with
  | reg g =>
      cases resolved
      exact resolve_reg run
  | mem a =>
      cases resolved
      exact resolve_mem run
  | imm v => cases resolved

theorem resolveReg_eq_ok {g : Gpr} (resolved : m.resolveReg w o = .ok g) :
    Named w o (.reg w g) ∧ g.FitsIn m w := by
  obtain ⟨r, run, resolved⟩ := bind_eq_ok.mp resolved
  cases r with
  | reg g =>
      cases resolved
      exact resolve_reg run
  | mem | imm => cases resolved

end Resolve

theorem bmod_span_one {v : Int} (fits : fitsByte v = true) : v.bmod (span 1) = v := by
  simp only [fitsByte, decide_eq_true_eq] at fits
  exact Int.bmod_eq_of_le (by simp [span]; omega) (by simp [span]; omega)

/-- A constant that fits a width is read with its value at that width. -/
theorem bmod_immediate {w : Width} {v : Int64} (fits : w.fits v = true) :
    v.toInt.bmod (span w.immediateSize) % w.values = v.toInt % w.values := by
  cases w with
  | byte | word | long => exact Int.bmod_emod
  | quad =>
      simp only [Width.fits, fitsLong, decide_eq_true_eq] at fits
      have same : v.toInt.bmod (span Width.quad.immediateSize) = v.toInt :=
        Int.bmod_eq_of_le (by simp [span, Width.immediateSize]; omega)
          (by simp [span, Width.immediateSize]; omega)
      rw [same]

theorem check_eq_ok {w : Width} {v v' : Int64} (checked : w.check v = .ok v') :
    v' = v ∧ w.fits v = true := by
  unfold Width.check at checked
  split at checked
  case isTrue fits =>
      cases checked
      exact ⟨rfl, fits⟩
  case isFalse => cases checked

section Lower

variable {m : Mode} {w : Width} {i : Instruction}

theorem lowerImmediate_eq_ok {op : BinaryOp} (dst : RegMem) {v : Int64}
    (lowered : lowerImmediate op w dst v = .ok i) (fits : dst.FitsIn m w) :
    i.FitsIn m ∧ ∃ value, i.reading m = ⟨.binary op, some w, [rmArg w dst, .imm value]⟩ ∧
      Given w (.const v) (.imm value) := by
  have plain (run : Instruction.immediate op w dst <$> w.check v = .ok i) : i.FitsIn m ∧
      ∃ value, i.reading m = ⟨.binary op, some w, [rmArg w dst, .imm value]⟩ ∧
        Given w (.const v) (.imm value) := by
    obtain ⟨v', checked, rfl⟩ := map_eq_ok.mp run
    obtain ⟨rfl, in_range⟩ := check_eq_ok checked
    exact ⟨fits, _, rfl, .const (bmod_immediate in_range)⟩
  cases op with
  | mov | test => exact plain lowered
  | arith a =>
      simp only [lowerImmediate] at lowered
      split at lowered
      case isTrue short =>
          cases lowered
          refine ⟨⟨short.1, fits⟩, _, rfl, .const ?_⟩
          rw [bmod_span_one short.2]
      case isFalse => exact plain lowered

/-- A two-operand instruction has its operands in order, unless it is a test. -/
theorem lowerBinary_eq_ok {op : BinaryOp} {first second : Operand} {d s : Resolved}
    (first_run : m.resolve w first = .ok d) (second_run : m.resolve w second = .ok s)
    (lowered : lowerBinary op w d s = .ok i) :
    i.FitsIn m ∧ ∃ a b, Given w first a ∧ Given w second b ∧
      (i.reading m = ⟨.binary op, some w, [a, b]⟩ ∨
        op = .test ∧ i.reading m = ⟨.binary .test, some w, [b, a]⟩) := by
  cases d with
  | imm v => cases s <;> cases lowered
  | reg d =>
      obtain ⟨d_named, d_fits⟩ := resolve_reg first_run
      cases s with
      | reg s =>
          obtain ⟨s_named, s_fits⟩ := resolve_reg second_run
          cases lowered
          exact ⟨⟨d_fits, s_fits⟩, _, _, .named d_named, .named s_named, .inl rfl⟩
      | mem s =>
          obtain ⟨s_named, s_fits⟩ := resolve_mem second_run
          cases lowered
          refine ⟨⟨d_fits, s_fits⟩, _, _, .named d_named, .named s_named, ?_⟩
          cases op with
          | mov | arith => exact .inl rfl
          | test => exact .inr ⟨rfl, rfl⟩
      | imm v =>
          cases resolve_imm second_run
          simp only [lowerBinary] at lowered
          split at lowered
          case isTrue wide =>
              obtain ⟨rfl, rfl, _⟩ := wide
              cases lowered
              exact ⟨d_fits, _, _, .named d_named, .const rfl, .inl rfl⟩
          case isFalse =>
              obtain ⟨fits, value, reads, given⟩ := lowerImmediate_eq_ok (m := m) (.reg d) lowered d_fits
              exact ⟨fits, _, _, .named d_named, given, .inl reads⟩
  | mem d =>
      obtain ⟨d_named, d_fits⟩ := resolve_mem first_run
      cases s with
      | reg s =>
          obtain ⟨s_named, s_fits⟩ := resolve_reg second_run
          cases lowered
          exact ⟨⟨d_fits, s_fits⟩, _, _, .named d_named, .named s_named, .inl rfl⟩
      | mem s => cases lowered
      | imm v =>
          cases resolve_imm second_run
          obtain ⟨fits, value, reads, given⟩ := lowerImmediate_eq_ok (m := m) (.mem d) lowered d_fits
          exact ⟨fits, _, _, .named d_named, given, .inl reads⟩

variable {p : Payload} {leads : Handle → Int → Prop}

theorem lowerImul_eq_ok (opcode : Mnemonic.ofOpcode? p.op = some (.imul w)) (wide : w ≠ .byte)
    (lowered : lowerImul m w p = .ok i) : i.FitsIn m ∧ Denotes m leads p (i.reading m) := by
  obtain ⟨dst, dst_run, lowered⟩ := bind_eq_ok.mp lowered
  obtain ⟨src, src_run, lowered⟩ := bind_eq_ok.mp lowered
  obtain ⟨dst_named, dst_fits⟩ := resolveReg_eq_ok dst_run
  cases src with
  | reg s =>
      obtain ⟨src_named, src_fits⟩ := resolve_reg src_run
      cases lowered
      exact ⟨⟨wide, dst_fits, src_fits⟩, .multiply opcode dst_named src_named⟩
  | mem s =>
      obtain ⟨src_named, src_fits⟩ := resolve_mem src_run
      cases lowered
      exact ⟨⟨wide, dst_fits, src_fits⟩, .multiply opcode dst_named src_named⟩
  | imm v =>
      have src_const := resolve_imm src_run
      obtain ⟨factor, factor_named, factor_fits, lowered⟩ : ∃ factor,
          Named w (if p.reg.isNone then p.dst else .reg p.reg) (.reg w factor) ∧ factor.FitsIn m w ∧
          (if fitsByte v.toInt then pure (.multiplyByShort w dst factor v)
            else (do return .multiplyBy w dst factor (← w.check v) :
              Except EncodingError Instruction)) = .ok i := by
        dsimp only at lowered
        split at lowered
        case isTrue absent => exact ⟨dst, by rwa [if_pos absent], dst_fits, lowered⟩
        case isFalse present =>
            obtain ⟨factor, run, lowered⟩ := bind_eq_ok.mp lowered
            obtain ⟨number, fits⟩ := gpr_eq_ok.mp run
            exact ⟨factor, by rw [if_neg present]; exact .reg number, fits, lowered⟩
      split at lowered
      case isTrue short =>
          cases lowered
          refine ⟨⟨wide, dst_fits, factor_fits⟩, .multiplyBy opcode dst_named factor_named src_const ?_⟩
          rw [src_const, bmod_span_one short]
          exact .const rfl
      case isFalse =>
          obtain ⟨v', checked, built⟩ := bind_eq_ok.mp lowered
          obtain ⟨rfl, in_range⟩ := check_eq_ok checked
          cases built
          refine ⟨⟨wide, dst_fits, factor_fits⟩, .multiplyBy opcode dst_named factor_named src_const ?_⟩
          rw [src_const]
          exact .const (bmod_immediate in_range)

theorem lowerLea_eq_ok (opcode : Mnemonic.ofOpcode? p.op = some (.lea w)) (wide : w ≠ .byte)
    (lowered : lowerLea m w p = .ok i) : i.FitsIn m ∧ Denotes m leads p (i.reading m) := by
  obtain ⟨dst, dst_run, lowered⟩ := bind_eq_ok.mp lowered
  obtain ⟨src, src_run, lowered⟩ := bind_eq_ok.mp lowered
  cases dst with
  | mem | imm => cases src <;> cases lowered
  | reg d =>
      cases src with
      | reg | imm => cases lowered
      | mem s =>
          obtain ⟨dst_named, dst_fits⟩ := resolve_reg dst_run
          obtain ⟨src_named, src_fits⟩ := resolve_mem src_run
          cases lowered
          exact ⟨⟨wide, dst_fits, src_fits⟩, .lea opcode dst_named src_named⟩

theorem toNat_count {v : Int64} (low : 0 ≤ v.toInt) (high : v.toInt < 256) :
    ((UInt8.ofNat v.toInt.toNat).toNat : Int) = v.toInt := by
  rw [UInt8.toNat_ofNat']
  omega

theorem lowerShift_eq_ok {op : ShiftOp} (opcode : Mnemonic.ofOpcode? p.op = some (.shift op w))
    (lowered : lowerShift m op w p = .ok i) : i.FitsIn m ∧ Denotes m leads p (i.reading m) := by
  obtain ⟨dst, dst_run, lowered⟩ := bind_eq_ok.mp lowered
  obtain ⟨dst_named, dst_fits⟩ := resolveRegMem_eq_ok dst_run
  split at lowered
  case h_1 v src_const =>
      split at lowered
      case isFalse => cases lowered
      case isTrue in_range =>
          cases lowered
          refine ⟨dst_fits, ?_⟩
          simp only [Instruction.reading, toNat_count in_range.1 in_range.2]
          exact .shiftBy opcode dst_named src_const
  case h_2 r src_reg =>
      split at lowered
      case isFalse => cases lowered
      case isTrue is_cx =>
          cases lowered
          subst is_cx
          refine ⟨dst_fits, .shiftByCl opcode dst_named src_reg ?_⟩
          rw [src_reg]
          exact .reg rfl
  case h_3 => cases lowered

theorem lowerStack_eq_ok {o : Operand} {g : Gpr} (lowered : lowerStack m w o = .ok g) :
    w = m.nativeWidth ∧ Named m.nativeWidth o (.reg m.nativeWidth g) ∧ g.FitsIn m m.nativeWidth := by
  unfold lowerStack at lowered
  split at lowered
  case isTrue native =>
      subst native
      exact ⟨rfl, resolveReg_eq_ok lowered⟩
  case isFalse => cases lowered

end Lower

theorem mem_all_of_ofOpcode? {op : Opcode} {mnemonic : Mnemonic}
    (opcode : Mnemonic.ofOpcode? op = some mnemonic) : mnemonic ∈ Mnemonic.all := by
  unfold Mnemonic.ofOpcode? at opcode
  split at opcode
  case isTrue => cases opcode
  case isFalse => exact List.mem_of_getElem? opcode

/-- There is no multiplication and no address computation at byte width. -/
theorem wide_of_ofOpcode? {op : Opcode} {w : Width}
    (opcode : Mnemonic.ofOpcode? op = some (.imul w) ∨ Mnemonic.ofOpcode? op = some (.lea w)) :
    w ≠ .byte := by
  rintro rfl
  rcases opcode with opcode | opcode <;> exact absurd (mem_all_of_ofOpcode? opcode) (by decide)

section Emissions

variable {m : Mode} {inFunction : Handle → Bool} {p : Payload} {leads : Handle → Int → Prop}

/-- An emission that the mode can hold, unless it is too wide for it, and that means what the record
says. A branch does so once its displacement leads to its target. -/
def Sound (m : Mode) (inFunction : Handle → Bool) (leads : Handle → Int → Prop) (p : Payload) :
    Emission → Prop
  | .plain i => i.FitsIn m ∧ Denotes m leads p (i.reading m)
  | .branch k t => p.dst = .branch t ∧ inFunction t = true ∧
    ∀ d, leads t d → Denotes m leads p ⟨branchOperation k, none, [.codeFromNext d]⟩

theorem lowerBranch_sound {k : Branch} {t : Handle} {e : Emission} (target : p.dst = .branch t)
    (denotes : ∀ d, leads t d → Denotes m leads p ⟨branchOperation k, none, [.codeFromNext d]⟩)
    (lowered : lowerBranch inFunction k t = .ok (some e)) : Sound m inFunction leads p e := by
  unfold lowerBranch at lowered
  split at lowered
  case isTrue inside =>
      cases lowered
      exact ⟨target, inside, denotes⟩
  case isFalse => cases lowered

theorem lowerTransfer_sound (k : Branch) (indirect : RegMem → Instruction) {e : Emission}
    (direct : ∀ t d, p.dst = .branch t → leads t d →
      Denotes m leads p ⟨branchOperation k, none, [.codeFromNext d]⟩)
    (through : ∀ rm : RegMem, Named m.nativeWidth p.dst (rmArg m.nativeWidth rm) →
      rm.FitsIn m m.nativeWidth → (indirect rm).FitsIn m ∧ Denotes m leads p ((indirect rm).reading m))
    (lowered : lowerTransfer m inFunction k indirect p.dst = .ok (some e)) :
    Sound m inFunction leads p e := by
  unfold lowerTransfer at lowered
  split at lowered
  case h_1 t target => exact lowerBranch_sound target (direct t · target) lowered
  case h_2 =>
      obtain ⟨rm, run, built⟩ := bind_eq_ok.mp lowered
      obtain ⟨named, fits⟩ := resolveRegMem_eq_ok run
      cases built
      exact through rm named fits

theorem lowerMnemonic_sound {mnemonic : Mnemonic} {e : Emission}
    (opcode : Mnemonic.ofOpcode? p.op = some mnemonic)
    (lowered : lowerMnemonic m inFunction p mnemonic = .ok (some e)) : Sound m inFunction leads p e := by
  cases mnemonic with
  | binary op w =>
      obtain ⟨src, src_run, lowered⟩ := bind_eq_ok.mp lowered
      obtain ⟨dst, dst_run, lowered⟩ := bind_eq_ok.mp lowered
      dsimp only at lowered
      split at lowered
      case isTrue is_cmp =>
          subst is_cmp
          obtain ⟨i, run, built⟩ := bind_eq_ok.mp lowered
          obtain ⟨fits, a, b, a_given, b_given, reads | ⟨⟨⟩, _⟩⟩ := lowerBinary_eq_ok src_run dst_run run
          cases built
          refine ⟨fits, ?_⟩
          rw [reads]
          exact .compare opcode a_given b_given
      case isFalse not_cmp =>
          obtain ⟨i, run, built⟩ := bind_eq_ok.mp lowered
          obtain ⟨fits, a, b, a_given, b_given, reads | ⟨rfl, reads⟩⟩ :=
            lowerBinary_eq_ok dst_run src_run run
          all_goals
            cases built
            refine ⟨fits, ?_⟩
            rw [reads]
          · exact .binary opcode not_cmp a_given b_given
          · exact .test opcode b_given a_given
  | imul w =>
      obtain ⟨i, run, built⟩ := bind_eq_ok.mp lowered
      cases built
      exact lowerImul_eq_ok opcode (wide_of_ofOpcode? (.inl opcode)) run
  | lea w =>
      obtain ⟨i, run, built⟩ := bind_eq_ok.mp lowered
      cases built
      exact lowerLea_eq_ok opcode (wide_of_ofOpcode? (.inr opcode)) run
  | unary op w =>
      obtain ⟨rm, run, built⟩ := bind_eq_ok.mp lowered
      obtain ⟨named, fits⟩ := resolveRegMem_eq_ok run
      cases built
      exact ⟨fits, .unary opcode named⟩
  | shift op w =>
      obtain ⟨i, run, built⟩ := bind_eq_ok.mp lowered
      cases built
      exact lowerShift_eq_ok opcode run
  | push w =>
      obtain ⟨g, run, built⟩ := bind_eq_ok.mp lowered
      obtain ⟨rfl, named, fits⟩ := lowerStack_eq_ok run
      cases built
      exact ⟨fits, .push opcode named⟩
  | pop w =>
      obtain ⟨g, run, built⟩ := bind_eq_ok.mp lowered
      obtain ⟨rfl, named, fits⟩ := lowerStack_eq_ok run
      cases built
      exact ⟨fits, .pop opcode named⟩
  | jump c =>
      simp only [lowerMnemonic] at lowered
      split at lowered
      case h_1 t target =>
          exact lowerBranch_sound target (fun d => .jumpIf opcode target) lowered
      case h_2 => cases lowered
  | int3 =>
      cases lowered
      exact ⟨trivial, .int3 opcode⟩
  | syscall =>
      simp only [lowerMnemonic] at lowered
      split at lowered
      case isTrue long_mode =>
          cases lowered
          exact ⟨long_mode, .syscall opcode⟩
      case isFalse => cases lowered
  | hlt =>
      cases lowered
      exact ⟨trivial, .hlt opcode⟩

/-- What a record emits means what the record says. -/
theorem lower_sound {e : Emission} (lowered : lower m inFunction p = .ok (some e)) :
    Sound m inFunction leads p e := by
  unfold lower at lowered
  split at lowered
  case isTrue => cases lowered
  case isFalse =>
      split at lowered
      case isTrue is_ret =>
          cases lowered
          exact ⟨trivial, .ret is_ret⟩
      case isFalse =>
          split at lowered
          case isTrue is_jmp =>
              exact lowerTransfer_sound (.jump none) .jumpTo (fun t d target => .jump is_jmp target)
                (fun rm named fits => ⟨fits, .jumpTo is_jmp named⟩) lowered
          case isFalse =>
              split at lowered
              case isTrue is_call =>
                  exact lowerTransfer_sound .call .callTo (fun t d target => .call is_call target)
                    (fun rm named fits => ⟨fits, .callTo is_call named⟩) lowered
              case isFalse =>
                  split at lowered
                  case h_1 mnemonic opcode => exact lowerMnemonic_sound opcode lowered
                  case h_2 => cases lowered

end Emissions

end InstrStream.X86
