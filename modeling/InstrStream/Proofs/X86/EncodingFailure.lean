import InstrStream.Proofs.X86.MachineCode

/-! When encoding fails. A record that its mode cannot encode should be reported alone, and nearly all
are: in 32-bit code the registers of a 64-bit operation are refused one by one. A 64-bit operation on
memory that names no 64-bit register is not, and one such record takes the whole function down. -/
namespace InstrStream.X86

open Assembly X86.Frame

/-- A register of an address in 32-bit code, or none. -/
def AddressReg32 (r : Reg) : Prop := 0 ≤ r.number.toInt ∧ r.number.toInt ≤ 8

/-- A memory operand that 32-bit code can address. -/
def Addressable32 : Operand → Prop
  | .mem base index scale _ =>
    (scale = 1 ∨ scale = 2 ∨ scale = 4 ∨ scale = 8) ∧ index ≠ sp ∧ AddressReg32 base ∧ AddressReg32 index
  | _ => False

/-- A 64-bit operation on memory with no other operand than a constant or CX. -/
inductive WideInMemory (p : Payload) : Prop
  | binary {op : BinaryOp} {v : Int64} :
      Mnemonic.ofOpcode? p.op = some (.binary op .quad) → op ≠ .arith .cmp → Addressable32 p.dst →
      p.src = .const v → fitsLong v.toInt = true → WideInMemory p
  | compare {v : Int64} :
      Mnemonic.ofOpcode? p.op = some (.binary (.arith .cmp) .quad) → Addressable32 p.src →
      p.dst = .const v → fitsLong v.toInt = true → WideInMemory p
  | unary {op : UnaryOp} :
      Mnemonic.ofOpcode? p.op = some (.unary op .quad) → Addressable32 p.dst → WideInMemory p
  | shiftBy {op : ShiftOp} {v : Int64} :
      Mnemonic.ofOpcode? p.op = some (.shift op .quad) → Addressable32 p.dst → p.src = .const v →
      0 ≤ v.toInt → v.toInt < 256 → WideInMemory p
  | shiftByCl {op : ShiftOp} :
      Mnemonic.ofOpcode? p.op = some (.shift op .quad) → Addressable32 p.dst → p.src = .reg cx →
      WideInMemory p

section Resolve

theorem exists_addressReg_iff {r : Reg} :
    (∃ found, Mode.bits32.addressReg r = .ok found) ↔ AddressReg32 r := by
  unfold Mode.addressReg AddressReg32
  split
  case isTrue absent =>
      have zero : r = .none := by simpa [Reg.isNone] using absent
      subst zero
      exact ⟨fun _ => ⟨by decide, by decide⟩, fun _ => ⟨none, rfl⟩⟩
  case isFalse present =>
      have not_zero : r.number.toInt ≠ 0 := by
        intro zero
        apply present
        have same : r.number = Reg.none.number := Int16.toInt_inj.mp zero
        cases r
        simpa [Reg.isNone, Reg.none] using same
      constructor
      · rintro ⟨_, run⟩
        obtain ⟨g, run, -⟩ := map_eq_ok.mp run
        obtain ⟨number, fits⟩ := gpr_eq_ok.mp run
        obtain ⟨-, small⟩ := fits rfl
        have small : g.number.val < 8 := small
        omega
      · rintro ⟨low, high⟩
        have small : (r.number.toInt - 1).toNat < 16 := by omega
        refine ⟨some ⟨⟨(r.number.toInt - 1).toNat, small⟩⟩,
          map_eq_ok.mpr ⟨_, gpr_eq_ok.mpr ⟨?_, ?_⟩, rfl⟩⟩
        · simp only
          omega
        · intro _
          refine ⟨by decide, ?_⟩
          change (r.number.toInt - 1).toNat < 8
          omega

theorem exists_scale_iff {n : UInt8} :
    (∃ scale, Scale.ofByte? n = some scale) ↔ n = 1 ∨ n = 2 ∨ n = 4 ∨ n = 8 := by
  unfold Scale.ofByte?
  constructor
  · rintro ⟨scale, found⟩
    split at found <;> simp_all
  · rintro (rfl | rfl | rfl | rfl)
    · exact ⟨.one, rfl⟩
    · exact ⟨.two, rfl⟩
    · exact ⟨.four, rfl⟩
    · exact ⟨.eight, rfl⟩

/-- Memory can be addressed with a known factor and an index other than SP, where the registers of the address
can be named. -/
theorem exists_address_mem_iff {m : Mode} {nameable : Reg → Prop}
    (each : ∀ r, (∃ found, m.addressReg r = .ok found) ↔ nameable r) {base index : Reg} {n : UInt8}
    {offset : Int32} :
    (∃ a, m.address (.mem base index n offset) = .ok a) ↔
      (n = 1 ∨ n = 2 ∨ n = 4 ∨ n = 8) ∧ index ≠ sp ∧ nameable base ∧ nameable index := by
  constructor
  · rintro ⟨a, run⟩
    simp only [Mode.address] at run
    split at run
    case h_1 => cases run
    case h_2 scale found =>
        split at run
        case isTrue => cases run
        case isFalse not_sp =>
            obtain ⟨b, base_run, run⟩ := bind_eq_ok.mp run
            obtain ⟨i, index_run, _⟩ := bind_eq_ok.mp run
            exact ⟨exists_scale_iff.mp ⟨scale, found⟩, not_sp, (each base).mp ⟨b, base_run⟩,
              (each index).mp ⟨i, index_run⟩⟩
  · rintro ⟨scale_ok, not_sp, base_ok, index_ok⟩
    obtain ⟨scale, found⟩ := exists_scale_iff.mpr scale_ok
    obtain ⟨b, base_run⟩ := (each base).mpr base_ok
    obtain ⟨i, index_run⟩ := (each index).mpr index_ok
    refine ⟨⟨b, i, scale, offset⟩, ?_⟩
    simp only [Mode.address, found, if_neg not_sp, base_run, index_run]
    rfl

theorem exists_address_iff {o : Operand} :
    (∃ a, Mode.bits32.address o = .ok a) ↔ Addressable32 o := by
  cases o with
  | none | reg | const | branch => exact ⟨by rintro ⟨_, ⟨⟩⟩, nofun⟩
  | mem base index n offset => exact exists_address_mem_iff fun r => exists_addressReg_iff

/-- No 64-bit register is found in 32-bit code. -/
theorem resolve_quad_eq_ok {o : Operand} {r : Resolved}
    (resolved : Mode.bits32.resolve .quad o = .ok r) :
    (∃ a, r = .mem a ∧ Addressable32 o) ∨ ∃ v, r = .imm v ∧ o = .const v := by
  cases r with
  | reg g => exact absurd rfl ((resolve_reg resolved).2 rfl).1
  | imm v => exact .inr ⟨v, rfl, resolve_imm resolved⟩
  | mem a =>
      refine .inl ⟨a, rfl, exists_address_iff.mp ⟨a, ?_⟩⟩
      cases o with
      | none | branch | const => cases resolved
      | reg r =>
          obtain ⟨_, _, other⟩ := map_eq_ok.mp resolved
          cases other
      | mem =>
          obtain ⟨_, run, ⟨⟩⟩ := map_eq_ok.mp resolved
          exact run

theorem exists_resolve_of_addressable {o : Operand} (addressable : Addressable32 o) :
    ∃ a, Mode.bits32.resolve .quad o = .ok (.mem a) := by
  obtain ⟨a, run⟩ := exists_address_iff.mpr addressable
  refine ⟨a, ?_⟩
  cases o with
  | none | reg | const | branch => cases addressable
  | mem => exact map_eq_ok.mpr ⟨a, run, rfl⟩

end Resolve

section Lower

variable {inFunction : Handle → Bool} {p : Payload}

theorem fitsLong_of_fitsByte {v : Int} (short : fitsByte v = true) : fitsLong v = true := by
  simp only [fitsByte, fitsLong, decide_eq_true_eq] at short ⊢
  omega

theorem lower_eq_lowerMnemonic {m : Mode} {mnemonic : Mnemonic}
    (opcode : Mnemonic.ofOpcode? p.op = some mnemonic) :
    lower m inFunction p = lowerMnemonic m inFunction p mnemonic := by
  have specific (op : Opcode) (generic : Mnemonic.ofOpcode? op = none) : p.op ≠ op := by
    rintro rfl
    rw [opcode] at generic
    cases generic
  rw [lower, if_neg (specific .nop rfl), if_neg (specific .ret rfl), if_neg (specific .jmp rfl),
    if_neg (specific .call rfl), opcode]

/-- A 64-bit operation takes no constant that four bytes do not hold. -/
theorem fitsLong_of_lowerImmediate {op : BinaryOp} {dst : RegMem} {v : Int64} {i : Instruction}
    (lowered : lowerImmediate op .quad dst v = .ok i) : fitsLong v.toInt = true := by
  have checked (op : BinaryOp)
      (run : Instruction.immediate op .quad dst <$> Width.quad.check v = .ok i) :
      fitsLong v.toInt = true := by
    obtain ⟨v', run, -⟩ := map_eq_ok.mp run
    exact (check_eq_ok run).2
  cases op with
  | mov | test => exact checked _ lowered
  | arith op =>
      simp only [lowerImmediate] at lowered
      split at lowered
      case isTrue short => exact fitsLong_of_fitsByte short.2
      case isFalse => exact checked _ lowered

theorem exists_lowerImmediate (op : BinaryOp) (dst : RegMem) {v : Int64}
    (fits : fitsLong v.toInt = true) :
    ∃ i, lowerImmediate op .quad dst v = .ok i ∧ i.width? = some .quad := by
  have checked (op : BinaryOp) :
      ∃ i, Instruction.immediate op .quad dst <$> Width.quad.check v = .ok i ∧ i.width? = some .quad :=
    ⟨_, map_eq_ok.mpr ⟨v, if_pos fits, rfl⟩, rfl⟩
  cases op with
  | mov | test => exact checked _
  | arith op =>
      simp only [lowerImmediate]
      split
      case isTrue => exact ⟨_, rfl, rfl⟩
      case isFalse => exact checked _

theorem width_reading (m : Mode) {i : Instruction} {w : Width} (width : i.width? = some w) :
    (i.reading m).width = some w := by
  cases i with
  | load op => cases op <;> exact width
  | store | immediate | shortImmediate | wideImmediate | multiply | multiplyBy | multiplyByShort | lea
  | unary | shiftBy | shiftByCl => exact width
  | push | pop | jumpTo | callTo | ret | int3 | syscall | hlt | nop => cases width

/-- Whether an operation has the width of 64 bits. -/
def Mnemonic.isQuad : Mnemonic → Bool
  | .binary _ w | .imul w | .lea w | .unary _ w | .shift _ w | .push w | .pop w => w = .quad
  | .jump _ | .int3 | .syscall | .hlt => false

theorem isQuad_of_not_existsIn {x : Emission} (lowered : lower .bits32 inFunction p = .ok (some x))
    (missing : existsIn .bits32 x = false) :
    ∃ mnemonic, Mnemonic.ofOpcode? p.op = some mnemonic ∧ mnemonic.isQuad = true := by
  cases x with
  | branch => cases missing
  | plain i =>
      have quad : i.width? = some .quad := by simpa [existsIn, Instruction.existsIn] using missing
      have width := width_reading .bits32 quad
      have sound : Sound .bits32 inFunction (fun _ _ => True) p (.plain i) := lower_sound lowered
      have denotes := sound.2
      generalize i.reading .bits32 = reading at width denotes
      cases denotes with
      | binary opcode | compare opcode | test opcode | multiply opcode | multiplyBy opcode | lea opcode
      | unary opcode | shiftBy opcode | shiftByCl opcode =>
          cases width
          exact ⟨_, opcode, rfl⟩
      | _ => cases width

theorem lowerBinary_quad {op : BinaryOp} {first second : Operand} {d s : Resolved} {i : Instruction}
    (first_run : Mode.bits32.resolve .quad first = .ok d)
    (second_run : Mode.bits32.resolve .quad second = .ok s)
    (lowered : lowerBinary op .quad d s = .ok i) :
    Addressable32 first ∧ ∃ v, second = .const v ∧ fitsLong v.toInt = true := by
  obtain ⟨a, rfl, addressable⟩ | ⟨v, rfl, -⟩ := resolve_quad_eq_ok first_run
  · obtain ⟨b, rfl, -⟩ | ⟨v, rfl, const⟩ := resolve_quad_eq_ok second_run
    · cases lowered
    · exact ⟨addressable, v, const, fitsLong_of_lowerImmediate lowered⟩
  · cases s <;> cases lowered

theorem exists_lowerBinary (op : BinaryOp) {first second : Operand} {v : Int64}
    (addressable : Addressable32 first) (const : second = .const v) (fits : fitsLong v.toInt = true) :
    ∃ d i, Mode.bits32.resolve .quad first = .ok d ∧
      Mode.bits32.resolve .quad second = .ok (.imm v) ∧ lowerBinary op .quad d (.imm v) = .ok i ∧
      i.width? = some .quad := by
  obtain ⟨a, run⟩ := exists_resolve_of_addressable addressable
  obtain ⟨i, lowered, width⟩ := exists_lowerImmediate op (.mem a) fits
  exact ⟨.mem a, i, run, by rw [const]; rfl, lowered, width⟩

theorem resolveRegMem_quad {o : Operand} {rm : RegMem}
    (resolved : Mode.bits32.resolveRegMem .quad o = .ok rm) : Addressable32 o := by
  obtain ⟨r, run, built⟩ := bind_eq_ok.mp resolved
  obtain ⟨a, rfl, addressable⟩ | ⟨v, rfl, -⟩ := resolve_quad_eq_ok run
  · exact addressable
  · cases built

theorem exists_resolveRegMem {o : Operand} (addressable : Addressable32 o) :
    ∃ rm, Mode.bits32.resolveRegMem .quad o = .ok rm := by
  obtain ⟨a, run⟩ := exists_resolve_of_addressable addressable
  exact ⟨.mem a, bind_eq_ok.mpr ⟨_, run, rfl⟩⟩

theorem resolveReg_quad {o : Operand} {g : Gpr} : Mode.bits32.resolveReg .quad o ≠ .ok g := by
  intro resolved
  exact absurd rfl ((resolveReg_eq_ok resolved).2 rfl).1

theorem wideInMemory_of_lower {mnemonic : Mnemonic} {x : Emission}
    (opcode : Mnemonic.ofOpcode? p.op = some mnemonic) (quad : mnemonic.isQuad = true)
    (lowered : lowerMnemonic .bits32 inFunction p mnemonic = .ok (some x)) : WideInMemory p := by
  cases mnemonic with
  | jump | int3 | syscall | hlt => cases quad
  | binary op w =>
      obtain rfl : w = .quad := by simpa [Mnemonic.isQuad] using quad
      obtain ⟨src, src_run, lowered⟩ := bind_eq_ok.mp lowered
      obtain ⟨dst, dst_run, lowered⟩ := bind_eq_ok.mp lowered
      dsimp only at lowered
      split at lowered
      case isTrue is_cmp =>
          subst is_cmp
          obtain ⟨i, run, -⟩ := bind_eq_ok.mp lowered
          obtain ⟨addressable, v, const, fits⟩ := lowerBinary_quad src_run dst_run run
          exact .compare opcode addressable const fits
      case isFalse not_cmp =>
          obtain ⟨i, run, -⟩ := bind_eq_ok.mp lowered
          obtain ⟨addressable, v, const, fits⟩ := lowerBinary_quad dst_run src_run run
          exact .binary opcode not_cmp addressable const fits
  | imul w =>
      obtain rfl : w = .quad := by simpa [Mnemonic.isQuad] using quad
      obtain ⟨i, run, -⟩ := bind_eq_ok.mp lowered
      obtain ⟨dst, dst_run, -⟩ := bind_eq_ok.mp run
      exact absurd dst_run resolveReg_quad
  | lea w =>
      obtain rfl : w = .quad := by simpa [Mnemonic.isQuad] using quad
      obtain ⟨i, run, -⟩ := bind_eq_ok.mp lowered
      obtain ⟨dst, dst_run, run⟩ := bind_eq_ok.mp run
      obtain ⟨src, src_run, run⟩ := bind_eq_ok.mp run
      obtain ⟨a, rfl, -⟩ | ⟨v, rfl, -⟩ := resolve_quad_eq_ok dst_run <;> cases src <;> cases run
  | unary op w =>
      obtain rfl : w = .quad := by simpa [Mnemonic.isQuad] using quad
      obtain ⟨rm, run, -⟩ := bind_eq_ok.mp lowered
      exact .unary opcode (resolveRegMem_quad run)
  | shift op w =>
      obtain rfl : w = .quad := by simpa [Mnemonic.isQuad] using quad
      obtain ⟨i, run, -⟩ := bind_eq_ok.mp lowered
      obtain ⟨rm, dst_run, run⟩ := bind_eq_ok.mp run
      have addressable := resolveRegMem_quad dst_run
      split at run
      case h_1 v const =>
          split at run
          case isTrue in_range => exact .shiftBy opcode addressable const in_range.1 in_range.2
          case isFalse => cases run
      case h_2 r src_reg =>
          split at run
          case isTrue is_cx =>
              subst is_cx
              exact .shiftByCl opcode addressable src_reg
          case isFalse => cases run
      case h_3 => cases run
  | push w | pop w =>
      obtain rfl : w = .quad := by simpa [Mnemonic.isQuad] using quad
      obtain ⟨g, run, -⟩ := bind_eq_ok.mp lowered
      obtain ⟨native, -⟩ := lowerStack_eq_ok run
      cases native

theorem lowerBranch_ne_none {kind : Branch} {t : Handle} : lowerBranch inFunction kind t ≠ .ok none := by
  unfold lowerBranch
  split <;> exact nofun

theorem lowerMnemonic_ne_none {m : Mode} {mnemonic : Mnemonic} :
    lowerMnemonic m inFunction p mnemonic ≠ .ok none := by
  intro lowered
  cases mnemonic with
  | binary op w =>
      obtain ⟨src, -, lowered⟩ := bind_eq_ok.mp lowered
      obtain ⟨dst, -, lowered⟩ := bind_eq_ok.mp lowered
      dsimp only at lowered
      split at lowered
      all_goals
        obtain ⟨i, -, built⟩ := bind_eq_ok.mp lowered
        cases built
  | imul | lea | unary | shift | push | pop =>
      obtain ⟨i, -, built⟩ := bind_eq_ok.mp lowered
      cases built
  | jump c =>
      simp only [lowerMnemonic] at lowered
      split at lowered
      · exact lowerBranch_ne_none lowered
      · cases lowered
  | int3 | hlt => cases lowered
  | syscall =>
      simp only [lowerMnemonic] at lowered
      split at lowered <;> cases lowered

theorem not_existsIn {i : Instruction} (width : i.width? = some .quad) :
    existsIn .bits32 (.plain i) = false := by
  simp [existsIn, Instruction.existsIn, width]

theorem exists_lower_of_wideInMemory (wide : WideInMemory p) :
    ∃ x, lower .bits32 inFunction p = .ok (some x) ∧ existsIn .bits32 x = false := by
  cases wide with
  | @binary op v opcode not_cmp addressable const fits =>
      obtain ⟨d, i, dst_run, src_run, lowered, width⟩ := exists_lowerBinary op addressable const fits
      refine ⟨.plain i, ?_, not_existsIn width⟩
      rw [lower_eq_lowerMnemonic opcode]
      refine bind_eq_ok.mpr ⟨_, src_run, bind_eq_ok.mpr ⟨_, dst_run, ?_⟩⟩
      simp only [if_neg not_cmp, lowered]
      rfl
  | compare opcode addressable const fits =>
      obtain ⟨d, i, src_run, dst_run, lowered, width⟩ :=
        exists_lowerBinary (.arith .cmp) addressable const fits
      refine ⟨.plain i, ?_, not_existsIn width⟩
      rw [lower_eq_lowerMnemonic opcode]
      refine bind_eq_ok.mpr ⟨_, src_run, bind_eq_ok.mpr ⟨_, dst_run, ?_⟩⟩
      simp only [if_true, lowered]
      rfl
  | @unary op opcode addressable =>
      obtain ⟨rm, run⟩ := exists_resolveRegMem addressable
      refine ⟨.plain (.unary op .quad rm), ?_, rfl⟩
      rw [lower_eq_lowerMnemonic opcode]
      exact bind_eq_ok.mpr ⟨rm, run, rfl⟩
  | @shiftBy op v opcode addressable const low high =>
      obtain ⟨rm, run⟩ := exists_resolveRegMem addressable
      refine ⟨.plain (.shiftBy op .quad rm (.ofNat v.toInt.toNat)), ?_, rfl⟩
      rw [lower_eq_lowerMnemonic opcode]
      refine bind_eq_ok.mpr ⟨_, bind_eq_ok.mpr ⟨rm, run, ?_⟩, rfl⟩
      simp only [const, if_pos (And.intro low high)]
      rfl
  | @shiftByCl op opcode addressable src_cx =>
      obtain ⟨rm, run⟩ := exists_resolveRegMem addressable
      refine ⟨.plain (.shiftByCl op .quad rm), ?_, rfl⟩
      rw [lower_eq_lowerMnemonic opcode]
      refine bind_eq_ok.mpr ⟨_, bind_eq_ok.mpr ⟨rm, run, ?_⟩, rfl⟩
      simp only [src_cx, if_true]
      rfl

/-- What 32-bit code cannot hold is accepted exactly from these records. -/
theorem wideInMemory_iff :
    (∃ x, lower .bits32 inFunction p = .ok (some x) ∧ existsIn .bits32 x = false) ↔ WideInMemory p := by
  constructor
  · rintro ⟨x, lowered, missing⟩
    obtain ⟨mnemonic, opcode, quad⟩ := isQuad_of_not_existsIn lowered missing
    rw [lower_eq_lowerMnemonic opcode] at lowered
    exact wideInMemory_of_lower opcode quad lowered
  · exact exists_lower_of_wideInMemory

end Lower

section Frames

variable {size : UInt32} {fp : Bool}

theorem not_wideInMemory {p : Payload}
    (narrow : ∀ mnemonic, Mnemonic.ofOpcode? p.op = some mnemonic → mnemonic.isQuad = false) :
    ¬ WideInMemory p := by
  intro wide
  cases wide with
  | binary opcode | compare opcode | unary opcode | shiftBy opcode | shiftByCl opcode =>
      cases narrow _ opcode

theorem not_wideInMemory_of_opcode {p : Payload} (mnemonic : Mnemonic)
    (opcode : Mnemonic.ofOpcode? p.op = some mnemonic) (narrow : mnemonic.isQuad = false) :
    ¬ WideInMemory p := by
  apply not_wideInMemory
  intro other same
  obtain rfl := Option.some.inj (opcode.symm.trans same)
  exact narrow

theorem not_wideInMemory_ret {p : Payload} (is_ret : p.op = .ret) : ¬ WideInMemory p := by
  apply not_wideInMemory
  intro mnemonic opcode
  rw [is_ret] at opcode
  cases opcode

theorem not_wideInMemory_prologue {p : Payload} (met : p ∈ prologue .bits32 fp size) :
    ¬ WideInMemory p := by
  rcases List.mem_append.mp met with entering | reserving
  · split at entering
    case isTrue =>
        rcases List.mem_cons.mp entering with rfl | entering
        · exact not_wideInMemory_of_opcode (.push .long) rfl rfl
        · obtain rfl := List.mem_singleton.mp entering
          exact not_wideInMemory_of_opcode (.binary .mov .long) rfl rfl
    case isFalse => cases entering
  · obtain rfl := List.mem_singleton.mp reserving
    exact not_wideInMemory_of_opcode (.binary (.arith .sub) .long) rfl rfl

theorem not_wideInMemory_epilogueTail {p ret : Payload} (is_ret : ret.op = .ret)
    (met : p ∈ epilogueTail .bits32 fp ret) : ¬ WideInMemory p := by
  rcases List.mem_append.mp met with leaving | returning
  · split at leaving
    case isTrue =>
        obtain rfl := List.mem_singleton.mp leaving
        exact not_wideInMemory_of_opcode (.pop .long) rfl rfl
    case isFalse => cases leaving
  · obtain rfl := List.mem_singleton.mp returning
    exact not_wideInMemory_ret is_ret

/-- Epilogues are as narrow as the returns they replace. -/
theorem exists_wide_withEpilogues {n : Nat} {text : List (Handle × Payload)} :
    (∃ x ∈ withEpilogues .bits32 size fp n text, WideInMemory x.2) ↔
      ∃ x ∈ text, WideInMemory x.2 := by
  induction text generalizing n with
  | nil => rfl
  | cons x text ih =>
      obtain ⟨h, p⟩ := x
      rw [withEpilogues]
      split
      case isTrue is_ret =>
          have released : ¬ WideInMemory (release .bits32 size) :=
            not_wideInMemory_of_opcode (.binary (.arith .add) .long) rfl rfl
          have tail : ¬ ∃ x ∈ (issuedFrom n (epilogueTail .bits32 fp p).length).zip
              (epilogueTail .bits32 fp p), WideInMemory x.2 := by
            rintro ⟨y, met, wide⟩
            exact not_wideInMemory_epilogueTail is_ret (List.of_mem_zip met).2 wide
          simp only [List.cons_append, List.mem_cons, List.mem_append, or_and_right, exists_or,
            exists_eq_left, released, tail, ih, not_wideInMemory_ret is_ret, false_or]
      case isFalse => simp only [List.mem_cons, or_and_right, exists_or, exists_eq_left, ih]

theorem exists_wide_program (pool : Pool) (hs : List Handle) :
    (∃ x ∈ pool.program hs, WideInMemory x.2) ↔ ∃ h ∈ hs, WideInMemory (pool.record h).toPayload := by
  simp only [Pool.program, List.mem_map]
  constructor
  · rintro ⟨_, ⟨h, met, rfl⟩, wide⟩
    exact ⟨h, met, wide⟩
  · rintro ⟨h, met, wide⟩
    exact ⟨_, ⟨h, met, rfl⟩, wide⟩

theorem exists_wide_framed {n : Nat} {text : List (Handle × Payload)} :
    (∃ x ∈ framed .bits32 size fp n text, WideInMemory x.2) ↔ ∃ x ∈ text, WideInMemory x.2 := by
  unfold framed
  split
  case isTrue => rfl
  case isFalse =>
      have entry (ks : List Handle) :
          ¬ ∃ x ∈ ks.zip (prologue .bits32 fp size), WideInMemory x.2 := by
        rintro ⟨y, met, wide⟩
        exact not_wideInMemory_prologue (List.of_mem_zip met).2 wide
      simp only [List.mem_append, or_and_right, exists_or, entry, exists_wide_withEpilogues, false_or]

end Frames

/-- Number of bytes that a function takes at most: with every branch at its longest. -/
def room (m : Mode) (pool : Pool) (hs : List Handle) : Nat :=
  Layout.total m (Layout.initial (pieces (targets pool hs).contains m (stepsOf m pool hs)))

section Failure

variable {m : Mode} {pool : Pool} {hs : List Handle}

/-- A function that is not too long is laid out unless one of its records emits what does not exist. -/
theorem exists_laidOut_iff (has_code : m ≠ .bits16) (distinct : hs.Nodup)
    (short : room m pool hs < 0x80000000) :
    (∃ cs, LaidOut m pool hs cs) ↔ ∀ h ∈ hs, ∀ x, Emits m pool hs h x → existsIn m x = true := by
  constructor
  · rintro ⟨cs, laid⟩
    exact laid.exist
  · intro exist
    obtain ⟨cs, run⟩ := Layout.exists_chunks has_code short
      (closed_pieces (distinct_stepsOf distinct) (fun kind t => branches_stepsOf) m)
    exact ⟨cs, exist, run⟩

theorem all_exist_iff (has_code : m ≠ .bits16) :
    (∀ h ∈ hs, ∀ x, Emits m pool hs h x → existsIn m x = true) ↔
      ¬ (m = .bits32 ∧ ∃ h ∈ hs, WideInMemory (pool.record h).toPayload) := by
  cases m with
  | bits16 => exact absurd rfl has_code
  | bits64 =>
      refine ⟨fun _ => nofun, fun _ h _ x _ => ?_⟩
      cases x <;> rfl
  | bits32 =>
      constructor
      · rintro exist ⟨-, h, met, wide⟩
        obtain ⟨x, emits, missing⟩ := wideInMemory_iff.mpr wide
        rw [exist h met x emits] at missing
        cases missing
      · intro narrow h met x emits
        by_contra missing
        exact narrow ⟨rfl, h, met, wideInMemory_iff.mp ⟨x, emits, by simpa using missing⟩⟩

theorem room_setOffsets (offs : List (Handle × Nat)) :
    room m (setOffsets pool offs) hs = room m pool hs := by
  have same_targets : targets (setOffsets pool offs) hs = targets pool hs := by
    unfold targets
    congr 2
    funext h
    rw [(record_setOffsets pool offs h).1]
  rw [room, room, stepsOf_setOffsets, same_targets]

/-- In 32-bit code that can be encoded no 64-bit operation is accepted. -/
theorem lowerRecord_quad {cs : List (List UInt8)} (laid : LaidOut .bits32 pool hs cs) {h : Handle}
    (met : h ∈ hs) {mnemonic : Mnemonic}
    (opcode : Mnemonic.ofOpcode? (pool.record h).op = some mnemonic) (quad : mnemonic.isQuad = true) :
    ∃ r, lowerRecord .bits32 hs.contains (pool.record h).toPayload = .error r := by
  have written : (pool.record h).op ≠ .unset := by
    intro unset
    rw [unset] at opcode
    cases opcode
  rw [lowerRecord, if_neg written]
  cases lowered : lower .bits32 hs.contains (pool.record h).toPayload with
  | error cause => exact ⟨_, rfl⟩
  | ok emission =>
      have run := lowered
      rw [lower_eq_lowerMnemonic opcode] at run
      cases emission with
      | none => exact absurd run lowerMnemonic_ne_none
      | some x =>
          obtain ⟨y, emits, missing⟩ := wideInMemory_iff.mpr (wideInMemory_of_lower opcode quad run)
          rw [laid.exist h met y emits] at missing
          cases missing

theorem mem_reports {function : String} {h : Handle} {r : Report} (met : h ∈ hs)
    (refused : lowerRecord m hs.contains (pool.record h).toPayload = .error r) :
    r.message names function h (pool.record h).op ∈ reports names m pool function hs := by
  refine List.mem_filterMap.mpr ⟨_, List.mem_map.mpr ⟨h, met, rfl⟩, ?_⟩
  simp only [Lowered.message?, refused]

end Failure

section WholeFunction

variable {m : Mode} {b : Backend} (known : IsBackend m b) (w : Workspace) (s : Symbol)
  (hs : List Handle) (chain : w.pool.chain s.text = .ok hs)
  (issued : ∀ h ∈ hs, h.index < w.pool.issued)
include known chain issued

/-- Encoding fails as a whole exactly in 32-bit code with a 64-bit operation on memory that names no
64-bit register. Otherwise each record that cannot be encoded is reported, 64-bit operations in 32-bit
code among them, and all others are encoded. -/
theorem encodingFailed_iff_wideInMemory :
    ∃ w' s' final, b.assemble w s = (w', .ok s') ∧ Assembled m w w' s s' hs final ∧
      (room m w'.pool final < 0x80000000 →
        (EncodingFailed s.name w w' ↔
          m = .bits32 ∧ ∃ h ∈ hs, WideInMemory (w.pool.record h).toPayload)) ∧
      (¬ EncodingFailed s.name w w' →
        (∃ parts rest, Cut m w'.pool final s'.code parts rest) ∧
        (∀ h ∈ final, ∀ r,
          lowerRecord m final.contains (w'.pool.record h).toPayload = .error r →
          r.message names s.name h (w'.pool.record h).op ∈
            w'.ctx.diagnostics.toList.drop w.ctx.diagnostics.size) ∧
        (∀ h ∈ final, ∀ mnemonic, Mnemonic.ofOpcode? (w'.pool.record h).op = some mnemonic →
          mnemonic.isQuad = true → m = .bits32 →
          ∃ r, lowerRecord m final.contains (w'.pool.record h).toPayload = .error r)) := by
  obtain ⟨w₁, s₁, w', s', final, run, assembled, distinct, present, spliced, name, outcome⟩ :=
    assemble_final (m := m) chain issued
  obtain ⟨-, offs, same_pool⟩ := exists_setOffsets outcome
  refine ⟨w', s', final, by rw [known.assemble_eq, run], assembled, fun short => ?_, fun encoded => ?_⟩
  · rw [← name]
    have laid_iff : EncodingFailed s₁.name w w' ↔ ¬ ∃ cs, LaidOut m w₁.pool final cs := by
      rcases outcome with ⟨cs, done⟩ | ⟨e, failed⟩
      · exact iff_of_false (done.not_encodingFailed spliced.ctx) (not_not_intro ⟨cs, done.laid⟩)
      · exact iff_of_true (failed.encodingFailed spliced.ctx) failed.not_laid
    rw [same_pool, room_setOffsets] at short
    rw [laid_iff, exists_laidOut_iff known.has_code distinct short, all_exist_iff known.has_code,
      not_not]
    refine and_congr_right ?_
    rintro rfl
    have program := assembled.program
    rw [same_pool, program_setOffsets] at program
    rw [← exists_wide_program, program, exists_wide_framed, exists_wide_program]
  · rw [← name] at encoded ⊢
    rcases outcome with ⟨cs, done⟩ | ⟨e, failed⟩
    · refine ⟨?_, ?_, ?_⟩
      · obtain ⟨parts, rest, placed⟩ := done.placed known.has_code distinct present
        exact ⟨parts, rest, placed.toCut⟩
      · intro h met r refused
        rw [same_pool, (record_setOffsets _ _ h).1] at refused ⊢
        rw [drop_diagnostics spliced.ctx done.diagnostics]
        exact mem_reports met refused
      · rintro h met mnemonic opcode quad rfl
        rw [same_pool, (record_setOffsets _ _ h).1] at opcode ⊢
        exact lowerRecord_quad done.laid met opcode quad
    · exact absurd (failed.encodingFailed spliced.ctx) encoded

end WholeFunction

/-- A return that could be encoded, behind a negation that cannot. -/
def negation : List Payload :=
  [{ op := Mnemonic.opcode (.unary .neg .quad), dst := .based ⟨1⟩ 0 }, { op := .ret }]

def negationSymbol : Symbol := { name := "negation", text := some ⟨0⟩, frameSize := 0 }

theorem negation_run {w' : Workspace} {s' : Symbol}
    (run : i386.assemble (listed i386Target false negation) negationSymbol = (w', .ok s')) :
    s'.code = [] ∧ w'.pool.chain s'.text = .ok [⟨0⟩, ⟨1⟩] ∧
      room .bits32 w'.pool [⟨0⟩, ⟨1⟩] < 0x80000000 := by
  have symbol : (i386.assemble (listed i386Target false negation) negationSymbol).2 = .ok s' := by
    rw [run]
  have workspace : (i386.assemble (listed i386Target false negation) negationSymbol).1 = w' := by
    rw [run]
  cases symbol
  subst workspace
  exact ⟨rfl, rfl, by decide +kernel⟩

/-- The negation is not reported alone: encoding fails, and the return is lost with it. -/
theorem encodingFailed_negation :
    ∃ w' s', i386.assemble (listed i386Target false negation) negationSymbol = (w', .ok s') ∧
      EncodingFailed negationSymbol.name (listed i386Target false negation) w' ∧ s'.code = [] := by
  obtain ⟨w', s', final, run, assembled, fails, -⟩ := encodingFailed_iff_wideInMemory
    (.inr ⟨rfl, rfl⟩) (listed i386Target false negation) negationSymbol [⟨0⟩, ⟨1⟩] rfl (by decide)
  obtain ⟨empty, chain, short⟩ := negation_run run
  obtain rfl := Except.ok.inj (assembled.chain.symm.trans chain)
  have addressable : Addressable32 (.based ⟨1⟩ 0) :=
    ⟨.inl rfl, by decide, ⟨by decide, by decide⟩, ⟨by decide, by decide⟩⟩
  have wide : WideInMemory negation[0] := .unary rfl addressable
  exact ⟨w', s', run, (fails short).mpr ⟨rfl, ⟨0⟩, by decide, wide⟩, empty⟩

end InstrStream.X86
