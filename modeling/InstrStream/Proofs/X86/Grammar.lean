import InstrStream.Proofs.X86.Constants
import InstrStream.Proofs.X86.ControlPaths

/-! The grammar of 64-bit records. Which records can be lowered is said here without lowering: by the opcodes that
there are, by the operands that each of them takes, and by the registers, addresses and constants that these may
hold. Lowering accepts exactly the records of the grammar. -/
namespace InstrStream.X86

/-- The number of a register. -/
def IsRegister (r : Reg) : Prop := 1 ≤ r.number.toInt ∧ r.number.toInt ≤ 16

/-- A register that may be left out. -/
def IsOptionalRegister (r : Reg) : Prop := r = .none ∨ IsRegister r

/-- An operand that is a register. -/
def InRegister : Operand → Prop
  | .reg r => IsRegister r
  | _ => False

/-- An operand in memory. SP cannot be an index. -/
def InMemory : Operand → Prop
  | .mem base index scale _ =>
    (scale = 1 ∨ scale = 2 ∨ scale = 4 ∨ scale = 8) ∧ index ≠ sp ∧ IsOptionalRegister base ∧
      IsOptionalRegister index
  | _ => False

/-- An operand that can be written to. -/
def IsPlace (o : Operand) : Prop := InRegister o ∨ InMemory o

/-- The destinations and sources of two-operand operations. -/
inductive TwoOperands (op : BinaryOp) (w : Width) : Operand → Operand → Prop
  | registers {dst src : Operand} : InRegister dst → InRegister src → TwoOperands op w dst src
  | store {dst src : Operand} : InMemory dst → InRegister src → TwoOperands op w dst src
  | load {dst src : Operand} : InRegister dst → InMemory src → TwoOperands op w dst src
  | constant {dst : Operand} {v : Int64} : IsPlace dst → w.InRange v → TwoOperands op w dst (.const v)
  | wideConstant {dst : Operand} {v : Int64} :
      op = .mov → w = .quad → InRegister dst → TwoOperands op w dst (.const v)

/-- The operands that each mnemonic takes in 64-bit code. -/
inductive OperandsOf (inFunction : Handle → Bool) (p : Payload) : Mnemonic → Prop
  | binary {op : BinaryOp} {w : Width} :
      op ≠ .arith .cmp → TwoOperands op w p.dst p.src → OperandsOf inFunction p (.binary op w)
  -- A comparison has its operands the other way round.
  | compare {w : Width} :
      TwoOperands (.arith .cmp) w p.src p.dst → OperandsOf inFunction p (.binary (.arith .cmp) w)
  | multiply {w : Width} : InRegister p.dst → IsPlace p.src → OperandsOf inFunction p (.imul w)
  | multiplyBy {w : Width} {v : Int64} :
      InRegister p.dst → p.src = .const v → w.InRange v → IsOptionalRegister p.reg →
      OperandsOf inFunction p (.imul w)
  | lea {w : Width} : InRegister p.dst → InMemory p.src → OperandsOf inFunction p (.lea w)
  | unary {op : UnaryOp} {w : Width} : IsPlace p.dst → OperandsOf inFunction p (.unary op w)
  | shiftBy {op : ShiftOp} {w : Width} {v : Int64} :
      IsPlace p.dst → p.src = .const v → 0 ≤ v.toInt → v.toInt ≤ 255 → OperandsOf inFunction p (.shift op w)
  | shiftByCx {op : ShiftOp} {w : Width} :
      IsPlace p.dst → p.src = .reg cx → OperandsOf inFunction p (.shift op w)
  | push : InRegister p.src → OperandsOf inFunction p (.push .quad)
  | pop : InRegister p.dst → OperandsOf inFunction p (.pop .quad)
  | jump {c : Condition} {t : Handle} :
      p.dst = .branch t → inFunction t = true → OperandsOf inFunction p (.jump c)
  | int3 : OperandsOf inFunction p .int3
  | syscall : OperandsOf inFunction p .syscall
  | hlt : OperandsOf inFunction p .hlt

/-- The records of 64-bit code, in a function with these records. -/
inductive Grammatical (inFunction : Handle → Bool) (p : Payload) : Prop
  | nop : p.op = .nop → Grammatical inFunction p
  | ret : p.op = .ret → Grammatical inFunction p
  | transfer {t : Handle} :
      p.op = .jmp ∨ p.op = .call → p.dst = .branch t → inFunction t = true → Grammatical inFunction p
  | indirect : p.op = .jmp ∨ p.op = .call → IsPlace p.dst → Grammatical inFunction p
  | own {mnemonic : Mnemonic} :
      mnemonic ∈ Mnemonic.all → p.op = mnemonic.opcode → OperandsOf inFunction p mnemonic →
      Grammatical inFunction p

section Opcodes

theorem Mnemonic.idxOf_of_getElem? {i : Nat} {mnemonic : Mnemonic} (found : all[i]? = some mnemonic) :
    all.idxOf mnemonic = i := by
  have distinct : all.Nodup := by decide +kernel
  obtain ⟨inside, rfl⟩ := List.getElem?_eq_some_iff.mp found
  exact distinct.idxOf_getElem i inside

/-- Opcode numbers and mnemonics go together one by one. -/
theorem Mnemonic.ofOpcode?_eq_some_iff {op : Opcode} {mnemonic : Mnemonic} :
    ofOpcode? op = some mnemonic ↔ mnemonic ∈ all ∧ op = mnemonic.opcode := by
  constructor
  · intro found
    refine ⟨mem_all_of_ofOpcode? found, ?_⟩
    rw [ofOpcode?] at found
    split at found
    · cases found
    · rename_i specific
      rw [Opcode.isGeneric, decide_eq_true_eq, UInt16.lt_iff_toNat_lt] at specific
      have position := idxOf_of_getElem? found
      have number := mnemonic.toNat_opcode
      have same : op.code = mnemonic.opcode.code := by
        apply UInt16.toNat_inj.mp
        omega
      exact congrArg Opcode.mk same
  · rintro ⟨known, rfl⟩
    rw [ofOpcode?, mnemonic.isGeneric_opcode, toNat_opcode, Nat.add_sub_cancel_left]
    exact List.getElem?_idxOf known

/-- What the `n`-th number of the backends stands for, by position: an operation on any width has four numbers in
a row, one without bytes has three. -/
def Mnemonic.numbered? (n : Nat) : Option Mnemonic :=
  let width? (k : Nat) : Option Width := [.byte, .word, .long, .quad][k]?
  if n < 32 then do
    let ops : List BinaryOp :=
      [.mov, .arith .add, .arith .sub, .arith .and, .arith .or, .arith .xor, .arith .cmp, .test]
    return .binary (← ops[n / 4]?) (← width? (n % 4))
  else if n < 35 then return .imul (← width? (n - 31))
  else if n < 38 then return .lea (← width? (n - 34))
  else if n < 54 then do
    let ops : List UnaryOp := [.neg, .not, .inc, .dec]
    return .unary (← ops[(n - 38) / 4]?) (← width? ((n - 38) % 4))
  else if n < 66 then do
    let ops : List ShiftOp := [.shl, .shr, .sar]
    return .shift (← ops[(n - 54) / 4]?) (← width? ((n - 54) % 4))
  else if n < 70 then [.push .long, .push .quad, .pop .long, .pop .quad][n - 66]?
  else if n < 80 then do
    let conditions : List Condition :=
      [.equal, .notEqual, .less, .lessEqual, .greater, .greaterEqual, .below, .belowEqual, .above, .aboveEqual]
    return .jump (← conditions[n - 70]?)
  else [.int3, .syscall, .hlt][n - 80]?

theorem Mnemonic.getElem?_all (n : Nat) : all[n]? = numbered? n := by
  by_cases inside : n < 83
  · revert n
    decide +kernel
  · have past : all.length ≤ n := Nat.not_lt.mp inside
    rw [List.getElem?_eq_none past, numbered?, if_neg (by omega), if_neg (by omega), if_neg (by omega),
      if_neg (by omega), if_neg (by omega), if_neg (by omega), if_neg (by omega),
      List.getElem?_eq_none (by simp only [List.length_cons, List.length_nil]; omega)]

/-- The table of mnemonics is in order: an opcode stands for what its number says. -/
theorem Mnemonic.ofOpcode?_eq_numbered? (op : Opcode) :
    ofOpcode? op = if op.code.toNat < 64 then none else numbered? (op.code.toNat - 64) := by
  have generic : op.isGeneric = true ↔ op.code.toNat < 64 := by
    rw [Opcode.isGeneric, decide_eq_true_eq, UInt16.lt_iff_toNat_lt]
    rfl
  simp only [ofOpcode?, generic]
  split
  · rfl
  · exact getElem?_all _

example : [64, 95, 96, 99, 105, 118, 130, 133, 134, 143, 144, 146, 147].map (fun n => opcodeName? ⟨n⟩) =
    [some "MOVB", some "TESTQ", some "IMULW", some "LEAW", some "NEGQ", some "SHLB", some "PUSHL", some "POPQ",
     some "JEQ", some "JCC", some "INT3", some "HLT", none] := by
  decide +kernel

end Opcodes

theorem exists_map_iff {α β ε : Type} {f : α → β} {x : Except ε α} :
    (∃ b, f <$> x = .ok b) ↔ ∃ a, x = .ok a := by
  cases x with
  | error e => exact ⟨nofun, nofun⟩
  | ok a => exact ⟨fun _ => ⟨a, rfl⟩, fun _ => ⟨f a, rfl⟩⟩

theorem exists_bind_iff {α β ε : Type} {x : Except ε α} {f : α → Except ε β} :
    (∃ b, x >>= f = .ok b) ↔ ∃ a, x = .ok a ∧ ∃ b, f a = .ok b := by
  simp only [bind_eq_ok]
  exact ⟨fun ⟨b, a, run, rest⟩ => ⟨a, run, b, rest⟩, fun ⟨a, run, b, rest⟩ => ⟨b, a, run, rest⟩⟩

section Operands

variable {w : Width} {o : Operand}

theorem exists_gpr_iff {r : Reg} : (∃ g, Mode.bits64.gpr r w = .ok g) ↔ IsRegister r := by
  constructor
  · rintro ⟨g, run⟩
    obtain ⟨number, -⟩ := gpr_eq_ok.mp run
    have small := g.number.isLt
    constructor <;> omega
  · rintro ⟨low, high⟩
    have small : (r.number.toInt - 1).toNat < 16 := by omega
    refine ⟨⟨⟨(r.number.toInt - 1).toNat, small⟩⟩, gpr_eq_ok.mpr ⟨?_, nofun⟩⟩
    simp only
    omega

/-- A register that may be left out is looked up if it is there. -/
theorem exists_optional_iff {α : Type} {r : Reg} {absent : α} {found : Except EncodingError α}
    (register : (∃ a, found = .ok a) ↔ IsRegister r) :
    (∃ a, (if r.isNone then .ok absent else found) = .ok a) ↔ IsOptionalRegister r := by
  unfold IsOptionalRegister
  split
  · rename_i left_out
    exact iff_of_true ⟨absent, rfl⟩ (.inl (of_decide_eq_true left_out))
  · rename_i present
    rw [register, or_iff_right]
    intro left_out
    exact present (decide_eq_true left_out)

theorem exists_addressReg64_iff {r : Reg} :
    (∃ found, Mode.bits64.addressReg r = .ok found) ↔ IsOptionalRegister r :=
  exists_optional_iff (exists_map_iff.trans exists_gpr_iff)

theorem exists_resolve_reg_iff : (∃ g, Mode.bits64.resolve w o = .ok (.reg g)) ↔ InRegister o := by
  cases o with
  | none | const | branch => exact ⟨by rintro ⟨_, ⟨⟩⟩, nofun⟩
  | mem base index scale offset =>
      refine ⟨?_, nofun⟩
      rintro ⟨g, run⟩
      obtain ⟨a, -, other⟩ := map_eq_ok.mp run
      cases other
  | reg r =>
      refine Iff.trans ?_ (exists_gpr_iff (w := w))
      refine exists_congr fun g => map_eq_ok.trans ?_
      exact ⟨by rintro ⟨_, run, ⟨⟩⟩; exact run, fun run => ⟨g, run, rfl⟩⟩

theorem exists_resolve_mem_iff : (∃ a, Mode.bits64.resolve w o = .ok (.mem a)) ↔ InMemory o := by
  cases o with
  | none | const | branch => exact ⟨by rintro ⟨_, ⟨⟩⟩, nofun⟩
  | reg r =>
      refine ⟨?_, nofun⟩
      rintro ⟨a, run⟩
      obtain ⟨g, -, other⟩ := map_eq_ok.mp run
      cases other
  | mem base index scale offset =>
      have addressed : (∃ a, Mode.bits64.address (.mem base index scale offset) = .ok a) ↔
          InMemory (.mem base index scale offset) := exists_address_mem_iff fun r => exists_addressReg64_iff
      rw [← addressed]
      refine exists_congr fun a => map_eq_ok.trans ?_
      exact ⟨by rintro ⟨_, run, ⟨⟩⟩; exact run, fun run => ⟨a, run, rfl⟩⟩

theorem exists_resolveReg_iff : (∃ g, Mode.bits64.resolveReg w o = .ok g) ↔ InRegister o := by
  rw [Mode.resolveReg, exists_bind_iff, ← exists_resolve_reg_iff (w := w)]
  constructor
  · rintro ⟨d, run, g, built⟩
    cases d with
    | reg g => exact ⟨g, run⟩
    | mem | imm => cases built
  · rintro ⟨g, run⟩
    exact ⟨_, run, g, rfl⟩

theorem exists_resolveRegMem_iff : (∃ rm, Mode.bits64.resolveRegMem w o = .ok rm) ↔ IsPlace o := by
  rw [Mode.resolveRegMem, exists_bind_iff, IsPlace, ← exists_resolve_reg_iff (w := w),
    ← exists_resolve_mem_iff (w := w)]
  constructor
  · rintro ⟨d, run, rm, built⟩
    cases d with
    | reg g => exact .inl ⟨g, run⟩
    | mem a => exact .inr ⟨a, run⟩
    | imm v => cases built
  · rintro (⟨g, run⟩ | ⟨a, run⟩)
    · exact ⟨_, run, .reg g, rfl⟩
    · exact ⟨_, run, .mem a, rfl⟩

/-- An operation with a constant is lowered exactly if it takes the constant. -/
theorem exists_lowered_iff {use : ConstantUse} {v : Int64} :
    (∃ i, use.lowered v = .ok i) ↔ use.Takes v := by
  constructor
  · rintro ⟨i, lowered⟩
    by_contra refused
    rw [use.lowered_of_not_takes refused] at lowered
    cases lowered
  · intro taken
    obtain ⟨i, lowered, -⟩ := use.exists_lowered taken
    exact ⟨i, lowered⟩

end Operands

section Mnemonics

variable {op : BinaryOp} {w : Width} {inFunction : Handle → Bool} {p : Payload}

/-- Of the nine combinations of resolved operands five have an instruction. -/
theorem exists_lowerBinary_iff {dst src : Operand} :
    (∃ d s, Mode.bits64.resolve w dst = .ok d ∧ Mode.bits64.resolve w src = .ok s ∧
      ∃ i, lowerBinary op w d s = .ok i) ↔ TwoOperands op w dst src := by
  constructor
  · rintro ⟨d, s, dst_run, src_run, i, lowered⟩
    cases d with
    | imm v => cases s <;> cases lowered
    | reg d =>
        have dst_reg := exists_resolve_reg_iff.mp ⟨d, dst_run⟩
        cases s with
        | reg s => exact .registers dst_reg (exists_resolve_reg_iff.mp ⟨s, src_run⟩)
        | mem s => exact .load dst_reg (exists_resolve_mem_iff.mp ⟨s, src_run⟩)
        | imm v =>
            obtain rfl := resolve_imm src_run
            have taken : (ConstantUse.binary op w (.reg d)).Takes v := exists_lowered_iff.mp ⟨i, lowered⟩
            rcases taken with inRange | ⟨mov, quad, -⟩
            · exact .constant (.inl dst_reg) inRange
            · exact .wideConstant mov quad dst_reg
    | mem d =>
        have dst_mem := exists_resolve_mem_iff.mp ⟨d, dst_run⟩
        cases s with
        | reg s => exact .store dst_mem (exists_resolve_reg_iff.mp ⟨s, src_run⟩)
        | mem s => cases lowered
        | imm v =>
            obtain rfl := resolve_imm src_run
            have taken : (ConstantUse.binary op w (.mem d)).Takes v := exists_lowered_iff.mp ⟨i, lowered⟩
            rcases taken with inRange | ⟨-, -, r, other⟩
            · exact .constant (.inr dst_mem) inRange
            · cases other
  · intro operands
    cases operands with
    | registers dst_reg src_reg =>
        obtain ⟨d, dst_run⟩ := exists_resolve_reg_iff.mpr dst_reg
        obtain ⟨s, src_run⟩ := exists_resolve_reg_iff.mpr src_reg
        exact ⟨_, _, dst_run, src_run, _, rfl⟩
    | store dst_mem src_reg =>
        obtain ⟨d, dst_run⟩ := exists_resolve_mem_iff.mpr dst_mem
        obtain ⟨s, src_run⟩ := exists_resolve_reg_iff.mpr src_reg
        exact ⟨_, _, dst_run, src_run, _, rfl⟩
    | load dst_reg src_mem =>
        obtain ⟨d, dst_run⟩ := exists_resolve_reg_iff.mpr dst_reg
        obtain ⟨s, src_run⟩ := exists_resolve_mem_iff.mpr src_mem
        exact ⟨_, _, dst_run, src_run, _, rfl⟩
    | constant place inRange =>
        rcases place with dst_reg | dst_mem
        · obtain ⟨d, dst_run⟩ := exists_resolve_reg_iff.mpr dst_reg
          obtain ⟨i, lowered, -⟩ := ConstantUse.exists_lowered (.binary op w (.reg d)) (.inl inRange)
          exact ⟨_, _, dst_run, rfl, i, lowered⟩
        · obtain ⟨d, dst_run⟩ := exists_resolve_mem_iff.mpr dst_mem
          obtain ⟨i, lowered, -⟩ := ConstantUse.exists_lowered (.binary op w (.mem d)) (.inl inRange)
          exact ⟨_, _, dst_run, rfl, i, lowered⟩
    | wideConstant mov quad dst_reg =>
        obtain ⟨d, dst_run⟩ := exists_resolve_reg_iff.mpr dst_reg
        obtain ⟨i, lowered, -⟩ := ConstantUse.exists_lowered (.binary op w (.reg d)) (.inr ⟨mov, quad, d, rfl⟩)
        exact ⟨_, _, dst_run, rfl, i, lowered⟩

theorem exists_lowerImul_const_iff {v : Int64} :
    (∃ i, lowerImul .bits64 w { p with src := .const v } = .ok i) ↔
      InRegister p.dst ∧ IsOptionalRegister p.reg ∧ w.InRange v := by
  simp only [lowerImul_const, exists_bind_iff, exists_lowered_iff]
  constructor
  · rintro ⟨dst, dst_run, src, src_run, inRange⟩
    exact ⟨exists_resolveReg_iff.mp ⟨dst, dst_run⟩, (exists_optional_iff exists_gpr_iff).mp ⟨src, src_run⟩, inRange⟩
  · rintro ⟨dst_reg, optional, inRange⟩
    obtain ⟨dst, dst_run⟩ := exists_resolveReg_iff.mpr dst_reg
    obtain ⟨src, src_run⟩ := (exists_optional_iff (exists_gpr_iff (w := w))).mpr optional
    exact ⟨dst, dst_run, src, src_run, inRange⟩

theorem exists_lowerImul_iff :
    (∃ i, lowerImul .bits64 w p = .ok i) ↔ OperandsOf inFunction p (.imul w) := by
  constructor
  · rintro ⟨i, lowered⟩
    obtain ⟨dst, dst_run, rest⟩ := bind_eq_ok.mp lowered
    obtain ⟨src, src_run, -⟩ := bind_eq_ok.mp rest
    have dst_reg := exists_resolveReg_iff.mp ⟨dst, dst_run⟩
    cases src with
    | reg s => exact .multiply dst_reg (.inl (exists_resolve_reg_iff.mp ⟨s, src_run⟩))
    | mem s => exact .multiply dst_reg (.inr (exists_resolve_mem_iff.mp ⟨s, src_run⟩))
    | imm v =>
        have const := resolve_imm src_run
        have same : p = { p with src := .const v } := by rw [← const]
        rw [same] at lowered
        obtain ⟨-, optional, inRange⟩ := exists_lowerImul_const_iff.mp ⟨i, lowered⟩
        exact .multiplyBy dst_reg const inRange optional
  · intro operands
    cases operands with
    | multiply dst_reg place =>
        obtain ⟨dst, dst_run⟩ := exists_resolveReg_iff.mpr dst_reg
        rcases place with src_reg | src_mem
        · obtain ⟨s, src_run⟩ := exists_resolve_reg_iff.mpr src_reg
          exact ⟨_, bind_eq_ok.mpr ⟨dst, dst_run, bind_eq_ok.mpr ⟨_, src_run, rfl⟩⟩⟩
        · obtain ⟨s, src_run⟩ := exists_resolve_mem_iff.mpr src_mem
          exact ⟨_, bind_eq_ok.mpr ⟨dst, dst_run, bind_eq_ok.mpr ⟨_, src_run, rfl⟩⟩⟩
    | @multiplyBy _ v dst_reg const inRange optional =>
        have same : p = { p with src := .const v } := by rw [← const]
        rw [same]
        exact exists_lowerImul_const_iff.mpr ⟨dst_reg, optional, inRange⟩

theorem exists_lowerLea_iff :
    (∃ i, lowerLea .bits64 w p = .ok i) ↔ InRegister p.dst ∧ InMemory p.src := by
  constructor
  · rintro ⟨i, lowered⟩
    obtain ⟨dst, dst_run, lowered⟩ := bind_eq_ok.mp lowered
    obtain ⟨src, src_run, lowered⟩ := bind_eq_ok.mp lowered
    cases dst with
    | mem | imm => cases src <;> cases lowered
    | reg d =>
        cases src with
        | reg | imm => cases lowered
        | mem s => exact ⟨exists_resolve_reg_iff.mp ⟨d, dst_run⟩, exists_resolve_mem_iff.mp ⟨s, src_run⟩⟩
  · rintro ⟨dst_reg, src_mem⟩
    obtain ⟨d, dst_run⟩ := exists_resolve_reg_iff.mpr dst_reg
    obtain ⟨s, src_run⟩ := exists_resolve_mem_iff.mpr src_mem
    exact ⟨_, bind_eq_ok.mpr ⟨_, dst_run, bind_eq_ok.mpr ⟨_, src_run, rfl⟩⟩⟩

theorem exists_lowerShift_iff {op : ShiftOp} :
    (∃ i, lowerShift .bits64 op w p = .ok i) ↔ OperandsOf inFunction p (.shift op w) := by
  constructor
  · rintro ⟨i, lowered⟩
    obtain ⟨dst, dst_run, lowered⟩ := bind_eq_ok.mp lowered
    have place := exists_resolveRegMem_iff.mp ⟨dst, dst_run⟩
    split at lowered
    case h_1 v const =>
        split at lowered
        case isTrue counts => exact .shiftBy place const counts.1 (by omega)
        case isFalse => cases lowered
    case h_2 r src_reg =>
        split at lowered
        case isTrue is_cx =>
            subst is_cx
            exact .shiftByCx place src_reg
        case isFalse => cases lowered
    case h_3 => cases lowered
  · intro operands
    rw [lowerShift, exists_bind_iff]
    cases operands with
    | shiftBy place const low high =>
        obtain ⟨dst, dst_run⟩ := exists_resolveRegMem_iff.mpr place
        refine ⟨dst, dst_run, ?_⟩
        rw [const]
        exact ⟨_, if_pos ⟨low, by omega⟩⟩
    | shiftByCx place src_reg =>
        obtain ⟨dst, dst_run⟩ := exists_resolveRegMem_iff.mpr place
        refine ⟨dst, dst_run, ?_⟩
        rw [src_reg]
        exact ⟨_, if_pos rfl⟩

theorem exists_lowerStack_iff {o : Operand} :
    (∃ g, lowerStack .bits64 w o = .ok g) ↔ w = .quad ∧ InRegister o := by
  unfold lowerStack
  split
  · rename_i native
    rw [exists_resolveReg_iff]
    exact (and_iff_right native).symm
  · rename_i other
    exact iff_of_false (by rintro ⟨_, ⟨⟩⟩) fun both => other both.1

theorem exists_lowerBranch_iff {kind : Branch} {t : Handle} :
    (∃ x, lowerBranch inFunction kind t = .ok x) ↔ inFunction t = true := by
  unfold lowerBranch
  split
  · rename_i inside
    exact iff_of_true ⟨_, rfl⟩ inside
  · rename_i outside
    exact iff_of_false (by rintro ⟨_, ⟨⟩⟩) outside

theorem exists_lowerTransfer_iff {kind : Branch} {indirect : RegMem → Instruction} {o : Operand} :
    (∃ x, lowerTransfer .bits64 inFunction kind indirect o = .ok x) ↔
      (∃ t, o = .branch t ∧ inFunction t = true) ∨ IsPlace o := by
  have elsewhere : (∀ t, o ≠ .branch t) →
      ((∃ x, (do return some (.plain (indirect (← Mode.bits64.resolveRegMem .quad o))) :
          Except EncodingError (Option Emission)) = .ok x) ↔
        (∃ t, o = .branch t ∧ inFunction t = true) ∨ IsPlace o) := by
    intro other
    rw [or_iff_right (by rintro ⟨t, branch, -⟩; exact other t branch), ← exists_resolveRegMem_iff (w := .quad)]
    exact exists_map_iff
  cases o with
  | branch t =>
      refine exists_lowerBranch_iff.trans ⟨fun inside => .inl ⟨t, rfl, inside⟩, ?_⟩
      rintro (⟨_, ⟨⟩, inside⟩ | ⟨⟨⟩⟩ | ⟨⟨⟩⟩)
      exact inside
  | none | reg | const | mem => exact elsewhere nofun

theorem exists_lowerMnemonic_binary_iff :
    (∃ x, lowerMnemonic .bits64 inFunction p (.binary op w) = .ok x) ↔
      OperandsOf inFunction p (.binary op w) := by
  by_cases cmp : op = .arith .cmp
  · subst cmp
    have swapped : lowerMnemonic .bits64 inFunction p (.binary (.arith .cmp) w) =
        Mode.bits64.resolve w p.src >>= fun s => Mode.bits64.resolve w p.dst >>= fun d =>
          (fun i => some (.plain i)) <$> lowerBinary (.arith .cmp) w s d := rfl
    simp only [swapped, exists_bind_iff, exists_map_iff]
    constructor
    · rintro ⟨s, src_run, d, dst_run, lowered⟩
      exact .compare (exists_lowerBinary_iff.mp ⟨s, d, src_run, dst_run, lowered⟩)
    · intro operands
      cases operands with
      | binary other => exact absurd rfl other
      | compare operands =>
          obtain ⟨s, d, src_run, dst_run, lowered⟩ := exists_lowerBinary_iff.mpr operands
          exact ⟨s, src_run, d, dst_run, lowered⟩
  · have inOrder : lowerMnemonic .bits64 inFunction p (.binary op w) =
        Mode.bits64.resolve w p.src >>= fun s => Mode.bits64.resolve w p.dst >>= fun d =>
          (fun i => some (.plain i)) <$> lowerBinary op w d s := by
      simp only [lowerMnemonic, if_neg cmp]
      rfl
    simp only [inOrder, exists_bind_iff, exists_map_iff]
    constructor
    · rintro ⟨s, src_run, d, dst_run, lowered⟩
      exact .binary cmp (exists_lowerBinary_iff.mp ⟨d, s, dst_run, src_run, lowered⟩)
    · intro operands
      cases operands with
      | compare => exact absurd rfl cmp
      | binary _ operands =>
          obtain ⟨d, s, dst_run, src_run, lowered⟩ := exists_lowerBinary_iff.mpr operands
          exact ⟨s, src_run, d, dst_run, lowered⟩

theorem exists_lowerMnemonic_jump_iff {c : Condition} :
    (∃ x, lowerMnemonic .bits64 inFunction p (.jump c) = .ok x) ↔ OperandsOf inFunction p (.jump c) := by
  rw [lowerMnemonic]
  split
  · rename_i t branch
    refine exists_lowerBranch_iff.trans ⟨.jump branch, ?_⟩
    rintro ⟨⟩
    rename_i dst inside
    obtain rfl := Operand.branch.inj (branch.symm.trans dst)
    exact inside
  · rename_i other
    refine iff_of_false (by rintro ⟨_, ⟨⟩⟩) ?_
    rintro ⟨⟩
    rename_i dst _
    exact other _ dst

/-- Each mnemonic is lowered exactly with the operands that it takes. -/
theorem exists_lowerMnemonic_iff {mnemonic : Mnemonic} :
    (∃ x, lowerMnemonic .bits64 inFunction p mnemonic = .ok x) ↔ OperandsOf inFunction p mnemonic := by
  cases mnemonic with
  | binary op w => exact exists_lowerMnemonic_binary_iff
  | imul w => exact exists_map_iff.trans exists_lowerImul_iff
  | lea w =>
      refine exists_map_iff.trans (exists_lowerLea_iff.trans ⟨fun both => .lea both.1 both.2, ?_⟩)
      rintro ⟨⟩
      exact ⟨‹_›, ‹_›⟩
  | unary op w =>
      refine exists_map_iff.trans (exists_resolveRegMem_iff.trans ⟨.unary, ?_⟩)
      rintro ⟨⟩
      assumption
  | shift op w => exact exists_map_iff.trans exists_lowerShift_iff
  | push w =>
      refine exists_map_iff.trans (exists_lowerStack_iff.trans ⟨?_, ?_⟩)
      · rintro ⟨rfl, src_reg⟩
        exact .push src_reg
      · rintro ⟨⟩
        exact ⟨rfl, ‹_›⟩
  | pop w =>
      refine exists_map_iff.trans (exists_lowerStack_iff.trans ⟨?_, ?_⟩)
      · rintro ⟨rfl, dst_reg⟩
        exact .pop dst_reg
      · rintro ⟨⟩
        exact ⟨rfl, ‹_›⟩
  | jump c => exact exists_lowerMnemonic_jump_iff
  | int3 => exact iff_of_true ⟨_, rfl⟩ .int3
  | syscall => exact iff_of_true ⟨_, rfl⟩ .syscall
  | hlt => exact iff_of_true ⟨_, rfl⟩ .hlt

end Mnemonics

theorem exists_lower_transfer_iff {inFunction : Handle → Bool} {p : Payload}
    (generic : p.op = .jmp ∨ p.op = .call) :
    (∃ x, lower .bits64 inFunction p = .ok x) ↔
      (∃ t, p.dst = .branch t ∧ inFunction t = true) ∨ IsPlace p.dst := by
  rcases generic with jmp | call
  · rw [lower, jmp]
    exact exists_lowerTransfer_iff
  · rw [lower, call]
    exact exists_lowerTransfer_iff

/-- Lowering accepts exactly the records of the grammar. -/
theorem lowering_accepts_grammar (inFunction : Handle → Bool) (p : Payload) :
    (∃ x, lower .bits64 inFunction p = .ok x) ↔ Grammatical inFunction p := by
  constructor
  · rintro ⟨x, lowered⟩
    by_cases nop : p.op = .nop
    · exact .nop nop
    by_cases ret : p.op = .ret
    · exact .ret ret
    by_cases generic : p.op = .jmp ∨ p.op = .call
    · rcases (exists_lower_transfer_iff generic).mp ⟨x, lowered⟩ with ⟨t, branch, inside⟩ | place
      · exact .transfer generic branch inside
      · exact .indirect generic place
    · obtain ⟨not_jmp, not_call⟩ := not_or.mp generic
      rw [lower, if_neg nop, if_neg ret, if_neg not_jmp, if_neg not_call] at lowered
      split at lowered
      case h_1 mnemonic found =>
          obtain ⟨known, opcode⟩ := Mnemonic.ofOpcode?_eq_some_iff.mp found
          exact .own known opcode (exists_lowerMnemonic_iff.mp ⟨x, lowered⟩)
      case h_2 => cases lowered
  · intro grammatical
    cases grammatical with
    | nop nop => exact ⟨none, if_pos nop⟩
    | ret ret =>
        rw [lower, ret]
        exact ⟨_, rfl⟩
    | transfer generic branch inside =>
        exact (exists_lower_transfer_iff generic).mpr (.inl ⟨_, branch, inside⟩)
    | indirect generic place => exact (exists_lower_transfer_iff generic).mpr (.inr place)
    | own known opcode operands =>
        rw [lower_eq_lowerMnemonic (Mnemonic.ofOpcode?_eq_some_iff.mpr ⟨known, opcode⟩)]
        exact exists_lowerMnemonic_iff.mpr operands

end InstrStream.X86
