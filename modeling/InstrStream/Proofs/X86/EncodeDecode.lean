import InstrStream.Proofs.X86.Decoder
import InstrStream.X86.Layout
import Mathlib.Data.Int.ModEq

/-! Decoding what was encoded. The parts of an encoding are read back one by one, each in front of any
further bytes: numbers, prefixes, ModRM with what it brings along, operands. An instruction whose
registers exist in the mode is read as itself. -/
namespace InstrStream.X86

namespace Decoder

theorem span_pos (n : Nat) : 0 < span n := by
  induction n with
  | zero => exact Nat.one_pos
  | succ n ih => exact Nat.mul_pos (by decide) ih

theorem unsigned_leBytes (n : Nat) (v : Int) : (unsigned (leBytes n v) : Int) = v % (span n : Int) := by
  induction n generalizing v with
  | zero => simp [leBytes, unsigned, span]
  | succ n ih =>
      have low := Int.emod_nonneg v (show (256 : Int) ≠ 0 by decide)
      have high := Int.emod_lt_of_pos v (show (0 : Int) < 256 by decide)
      have byte : (UInt8.ofNat (v % 256).toNat).toNat = (v % 256).toNat := by
        rw [UInt8.toNat_ofNat']
        omega
      simp only [leBytes, unsigned, span, byte]
      push_cast
      rw [ih, Int.toNat_of_nonneg low]
      have pos : (0 : Int) < span n := Int.natCast_pos.mpr (span_pos n)
      have rest_low := Int.emod_nonneg (v / 256) (Int.ne_of_gt pos)
      have rest_high := Int.emod_lt_of_pos (v / 256) pos
      have whole := Int.emod_add_mul_ediv v 256
      have part := Int.emod_add_mul_ediv (v / 256) (span n)
      refine ((Int.ediv_emod_unique (q := v / 256 / span n) (by omega)).mpr ⟨?_, ?_, ?_⟩).2.symm
      · rw [Int.mul_assoc]
        omega
      · omega
      · omega

theorem readSigned_leBytes (n : Nat) (v : Int) (rest : List UInt8) :
    readSigned n (leBytes n v ++ rest) = some (v.bmod (span n), rest) := by
  have size := length_leBytes n v
  simp only [readSigned, List.length_append, size]
  rw [if_pos (by omega), List.take_left' size, List.drop_left' size, unsigned_leBytes, Int.emod_bmod]

theorem gprOf_low (g : Gpr) : gprOf g.isHigh g.low = g := by
  obtain ⟨n⟩ := g
  revert n
  decide

/-- The prefixes of an instruction with these flags, which has a REX byte if one of them is set or a
register asks for it. -/
def prefixesOf (w : Width) (forced wide r x b : Bool) : Prefixes :=
  ⟨w = .word, if wide || r || x || b || forced then some ⟨wide, r, x, b⟩ else none⟩

section Prefixes

variable (w : Width) (forced wide r x b : Bool)

@[simp] theorem prefixesOf_w : (prefixesOf w forced wide r x b).w = wide := by
  cases w <;> revert forced wide r x b <;> decide

@[simp] theorem prefixesOf_r : (prefixesOf w forced wide r x b).r = r := by
  cases w <;> revert forced wide r x b <;> decide

@[simp] theorem prefixesOf_x : (prefixesOf w forced wide r x b).x = x := by
  cases w <;> revert forced wide r x b <;> decide

@[simp] theorem prefixesOf_b : (prefixesOf w forced wide r x b).b = b := by
  cases w <;> revert forced wide r x b <;> decide

@[simp] theorem prefixesOf_operandSize :
    (prefixesOf w forced wide r x b).operandSize = decide (w = .word) := rfl

theorem prefixesOf_rex_eq_none :
    (prefixesOf w forced wide r x b).rex = none ↔
      wide = false ∧ r = false ∧ x = false ∧ b = false ∧ forced = false := by
  cases w <;> revert forced wide r x b <;> decide

theorem ofByte?_rexBytes :
    Rex.ofByte? (.ofNat (0x40 + ((if wide then 8 else 0) + (if r then 4 else 0) +
      ((if x then 2 else 0) + (if b then 1 else 0))))) = some ⟨wide, r, x, b⟩ := by
  revert wide r x b
  decide

/-- The first byte of an opcode is neither of the prefixes. -/
def NoPrefix (byte : UInt8) : Prop := byte ≠ 0x66 ∧ Rex.ofByte? byte = none

instance (byte : UInt8) : Decidable (NoPrefix byte) := inferInstanceAs (Decidable (_ ∧ _))

theorem rexBytes_eq (bits : Nat) (zero : bits = 0 ↔ wide = false ∧ r = false ∧ x = false ∧ b = false) :
    rexBytes bits forced =
      if wide || r || x || b || forced then [UInt8.ofNat (0x40 + bits)] else [] := by
  unfold rexBytes
  by_cases h : bits = 0
  · obtain ⟨rfl, rfl, rfl, rfl⟩ := zero.mp h
    cases forced <;> simp [h]
  · have some_set : (wide || r || x || b) = true := by
      by_contra none_set
      simp only [Bool.not_eq_true, Bool.or_eq_false_iff] at none_set
      exact h (zero.mpr ⟨none_set.1.1.1, none_set.1.1.2, none_set.1.2, none_set.2⟩)
    simp [h, some_set]

theorem readPrefixes_noPrefix {m : Mode} {byte : UInt8} (plain : NoPrefix byte) (rest : List UInt8) :
    readPrefixes m (byte :: rest) = ({}, byte :: rest) := by
  simp [readPrefixes, plain.1, plain.2]

theorem readPrefixes_operandSize (m : Mode) {byte : UInt8} (rest : List UInt8) (plain : byte ≠ 0x66) :
    readPrefixes m (0x66 :: byte :: rest) =
      ({ (readPrefixes m (byte :: rest)).1 with operandSize := true },
        (readPrefixes m (byte :: rest)).2) := by
  simp only [readPrefixes, if_pos, if_neg plain]
  cases (if m = .bits64 then Rex.ofByte? byte else none) <;> rfl

theorem ne_operandSize {byte : UInt8} {rex : Rex} (is_rex : Rex.ofByte? byte = some rex) :
    byte ≠ 0x66 := by
  rintro rfl
  have none : Rex.ofByte? 0x66 = none := by decide
  simp [none] at is_rex

theorem readPrefixes_rex {byte : UInt8} {rex : Rex} (is_rex : Rex.ofByte? byte = some rex)
    (rest : List UInt8) :
    readPrefixes .bits64 (byte :: rest) = (⟨false, some rex⟩, rest) := by
  simp [readPrefixes, ne_operandSize is_rex, is_rex]

theorem readPrefixes_sizes {m : Mode} (has_code : m ≠ .bits16) {byte : UInt8} (plain : byte ≠ 0x66)
    (rest : List UInt8) :
    readPrefixes m (operandSizeBytes m w ++ byte :: rest) =
      ({ (readPrefixes m (byte :: rest)).1 with operandSize := decide (w = .word) },
        (readPrefixes m (byte :: rest)).2) := by
  have unsized : (readPrefixes m (byte :: rest)).1.operandSize = false := by
    simp only [readPrefixes, if_neg plain]
    cases (if m = .bits64 then Rex.ofByte? byte else none) <;> rfl
  cases m <;> cases w
  case bits16.byte | bits16.word | bits16.long | bits16.quad => exact absurd rfl has_code
  case bits32.word | bits64.word => exact readPrefixes_operandSize _ rest plain
  all_goals
    simp only [operandSizeBytes, List.nil_append]
    exact Prod.ext (congrArg (Prefixes.mk · _) unsized) rfl

theorem readPrefixes_leading {m : Mode} (has_code : m ≠ .bits16) {bits : Nat}
    (bits_eq : bits = (if wide then 8 else 0) + (if r then 4 else 0) +
      ((if x then 2 else 0) + (if b then 1 else 0)))
    (narrow : m = .bits32 → (wide || r || x || b || forced) = false)
    {byte : UInt8} (plain : NoPrefix byte) (rest : List UInt8) :
    readPrefixes m (operandSizeBytes m w ++ (rexBytes bits forced ++ byte :: rest)) =
      (prefixesOf w forced wide r x b, byte :: rest) := by
  have zero : bits = 0 ↔ wide = false ∧ r = false ∧ x = false ∧ b = false := by
    rw [bits_eq]
    clear bits_eq narrow
    revert wide r x b
    decide
  rw [rexBytes_eq forced wide r x b bits zero]
  by_cases any_set : (wide || r || x || b || forced) = true
  · have long_mode : m = .bits64 := by
      cases m with
      | bits16 => exact absurd rfl has_code
      | bits32 => exact absurd (narrow rfl) (by simp [any_set])
      | bits64 => rfl
    subst long_mode
    have is_rex : Rex.ofByte? (.ofNat (0x40 + bits)) = some ⟨wide, r, x, b⟩ := by
      rw [bits_eq]
      exact ofByte?_rexBytes wide r x b
    rw [if_pos any_set, List.singleton_append, readPrefixes_sizes w has_code (ne_operandSize is_rex),
      readPrefixes_rex is_rex]
    simp [prefixesOf, any_set]
  · rw [if_neg any_set, List.nil_append, readPrefixes_sizes w has_code plain.1,
      readPrefixes_noPrefix plain]
    simp [prefixesOf, any_set]

end Prefixes

end Decoder

/-- A register that code of the mode can name at a width. -/
def Gpr.FitsIn (m : Mode) (w : Width) (g : Gpr) : Prop :=
  m = .bits32 → w ≠ .quad ∧ g.number.val < w.registersIn32

theorem Gpr.FitsIn.isHigh_eq {m : Mode} {w : Width} {g : Gpr} (fits : g.FitsIn m w)
    (narrow : m = .bits32) : g.isHigh = false := by
  obtain ⟨_, small⟩ := fits narrow
  have : w.registersIn32 ≤ 8 := by cases w <;> decide
  simp only [Gpr.isHigh, decide_eq_false_iff_not]
  omega

/-- An address whose registers can be named; its index is not SP. -/
structure Address.FitsIn (m : Mode) (a : Address) : Prop where
  base : ∀ g ∈ a.base, g.FitsIn m m.nativeWidth
  index : ∀ g ∈ a.index, g.FitsIn m m.nativeWidth ∧ g.number.val ≠ 4

namespace RegMem

def FitsIn (m : Mode) (w : Width) : RegMem → Prop
  | .reg r => r.FitsIn m w
  | .mem a => a.FitsIn m

def indexHigh : RegMem → Bool
  | .reg _ => false
  | .mem a => a.index.any Gpr.isHigh

def baseHigh : RegMem → Bool
  | .reg r => r.isHigh
  | .mem a => a.base.any Gpr.isHigh

theorem rexBits_eq (rm : RegMem) :
    rm.rexBits = (if rm.indexHigh then 2 else 0) + (if rm.baseHigh then 1 else 0) := by
  cases rm with
  | reg r => cases high : r.isHigh <;> simp [rexBits, indexHigh, baseHigh, high]
  | mem a => rfl

theorem FitsIn.high_eq {m : Mode} {w : Width} {rm : RegMem} (fits : rm.FitsIn m w)
    (narrow : m = .bits32) : rm.indexHigh = false ∧ rm.baseHigh = false := by
  cases rm with
  | reg r => exact ⟨rfl, Gpr.FitsIn.isHigh_eq fits narrow⟩
  | mem a =>
      simp only [indexHigh, baseHigh, Option.any_eq_false]
      exact ⟨fun g at_g => (fits.index g at_g).1.isHigh_eq narrow,
        fun g at_g => (fits.base g at_g).isHigh_eq narrow⟩

end RegMem

namespace Decoder

/-- An address as the processor reads it. -/
def addressArg (a : Address) : Arg := .mem a.base (a.index.map (·, a.scale)) a.offset.toInt

def regOrMem : RegMem → RegOrMem
  | .reg r => .reg r
  | .mem a => .mem (addressArg a)

theorem toNat_modRM {mod : Nat} (small : mod < 4) (reg rm : Nat) :
    (modRM mod reg rm).toNat = mod * 64 + reg % 8 * 8 + rm % 8 := by
  simp only [modRM, UInt8.toNat_ofNat']
  omega

theorem toNat_sib (scale : Scale) (index base : Nat) :
    (sib scale index base).toNat = scale.exponent * 64 + index % 8 * 8 + base % 8 := by
  have : scale.exponent < 4 := by cases scale <;> decide
  simp only [sib, UInt8.toNat_ofNat']
  omega

theorem scaleOf_exponent (scale : Scale) : scaleOf scale.exponent = scale := by
  cases scale <;> rfl

theorem readSigned_offset (offset : Int32) (rest : List UInt8) :
    readSigned 4 (leBytes 4 offset.toInt ++ rest) = some (offset.toInt, rest) := by
  have low := offset.le_toInt
  have high := offset.toInt_lt
  rw [readSigned_leBytes, Int.bmod_eq_of_le (by simp [span]; omega) (by simp [span]; omega)]

theorem readSigned_byte {v : Int} (fits : fitsByte v = true) (rest : List UInt8) :
    readSigned 1 (leBytes 1 v ++ rest) = some (v, rest) := by
  simp only [fitsByte, decide_eq_true_eq] at fits
  rw [readSigned_leBytes, Int.bmod_eq_of_le (by simp [span]; omega) (by simp [span]; omega)]

theorem gpr_low_lt (g : Gpr) : g.low < 8 := Nat.mod_lt _ (by decide)

theorem index_read {m : Mode} {a : Address} (fits : a.FitsIn m) :
    (if (gprOf (a.index.any Gpr.isHigh) a.indexField).number.val = 4 then none
      else some (gprOf (a.index.any Gpr.isHigh) a.indexField, a.scale)) =
      a.index.map (·, a.scale) := by
  cases index : a.index with
  | none =>
      have absent : (gprOf false 4).number.val = 4 := rfl
      simp [Address.indexField, index, absent]
  | some g =>
      have other := (fits.index g index).2
      simp [Address.indexField, index, gprOf_low, other]

theorem indexField_lt (a : Address) : a.indexField < 8 := by
  unfold Address.indexField
  split
  · exact gpr_low_lt _
  · decide

section ModRM

variable {m : Mode} {a : Address} {p : Prefixes} (rest : List UInt8)

theorem readSib_eq (mod base size : Nat) (fits : a.FitsIn m) (x : p.x = a.index.any Gpr.isHigh)
    (low : base < 8)
    (size_eq : (if mod = 0 ∧ base = 5 then 4 else displacementSize mod) = size)
    (base_eq : (if mod = 0 ∧ base = 5 then none else some (gprOf p.b base)) = a.base)
    (offset : readSigned size (leBytes size a.offset.toInt ++ rest) = some (a.offset.toInt, rest)) :
    readSib p mod (sib a.scale a.indexField base :: (leBytes size a.offset.toInt ++ rest)) =
      some (addressArg a, rest) := by
  have whole := toNat_sib a.scale a.indexField base
  have index_low := indexField_lt a
  have exponent : (sib a.scale a.indexField base).toNat / 64 = a.scale.exponent := by omega
  have index : (sib a.scale a.indexField base).toNat / 8 % 8 = a.indexField := by omega
  have base_bits : (sib a.scale a.indexField base).toNat % 8 = base := by omega
  simp only [readSib, exponent, index, base_bits, size_eq, base_eq, offset, x, scaleOf_exponent,
    Option.bind_eq_bind, Option.bind_some, index_read fits]
  rfl

/-- With a base, the displacement is read in the size that was chosen for it. -/
theorem readSigned_chosen (offset : Int32) :
    readSigned (if fitsByte offset.toInt then 1 else 4)
      (leBytes (if fitsByte offset.toInt then 1 else 4) offset.toInt ++ rest) =
      some (offset.toInt, rest) := by
  split
  case isTrue short => exact readSigned_byte short rest
  case isFalse => exact readSigned_offset offset rest

theorem modRM_fields {mod rm : Nat} (small : mod < 4) (reg : Nat) (low : rm < 8) :
    (modRM mod reg rm).toNat / 64 = mod ∧ (modRM mod reg rm).toNat / 8 % 8 = reg % 8 ∧
      (modRM mod reg rm).toNat % 8 = rm := by
  have whole := toNat_modRM small reg rm
  omega

theorem readModRM_sib {mod size : Nat} (small : mod < 3) (reg base : Nat)
    (read : readSib p mod (sib a.scale a.indexField base :: (leBytes size a.offset.toInt ++ rest)) =
      some (addressArg a, rest)) :
    readModRM m p (modRM mod reg 4 :: sib a.scale a.indexField base ::
      (leBytes size a.offset.toInt ++ rest)) = some (reg % 8, .mem (addressArg a), rest) := by
  obtain ⟨mod_eq, reg_eq, rm_eq⟩ := modRM_fields (show mod < 4 by omega) reg
    (show 4 < 8 by decide)
  have not_reg : mod ≠ 3 := by omega
  simp only [readModRM, mod_eq, reg_eq, rm_eq, if_neg not_reg, if_pos, read, Option.bind_eq_bind,
    Option.bind_some]
  rfl

theorem readModRM_noBase (fits : a.FitsIn m)
    (x : p.x = a.index.any Gpr.isHigh) (base : a.base = none) (reg : Nat) :
    readModRM m p (a.bytes m reg ++ rest) = some (reg % 8, .mem (addressArg a), rest) := by
  by_cases with_sib : a.needsSib m = true
  · have read := readSib_eq (p := p) rest 0 5 4 fits x (by decide) rfl
      (by simp [base]) (readSigned_offset a.offset rest)
    simpa [Address.bytes, base, with_sib] using readModRM_sib rest (by decide) reg 5 read
  · -- Without SIB byte the code is 32-bit code, where a displacement alone is no distance.
    obtain ⟨⟨unindexed, _⟩, not_long⟩ : (a.index = none ∧ a.scale = .one) ∧ m ≠ .bits64 := by
      simpa [Address.needsSib, base] using with_sib
    obtain ⟨mod_eq, reg_eq, rm_eq⟩ := modRM_fields (show 0 < 4 by decide) reg
      (show 5 < 8 by decide)
    have read := readSigned_offset a.offset rest
    simp only [Address.bytes, base, if_neg with_sib, List.cons_append, readModRM, mod_eq, reg_eq, rm_eq,
      if_neg not_long]
    simp [addressArg, base, unindexed, read]

theorem readModRM_base (fits : a.FitsIn m) (x : p.x = a.index.any Gpr.isHigh) {g : Gpr}
    (base : a.base = some g) (b : p.b = g.isHigh) (reg : Nat) :
    readModRM m p (a.bytes m reg ++ rest) = some (reg % 8, .mem (addressArg a), rest) := by
  have read_offset := readSigned_chosen rest a.offset
  obtain ⟨mod, mod_eq⟩ : ∃ mod, mod = if fitsByte a.offset.toInt then 1 else 2 := ⟨_, rfl⟩
  obtain ⟨size, size_eq⟩ : ∃ size, size = if fitsByte a.offset.toInt then 1 else 4 := ⟨_, rfl⟩
  have mod_pos : mod ≠ 0 := by rw [mod_eq]; split <;> decide
  have mod_lt : mod < 3 := by rw [mod_eq]; split <;> decide
  have chosen : displacementSize mod = size := by rw [mod_eq, size_eq]; split <;> rfl
  have same : gprOf p.b g.low = g := by rw [b]; exact gprOf_low g
  rw [← size_eq] at read_offset
  have bytes_eq : a.bytes m reg = (if a.needsSib m then
      [modRM mod reg 4, sib a.scale a.indexField g.low] else [modRM mod reg g.low]) ++
        leBytes size a.offset.toInt := by
    simp only [Address.bytes, base, mod_eq, size_eq]
  rw [bytes_eq]
  by_cases with_sib : a.needsSib m = true
  · have read := readSib_eq (p := p) rest mod g.low size fits x (gpr_low_lt g)
      (by simp [mod_pos, chosen]) (by simp [mod_pos, same, base]) read_offset
    simpa [with_sib] using readModRM_sib rest mod_lt reg g.low read
  · obtain ⟨⟨unindexed, _⟩, no_sib⟩ : (a.index = none ∧ a.scale = .one) ∧ g.low ≠ 4 := by
      simpa [Address.needsSib, base] using with_sib
    obtain ⟨mod_bits, reg_bits, rm_bits⟩ := modRM_fields (show mod < 4 by omega) reg
      (gpr_low_lt g)
    simp only [if_neg with_sib, List.cons_append, readModRM, mod_bits, reg_bits, rm_bits, mod_pos,
      show mod ≠ 3 by omega, no_sib, chosen, same]
    simp [addressArg, base, unindexed, read_offset]

theorem readModRM_bytes {w : Width} {rm : RegMem} (fits : rm.FitsIn m w) (x : p.x = rm.indexHigh)
    (b : p.b = rm.baseHigh) (reg : Nat) :
    readModRM m p (rm.bytes m reg ++ rest) = some (reg % 8, regOrMem rm, rest) := by
  cases rm with
  | reg r =>
      obtain ⟨mod_eq, reg_eq, rm_eq⟩ := modRM_fields (show 3 < 4 by decide) reg (gpr_low_lt r)
      have same : gprOf p.b r.low = r := by rw [b]; exact gprOf_low r
      simp [RegMem.bytes, readModRM, mod_eq, reg_eq, rm_eq, same, regOrMem]
  | mem a =>
      cases base : a.base with
      | none => exact readModRM_noBase rest fits x base reg
      | some g => exact readModRM_base rest fits x base (by simpa [RegMem.baseHigh, base] using b) reg

end ModRM

/-- Bytes that are read as the opcode `n` of an instruction with a ModRM byte. -/
structure IsCode (code : List UInt8) (n : Nat) : Prop where
  plain : ∃ byte more, code = byte :: more ∧ NoPrefix byte
  read : ∀ rest, readOpcode (code ++ rest) = some (n, rest)
  kind : Decoder.kind n = .modRM

theorem readOpcode_single {byte : UInt8} (single : byte ≠ 0x0f) (rest : List UInt8) :
    readOpcode (byte :: rest) = some (byte.toNat, rest) := by
  cases rest <;> simp [readOpcode, single]

theorem isCode_singleton {byte : UInt8} (plain : NoPrefix byte) (single : byte ≠ 0x0f)
    (has_modRM : kind byte.toNat = .modRM) : IsCode [byte] byte.toNat where
  plain := ⟨byte, [], rfl, plain⟩
  read := readOpcode_single single
  kind := has_modRM

/-- Bytes that are read, with this field in the ModRM byte, as an entry of the opcode map. -/
def Means (code : List UInt8) (field : Nat) (e : Entry) : Prop :=
  ∃ n, IsCode code n ∧ entry? n field = some e

def rmArg (w : Width) : RegMem → Arg
  | .reg r => .reg w r
  | .mem a => addressArg a

/-- Registers are named as they are meant: as bytes, those that need a REX byte have one. -/
theorem regArg_eq {p : Prefixes} {w : Width} {r : Gpr}
    (named : w = .byte → p.rex = none → r.number.val < 4) : regArg p w r = .reg w r := by
  simp only [regArg, ite_eq_right_iff]
  rintro ⟨is_byte, no_rex, high⟩
  have := named is_byte no_rex
  omega

theorem width_prefixesOf (w : Width) (forced r x b : Bool) :
    (prefixesOf w forced (w = .quad) r x b).width (w = .byte) = w := by
  cases w <;> simp [Prefixes.width]

theorem number_lt_four {g : Gpr} (low : g.isHigh = false) (plain : g.isRexByte = false) :
    g.number.val < 4 := by
  simp only [Gpr.isHigh, Gpr.isRexByte, decide_eq_false_iff_not, Bool.and_eq_false_iff] at low plain
  omega

section Operands

variable {m : Mode} {w : Width} {code : List UInt8} {n : Nat} {rm : RegMem}

/-- The prefixes of an instruction with a register or a digit in the ModRM register field. -/
def prefixesWith (w : Width) (reg : Option Gpr) (rm : RegMem) : Prefixes :=
  prefixesOf w (w = .byte && (reg.toList ++ rm.reg?.toList).any Gpr.isRexByte) (w = .quad)
    (reg.any Gpr.isHigh) rm.indexHigh rm.baseHigh

@[simp] theorem regArg_prefixesWith (w : Width) (reg : Gpr) (rm : RegMem) :
    regArg (prefixesWith w (some reg) rm) w reg = .reg w reg := by
  apply regArg_eq
  rintro rfl no_rex
  simp only [prefixesWith, prefixesOf_rex_eq_none] at no_rex
  obtain ⟨_, low, _, _, unforced⟩ := no_rex
  apply number_lt_four
  · simpa using low
  · simp at unforced
    exact unforced.1

@[simp] theorem arg_prefixesWith (w : Width) (reg : Option Gpr) (rm : RegMem) :
    (regOrMem rm).arg (prefixesWith w reg rm) w = rmArg w rm := by
  cases rm with
  | mem a => rfl
  | reg r =>
      apply regArg_eq
      rintro rfl no_rex
      simp only [prefixesWith, prefixesOf_rex_eq_none] at no_rex
      obtain ⟨_, _, _, low, unforced⟩ := no_rex
      apply number_lt_four low
      simp [RegMem.reg?] at unforced
      exact unforced.2

theorem read_leading (has_code : m ≠ .bits16) (opcode : IsCode code n) {w' : Width}
    (fits : rm.FitsIn m w') {wide high : Bool} {byteRegs : List Gpr}
    (narrow : m = .bits32 →
      (wide || high || (w = .byte && byteRegs.any Gpr.isRexByte : Bool)) = false)
    (reg : Nat) (bytes : List UInt8) :
    read m (leading m w wide byteRegs high rm code ++ rm.bytes m reg ++ bytes) =
      readBody m (prefixesOf w (w = .byte && byteRegs.any Gpr.isRexByte) wide high rm.indexHigh
        rm.baseHigh) (code ++ (rm.bytes m reg ++ bytes)) := by
  obtain ⟨byte, more, rfl, plain⟩ := opcode.plain
  have no_address_size : addressSizeBytes m rm = [] := by simp [addressSizeBytes, has_code]
  have all_clear : m = .bits32 → (wide || high || rm.indexHigh || rm.baseHigh ||
      (w = .byte && byteRegs.any Gpr.isRexByte : Bool)) = false := by
    intro is_narrow
    obtain ⟨index_low, base_low⟩ := fits.high_eq is_narrow
    simpa [index_low, base_low] using narrow is_narrow
  have prefixes := readPrefixes_leading w _ wide high rm.indexHigh rm.baseHigh has_code
    (by rw [← RegMem.rexBits_eq]) all_clear plain (more ++ (rm.bytes m reg ++ bytes))
  simp only [read, if_neg has_code, leading, no_address_size, List.append_nil, List.append_assoc,
    List.cons_append]
  rw [prefixes]

theorem readBody_modRM (opcode : IsCode code n) (fits : rm.FitsIn m w) {p : Prefixes}
    (x : p.x = rm.indexHigh) (b : p.b = rm.baseHigh) (reg : Nat) {e : Entry}
    (entry : entry? n (reg % 8) = some e) (bytes : List UInt8) :
    readBody m p (code ++ (rm.bytes m reg ++ bytes)) =
      (e.shape.read p (e.width m p) (reg % 8) (regOrMem rm) bytes).map fun r =>
        (⟨e.operation, some (e.width m p), r.1⟩, r.2) := by
  simp only [readBody, opcode.read, opcode.kind, readModRM_bytes bytes fits x b reg, entry,
    Option.bind_eq_bind, Option.bind_some]
  cases e.shape.read p (e.width m p) (reg % 8) (regOrMem rm) bytes <;> rfl

theorem isRexByte_eq_false {g : Gpr} (fits : g.FitsIn .bits32 .byte) : g.isRexByte = false := by
  obtain ⟨_, small⟩ := fits rfl
  have : ¬ 4 ≤ g.number.val := by simpa [Width.registersIn32] using small
  simp [Gpr.isRexByte, this]

theorem no_rex_in_32 (exists_in : m = .bits32 → w ≠ .quad) {reg : Option Gpr}
    (reg_fits : ∀ g ∈ reg, g.FitsIn m w) (fits : rm.FitsIn m w) (narrow : m = .bits32) :
    (decide (w = .quad) || reg.any Gpr.isHigh ||
      (w = .byte && (reg.toList ++ rm.reg?.toList).any Gpr.isRexByte : Bool)) = false := by
  have low : reg.any Gpr.isHigh = false := by
    simp only [Option.any_eq_false]
    exact fun g at_g => (reg_fits g at_g).isHigh_eq narrow
  have unforced : (w = .byte && (reg.toList ++ rm.reg?.toList).any Gpr.isRexByte : Bool) = false := by
    by_cases is_byte : w = .byte
    · subst narrow is_byte
      simp only [decide_true, Bool.true_and, List.any_eq_false, List.mem_append, Option.mem_toList]
      rintro g (in_reg | in_rm)
      · simp [isRexByte_eq_false (reg_fits g in_reg)]
      · cases rm with
        | mem a => cases in_rm
        | reg r =>
            cases in_rm
            simp [isRexByte_eq_false fits]
    · simp [is_byte]
  rw [unforced, low]
  simp [exists_in narrow]

/-- What is left to read behind ModRM is read with the operands that were written: `field` stands for
the register `reg`, if there is one, and else for a part of the opcode. -/
theorem read_operands (has_code : m ≠ .bits16) (exists_in : m = .bits32 → w ≠ .quad) {field : Nat}
    {op : Operation} {shape : Shape} (means : Means code field ⟨op, shape, w = .byte⟩)
    (fits : rm.FitsIn m w) (reg : Option Gpr) (reg_fits : ∀ g ∈ reg, g.FitsIn m w) (small : field < 8)
    (sized : shape ≠ .rmNative) (bytes : List UInt8) :
    read m (leading m w (w = .quad) (reg.toList ++ rm.reg?.toList) (reg.any Gpr.isHigh) rm code ++
      rm.bytes m field ++ bytes) =
      (shape.read (prefixesWith w reg rm) w field (regOrMem rm) bytes).map fun r =>
        (⟨op, some w, r.1⟩, r.2) := by
  obtain ⟨n, opcode, entry⟩ := means
  have low : field % 8 = field := Nat.mod_eq_of_lt small
  have body := readBody_modRM (p := prefixesWith w reg rm) opcode fits (prefixesOf_x ..)
    (prefixesOf_b ..) field (by rw [low]; exact entry) bytes
  have width : Entry.width m (prefixesWith w reg rm) ⟨op, shape, w = .byte⟩ = w := by
    simp only [Entry.width, if_neg sized]
    exact width_prefixesOf ..
  rw [read_leading has_code opcode fits (no_rex_in_32 exists_in reg_fits fits)]
  rw [width, low] at body
  exact body

theorem read_native (has_code : m ≠ .bits16) {digit : Nat} {op : Operation}
    (means : Means code digit ⟨op, .rmNative, false⟩) (fits : rm.FitsIn m m.nativeWidth)
    (small : digit < 8) (rest : List UInt8) :
    read m (wordWithDigit m code digit rm ++ rest) =
      some (⟨op, some m.nativeWidth, [rmArg m.nativeWidth rm]⟩, rest) := by
  obtain ⟨n, opcode, entry⟩ := means
  have not_byte : m.nativeWidth ≠ .byte := by cases m <;> decide
  have not_word : m.nativeWidth ≠ .word := by cases m <;> decide
  have low : digit % 8 = digit := Nat.mod_eq_of_lt small
  rw [wordWithDigit, read_leading has_code opcode fits (fun _ => by simp)]
  rw [readBody_modRM opcode fits (prefixesOf_x ..) (prefixesOf_b ..) digit (by rw [low]; exact entry)]
  have arg (p : Prefixes) : (regOrMem rm).arg p m.nativeWidth = rmArg m.nativeWidth rm := by
    cases rm with
    | mem a => rfl
    | reg r => exact regArg_eq fun is_byte => absurd is_byte not_byte
  simp [Entry.width, Shape.read, not_word, arg]

theorem readPrefixes_inOpcode (has_code : m ≠ .bits16) {wide : Bool} {r : Gpr}
    (narrow : m = .bits32 → wide = false ∧ r.isHigh = false) {code : Nat}
    (plain : NoPrefix (.ofNat (code + r.low))) (rest : List UInt8) :
    readPrefixes m (inOpcode m w wide code r ++ rest) =
      (prefixesOf w false wide false false r.isHigh, .ofNat (code + r.low) :: rest) := by
  simp only [inOpcode, List.append_assoc, List.singleton_append]
  apply readPrefixes_leading _ _ _ _ _ _ has_code _ _ plain
  · simp
  · intro is_narrow
    simp [narrow is_narrow]

end Operands

end Decoder

namespace Instruction

open Decoder

/-- Whether code of a mode can hold an instruction: its registers can be named, and it exists at its
width. -/
def FitsIn (m : Mode) : Instruction → Prop
  | .store _ w dst src => dst.FitsIn m w ∧ src.FitsIn m w
  | .load _ w dst src => dst.FitsIn m w ∧ src.FitsIn m
  | .immediate _ w dst _ | .unary _ w dst | .shiftBy _ w dst _ | .shiftByCl _ w dst => dst.FitsIn m w
  | .shortImmediate _ w dst _ => w ≠ .byte ∧ dst.FitsIn m w
  | .wideImmediate dst _ => dst.FitsIn m .quad
  | .multiply w dst src => w ≠ .byte ∧ dst.FitsIn m w ∧ src.FitsIn m w
  | .multiplyBy w dst src _ | .multiplyByShort w dst src _ =>
    w ≠ .byte ∧ dst.FitsIn m w ∧ src.FitsIn m w
  | .lea w dst src => w ≠ .byte ∧ dst.FitsIn m w ∧ src.FitsIn m
  | .push r | .pop r => r.FitsIn m m.nativeWidth
  | .jumpTo dst | .callTo dst => dst.FitsIn m m.nativeWidth
  | .syscall => m = .bits64
  | .ret | .int3 | .hlt | .nop => True

/-- What the processor reads in the bytes of an instruction. Constants are read as signed numbers of the
size they are written in. -/
def reading (m : Mode) : Instruction → Reading
  | .store op w dst src => ⟨.binary op, some w, [rmArg w dst, .reg w src]⟩
  | .load .test w dst src => ⟨.binary .test, some w, [addressArg src, .reg w dst]⟩
  | .load op w dst src => ⟨.binary op, some w, [.reg w dst, addressArg src]⟩
  | .immediate op w dst value =>
    ⟨.binary op, some w, [rmArg w dst, .imm (value.toInt.bmod (span w.immediateSize))]⟩
  | .shortImmediate op w dst value =>
    ⟨.binary (.arith op), some w, [rmArg w dst, .imm (value.toInt.bmod (span 1))]⟩
  | .wideImmediate dst value => ⟨.binary .mov, some .quad, [.reg .quad dst, .imm value.toInt]⟩
  | .multiply w dst src => ⟨.multiply, some w, [.reg w dst, rmArg w src]⟩
  | .multiplyBy w dst src value =>
    ⟨.multiply, some w, [.reg w dst, .reg w src, .imm (value.toInt.bmod (span w.immediateSize))]⟩
  | .multiplyByShort w dst src value =>
    ⟨.multiply, some w, [.reg w dst, .reg w src, .imm (value.toInt.bmod (span 1))]⟩
  | .lea w dst src => ⟨.lea, some w, [.reg w dst, addressArg src]⟩
  | .unary op w dst => ⟨.unary op, some w, [rmArg w dst]⟩
  | .shiftBy op w dst count => ⟨.shift op, some w, [rmArg w dst, .imm count.toNat]⟩
  | .shiftByCl op w dst => ⟨.shift op, some w, [rmArg w dst, .reg .byte (gprOf false 1)]⟩
  | .push src => ⟨.push, some m.nativeWidth, [.reg m.nativeWidth src]⟩
  | .pop dst => ⟨.pop, some m.nativeWidth, [.reg m.nativeWidth dst]⟩
  | .jumpTo dst => ⟨.jump, some m.nativeWidth, [rmArg m.nativeWidth dst]⟩
  | .callTo dst => ⟨.call, some m.nativeWidth, [rmArg m.nativeWidth dst]⟩
  | .ret => ⟨.ret, none, []⟩
  | .int3 => ⟨.int3, none, []⟩
  | .syscall => ⟨.syscall, none, []⟩
  | .hlt => ⟨.hlt, none, []⟩
  | .nop => ⟨.nop, none, []⟩

end Instruction

namespace Decoder

theorem means_of_decide {byte : UInt8} {field : Nat} {e : Entry} (plain : NoPrefix byte)
    (single : byte ≠ 0x0f) (has_modRM : kind byte.toNat = .modRM)
    (entry : entry? byte.toNat field = some e) : Means [byte] field e :=
  ⟨byte.toNat, isCode_singleton plain single has_modRM, entry⟩

theorem means_store (op : BinaryOp) (w : Width) (field : Nat) :
    Means [sizedCode w op.storeCode] field ⟨.binary op, .rmReg, w = .byte⟩ := by
  cases op with
  | arith op =>
      cases op <;> cases w <;> exact means_of_decide (by decide) (by decide) (by decide) rfl
  | mov | test => cases w <;> exact means_of_decide (by decide) (by decide) (by decide) rfl

theorem means_load (op : BinaryOp) (w : Width) (field : Nat) :
    Means [sizedCode w op.loadCode] field
      ⟨.binary op, if op = .test then .rmReg else .regRm, w = .byte⟩ := by
  cases op with
  | arith op =>
      cases op <;> cases w <;> exact means_of_decide (by decide) (by decide) (by decide) rfl
  | mov | test => cases w <;> exact means_of_decide (by decide) (by decide) (by decide) rfl

theorem means_immediate (op : BinaryOp) (w : Width) :
    Means [sizedCode w op.immediateCode.1] op.immediateCode.2
      ⟨.binary op, .rmImm false, w = .byte⟩ := by
  cases op with
  | arith op =>
      cases op <;> cases w <;> exact means_of_decide (by decide) (by decide) (by decide) rfl
  | mov | test => cases w <;> exact means_of_decide (by decide) (by decide) (by decide) rfl

theorem means_unary (op : UnaryOp) (w : Width) :
    Means [sizedCode w op.opcode.1] op.opcode.2 ⟨.unary op, .rm, w = .byte⟩ := by
  cases op <;> cases w <;> exact means_of_decide (by decide) (by decide) (by decide) rfl

theorem means_shiftBy (op : ShiftOp) (w : Width) :
    Means [sizedCode w 0xc0] op.digit ⟨.shift op, .rmCount, w = .byte⟩ := by
  cases op <;> cases w <;> exact means_of_decide (by decide) (by decide) (by decide) rfl

theorem means_shiftByCl (op : ShiftOp) (w : Width) :
    Means [sizedCode w 0xd2] op.digit ⟨.shift op, .rmCl, w = .byte⟩ := by
  cases op <;> cases w <;> exact means_of_decide (by decide) (by decide) (by decide) rfl

section Wide

variable {w : Width} (wide : w ≠ .byte)
include wide

theorem means_shortImmediate (op : ArithOp) :
    Means [0x83] op.digit ⟨.binary (.arith op), .rmImm true, w = .byte⟩ := by
  rw [decide_eq_false wide]
  cases op <;> exact means_of_decide (by decide) (by decide) (by decide) rfl

theorem means_multiply (field : Nat) : Means [0x0f, 0xaf] field ⟨.multiply, .regRm, w = .byte⟩ := by
  rw [decide_eq_false wide]
  exact ⟨0x0faf, ⟨⟨0x0f, [0xaf], rfl, by decide⟩, fun _ => rfl, rfl⟩, rfl⟩

theorem means_multiplyBy (field : Nat) :
    Means [0x69] field ⟨.multiply, .regRmImm false, w = .byte⟩ := by
  rw [decide_eq_false wide]
  exact means_of_decide (by decide) (by decide) (by decide) rfl

theorem means_multiplyByShort (field : Nat) :
    Means [0x6b] field ⟨.multiply, .regRmImm true, w = .byte⟩ := by
  rw [decide_eq_false wide]
  exact means_of_decide (by decide) (by decide) (by decide) rfl

theorem means_lea (field : Nat) : Means [0x8d] field ⟨.lea, .regMem, w = .byte⟩ := by
  rw [decide_eq_false wide]
  exact means_of_decide (by decide) (by decide) (by decide) rfl

end Wide

section Forms

variable {m : Mode} (has_code : m ≠ .bits16) {w : Width} (rm : RegMem) (fits : rm.FitsIn m w)
include has_code fits

theorem read_withReg {code : List UInt8} {reg : Gpr} {op : Operation} {shape : Shape}
    (means : Means code reg.low ⟨op, shape, w = .byte⟩) (reg_fits : reg.FitsIn m w)
    (sized : shape ≠ .rmNative) (bytes : List UInt8) :
    read m (withReg m w code reg rm ++ bytes) =
      (shape.read (prefixesWith w (some reg) rm) w reg.low (regOrMem rm) bytes).map fun r =>
        (⟨op, some w, r.1⟩, r.2) := by
  have whole := read_operands has_code (fun narrow => (reg_fits narrow).1) means fits (some reg)
    (by rintro _ ⟨⟩; exact reg_fits) (gpr_low_lt reg) sized bytes
  simpa only [withReg, Option.toList_some, List.singleton_append, Option.any_some] using whole

theorem read_withDigit {code : List UInt8} {digit : Nat} {op : Operation} {shape : Shape}
    (means : Means code digit ⟨op, shape, w = .byte⟩) (exists_in : m = .bits32 → w ≠ .quad)
    (small : digit < 8) (sized : shape ≠ .rmNative) (bytes : List UInt8) :
    read m (withDigit m w code digit rm ++ bytes) =
      (shape.read (prefixesWith w none rm) w digit (regOrMem rm) bytes).map fun r =>
        (⟨op, some w, r.1⟩, r.2) := by
  have whole := read_operands has_code exists_in means fits none (by rintro _ ⟨⟩) small sized bytes
  simpa only [withDigit, Option.toList_none, List.nil_append, Option.any_none] using whole

end Forms

@[simp] theorem gprOf_prefixesWith (w : Width) (reg : Gpr) (rm : RegMem) :
    gprOf (prefixesWith w (some reg) rm).r reg.low = reg := by
  have high : (prefixesWith w (some reg) rm).r = reg.isHigh := prefixesOf_r ..
  rw [high]
  exact gprOf_low reg

@[simp] theorem immediateSize_eq (w : Width) : immediateSize w false = w.immediateSize := by
  cases w <;> rfl

theorem readSigned_wide (v : Int64) (rest : List UInt8) :
    readSigned 8 (leBytes 8 v.toInt ++ rest) = some (v.toInt, rest) := by
  have low := v.le_toInt
  have high := v.toInt_lt
  rw [readSigned_leBytes, Int.bmod_eq_of_le (by simp [span]; omega) (by simp [span]; omega)]

theorem read_bare {m : Mode} (has_code : m ≠ .bits16) {byte : UInt8} {op : Operation}
    (plain : NoPrefix byte) (single : byte ≠ 0x0f) (bare : kind byte.toNat = .nothing op)
    (not_syscall : op ≠ .syscall) (rest : List UInt8) :
    read m (byte :: rest) = some (⟨op, none, []⟩, rest) := by
  simp [read, has_code, readPrefixes_noPrefix plain, readBody, readOpcode_single single, bare,
    not_syscall]

/-- The eight opcodes from `code` on are of one kind and name the registers in order. -/
def NamesRegisters (code : Nat) (k : Kind) : Prop :=
  ∀ low < 8, NoPrefix (.ofNat (code + low)) ∧ UInt8.ofNat (code + low) ≠ 0x0f ∧
    kind (UInt8.ofNat (code + low)).toNat = k ∧ (UInt8.ofNat (code + low)).toNat % 8 = low

theorem read_inOpcode {m : Mode} (has_code : m ≠ .bits16) {w : Width} {wide : Bool} {code : Nat}
    {k : Kind} (names : NamesRegisters code k) {r : Gpr}
    (narrow : m = .bits32 → wide = false ∧ r.isHigh = false) (rest : List UInt8) :
    ∃ byte : UInt8, kind byte.toNat = k ∧ byte.toNat % 8 = r.low ∧ byte ≠ 0x0f ∧
      read m (inOpcode m w wide code r ++ rest) =
        readBody m (prefixesOf w false wide false false r.isHigh) (byte :: rest) := by
  obtain ⟨plain, single, same_kind, low⟩ := names r.low (gpr_low_lt r)
  refine ⟨_, same_kind, low, single, ?_⟩
  simp only [read, if_neg has_code, readPrefixes_inOpcode has_code narrow plain]

theorem read_stack {m : Mode} (has_code : m ≠ .bits16) {code : Nat} {op : Operation}
    (names : NamesRegisters code (.stack op)) {r : Gpr} (fits : r.FitsIn m m.nativeWidth)
    (rest : List UInt8) :
    read m (inOpcode m m.nativeWidth false code r ++ rest) =
      some (⟨op, some m.nativeWidth, [.reg m.nativeWidth r]⟩, rest) := by
  obtain ⟨byte, same_kind, low, single, body⟩ := read_inOpcode (w := m.nativeWidth) has_code names
    (fun narrow => ⟨rfl, fits.isHigh_eq narrow⟩) rest
  have not_word : m.nativeWidth ≠ .word := by cases m <;> decide
  rw [body]
  simp [readBody, readOpcode_single single, same_kind, not_word, low, gprOf_low]

theorem read_wideImmediate {m : Mode} (has_code : m ≠ .bits16) {r : Gpr} (fits : r.FitsIn m .quad)
    (value : Int64) (rest : List UInt8) :
    read m (inOpcode m .quad true 0xb8 r ++ (leBytes 8 value.toInt ++ rest)) =
      some (⟨.binary .mov, some .quad, [.reg .quad r, .imm value.toInt]⟩, rest) := by
  have names : NamesRegisters 0xb8 .moveImm := by
    unfold NamesRegisters
    decide
  obtain ⟨byte, same_kind, low, single, body⟩ := read_inOpcode (w := .quad) has_code names
    (fun narrow => absurd rfl (fits narrow).1) (leBytes 8 value.toInt ++ rest)
  rw [body]
  simp [readBody, readOpcode_single single, same_kind, Prefixes.width, Width.bits, low, gprOf_low,
    readSigned_wide]

theorem not_quad_of_existsIn {m : Mode} {i : Instruction} {w : Width}
    (exists_in : i.existsIn m = true) (width : i.width? = some w) : m = .bits32 → w ≠ .quad := by
  rintro rfl rfl
  simp [Instruction.existsIn, width] at exists_in

/-- An instruction that the mode can hold is read as what it says, whatever stands behind it. -/
theorem read_bytes {m : Mode} (has_code : m ≠ .bits16) {i : Instruction} (fits : i.FitsIn m)
    (exists_in : i.existsIn m = true) (rest : List UInt8) :
    read m (i.bytes m ++ rest) = some (i.reading m, rest) := by
  cases i with
  | store op w dst src =>
      obtain ⟨dst_fits, src_fits⟩ := fits
      simp only [Instruction.bytes]
      rw [read_withReg has_code dst dst_fits (means_store op w src.low) src_fits (by decide)]
      simp [Shape.read, Instruction.reading]
  | load op w dst src =>
      obtain ⟨dst_fits, src_fits⟩ := fits
      simp only [Instruction.bytes]
      rw [read_withReg has_code (.mem src) src_fits (means_load op w dst.low) dst_fits
        (by split <;> decide)]
      cases op <;> simp [Shape.read, Instruction.reading, rmArg]
  | immediate op w dst value =>
      simp only [Instruction.bytes, List.append_assoc]
      rw [read_withDigit has_code dst fits (means_immediate op w) (not_quad_of_existsIn exists_in rfl)
        (by cases op with | arith op => cases op <;> decide | _ => decide) (by decide)]
      simp [Shape.read, Instruction.reading, readSigned_leBytes]
  | shortImmediate op w dst value =>
      obtain ⟨wide, dst_fits⟩ := fits
      simp only [Instruction.bytes, List.append_assoc]
      rw [read_withDigit has_code dst dst_fits (means_shortImmediate wide op)
        (not_quad_of_existsIn exists_in rfl) (by cases op <;> decide) (by decide)]
      simp [Shape.read, Instruction.reading, immediateSize, readSigned_leBytes]
  | wideImmediate dst value =>
      simp only [Instruction.bytes, List.append_assoc]
      exact read_wideImmediate has_code fits value rest
  | multiply w dst src =>
      obtain ⟨wide, dst_fits, src_fits⟩ := fits
      simp only [Instruction.bytes]
      rw [read_withReg has_code src src_fits (means_multiply wide dst.low) dst_fits (by decide)]
      simp [Shape.read, Instruction.reading]
  | multiplyBy w dst src value =>
      obtain ⟨wide, dst_fits, src_fits⟩ := fits
      simp only [Instruction.bytes, List.append_assoc]
      rw [read_withReg has_code (.reg src) src_fits (means_multiplyBy wide dst.low) dst_fits
        (by decide)]
      simp [Shape.read, Instruction.reading, readSigned_leBytes, rmArg]
  | multiplyByShort w dst src value =>
      obtain ⟨wide, dst_fits, src_fits⟩ := fits
      simp only [Instruction.bytes, List.append_assoc]
      rw [read_withReg has_code (.reg src) src_fits (means_multiplyByShort wide dst.low) dst_fits
        (by decide)]
      simp [Shape.read, Instruction.reading, immediateSize, readSigned_leBytes, rmArg]
  | lea w dst src =>
      obtain ⟨wide, dst_fits, src_fits⟩ := fits
      simp only [Instruction.bytes]
      rw [read_withReg has_code (.mem src) src_fits (means_lea wide dst.low) dst_fits (by decide)]
      simp [Shape.read, Instruction.reading, regOrMem]
  | unary op w dst =>
      simp only [Instruction.bytes]
      rw [read_withDigit has_code dst fits (means_unary op w) (not_quad_of_existsIn exists_in rfl)
        (by cases op <;> decide) (by decide)]
      simp [Shape.read, Instruction.reading]
  | shiftBy op w dst count =>
      simp only [Instruction.bytes, List.append_assoc]
      rw [read_withDigit has_code dst fits (means_shiftBy op w) (not_quad_of_existsIn exists_in rfl)
        (by cases op <;> decide) (by decide)]
      simp [Shape.read, Instruction.reading]
  | shiftByCl op w dst =>
      simp only [Instruction.bytes]
      rw [read_withDigit has_code dst fits (means_shiftByCl op w) (not_quad_of_existsIn exists_in rfl)
        (by cases op <;> decide) (by decide)]
      simp [Shape.read, Instruction.reading]
  | push src => exact read_stack has_code (by unfold NamesRegisters; decide) fits rest
  | pop dst => exact read_stack has_code (by unfold NamesRegisters; decide) fits rest
  | jumpTo dst =>
      exact read_native has_code (means_of_decide (by decide) (by decide) (by decide) rfl) fits
        (by decide) rest
  | callTo dst =>
      exact read_native has_code (means_of_decide (by decide) (by decide) (by decide) rfl) fits
        (by decide) rest
  | ret => exact read_bare has_code (by decide) (by decide) rfl (by decide) rest
  | int3 => exact read_bare has_code (by decide) (by decide) rfl (by decide) rest
  | syscall =>
      cases fits
      rfl
  | hlt => exact read_bare has_code (by decide) (by decide) rfl (by decide) rest
  | nop => exact read_bare has_code (by decide) (by decide) rfl (by decide) rest

theorem readBody_relative {m : Mode} {bytes rest : List UInt8} {code size : Nat} {op : Operation}
    (opcode : readOpcode bytes = some (code, rest)) (relative : kind code = .relative op size) :
    readBody m {} bytes =
      (readSigned size rest).map fun r => (⟨op, none, [.codeFromNext r.1]⟩, r.2) := by
  simp only [readBody, opcode, relative, Option.bind_eq_bind, Option.bind_some, if_pos]
  cases readSigned size rest <;> rfl

theorem read_nil (m : Mode) : read m [] = none := by
  cases m <;> rfl

/-- What a branch does. -/
def branchOperation : Branch → Operation
  | .jump none => .jump
  | .jump (some c) => .jumpIf c
  | .call => .call

theorem read_shortBranch {m : Mode} (has_code : m ≠ .bits16) {condition : Option Condition} {d : Int}
    (reach : Branch.InReach d) (rest : List UInt8) :
    read m ((Branch.jump condition).shortCode :: (leBytes 1 d ++ rest)) =
      some (⟨branchOperation (.jump condition), none, [.codeFromNext d]⟩, rest) := by
  obtain ⟨plain, single, relative⟩ : NoPrefix (Branch.jump condition).shortCode ∧
      (Branch.jump condition).shortCode ≠ 0x0f ∧
      kind (Branch.jump condition).shortCode.toNat =
        .relative (branchOperation (.jump condition)) 1 := by
    cases condition with
    | none => decide
    | some c => cases c <;> decide
  have byte : fitsByte d = true := by
    simp only [fitsByte, decide_eq_true_eq]
    exact ⟨reach.1, reach.2⟩
  simp [read, has_code, readPrefixes_noPrefix plain,
    readBody_relative (readOpcode_single single _) relative, readSigned_byte byte]

theorem read_nearBranch {m : Mode} (has_code : m ≠ .bits16) (k : Branch) (d : Int)
    (rest : List UInt8) :
    read m (k.nearCode ++ (leBytes 4 d ++ rest)) =
      some (⟨branchOperation k, none, [.codeFromNext (d.bmod (span 4))]⟩, rest) := by
  have opcode : ∃ byte more code, k.nearCode = byte :: more ∧ NoPrefix byte ∧
      (∀ bytes, readOpcode (k.nearCode ++ bytes) = some (code, bytes)) ∧
      kind code = .relative (branchOperation k) 4 := by
    cases k with
    | call => exact ⟨0xe8, [], 0xe8, rfl, by decide, readOpcode_single (by decide), rfl⟩
    | jump condition =>
        cases condition with
        | none => exact ⟨0xe9, [], 0xe9, rfl, by decide, readOpcode_single (by decide), rfl⟩
        | some c =>
            refine ⟨0x0f, [.ofNat (0x80 + c.code)], 0x0f80 + c.code, rfl, by decide, ?_, ?_⟩
            · intro bytes
              cases c <;> rfl
            · cases c <;> rfl
  obtain ⟨byte, more, code, starts, plain, reads, relative⟩ := opcode
  have body := readBody_relative (m := m) (reads (leBytes 4 d ++ rest)) relative
  rw [starts, List.cons_append] at body ⊢
  simp [read, has_code, readPrefixes_noPrefix plain, body, readSigned_leBytes]

/-- A branch is read as itself, and with the displacement that was written if four bytes hold it. -/
theorem read_branch {m : Mode} (has_code : m ≠ .bits16) {k : Branch} {form : BranchForm} {d : Int}
    (short : form = .short → k ≠ .call ∧ Branch.InReach d) (rest : List UInt8) :
    ∃ d', read m (k.bytes m form d ++ rest) =
        some (⟨branchOperation k, none, [.codeFromNext d']⟩, rest) ∧
      (-0x80000000 ≤ d → d < 0x80000000 → d' = d) := by
  have near_size : m.nearSize = 4 := by
    cases m with
    | bits16 => exact absurd rfl has_code
    | bits32 | bits64 => rfl
  by_cases is_short : form = .short
  · obtain ⟨not_call, reach⟩ := short is_short
    cases k with
    | call => exact absurd rfl not_call
    | jump condition =>
        refine ⟨d, ?_, fun _ _ => rfl⟩
        simpa [Branch.bytes, is_short] using read_shortBranch has_code reach rest
  · refine ⟨d.bmod (span 4), ?_, ?_⟩
    · simpa [Branch.bytes, is_short, near_size] using read_nearBranch has_code k d rest
    · intro low high
      exact Int.bmod_eq_of_le (by simp [span]; omega) (by simp [span]; omega)

end Decoder

end InstrStream.X86
