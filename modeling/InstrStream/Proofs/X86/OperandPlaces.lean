import InstrStream.Proofs.X86.EncodingFailure

/-! The places of an instruction for operands. A record has three fields for operands, and each mnemonic
reads its own of them. What stands in a field that is read is an operand of the machine instruction, or
the record is refused. A field that is not read is not looked at: whatever it holds, the record is
accepted or refused as without it, and lowered to the same instruction. -/
namespace InstrStream

inductive Field where
  | src
  | reg
  | dst
deriving DecidableEq, Repr

/-- What a field holds. No register is no operand. -/
def Payload.operand (p : Payload) : Field → Operand
  | .src => p.src
  | .reg => if p.reg.isNone then .none else .reg p.reg
  | .dst => p.dst

theorem Payload.reg_eq_of_operand_eq {p q : Payload} (same : q.operand .reg = p.operand .reg) :
    q.reg = p.reg := by
  simp only [operand, Reg.isNone, decide_eq_true_eq] at same
  split at same
  case isTrue q_none =>
      split at same
      case isTrue p_none => rw [q_none, p_none]
      case isFalse => cases same
  case isFalse =>
      split at same
      case isTrue => cases same
      case isFalse => exact Operand.reg.inj same

namespace X86

open Decoder

/-- The fields that a mnemonic reads. The second source of a multiplication is read only next to a
constant. -/
def Mnemonic.places (src : Operand) : Mnemonic → List Field
  | .binary _ _ | .lea _ | .shift _ _ => [.src, .dst]
  | .imul _ =>
    match src with
    | .const _ => [.src, .reg, .dst]
    | _ => [.src, .dst]
  | .push _ => [.src]
  | .unary _ _ | .pop _ | .jump _ => [.dst]
  | .int3 | .syscall | .hlt => []

theorem Mnemonic.mem_places_imul {w : Width} {src : Operand} {f : Field} :
    f ∈ (Mnemonic.imul w).places src ↔ f = .src ∨ f = .dst ∨ f = .reg ∧ ∃ v, src = .const v := by
  cases src <;> cases f <;> simp [places]

/-- An operand is among the arguments of an instruction: at the width of the instruction, or as the
register that counts a shift, of which the lowest byte is read. -/
inductive Decoder.Reading.Takes (r : Reading) (o : Operand) : Prop
  | arg {w : Width} {a : Arg} : r.width = some w → a ∈ r.args → Given w o a → Takes r o
  | count {op : ShiftOp} {dst a : Arg} :
      r.operation = .shift op → r.args = [dst, a] → Named .byte o a → Takes r o

section Places

variable {m : Mode} {inFunction : Handle → Bool} {p q : Payload} {mnemonic : Mnemonic}

theorem Decoder.Reading.takes_both {r : Reading} {w : Width} {src dst : Arg} (width : r.width = some w)
    (src_given : Given w p.src src) (dst_given : Given w p.dst dst) (src_met : src ∈ r.args)
    (dst_met : dst ∈ r.args) {f : Field} (place : f = .src ∨ f = .dst) : r.Takes (p.operand f) := by
  rcases place with rfl | rfl
  · exact .arg width src_met src_given
  · exact .arg width dst_met dst_given

/-- An instruction that means what a record says takes the operands in all the places that are filled.
No branch is among these instructions, as no displacement leads anywhere. -/
theorem Denotes.takes {r : Reading} (denotes : Denotes m (fun _ _ => False) p r)
    (opcode : Mnemonic.ofOpcode? p.op = some mnemonic) {f : Field} (place : f ∈ mnemonic.places p.src)
    (filled : p.operand f ≠ .none) : r.Takes (p.operand f) := by
  have generic {op : Opcode} (is_op : p.op = op) (absent : Mnemonic.ofOpcode? op = none) : False := by
    rw [is_op, absent] at opcode
    cases opcode
  cases denotes with
  | jump _ _ leads | call _ _ leads | jumpIf _ _ leads => exact leads.elim
  | ret is_ret => exact (generic is_ret rfl).elim
  | jumpTo is_jmp => exact (generic is_jmp rfl).elim
  | callTo is_call => exact (generic is_call rfl).elim
  | binary known _ dst_given src_given =>
      cases opcode.symm.trans known
      exact Reading.takes_both rfl src_given dst_given (by simp) (by simp) (List.mem_pair.mp place)
  | compare known src_given dst_given | test known src_given dst_given =>
      cases opcode.symm.trans known
      exact Reading.takes_both rfl src_given dst_given (by simp) (by simp) (List.mem_pair.mp place)
  | multiply known dst_named src_named =>
      cases opcode.symm.trans known
      have two : f = .src ∨ f = .dst := by
        rcases Mnemonic.mem_places_imul.mp place with is_src | is_dst | ⟨-, v, const⟩
        · exact .inl is_src
        · exact .inr is_dst
        · rw [const] at src_named
          cases src_named
      exact Reading.takes_both rfl (.named src_named) (.named dst_named) (by simp) (by simp) two
  | multiplyBy known dst_named factor_named _ value_given =>
      cases opcode.symm.trans known
      cases f with
      | src => exact .arg rfl (by simp) value_given
      | dst => exact .arg rfl (by simp) (.named dst_named)
      | reg =>
          simp only [Payload.operand] at filled ⊢
          split at filled
          case isTrue => exact absurd rfl filled
          case isFalse present =>
              rw [if_neg present] at factor_named ⊢
              exact .arg rfl (by simp) (.named factor_named)
  | lea known dst_named src_named =>
      cases opcode.symm.trans known
      exact Reading.takes_both rfl (.named src_named) (.named dst_named) (by simp) (by simp)
        (List.mem_pair.mp place)
  | unary known dst_named | pop known dst_named =>
      cases opcode.symm.trans known
      cases List.mem_singleton.mp place
      exact .arg rfl (by simp) (.named dst_named)
  | push known src_named =>
      cases opcode.symm.trans known
      cases List.mem_singleton.mp place
      exact .arg rfl (by simp) (.named src_named)
  | @shiftBy op w dst v known dst_named const =>
      cases opcode.symm.trans known
      have counted : Given w p.src (.imm v.toInt) := by
        rw [const]
        exact .const rfl
      exact Reading.takes_both rfl counted (.named dst_named) (by simp) (by simp)
        (List.mem_pair.mp place)
  | shiftByCl known dst_named _ cl_named =>
      cases opcode.symm.trans known
      rcases List.mem_pair.mp place with rfl | rfl
      · exact .count rfl rfl cl_named
      · exact .arg rfl (by simp) (.named dst_named)
  | int3 known | syscall known | hlt known =>
      cases opcode.symm.trans known
      cases place

theorem lowerImul_congr {w : Width} (src : q.src = p.src) (dst : q.dst = p.dst)
    (reg : ∀ v, p.src = .const v → q.reg = p.reg) : lowerImul m w q = lowerImul m w p := by
  unfold lowerImul
  rw [src, dst]
  cases dst_run : m.resolveReg w p.dst with
  | error e => rfl
  | ok d =>
      cases src_run : m.resolve w p.src with
      | error e => rfl
      | ok s =>
          cases s with
          | reg | mem => rfl
          | imm v => rw [reg v (resolve_imm src_run)]

theorem lowerMnemonic_congr
    (same : ∀ f ∈ mnemonic.places p.src, q.operand f = p.operand f) :
    lowerMnemonic m inFunction q mnemonic = lowerMnemonic m inFunction p mnemonic := by
  have src (place : .src ∈ mnemonic.places p.src) : q.src = p.src := same .src place
  have dst (place : .dst ∈ mnemonic.places p.src) : q.dst = p.dst := same .dst place
  cases mnemonic with
  | binary | lea | shift =>
      simp only [lowerMnemonic, lowerLea, lowerShift, src (by simp [Mnemonic.places]),
        dst (by simp [Mnemonic.places])]
  | imul w =>
      have second (v : Int64) (const : p.src = .const v) : q.reg = p.reg :=
        Payload.reg_eq_of_operand_eq (same .reg (Mnemonic.mem_places_imul.mpr (by simp [const])))
      simp only [lowerMnemonic, lowerImul_congr (src (Mnemonic.mem_places_imul.mpr (by simp)))
        (dst (Mnemonic.mem_places_imul.mpr (by simp))) second]
  | push => simp only [lowerMnemonic, src (by simp [Mnemonic.places])]
  | unary | pop | jump => simp only [lowerMnemonic, dst (by simp [Mnemonic.places])]
  | int3 | syscall | hlt => rfl

/-- The operands in the places of an instruction are operands of the machine instruction, and the other
fields have no part in lowering. -/
theorem operands_taken_from_places (has_code : m ≠ .bits16) (inFunction : Handle → Bool)
    (opcode : Mnemonic.ofOpcode? p.op = some mnemonic) :
    (∀ i, lower m inFunction p = .ok (some (.plain i)) →
      (i.existsIn m = true → ∀ rest, read m (i.bytes m ++ rest) = some (i.reading m, rest)) ∧
        ∀ f ∈ mnemonic.places p.src, p.operand f ≠ .none → (i.reading m).Takes (p.operand f)) ∧
    ∀ q : Payload, q.op = p.op → (∀ f ∈ mnemonic.places p.src, q.operand f = p.operand f) →
      lower m inFunction q = lower m inFunction p := by
  constructor
  · intro i lowered
    obtain ⟨fits, denotes⟩ : Sound m inFunction (fun _ _ => False) p (.plain i) := lower_sound lowered
    exact ⟨fun exists_in rest => read_bytes has_code fits exists_in rest,
      fun f place filled => denotes.takes opcode place filled⟩
  · intro q same_op same
    rw [lower_eq_lowerMnemonic opcode, lower_eq_lowerMnemonic (by rw [same_op, opcode])]
    exact lowerMnemonic_congr same

end Places

/-- A product of AX and DX, with a second source that has no place next to a register. -/
def crowdedProduct : Payload :=
  { op := Mnemonic.opcode (.imul .quad), src := .reg ⟨3⟩, reg := cx, dst := .reg ⟨1⟩ }

/-- The product takes its two operands and is the same without the third. -/
theorem operands_taken_product :
    ∃ i, lower .bits64 (fun _ => false) crowdedProduct = .ok (some (.plain i)) ∧
      (i.reading .bits64).Takes (.reg ⟨3⟩) ∧ (i.reading .bits64).Takes (.reg ⟨1⟩) ∧
      lower .bits64 (fun _ => false) { crowdedProduct with reg := .none } = .ok (some (.plain i)) := by
  have opcode : Mnemonic.ofOpcode? crowdedProduct.op = some (.imul .quad) := by decide
  obtain ⟨taken, unread⟩ :=
    operands_taken_from_places (m := .bits64) (by decide) (fun _ => false) opcode
  have lowered : lower .bits64 (fun _ => false) crowdedProduct =
      .ok (some (.plain (.multiply .quad ⟨0⟩ (.reg ⟨2⟩)))) := by decide
  obtain ⟨-, operands⟩ := taken _ lowered
  refine ⟨_, lowered, operands .src (by decide) (by decide), operands .dst (by decide) (by decide), ?_⟩
  rw [unread { crowdedProduct with reg := .none } rfl (by decide), lowered]

/-- A negation with a source, for which it has no place, is not refused, and the source is not among
its operands. -/
theorem unread_source_accepted :
    ¬ ∀ (m : Mode) (p : Payload) (mnemonic : Mnemonic) (i : Instruction), m ≠ .bits16 →
      Mnemonic.ofOpcode? p.op = some mnemonic → mnemonic.places p.src ≠ [] →
      lower m (fun _ => false) p = .ok (some (.plain i)) →
      ∀ f, p.operand f ≠ .none → (i.reading m).Takes (p.operand f) := by
  intro taken
  have source := taken .bits64
    { op := Mnemonic.opcode (.unary .neg .quad), src := .reg cx, dst := .reg ⟨1⟩ }
    (.unary .neg .quad) (.unary .neg .quad (.reg ⟨0⟩)) (by decide) (by decide) (by decide) (by decide)
    .src (by decide)
  cases source with
  | arg width among given =>
      cases width
      cases List.mem_singleton.mp among
      cases given with
      | named named =>
          cases named with
          | reg number => exact absurd number (by decide)
  | count shift => cases shift

end X86

end InstrStream
