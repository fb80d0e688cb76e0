import InstrStream.Proofs.X86.AssembledProgram

/-! Programs with other branch operands. Lowering looks at the handle of a branch operand only to see that
it names a record of the function, so when the operands of a program are rewritten what it emits is
rewritten in the same way, and what is rejected is rejected for the same reason. A frame is added to a
rewritten program just as to the one before, because its own records branch nowhere. -/
namespace InstrStream

/-- An operand with the handle of a branch replaced. -/
def Operand.retarget (φ : Handle → Handle) : Operand → Operand
  | .branch t => .branch (φ t)
  | o => o

theorem Operand.target?_eq_some_iff {o : Operand} {t : Handle} : o.target? = some t ↔ o = .branch t := by
  cases o <;> simp [target?]

theorem Operand.target?_retarget (φ : Handle → Handle) (o : Operand) :
    (o.retarget φ).target? = o.target?.map φ := by
  cases o <;> rfl

theorem Operand.retarget_id (o : Operand) : o.retarget id = o := by
  cases o <;> rfl

theorem Operand.retarget_of_target?_eq_none {o : Operand} (φ : Handle → Handle) (no : o.target? = Option.none) :
    o.retarget φ = o := by
  cases o with
  | branch t => cases no
  | _ => rfl

/-- The second payload says the same as the first, but for where its operands branch to. The scratch bits
say nothing. -/
structure Payload.Retargets (φ : Handle → Handle) (p q : Payload) : Prop where
  op : q.op = p.op
  reg : q.reg = p.reg
  src : ∃ ψ, q.src = p.src.retarget ψ
  dst : q.dst = p.dst.retarget φ

namespace X86

open Assembly X86.Frame

section Lowering

variable {m : Mode} {φ : Handle → Handle}

theorem resolve_retarget (w : Width) (o : Operand) : m.resolve w (o.retarget φ) = m.resolve w o := by
  cases o <;> rfl

theorem resolveReg_retarget (w : Width) (o : Operand) :
    m.resolveReg w (o.retarget φ) = m.resolveReg w o := by
  rw [Mode.resolveReg, resolve_retarget, Mode.resolveReg]

theorem resolveRegMem_retarget (w : Width) (o : Operand) :
    m.resolveRegMem w (o.retarget φ) = m.resolveRegMem w o := by
  rw [Mode.resolveRegMem, resolve_retarget, Mode.resolveRegMem]

/-- An instruction that is no branch stays as it is. -/
theorem plain_retarget {α : Type} (run : Except EncodingError α) (build : α → Instruction) :
    (do return some (Emission.plain (build (← run)))) =
      Except.map (Option.map (Emission.retarget φ)) (do return some (.plain (build (← run)))) := by
  cases run <;> rfl

variable {p q : Payload} {f f' : Handle → Bool}

theorem lowerImul_retargets (rewritten : p.Retargets φ q) (w : Width) :
    lowerImul m w q = lowerImul m w p := by
  obtain ⟨ψ, src⟩ := rewritten.src
  simp only [lowerImul, rewritten.dst, src, rewritten.reg, resolveReg_retarget, resolve_retarget]

theorem lowerLea_retargets (rewritten : p.Retargets φ q) (w : Width) :
    lowerLea m w q = lowerLea m w p := by
  obtain ⟨ψ, src⟩ := rewritten.src
  simp only [lowerLea, rewritten.dst, src, resolve_retarget]

theorem lowerShift_retargets (rewritten : p.Retargets φ q) (op : ShiftOp) (w : Width) :
    lowerShift m op w q = lowerShift m op w p := by
  obtain ⟨ψ, src⟩ := rewritten.src
  simp only [lowerShift, rewritten.dst, src, resolveRegMem_retarget]
  cases p.src <;> rfl

theorem lowerStack_retarget (w : Width) (o : Operand) :
    lowerStack m w (o.retarget φ) = lowerStack m w o := by
  rw [lowerStack, resolveReg_retarget, lowerStack]

theorem lowerBranch_retarget (kind : Branch) {t : Handle}
    (same : f' (φ t) = f t ∧ (f t = false → φ t = t)) :
    lowerBranch f' kind (φ t) =
      (lowerBranch f kind t).map (Option.map (Emission.retarget φ)) := by
  obtain ⟨inside, outside⟩ := same
  rw [lowerBranch, inside, lowerBranch]
  cases found : f t with
  | true => rfl
  | false =>
      rw [outside found]
      rfl

theorem lowerTransfer_retarget (kind : Branch) (indirect : RegMem → Instruction) (o : Operand)
    (same : ∀ t, o = .branch t → f' (φ t) = f t ∧ (f t = false → φ t = t)) :
    lowerTransfer m f' kind indirect (o.retarget φ) =
      (lowerTransfer m f kind indirect o).map (Option.map (Emission.retarget φ)) := by
  cases o with
  | branch t => exact lowerBranch_retarget kind (same t rfl)
  | none | const => rfl
  | reg | mem => exact plain_retarget _ _

theorem lowerMnemonic_retargets (rewritten : p.Retargets φ q)
    (same : ∀ t, p.dst = .branch t → f' (φ t) = f t ∧ (f t = false → φ t = t)) (mnemonic : Mnemonic) :
    lowerMnemonic m f' q mnemonic =
      (lowerMnemonic m f p mnemonic).map (Option.map (Emission.retarget φ)) := by
  obtain ⟨ψ, src⟩ := rewritten.src
  have dst := rewritten.dst
  cases mnemonic with
  | binary op w =>
      simp only [lowerMnemonic, src, dst, resolve_retarget]
      cases m.resolve w p.src with
      | error e => rfl
      | ok src =>
          cases m.resolve w p.dst with
          | error e => rfl
          | ok dst =>
              by_cases compares : op = .arith .cmp
              · simp only [if_pos compares]
                exact plain_retarget _ id
              · simp only [if_neg compares]
                exact plain_retarget _ id
  | imul w =>
      simp only [lowerMnemonic, lowerImul_retargets rewritten]
      exact plain_retarget _ id
  | lea w =>
      simp only [lowerMnemonic, lowerLea_retargets rewritten]
      exact plain_retarget _ id
  | unary op w =>
      simp only [lowerMnemonic, dst, resolveRegMem_retarget]
      exact plain_retarget _ _
  | shift op w =>
      simp only [lowerMnemonic, lowerShift_retargets rewritten]
      exact plain_retarget _ id
  | push w =>
      simp only [lowerMnemonic, src, lowerStack_retarget]
      exact plain_retarget _ _
  | pop w =>
      simp only [lowerMnemonic, dst, lowerStack_retarget]
      exact plain_retarget _ _
  | jump c =>
      simp only [lowerMnemonic, dst]
      cases target : p.dst with
      | branch t => exact lowerBranch_retarget _ (same t target)
      | _ => rfl
  | int3 | hlt => rfl
  | syscall =>
      simp only [lowerMnemonic]
      split <;> rfl

/-- A rewritten record emits what was emitted before, rewritten, or is rejected for the same reason. -/
theorem lower_retargets (rewritten : p.Retargets φ q)
    (same : ∀ t, p.dst = .branch t → f' (φ t) = f t ∧ (f t = false → φ t = t)) :
    lower m f' q = (lower m f p).map (Option.map (Emission.retarget φ)) := by
  have dst := rewritten.dst
  rw [lower, rewritten.op, lower]
  split
  · rfl
  · split
    · rfl
    · split
      · rw [dst]
        exact lowerTransfer_retarget _ _ _ same
      · split
        · rw [dst]
          exact lowerTransfer_retarget _ _ _ same
        · cases Mnemonic.ofOpcode? p.op with
          | none => rfl
          | some mnemonic => exact lowerMnemonic_retargets rewritten same mnemonic

theorem lowerRecord_retargets (rewritten : p.Retargets φ q)
    (same : ∀ t, p.dst = .branch t → f' (φ t) = f t ∧ (f t = false → φ t = t)) :
    lowerRecord m f' q = (lowerRecord m f p).map (Option.map (Emission.retarget φ)) := by
  rw [lowerRecord, rewritten.op, lowerRecord]
  split
  · rfl
  · rw [lower_retargets rewritten same]
    cases lower m f p <;> rfl

theorem emission_retargets (rewritten : p.Retargets φ q)
    (same : ∀ t, p.dst = .branch t → f' (φ t) = f t ∧ (f t = false → φ t = t)) (h k : Handle) :
    (loweredIn m f' (k, q)).step =
      ⟨k, (loweredIn m f (h, p)).step.emission.map (Emission.retarget φ)⟩ := by
  simp only [loweredIn, lowerRecord_retargets rewritten same, Lowered.step]
  cases lowerRecord m f p <;> rfl

theorem message?_retargets (rewritten : p.Retargets φ q)
    (same : ∀ t, p.dst = .branch t → f' (φ t) = f t ∧ (f t = false → φ t = t)) (function : String)
    (k : Handle) :
    (loweredIn m f' (k, q)).message? names function = (loweredIn m f (k, p)).message? names function := by
  simp only [loweredIn, lowerRecord_retargets rewritten same, Lowered.message?, rewritten.op]
  cases lowerRecord m f p <;> rfl

end Lowering

section Frames

/-- A rewriting of payloads that leaves alone what opcodes say and all that branches nowhere. -/
structure KeepsFrames (κ : Payload → Payload) : Prop where
  op : ∀ p, (κ p).op = p.op
  own : ∀ p : Payload, p.mark = 0 → p.src.target? = none → p.dst.target? = none → κ p = p

variable {κ : Payload → Payload} (keeps : KeepsFrames κ) (m : Mode) (size : UInt32) (fp : Bool)

theorem map_issuedFrom {ρ : Handle → Handle} {n n' : Nat} (shift : ∀ i, ρ ⟨n + i⟩ = ⟨n' + i⟩) (k : Nat) :
    (issuedFrom n k).map ρ = issuedFrom n' k := by
  induction k generalizing n n' with
  | zero => rfl
  | succ k ih =>
      have next : ∀ i, ρ ⟨n + 1 + i⟩ = ⟨n' + 1 + i⟩ := by
        intro i
        rw [Nat.add_assoc, shift (1 + i), Nat.add_assoc]
      rw [issuedFrom_succ, List.map_cons, ih next, issuedFrom_succ]
      congr 1
      exact shift 0

include keeps

theorem KeepsFrames.release : κ (release m size) = Frame.release m size := keeps.own _ rfl rfl rfl

theorem KeepsFrames.epilogueTail (p : Payload) :
    Frame.epilogueTail m fp (κ p) = (Frame.epilogueTail m fp p).map κ := by
  cases fp with
  | false => rfl
  | true =>
      have own : κ (leave m) = leave m := keeps.own _ rfl rfl rfl
      simp only [Frame.epilogueTail, if_true, List.map_append, List.map_cons, List.map_nil, own]

theorem KeepsFrames.prologue : (prologue m fp size).map κ = Frame.prologue m fp size := by
  have own : ∀ p ∈ Frame.prologue m fp size, κ p = p := by
    intro p met
    cases fp with
    | false =>
        obtain rfl := List.mem_singleton.mp met
        exact keeps.own _ rfl rfl rfl
    | true =>
        simp only [Frame.prologue, enter, if_true, List.cons_append, List.nil_append, List.mem_cons,
          List.not_mem_nil, or_false] at met
        rcases met with rfl | rfl | rfl
        all_goals exact keeps.own _ rfl rfl rfl
  exact (List.map_congr_left own).trans (List.map_id _)

variable {ρ : Handle → Handle} {n n' : Nat}

/-- Returns of a rewritten program become rewritten epilogues, with the handles that are issued then. -/
theorem map_withEpilogues (shift : ∀ i, ρ ⟨n + i⟩ = ⟨n' + i⟩) (text : List (Handle × Payload)) :
    (withEpilogues m size fp n text).map (Prod.map ρ κ) =
      withEpilogues m size fp n' (text.map (Prod.map ρ κ)) := by
  induction text generalizing n n' with
  | nil => rfl
  | cons x text ih =>
      obtain ⟨h, p⟩ := x
      rw [withEpilogues, List.map_cons, Prod.map, withEpilogues]
      simp only [keeps.op p]
      split
      · have length : (Frame.epilogueTail m fp (κ p)).length = (Frame.epilogueTail m fp p).length := by
          rw [keeps.epilogueTail, List.length_map]
        have later : ∀ i, ρ ⟨n + (Frame.epilogueTail m fp p).length + i⟩ =
            ⟨n' + (Frame.epilogueTail m fp p).length + i⟩ := by
          intro i
          rw [Nat.add_assoc, shift, Nat.add_assoc]
        rw [List.map_append, List.map_cons, Prod.map, keeps.release, length, ih later,
          keeps.epilogueTail, ← map_issuedFrom shift, List.zip_map]
      · rw [List.map_cons, ih shift]
        rfl

/-- The frame of a rewritten program is the frame of the program before. -/
theorem map_framed (shift : ∀ i, ρ ⟨n + i⟩ = ⟨n' + i⟩) (text : List (Handle × Payload)) :
    (framed m size fp n text).map (Prod.map ρ κ) = framed m size fp n' (text.map (Prod.map ρ κ)) := by
  have same : (size = 0 ∨ text.map (Prod.map ρ κ) = []) ↔ (size = 0 ∨ text = []) := by
    rw [List.map_eq_nil_iff]
  rw [framed, framed]
  by_cases unframed : size = 0 ∨ text = []
  · rw [if_pos unframed, if_pos (same.mpr unframed)]
  · rw [if_neg unframed, if_neg fun none => unframed (same.mp none)]
    simp only
    have length : (withEpilogues m size fp n' (text.map (Prod.map ρ κ))).length =
        (withEpilogues m size fp n text).length := by
      rw [← map_withEpilogues keeps m size fp shift, List.length_map]
    have later : ∀ i, ρ ⟨n + ((withEpilogues m size fp n text).length - text.length) + i⟩ =
        ⟨n' + ((withEpilogues m size fp n text).length - text.length) + i⟩ := by
      intro i
      rw [Nat.add_assoc, shift, Nat.add_assoc]
    have entry : ((issuedFrom (n + ((withEpilogues m size fp n text).length - text.length))
        (Frame.prologue m fp size).length).zip (Frame.prologue m fp size)).map (Prod.map ρ κ) =
        (issuedFrom (n' + ((withEpilogues m size fp n text).length - text.length))
          (Frame.prologue m fp size).length).zip (Frame.prologue m fp size) := by
      rw [← List.zip_map, map_issuedFrom later, keeps.prologue]
    rw [List.map_append, entry, map_withEpilogues keeps m size fp shift, length, List.length_map]

end Frames

end X86

end InstrStream
