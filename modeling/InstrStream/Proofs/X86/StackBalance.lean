import InstrStream.Proofs.X86.Constants
import InstrStream.Proofs.X86.ControlPaths

/-! The stack of a function with a frame. A processor runs what lowering gives for the records of the
frame; a record that is reported is left out of the code and does nothing. What the prologue takes from
the stack the epilogue gives back, whichever way control took in between. -/
namespace InstrStream.X86

open Decoder

def Width.size (w : Width) : Nat := w.bits / 8

def BinaryOp.result {n : Nat} (op : BinaryOp) (old src : BitVec n) : BitVec n :=
  match op with
  | .mov => src
  | .arith .add => old + src
  | .arith .sub => old - src
  | .arith .and => old &&& src
  | .arith .or => old ||| src
  | .arith .xor => old ^^^ src
  | .arith .cmp | .test => old

def Gpr.stackPointer : Gpr := ⟨4⟩

def Gpr.basePointer : Gpr := ⟨5⟩

/-- Registers and memory of a processor with words of one width. -/
structure Machine (w : Width) where
  registers : Gpr → BitVec w.bits
  memory : BitVec w.bits → UInt8

namespace Machine

variable {w : Width}

def sp (s : Machine w) : BitVec w.bits := s.registers .stackPointer

def bp (s : Machine w) : BitVec w.bits := s.registers .basePointer

def set (s : Machine w) (g : Gpr) (v : BitVec w.bits) : Machine w :=
  { s with registers := Function.update s.registers g v }

/-- The addresses of the word at `a`. -/
def slot (a : BitVec w.bits) : List (BitVec w.bits) :=
  (List.range w.size).map fun i => a + BitVec.ofNat w.bits i

def load (s : Machine w) (a : BitVec w.bits) : BitVec w.bits :=
  .ofNat _ (unsigned ((slot a).map s.memory))

def store (s : Machine w) (a v : BitVec w.bits) : Machine w :=
  { s with memory := fun b => ((leBytes w.size v.toNat)[(b - a).toNat]?).getD (s.memory b) }

/-- The value of an operand that is a word in a register or a constant. -/
def value? (s : Machine w) : Arg → Option (BitVec w.bits)
  | .reg v g => if v = w then some (s.registers g) else none
  | .imm value => some (.ofInt _ value)
  | _ => none

/-- Executes an instruction on words in registers, a push or a pop. Flags are left out, and so are all
other instructions. -/
def exec? (s : Machine w) : Reading → Option (Machine w)
  | ⟨.push, _, [src]⟩ => do
    let v ← s.value? src
    let a := s.sp - .ofNat _ w.size
    return (s.store a v).set .stackPointer a
  | ⟨.pop, _, [.reg v dst]⟩ =>
    if v = w then some ((s.set .stackPointer (s.sp + .ofNat _ w.size)).set dst (s.load s.sp)) else none
  | ⟨.binary op, _, [.reg v dst, src]⟩ =>
    if v = w then do return s.set dst (op.result (s.registers dst) (← s.value? src)) else none
  | _ => none

theorem registers_set (s : Machine w) (g k : Gpr) (v : BitVec w.bits) :
    (s.set g v).registers k = if k = g then v else s.registers k :=
  Function.update_apply ..

@[simp] theorem sp_set_sp (s : Machine w) (v : BitVec w.bits) : (s.set .stackPointer v).sp = v := by
  rw [sp, registers_set, if_pos rfl]

@[simp] theorem bp_set_sp (s : Machine w) (v : BitVec w.bits) : (s.set .stackPointer v).bp = s.bp := by
  rw [bp, registers_set, if_neg (by decide), bp]

@[simp] theorem sp_set_bp (s : Machine w) (v : BitVec w.bits) : (s.set .basePointer v).sp = s.sp := by
  rw [sp, registers_set, if_neg (by decide), sp]

@[simp] theorem bp_set_bp (s : Machine w) (v : BitVec w.bits) : (s.set .basePointer v).bp = v := by
  rw [bp, registers_set, if_pos rfl]

@[simp] theorem load_set (s : Machine w) (g : Gpr) (v a : BitVec w.bits) :
    (s.set g v).load a = s.load a := rfl

theorem set_sp_self (s : Machine w) : s.set .stackPointer s.sp = s := by
  rw [set, sp, Function.update_eq_self]

theorem load_congr {s t : Machine w} {a : BitVec w.bits}
    (same : ∀ b ∈ slot a, t.memory b = s.memory b) : t.load a = s.load a := by
  rw [load, load, List.map_congr_left same]

theorem span_size (w : Width) : span w.size = 2 ^ w.bits := by
  cases w <;> rfl

/-- A word that was stored is loaded again: the addresses of its bytes differ, even where they wrap
around. -/
theorem load_store (s : Machine w) (a v : BitVec w.bits) : (s.store a v).load a = v := by
  have bytes : (slot a).map (s.store a v).memory = leBytes w.size v.toNat := by
    apply List.ext_getElem
    · simp [slot]
    · intro i inside _
      have small : i < w.size := by simpa [slot] using inside
      have below : i < 2 ^ w.bits := by
        refine Nat.lt_trans small ?_
        cases w <;> decide
      have distance : (a + BitVec.ofNat w.bits i - a).toNat = i := by
        rw [BitVec.add_comm, BitVec.add_sub_cancel, BitVec.toNat_ofNat, Nat.mod_eq_of_lt below]
      simp only [slot, List.getElem_map, List.getElem_range, store, distance]
      rw [List.getElem?_eq_getElem (by simpa using small), Option.getD_some]
  have value : unsigned (leBytes w.size v.toNat) = v.toNat := by
    have spelled := unsigned_leBytes w.size v.toNat
    rw [span_size, ← Int.natCast_mod, Nat.mod_eq_of_lt v.isLt] at spelled
    exact Int.ofNat_inj.mp spelled
  rw [load, bytes, value, BitVec.ofNat_toNat, BitVec.setWidth_eq]

end Machine

namespace Frame

variable (m : Mode) (size : UInt32) (fp : Bool) (hs : List Handle)

/-- What a record of a list does, if it is a record of a frame or does nothing. -/
def effect? (p : Payload) (s : Machine m.nativeWidth) : Option (Machine m.nativeWidth) :=
  match lower m hs.contains p with
  | .ok (some (.plain i)) => s.exec? (i.reading m)
  | .ok (some (.branch _ _)) => none
  | .ok none | .error _ => some s

def run? (text : List (Handle × Payload)) (s : Machine m.nativeWidth) : Option (Machine m.nativeWidth) :=
  text.foldlM (fun s x => effect? m hs x.2 s) s

/-- What a frame moves the stack pointer by: nothing if its size has no encoding. -/
def shift : BitVec m.nativeWidth.bits :=
  if m.nativeWidth.fits (.ofNat size.toNat) then .ofNat _ size.toNat else 0#_

section Lowering

variable (inFunction : Handle → Bool)

theorem gpr_sp : m.gpr sp m.nativeWidth = .ok .stackPointer := by
  cases m <;> rfl

theorem lower_push : lower m inFunction (native m .push (.reg bp) .none) =
    .ok (some (.plain (.push .basePointer))) := by
  cases m <;> rfl

theorem lower_pop : lower m inFunction (native m .pop .none (.reg bp)) =
    .ok (some (.plain (.pop .basePointer))) := by
  cases m <;> rfl

theorem lower_mov : lower m inFunction (native m (.binary .mov) (.reg sp) (.reg bp)) =
    .ok (some (.plain (.store .mov m.nativeWidth (.reg .basePointer) .stackPointer))) := by
  cases m <;> rfl

theorem lower_arith {a : ArithOp} (notCmp : a ≠ .cmp) (v : Int64) :
    lower m inFunction (native m (.binary (.arith a)) (.const v) (.reg sp)) =
      (lowerImmediate (.arith a) m.nativeWidth (.reg .stackPointer) v).map fun i =>
        some (.plain i) := by
  have opcode : Mnemonic.ofOpcode? (native m (.binary (.arith a)) (.const v) (.reg sp)).op =
      some (.binary (.arith a) m.nativeWidth) := by
    cases m <;> cases a <;> rfl
  have resolved : m.resolve m.nativeWidth (.reg sp) = .ok (.reg .stackPointer) := by
    rw [Mode.resolve, gpr_sp]
    rfl
  have other : BinaryOp.arith a ≠ .arith .cmp := fun same => notCmp (BinaryOp.arith.inj same)
  rw [lower_eq_lowerMnemonic opcode]
  simp only [lowerMnemonic, if_neg other]
  change (m.resolve m.nativeWidth (.reg sp) >>= _) = _
  rw [resolved]
  change (lowerImmediate (.arith a) m.nativeWidth (.reg .stackPointer) v >>= _) = _
  cases lowerImmediate (.arith a) m.nativeWidth (.reg .stackPointer) v <;> rfl

theorem ofInt_eq_of_given {w : Width} {size : UInt32} {value : Int}
    (given : Given w (.const (.ofNat size.toNat)) (.imm value)) :
    BitVec.ofInt w.bits value = BitVec.ofNat w.bits size.toNat := by
  have exact_size : (Int64.ofNat size.toNat).toInt = size.toNat := by
    have small := size.toNat_lt
    rw [Int64.toInt_ofNat_of_lt (by omega)]
  have values : (w.values : Int) = 2 ^ w.bits := by
    cases w <;> rfl
  cases given with
  | named named => cases named
  | const same =>
      rw [exact_size, values] at same
      rw [← BitVec.ofInt_natCast]
      apply BitVec.eq_of_toNat_eq
      rw [BitVec.toNat_ofInt, BitVec.toNat_ofInt, Int.natCast_pow]
      exact congrArg Int.toNat same

end Lowering

section Effects

variable (s : Machine m.nativeWidth)

/-- Arithmetic on the stack pointer with the size of a frame is left out for some sizes, whatever the
operation. -/
theorem effect?_arith {a : ArithOp} (notCmp : a ≠ .cmp) :
    effect? m hs (native m (.binary (.arith a)) (.const (.ofNat size.toNat)) (.reg sp)) s =
      some (if m.nativeWidth.fits (.ofNat size.toNat) then
        s.set .stackPointer ((BinaryOp.arith a).result s.sp (.ofNat _ size.toNat)) else s) := by
  rw [effect?, lower_arith m _ notCmp]
  cases fits : m.nativeWidth.fits (.ofNat size.toNat) with
  | false =>
      -- The record is reported.
      have outside : ¬ m.nativeWidth.InRange (.ofNat size.toNat) := by
        rw [← Width.fits_iff, fits]
        exact Bool.false_ne_true
      rw [ConstantUse.lowerImmediate_of_not_inRange _ _ outside]
      rfl
  | true =>
      obtain ⟨i, lowered, -⟩ := ConstantUse.exists_lowerImmediate_of_inRange (.arith a) (.reg .stackPointer)
        (Width.fits_iff.mp fits)
      have named : Gpr.stackPointer.FitsIn m m.nativeWidth := (gpr_eq_ok.mp (gpr_sp m)).2
      obtain ⟨-, value, reads, given⟩ := lowerImmediate_eq_ok (.reg .stackPointer) lowered named
      rw [lowered]
      simp only [Except.map]
      rw [reads]
      simp [Machine.exec?, Machine.value?, rmArg, ofInt_eq_of_given given, Machine.sp]

theorem effect?_reserve :
    effect? m hs (native m (.binary (.arith .sub)) (.const (.ofNat size.toNat)) (.reg sp)) s =
      some (s.set .stackPointer (s.sp - shift m size)) := by
  rw [effect?_arith m size hs s (by decide), shift]
  split
  · rfl
  · rw [BitVec.sub_zero, Machine.set_sp_self]

theorem effect?_release :
    effect? m hs (native m (.binary (.arith .add)) (.const (.ofNat size.toNat)) (.reg sp)) s =
      some (s.set .stackPointer (s.sp + shift m size)) := by
  rw [effect?_arith m size hs s (by decide), shift]
  split
  · rfl
  · rw [BitVec.add_zero, Machine.set_sp_self]

theorem effect?_push : effect? m hs (native m .push (.reg bp) .none) s =
    some ((s.store (s.sp - .ofNat _ m.nativeWidth.size) s.bp).set .stackPointer
      (s.sp - .ofNat _ m.nativeWidth.size)) := by
  rw [effect?, lower_push]
  simp [Instruction.reading, Machine.exec?, Machine.value?, Machine.bp]

theorem effect?_mov : effect? m hs (native m (.binary .mov) (.reg sp) (.reg bp)) s =
    some (s.set .basePointer s.sp) := by
  rw [effect?, lower_mov]
  simp [Instruction.reading, rmArg, Machine.exec?, Machine.value?, BinaryOp.result, Machine.sp]

theorem effect?_pop : effect? m hs (native m .pop .none (.reg bp)) s =
    some ((s.set .stackPointer (s.sp + .ofNat _ m.nativeWidth.size)).set .basePointer
      (s.load s.sp)) := by
  rw [effect?, lower_pop]
  simp [Instruction.reading, Machine.exec?]

/-- The processor behind the prologue. -/
def entered : Machine m.nativeWidth :=
  if fp then
    let a := s.sp - .ofNat _ m.nativeWidth.size
    (((s.store a s.bp).set .stackPointer a).set .basePointer a).set .stackPointer (a - shift m size)
  else s.set .stackPointer (s.sp - shift m size)

/-- The processor behind an epilogue. -/
def exited : Machine m.nativeWidth :=
  let t := s.set .stackPointer (s.sp + shift m size)
  if fp then (t.set .stackPointer (t.sp + .ofNat _ m.nativeWidth.size)).set .basePointer (t.load t.sp)
  else t

theorem run?_entry (n : Nat) : run? m hs (entry m size fp n) s = some (entered m size fp s) := by
  cases fp with
  | false => simp [run?, entry, entered, effect?_reserve]
  | true => simp [run?, entry, entered, effect?_push, effect?_mov, effect?_reserve]

theorem run?_exit (n : Nat) (h : Handle) :
    run? m hs (exit m size fp n h) s = some (exited m size fp s) := by
  cases fp with
  | false => simp [run?, exit, exited, effect?_release]
  | true => simp [run?, exit, exited, effect?_release, effect?_pop]

end Effects

/-- From `s` to `t` the stack pointer stays what it is, and so does what the epilogue relies on: the word
pushed at `a`, or without frame pointers the base pointer. -/
def LeftAlone {w : Width} (framePointer : Bool) (a : BitVec w.bits) (s t : Machine w) : Prop :=
  t.sp = s.sp ∧
    if framePointer then ∀ b ∈ Machine.slot a, t.memory b = s.memory b else t.bp = s.bp

/-- What the prologue takes from the stack the epilogue gives back. -/
theorem exited_entered {s t : Machine m.nativeWidth}
    (kept : LeftAlone fp (s.sp - .ofNat _ m.nativeWidth.size) (entered m size fp s) t) :
    (exited m size fp t).sp = s.sp ∧ (exited m size fp t).bp = s.bp := by
  obtain ⟨same_sp, kept⟩ := kept
  -- Either way the stack pointer comes back by the same shift.
  cases fp with
  | false =>
      have same_bp : t.bp = (entered m size false s).bp := kept
      simp only [entered, exited, Bool.false_eq_true, if_false, Machine.sp_set_sp,
        Machine.bp_set_sp] at same_sp same_bp ⊢
      rw [same_sp, BitVec.sub_add_cancel]
      exact ⟨rfl, same_bp⟩
  | true =>
      have pushed := Machine.load_congr kept
      simp only [entered, exited, if_true, Machine.sp_set_sp, Machine.sp_set_bp, Machine.bp_set_bp,
        Machine.load_set, Machine.load_store] at same_sp pushed ⊢
      rw [same_sp, BitVec.sub_add_cancel, BitVec.sub_add_cancel]
      exact ⟨rfl, pushed⟩

/-- Every way through a framed function is balanced. Its routes are those of the function without the
frame, each between the prologue and one epilogue, and none is lost. If what is between leaves alone what
the epilogue relies on, the stack and base pointers are at the return what they were at the start. -/
theorem framed_routes_balanced (m : Mode) (w : Workspace) (s : Symbol) {hs : List Handle}
    (chain : w.pool.chain s.text = .ok hs) (issued : ∀ h ∈ hs, h.index < w.pool.issued)
    (targets : ∀ h ∈ hs, ∀ t, (w.pool.record h).dst = .branch t → t.index < w.pool.issued)
    (hasFrame : s.frameSize ≠ 0) :
    ∃ w' s' final, expand m w s = .ok (w', s') ∧ w'.pool.chain s'.text = .ok final ∧
      ∀ head, s.text = some head → ∃ start, s'.text = some start ∧
        (∀ passed walked c, Route passed w'.pool final start walked c → ∃ body r,
          Route passed w.pool hs head body r ∧ Encloses m s.frameSize w w' hs body r walked c) ∧
        (∀ passed body r, Route passed w.pool hs head body r → ∃ walked c,
          Route passed w'.pool final start walked c ∧ Encloses m s.frameSize w w' hs body r walked c) ∧
        ∀ s₀ : Machine m.nativeWidth, ∃ s₁, run? m final (entryOf m s.frameSize w hs) s₀ = some s₁ ∧
          ∀ r ∈ hs, isReturn w.pool r = true → ∀ s₂,
            LeftAlone w.ctx.framePointer (s₀.sp - .ofNat _ m.nativeWidth.size) s₁ s₂ →
            ∃ s₃, run? m final (exitOf m s.frameSize w hs r) s₂ = some s₃ ∧
              s₃.sp = s₀.sp ∧ s₃.bp = s₀.bp := by
  cases text : s.text with
  | none =>
      refine ⟨w, s, hs, ?_, chain, nofun⟩
      rw [expand, text]
  | some head =>
      have nonempty : hs ≠ [] := by
        rintro rfl
        rw [text] at chain
        cases Pool.chain_eq_ok_iff.mp chain
      obtain ⟨w', s', expanded, framed⟩ := expand_framed m w s chain issued nonempty hasFrame
      refine ⟨w', s', _, expanded, framed.walk, ?_⟩
      rintro _ ⟨⟩
      refine ⟨⟨entryStart w hs⟩, by rw [framed.symbol], ?_, ?_, ?_⟩
      · intro passed walked c route
        obtain ⟨body, r, old, rfl, rfl⟩ := (framed.route_start_iff chain issued targets text).mp route
        exact ⟨body, r, old, framed.encloses issued old⟩
      · intro passed body r old
        have route := (framed.route_start_iff chain issued targets text).mpr ⟨body, r, old, rfl, rfl⟩
        exact ⟨_, _, route, framed.encloses issued old⟩
      · intro s₀
        refine ⟨_, run?_entry m s.frameSize w.ctx.framePointer _ s₀ _, ?_⟩
        intro r _ _ s₂ kept
        exact ⟨_, run?_exit m s.frameSize w.ctx.framePointer _ s₂ _ r,
          exited_entered m s.frameSize w.ctx.framePointer kept⟩

/-- Control goes round once and then jumps to the return. The frame is too large for its size to have an
encoding. -/
def looping : Workspace where
  ctx := { id := ⟨0⟩, target := amd64Target, framePointer := true }
  pool :=
    { block := #[
        { op := (Mnemonic.jump .equal).opcode, dst := .branch ⟨2⟩, owner := some ⟨0⟩,
          link := some ⟨1⟩, linked := true },
        { op := .jmp, dst := .branch ⟨0⟩, owner := some ⟨0⟩, link := some ⟨2⟩, linked := true },
        { op := .ret, owner := some ⟨0⟩, linked := true }, {}]
      used := 3
      extra := #[]
      used_le := by decide
      full_of_extra := by decide }

def loopingSymbol : Symbol := { name := "looping", text := some ⟨0⟩, frameSize := 0x80000000 }

theorem looping_route : Route (fun _ => False) looping.pool [⟨0⟩, ⟨1⟩, ⟨2⟩] ⟨0⟩ [⟨0⟩, ⟨1⟩, ⟨0⟩] ⟨2⟩ := by
  apply Route.step (by decide) (by decide) (.next (fun jmp => absurd jmp (by decide)) rfl)
  apply Route.step (by decide) (by decide) (.jump ⟨rfl, .inl rfl⟩ (by decide))
  apply Route.step (by decide) (by decide) (.jump ⟨rfl, .inr ⟨.equal, rfl⟩⟩ (by decide))
  exact .arrive (by decide) rfl

theorem looping_targets {h : Handle} (met : h ∈ [(⟨0⟩ : Handle), ⟨1⟩, ⟨2⟩]) (t : Handle)
    (branch : (looping.pool.record h).dst = .branch t) : t.index < looping.pool.issued := by
  simp only [List.mem_cons, List.not_mem_nil, or_false] at met
  rcases met with rfl | rfl | rfl <;> cases branch <;> decide

theorem framed_routes_looping :
    ∃ w' s' final, expand .bits64 looping loopingSymbol = .ok (w', s') ∧ s'.text = some ⟨5⟩ ∧
      Route (fun _ => False) w'.pool final ⟨5⟩ [⟨5⟩, ⟨6⟩, ⟨7⟩, ⟨0⟩, ⟨1⟩, ⟨0⟩, ⟨2⟩, ⟨3⟩] ⟨4⟩ ∧
      ∀ s₀ : Machine .quad, ∃ s₁ s₃,
        run? .bits64 final (entryOf .bits64 0x80000000 looping [⟨0⟩, ⟨1⟩, ⟨2⟩]) s₀ = some s₁ ∧
        run? .bits64 final (exitOf .bits64 0x80000000 looping [⟨0⟩, ⟨1⟩, ⟨2⟩] ⟨2⟩) s₁ = some s₃ ∧
        s₃.sp = s₀.sp ∧ s₃.bp = s₀.bp := by
  have chain : looping.pool.chain loopingSymbol.text = .ok [⟨0⟩, ⟨1⟩, ⟨2⟩] := rfl
  obtain ⟨w', s', final, expanded, -, balanced⟩ := framed_routes_balanced .bits64 looping loopingSymbol
    chain (by decide) (fun h met => looping_targets met) (by decide)
  obtain ⟨start, text, -, arise, stack⟩ := balanced ⟨0⟩ rfl
  obtain ⟨walked, c, route, encloses⟩ := arise _ _ _ looping_route
  have handles : walked = [⟨5⟩, ⟨6⟩, ⟨7⟩, ⟨0⟩, ⟨1⟩, ⟨0⟩, ⟨2⟩, ⟨3⟩] :=
    (map_fst_program _ _).symm.trans (congrArg (List.map Prod.fst) encloses.program)
  obtain rfl : c = ⟨4⟩ := encloses.copy
  subst handles
  have first : start = ⟨5⟩ := by
    cases route
    rfl
  subst first
  refine ⟨w', s', final, expanded, text, route, ?_⟩
  intro s₀
  obtain ⟨s₁, entered, balanced⟩ := stack s₀
  obtain ⟨s₃, exited, same⟩ := balanced ⟨2⟩ (by decide) (by decide) s₁ ⟨rfl, fun _ _ => rfl⟩
  exact ⟨s₁, s₃, entered, exited, same⟩

end Frame

end InstrStream.X86
