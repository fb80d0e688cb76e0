import InstrStream.X86.Encoding
import InstrStream.X86.EncodingError

/-! Layout of code at address 0: which branches are short, where each instruction starts, and the
bytes of each. Branches start out with room for their longest form and shrink in at most five passes.
A pass measures the distance to a later target from where that target stood in the pass before, less
what this pass has gained so far. Addresses wrap around, so a target may be near either way, and a
branch that was made short across the end of the addresses may turn out not to reach its target. -/
namespace InstrStream.X86

/-- One instruction to be laid out. A branch names its target by position. -/
inductive Piece where
  | plain (bytes : List UInt8)
  | branch (kind : Branch) (target : Nat)
deriving DecidableEq, Repr

inductive BranchForm where
  /-- Nothing decided: room for the longest form is kept. -/
  | reserved
  | near
  | settledNear
  | short
deriving DecidableEq, Repr

namespace BranchForm

def isSettled : BranchForm → Bool
  | .settledNear | .short => true
  | _ => false

end BranchForm

def Condition.code : Condition → Nat
  | .below => 2
  | .aboveEqual => 3
  | .equal => 4
  | .notEqual => 5
  | .belowEqual => 6
  | .above => 7
  | .less => 12
  | .greaterEqual => 13
  | .lessEqual => 14
  | .greater => 15

def Mode.nearSize : Mode → Nat
  | .bits16 => 2
  | _ => 4

namespace Branch

def nearCode : Branch → List UInt8
  | .jump none => [0xe9]
  | .jump (some c) => [0x0f, .ofNat (0x80 + c.code)]
  | .call => [0xe8]

/-- Opcode byte of the short form. Calls are never short. -/
def shortCode : Branch → UInt8
  | .jump none => 0xeb
  | .jump (some c) => .ofNat (0x70 + c.code)
  | .call => 0xe8

def nearLength (m : Mode) (k : Branch) : Nat := k.nearCode.length + m.nearSize

/-- Room kept before anything is decided. In 64-bit code it is enough for a branch through memory. -/
def reservedLength : Mode → Branch → Nat
  | .bits64, .jump (some _) => 8
  | .bits64, _ => 6
  | m, k => k.nearLength m

def length (m : Mode) (k : Branch) : BranchForm → Nat
  | .reserved => k.reservedLength m
  | .near | .settledNear => k.nearLength m
  | .short => 2

abbrev InReach (distance : Int) : Prop := -128 ≤ distance ∧ distance ≤ 127

/-- The form of a branch whose target is `distance` bytes past its short form. A jump that is far
beyond the reach of the short form is never looked at again. -/
def formFor (k : Branch) (distance : Int) : BranchForm :=
  match k with
  | .call => .settledNear
  | .jump _ =>
    if InReach distance then .short
    else if distance < -15 * 128 ∨ 15 * 127 < distance then .settledNear
    else .near

def bytes (m : Mode) (k : Branch) (form : BranchForm) (displacement : Int) : List UInt8 :=
  if form = .short then k.shortCode :: leBytes 1 displacement
  else k.nearCode ++ leBytes m.nearSize displacement

/-- Once a form is decided, a branch has the length that layout counted for it. -/
theorem length_bytes (m : Mode) (k : Branch) (form : BranchForm) (displacement : Int)
    (decided : form ≠ .reserved) : (k.bytes m form displacement).length = k.length m form := by
  cases form with
  | reserved => exact absurd rfl decided
  | near => simp [bytes, length, nearLength]
  | settledNear => simp [bytes, length, nearLength]
  | short => simp [bytes, length]

end Branch

namespace Layout

/-- A piece with the form it has so far. The form of a plain piece has no meaning. -/
structure Cell where
  piece : Piece
  form : BranchForm := .reserved
deriving DecidableEq, Repr

def Cell.length (m : Mode) (c : Cell) : Nat :=
  match c.piece with
  | .plain bytes => bytes.length
  | .branch kind _ => kind.length m c.form

/-- Where a position stands: as far as this pass has come, its new address, and beyond its old one. -/
def addressOf (old now : Array Nat) (position : Nat) : Nat :=
  match now[position]? with
  | some a => a
  | none => old.getD position 0

/-- Distance from the end of a short branch at `ip` to its target, as one pass measures it. -/
def distance (m : Mode) (old now : Array Nat) (ip gained target : Nat) : Int :=
  let d : Int := addressOf old now target - (ip + 2)
  m.wrap (if 0 ≤ d then d - gained else d)

def Cell.shrink (m : Mode) (old now : Array Nat) (ip gained : Nat) (c : Cell) : Cell :=
  match c.piece with
  | .plain _ => c
  | .branch kind target =>
    if c.form.isSettled then c
    else { c with form := kind.formFor (distance m old now ip gained target) }

/-- What one pass makes of the cells: the cells, their addresses and the bytes gained. -/
structure PassResult where
  cells : List Cell
  addresses : Array Nat
  gained : Nat
deriving DecidableEq, Repr

/-- One pass over the cells that remain, at address `ip`. -/
def pass (m : Mode) (old : Array Nat) : List Cell → Array Nat → Nat → Nat → PassResult
  | [], now, _, gained => ⟨[], now, gained⟩
  | c :: rest, now, ip, gained =>
    let now := now.push ip
    let c' := c.shrink m old now ip gained
    let r := pass m old rest now (ip + c'.length m) (gained + (c.length m - c'.length m))
    { r with cells := c' :: r.cells }

/-- Passes until one gains nothing, and at most `n` of them. -/
def settle (m : Mode) : Nat → List Cell → Array Nat → List Cell × Array Nat
  | 0, cells, addresses => (cells, addresses)
  | n + 1, cells, addresses =>
    let r := pass m addresses cells #[] 0 0
    if r.gained = 0 then (r.cells, r.addresses) else settle m n r.cells r.addresses

/-- Addresses of cells that stand one after another from `ip` on. -/
def startAddresses (m : Mode) : List Cell → Nat → List Nat
  | [], _ => []
  | c :: rest, ip => ip :: startAddresses m rest (ip + c.length m)

/-- The bytes of a cell that starts at `ip`. A displacement counts from the end of its branch,
and that of a short branch has to be within its reach. -/
def Cell.bytes (m : Mode) (addresses : Array Nat) (ip : Nat) (c : Cell) :
    Except StreamError (List UInt8) :=
  match c.piece with
  | .plain bytes => .ok bytes
  | .branch kind target =>
    let next := ip + c.length m
    let goal := addresses.getD target 0
    let displacement := m.wrap (goal - next)
    if c.form = .short ∧ ¬ Branch.InReach displacement then
      .error (.branchTooFar m next goal displacement)
    else .ok (kind.bytes m c.form displacement)

def maxPasses : Nat := 5

/-- The bytes of each piece, in order. The first short branch out of reach is reported. -/
def chunks (m : Mode) (pieces : List Piece) : Except StreamError (List (List UInt8)) :=
  let cells := pieces.map fun p => ({ piece := p } : Cell)
  let (cells, addresses) := settle m maxPasses cells (startAddresses m cells 0).toArray
  (cells.zip addresses.toList).mapM fun (c, ip) => c.bytes m addresses ip

end Layout

end InstrStream.X86
