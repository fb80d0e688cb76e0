import InstrStream.X86.Layout
import Mathlib.Data.List.Basic
import Mathlib.Data.List.Forall2

/-! Layout with shrinking branches. Passes only ever make cells shorter, and each leaves the addresses at
the sums of the lengths before them. A branch that is made short within the reach of its target stays
within it, because what lies between them can only shrink. -/
namespace InstrStream

theorem mapM_eq_ok_iff {α β ε : Type} (f : α → Except ε β) (xs : List α) (ys : List β) :
    xs.mapM f = .ok ys ↔ List.Forall₂ (fun x y => f x = .ok y) xs ys := by
  induction xs generalizing ys with
  | nil =>
      rw [List.mapM_nil, List.forall₂_nil_left_iff]
      exact ⟨fun run => by cases run; rfl, fun empty => empty ▸ rfl⟩
  | cons x xs ih =>
      rw [List.mapM_cons]
      constructor
      · intro run
        cases head : f x with
        | error e =>
            rw [head] at run
            cases run
        | ok y =>
            cases tail : xs.mapM f with
            | error e =>
                rw [head, tail] at run
                cases run
            | ok rest =>
                rw [head, tail] at run
                cases run
                exact .cons head ((ih rest).mp tail)
      · intro both
        cases both with
        | cons head tail =>
            rw [head, (ih _).mpr tail]
            rfl

theorem mapM_congr {α β ε : Type} {f g : α → Except ε β} {xs : List α} (same : ∀ x ∈ xs, f x = g x) :
    xs.mapM f = xs.mapM g := by
  induction xs with
  | nil => rfl
  | cons x xs ih =>
      rw [List.mapM_cons, List.mapM_cons, same x List.mem_cons_self,
        ih fun y met => same y (List.mem_cons_of_mem x met)]

theorem exists_mapM_eq_ok {α β ε : Type} (f : α → Except ε β) (xs : List α)
    (each : ∀ x ∈ xs, ∃ y, f x = .ok y) : ∃ ys, xs.mapM f = .ok ys := by
  induction xs with
  | nil => exact ⟨[], rfl⟩
  | cons x xs ih =>
      obtain ⟨y, head⟩ := each x List.mem_cons_self
      obtain ⟨ys, tail⟩ := ih fun z met => each z (List.mem_cons_of_mem x met)
      exact ⟨y :: ys, by rw [List.mapM_cons, head, tail]; rfl⟩

theorem exists_getElem?_of_forall₂ {α β : Type} {R : α → β → Prop} {xs : List α} {ys : List β}
    (related : List.Forall₂ R xs ys) {k : Nat} {x : α} (at_k : xs[k]? = some x) :
    ∃ y, ys[k]? = some y ∧ R x y := by
  induction related generalizing k with
  | nil => simp at at_k
  | cons step _ ih =>
      cases k with
      | zero =>
          obtain rfl := Option.some.inj at_k
          exact ⟨_, rfl, step⟩
      | succ k => exact ih at_k

namespace X86.Layout

/-- Number of bytes of cells. -/
def total (m : Mode) : List Cell → Nat
  | [] => 0
  | c :: cells => c.length m + total m cells

/-- Where the cell at a position starts. -/
def start (m : Mode) (cells : List Cell) (k : Nat) : Nat := total m (cells.take k)

variable (m : Mode)

@[simp] theorem start_zero (cells : List Cell) : start m cells 0 = 0 := rfl

@[simp] theorem start_cons_succ (c : Cell) (cells : List Cell) (k : Nat) :
    start m (c :: cells) (k + 1) = c.length m + start m cells k := rfl

theorem start_succ {cells : List Cell} {k : Nat} {c : Cell} (at_k : cells[k]? = some c) :
    start m cells (k + 1) = start m cells k + c.length m := by
  induction cells generalizing k with
  | nil => simp at at_k
  | cons d cells ih =>
      cases k with
      | zero =>
          obtain rfl := Option.some.inj at_k
          simp
      | succ k =>
          rw [start_cons_succ, start_cons_succ, ih at_k, Nat.add_assoc]

theorem start_le_total (cells : List Cell) (k : Nat) : start m cells k ≤ total m cells := by
  induction cells generalizing k with
  | nil => simp [start]
  | cons c cells ih =>
      cases k with
      | zero => exact Nat.zero_le _
      | succ k =>
          rw [start_cons_succ, total]
          exact Nat.add_le_add_left (ih k) _

theorem start_mono (cells : List Cell) {j k : Nat} (le : j ≤ k) :
    start m cells j ≤ start m cells k := by
  induction cells generalizing j k with
  | nil => simp [start]
  | cons c cells ih =>
      cases j with
      | zero => exact Nat.zero_le _
      | succ j =>
          cases k with
          | zero => omega
          | succ k =>
              rw [start_cons_succ, start_cons_succ]
              exact Nat.add_le_add_left (ih (Nat.le_of_succ_le_succ le)) _

@[simp] theorem length_startAddresses (cells : List Cell) (ip : Nat) :
    (startAddresses m cells ip).length = cells.length := by
  induction cells generalizing ip with
  | nil => rfl
  | cons c cells ih => rw [startAddresses, List.length_cons, List.length_cons, ih]

theorem getElem?_startAddresses (cells : List Cell) (ip : Nat) {k : Nat} (inside : k < cells.length) :
    (startAddresses m cells ip)[k]? = some (ip + start m cells k) := by
  induction cells generalizing ip k with
  | nil => cases inside
  | cons c cells ih =>
      cases k with
      | zero => rfl
      | succ k =>
          rw [startAddresses, List.getElem?_cons_succ, ih _ (Nat.lt_of_succ_lt_succ inside),
            start_cons_succ, Nat.add_assoc]

section Shrink

variable (old now : Array Nat) (ip gained : Nat) (c : Cell)

@[simp] theorem piece_shrink : (c.shrink m old now ip gained).piece = c.piece := by
  unfold Cell.shrink
  split
  · rfl
  · split <;> rfl

theorem formFor_ne_reserved (kind : Branch) (distance : Int) : kind.formFor distance ≠ .reserved := by
  unfold Branch.formFor
  split
  · exact nofun
  · split
    · exact nofun
    · split <;> exact nofun

theorem two_le_nearLength (kind : Branch) : 2 ≤ kind.nearLength m := by
  rcases kind with (_ | _) | _ <;> cases m <;> simp [Branch.nearLength, Branch.nearCode, Mode.nearSize]

theorem nearLength_le_reservedLength (kind : Branch) : kind.nearLength m ≤ kind.reservedLength m := by
  rcases kind with (_ | _) | _ <;> cases m <;>
    simp [Branch.nearLength, Branch.reservedLength, Branch.nearCode, Mode.nearSize]

theorem length_formFor_le (kind : Branch) (form : BranchForm) (distance : Int)
    (open_ : form.isSettled = false) : kind.length m (kind.formFor distance) ≤ kind.length m form := by
  have near : kind.length m (kind.formFor distance) ≤ kind.nearLength m := by
    generalize form_eq : kind.formFor distance = form
    cases form with
    | reserved => exact absurd form_eq (formFor_ne_reserved kind distance)
    | near => exact Nat.le_refl _
    | settledNear => exact Nat.le_refl _
    | short => exact two_le_nearLength m kind
  cases form with
  | reserved => exact Nat.le_trans near (nearLength_le_reservedLength m kind)
  | near => exact near
  | settledNear => cases open_
  | short => cases open_

theorem length_shrink_le : (c.shrink m old now ip gained).length m ≤ c.length m := by
  unfold Cell.shrink
  split
  · exact Nat.le_refl _
  · rename_i kind target piece
    split
    · exact Nat.le_refl _
    · rename_i open_
      simp only [Cell.length, piece]
      exact length_formFor_le m kind c.form _ (by simpa using open_)

theorem form_shrink_ne_reserved {kind : Branch} {target : Nat} (piece : c.piece = .branch kind target) :
    (c.shrink m old now ip gained).form ≠ .reserved := by
  simp only [Cell.shrink, piece]
  split
  · rename_i settled
    intro reserved
    rw [reserved] at settled
    cases settled
  · exact formFor_ne_reserved _ _

/-- A branch is made short only within reach, and a call never is. -/
theorem inReach_of_form_shrink {kind : Branch} {target : Nat} (piece : c.piece = .branch kind target)
    (short : (c.shrink m old now ip gained).form = .short) (fresh : c.form ≠ .short) :
    kind ≠ .call ∧ Branch.InReach (distance m old now ip gained target) := by
  simp only [Cell.shrink, piece] at short
  split at short
  · exact absurd short fresh
  · simp only [Branch.formFor] at short
    split at short
    · cases short
    · refine ⟨nofun, ?_⟩
      split at short
      · assumption
      · split at short <;> cases short

end Shrink

section Pass

variable (old : Array Nat)

/-- A cell after a pass is the cell before it or a shorter one. -/
def Shrinks (c d : Cell) : Prop := d.piece = c.piece ∧ d.length m ≤ c.length m

theorem shrinks_pass (cells : List Cell) (now : Array Nat) (ip gained : Nat) :
    List.Forall₂ (Shrinks m) cells (pass m old cells now ip gained).cells := by
  induction cells generalizing now ip gained with
  | nil => exact .nil
  | cons c cells ih => exact .cons ⟨piece_shrink .., length_shrink_le ..⟩ (ih ..)

theorem addresses_pass (cells : List Cell) (now : Array Nat) (ip gained : Nat) :
    (pass m old cells now ip gained).addresses =
      now ++ (startAddresses m (pass m old cells now ip gained).cells ip).toArray := by
  induction cells generalizing now ip gained with
  | nil => simp [pass, startAddresses]
  | cons c cells ih =>
      simp only [pass, startAddresses]
      rw [ih]
      simp

/-- What a pass makes of the cell at a position: the addresses up to it are new, those behind it old,
and the bytes gained are those by which the cells before it have shrunk. -/
theorem getElem?_pass (cells : List Cell) (now : Array Nat) (ip gained : Nat) {k : Nat} {c : Cell}
    (at_k : cells[k]? = some c) :
    ∃ g, g + start m (pass m old cells now ip gained).cells k = gained + start m cells k ∧
      (pass m old cells now ip gained).cells[k]? = some (c.shrink m old
        (now ++ ((startAddresses m (pass m old cells now ip gained).cells ip).take (k + 1)).toArray)
        (ip + start m (pass m old cells now ip gained).cells k) g) := by
  induction cells generalizing now ip gained k with
  | nil => simp at at_k
  | cons d cells ih =>
      cases k with
      | zero =>
          obtain rfl := Option.some.inj at_k
          refine ⟨gained, rfl, ?_⟩
          simp [pass, startAddresses]
      | succ k =>
          obtain ⟨g, sum, found⟩ := ih (now.push ip)
            (ip + (d.shrink m old (now.push ip) ip gained).length m)
            (gained + (d.length m - (d.shrink m old (now.push ip) ip gained).length m)) at_k
          have le := length_shrink_le m old (now.push ip) ip gained d
          refine ⟨g, ?_, ?_⟩
          · simp only [pass, start_cons_succ]
            omega
          · simp only [pass, startAddresses, List.getElem?_cons_succ, List.take_succ_cons,
              start_cons_succ]
            rw [found]
            simp [Nat.add_assoc]

theorem exists_shrink_of_mem_pass {cells : List Cell} {now : Array Nat} {ip gained : Nat} {d : Cell}
    (met : d ∈ (pass m old cells now ip gained).cells) :
    ∃ c ∈ cells, ∃ now ip gained, d = c.shrink m old now ip gained := by
  induction cells generalizing now ip gained with
  | nil => cases met
  | cons c cells ih =>
      rcases List.mem_cons.mp met with here | later
      · exact ⟨c, List.mem_cons_self, _, _, _, here⟩
      · obtain ⟨c, on, shrunk⟩ := ih later
        exact ⟨c, List.mem_cons_of_mem _ on, shrunk⟩

end Pass

/-- Distances below 2 GiB do not wrap around. -/
theorem wrap_eq_self (wide : m ≠ .bits16) {d : Int} (low : -0x80000000 ≤ d) (high : d < 0x80000000) :
    m.wrap d = d := by
  have space : 0x100000000 ≤ m.addressSpace := by
    cases m with
    | bits16 => exact absurd rfl wide
    | bits32 => decide
    | bits64 => decide
  exact Int.bmod_eq_of_le_mul_two (by omega) (by omega)

section Shrinking

variable {m} {cells cells' : List Cell}

/-- What lies between two cells only shrinks. -/
theorem start_add_start_le (shorter : List.Forall₂ (Shrinks m) cells cells') {j k : Nat} (le : j ≤ k) :
    start m cells' k + start m cells j ≤ start m cells k + start m cells' j := by
  induction shorter generalizing j k with
  | nil => simp [start]
  | cons step _ ih =>
      cases k with
      | zero =>
          obtain rfl := Nat.le_zero.mp le
          simp
      | succ k =>
          cases j with
          | zero =>
              have rest := ih (Nat.zero_le k)
              have head := step.2
              simp only [start_cons_succ, start_zero] at rest ⊢
              omega
          | succ j =>
              have rest := ih (Nat.le_of_succ_le_succ le)
              simp only [start_cons_succ]
              omega

theorem total_le (shorter : List.Forall₂ (Shrinks m) cells cells') :
    total m cells' ≤ total m cells := by
  induction shorter with
  | nil => exact Nat.le_refl _
  | cons step _ ih => exact Nat.add_le_add step.2 ih

theorem pieces_eq (shorter : List.Forall₂ (Shrinks m) cells cells') :
    cells'.map Cell.piece = cells.map Cell.piece := by
  induction shorter with
  | nil => rfl
  | cons step _ ih => rw [List.map_cons, List.map_cons, step.1, ih]

theorem exists_before (shorter : List.Forall₂ (Shrinks m) cells cells') {k : Nat} {d : Cell}
    (at_k : cells'[k]? = some d) : ∃ c, cells[k]? = some c ∧ Shrinks m c d :=
  exists_getElem?_of_forall₂ shorter.flip at_k

end Shrinking

/-- Every short branch is within reach of its target. -/
def Reaches (cells : List Cell) : Prop :=
  ∀ k c kind t, cells[k]? = some c → c.piece = .branch kind t → c.form = .short →
    Branch.InReach ((start m cells t : Int) - (start m cells k + 2))

/-- Every branch names the position of a cell. -/
def Closed (cells : List Cell) : Prop :=
  ∀ c ∈ cells, ∀ kind t, c.piece = .branch kind t → t < cells.length

variable {m}

theorem length_of_short {c : Cell} {kind : Branch} {t : Nat} (piece : c.piece = .branch kind t)
    (short : c.form = .short) : c.length m = 2 := by
  rw [Cell.length, piece]
  simp only [short, Branch.length]

/-- A branch that is short stays within reach when cells shrink. -/
theorem inReach_of_shrinks {cells cells' : List Cell} (shorter : List.Forall₂ (Shrinks m) cells cells')
    {k : Nat} {c d : Cell} {t : Nat} (at_k : cells[k]? = some c) (at_k' : cells'[k]? = some d)
    (len' : d.length m = 2) (le : 2 ≤ c.length m)
    (reach : Branch.InReach ((start m cells t : Int) - (start m cells k + 2))) :
    Branch.InReach ((start m cells' t : Int) - (start m cells' k + 2)) := by
  obtain ⟨low, high⟩ := reach
  by_cases back : t ≤ k
  · have shrunk := start_add_start_le shorter back
    have order := start_mono m cells' back
    exact ⟨by omega, by omega⟩
  · have next : k + 1 ≤ t := by omega
    have shrunk := start_add_start_le shorter next
    have order := start_mono m cells' next
    rw [start_succ m at_k', len'] at shrunk order
    rw [start_succ m at_k] at shrunk
    exact ⟨by omega, by omega⟩

section Addresses

variable {cells cells' : List Cell} {k t : Nat}

theorem addressOf_of_le (inside : k < cells'.length) (back : t ≤ k) (old : Array Nat) :
    addressOf old ((startAddresses m cells' 0).take (k + 1)).toArray t = start m cells' t := by
  unfold addressOf
  rw [List.getElem?_toArray, List.getElem?_take_of_lt (Nat.lt_succ_of_le back),
    getElem?_startAddresses m cells' 0 (Nat.lt_of_le_of_lt back inside), Nat.zero_add]

theorem addressOf_of_lt (target : t < cells.length) (ahead : k < t) :
    addressOf (startAddresses m cells 0).toArray
      ((startAddresses m cells' 0).take (k + 1)).toArray t = start m cells t := by
  have none_at : ((startAddresses m cells' 0).take (k + 1)).toArray[t]? = none := by
    rw [List.getElem?_toArray, List.getElem?_eq_none]
    rw [List.length_take]
    exact Nat.le_trans (Nat.min_le_left _ _) ahead
  unfold addressOf
  rw [none_at, Array.getD_eq_getD_getElem?, List.getElem?_toArray,
    getElem?_startAddresses m cells 0 target, Nat.zero_add]
  rfl

end Addresses

/-- The distance that a pass measures for the branch at position `k`, when nothing wraps around: to a
target before it as things are now, to one behind it as they were. -/
theorem distance_eq (wide : m ≠ .bits16) {cells cells' : List Cell} {k t g : Nat}
    (shorter : List.Forall₂ (Shrinks m) cells cells') (bounded : total m cells < 0x80000000)
    (inside : k < cells.length) (target : t < cells.length)
    (sum : g + start m cells' k = start m cells k) (two : start m cells k + 2 ≤ start m cells (k + 1)) :
    distance m (startAddresses m cells 0).toArray ((startAddresses m cells' 0).take (k + 1)).toArray
        (start m cells' k) g t =
      if t ≤ k then (start m cells' t : Int) - (start m cells' k + 2)
      else (start m cells t : Int) - (start m cells k + 2) := by
  have same := shorter.length_eq
  have total' := total_le shorter
  have bound : ∀ j, start m cells j < 0x80000000 := fun j =>
    Nat.lt_of_le_of_lt (start_le_total m cells j) bounded
  have bound' : ∀ j, start m cells' j < 0x80000000 := fun j =>
    Nat.lt_of_le_of_lt (start_le_total m cells' j) (Nat.lt_of_le_of_lt total' bounded)
  have bound_t := bound t
  have bound_next := bound (k + 1)
  have bound_t' := bound' t
  by_cases back : t ≤ k
  · have order := start_mono m cells' back
    unfold distance
    simp only [addressOf_of_le (Nat.lt_of_lt_of_eq inside same) back]
    rw [if_pos back, if_neg (by omega), wrap_eq_self m wide (by omega) (by omega)]
  · have ahead : k < t := Nat.lt_of_not_le back
    have order := start_mono m cells (show k + 1 ≤ t from ahead)
    unfold distance
    simp only [addressOf_of_lt target ahead]
    rw [if_neg back, if_pos (by omega), wrap_eq_self m wide (by omega) (by omega)]
    omega

theorem reaches_pass (wide : m ≠ .bits16) {cells : List Cell} (bounded : total m cells < 0x80000000)
    (closed : Closed cells) (reaches : Reaches m cells) :
    Reaches m (pass m (startAddresses m cells 0).toArray cells #[] 0 0).cells := by
  have shorter := shrinks_pass m (startAddresses m cells 0).toArray cells #[] 0 0
  intro k d kind t at_k' piece short
  obtain ⟨c, at_k, step⟩ := exists_before shorter at_k'
  have piece_c : c.piece = .branch kind t := step.1 ▸ piece
  have len' := length_of_short (m := m) piece short
  have le : 2 ≤ c.length m := len' ▸ step.2
  by_cases old : c.form = .short
  · exact inReach_of_shrinks shorter at_k at_k' len' le (reaches k c kind t at_k piece_c old)
  · obtain ⟨g, sum, found⟩ := getElem?_pass m (startAddresses m cells 0).toArray cells #[] 0 0 at_k
    have fresh := Option.some.inj (at_k'.symm.trans found)
    obtain ⟨inside, -⟩ := List.getElem?_eq_some_iff.mp at_k
    have reach := (inReach_of_form_shrink m _ _ _ _ c piece_c (fresh ▸ short) old).2
    have next := start_succ m at_k
    rw [Array.empty_append, Nat.zero_add,
      distance_eq wide shorter bounded inside (closed c (List.mem_of_getElem? at_k) kind t piece_c)
        (by omega) (by omega)] at reach
    -- Behind the branch the measure was taken before this pass, so it is carried over like an old one.
    split at reach
    · exact reach
    · exact inReach_of_shrinks shorter at_k at_k' len' le reach

theorem closed_of_shrinks {cells cells' : List Cell} (shorter : List.Forall₂ (Shrinks m) cells cells')
    (closed : Closed cells) : Closed cells' := by
  intro d met kind t piece
  obtain ⟨k, at_k'⟩ := List.getElem?_of_mem met
  obtain ⟨c, at_k, step⟩ := exists_before shorter at_k'
  rw [← shorter.length_eq]
  exact closed c (List.mem_of_getElem? at_k) kind t (step.1 ▸ piece)

/-- What holds of cells and their addresses from the start of layout to its end. -/
structure Standing (m : Mode) (pieces : List Piece) (cells : List Cell) (addresses : Array Nat) :
    Prop where
  pieces : cells.map Cell.piece = pieces
  addresses : addresses = (startAddresses m cells 0).toArray
  calls : ∀ c ∈ cells, ∀ t, c.piece = .branch .call t → c.form ≠ .short

/-- Every branch has a form. -/
def Decided (cells : List Cell) : Prop :=
  ∀ c ∈ cells, ∀ kind t, c.piece = .branch kind t → c.form ≠ .reserved

theorem Standing.pass {pieces : List Piece} {cells : List Cell} {addresses : Array Nat}
    (standing : Standing m pieces cells addresses) :
    Standing m pieces (Layout.pass m addresses cells #[] 0 0).cells
      (Layout.pass m addresses cells #[] 0 0).addresses := by
  have shorter := shrinks_pass m addresses cells #[] 0 0
  refine ⟨(pieces_eq shorter).trans standing.pieces, ?_, ?_⟩
  · rw [addresses_pass, Array.empty_append]
  · intro d met t piece short
    obtain ⟨c, on, now, ip, gained, rfl⟩ := exists_shrink_of_mem_pass m addresses met
    rw [piece_shrink] at piece
    exact (inReach_of_form_shrink m _ _ _ _ c piece short (standing.calls c on t piece)).1 rfl

theorem decided_pass (cells : List Cell) (addresses : Array Nat) :
    Decided (pass m addresses cells #[] 0 0).cells := by
  intro d met kind t piece
  obtain ⟨c, -, now, ip, gained, rfl⟩ := exists_shrink_of_mem_pass m addresses met
  rw [piece_shrink] at piece
  exact form_shrink_ne_reserved m _ _ _ _ c piece

/-- What every pass keeps and the first pass brings about holds in the end. -/
theorem settle_succ {P : List Cell → Array Nat → Prop}
    (step : ∀ cells addresses, P cells addresses →
      P (pass m addresses cells #[] 0 0).cells (pass m addresses cells #[] 0 0).addresses)
    (n : Nat) (cells : List Cell) (addresses : Array Nat)
    (first : P (pass m addresses cells #[] 0 0).cells (pass m addresses cells #[] 0 0).addresses) :
    P (settle m (n + 1) cells addresses).1 (settle m (n + 1) cells addresses).2 := by
  induction n generalizing cells addresses with
  | zero =>
      simp only [settle]
      split <;> exact first
  | succ n ih =>
      rw [settle]
      split
      · exact first
      · exact ih _ _ (step _ _ first)

theorem settle_standing {pieces : List Piece} {cells : List Cell} {addresses : Array Nat}
    (standing : Standing m pieces cells addresses) (n : Nat) :
    Standing m pieces (settle m (n + 1) cells addresses).1 (settle m (n + 1) cells addresses).2 ∧
      Decided (settle m (n + 1) cells addresses).1 :=
  settle_succ (P := fun cells addresses => Standing m pieces cells addresses ∧ Decided cells)
    (fun cells addresses both => ⟨both.1.pass, decided_pass cells addresses⟩) n cells addresses
    ⟨standing.pass, decided_pass cells addresses⟩

theorem settle_reaches (wide : m ≠ .bits16) {pieces : List Piece} {cells : List Cell}
    {addresses : Array Nat} (standing : Standing m pieces cells addresses)
    (bounded : total m cells < 0x80000000) (closed : Closed cells) (reaches : Reaches m cells)
    (n : Nat) : Reaches m (settle m (n + 1) cells addresses).1 := by
  have step : ∀ cells addresses,
      Standing m pieces cells addresses ∧ total m cells < 0x80000000 ∧ Closed cells ∧ Reaches m cells →
      Standing m pieces (pass m addresses cells #[] 0 0).cells
          (pass m addresses cells #[] 0 0).addresses ∧
        total m (pass m addresses cells #[] 0 0).cells < 0x80000000 ∧
        Closed (pass m addresses cells #[] 0 0).cells ∧
        Reaches m (pass m addresses cells #[] 0 0).cells := by
    rintro cells addresses ⟨standing, bounded, closed, reaches⟩
    have shorter := shrinks_pass m addresses cells #[] 0 0
    refine ⟨standing.pass, Nat.lt_of_le_of_lt (total_le shorter) bounded,
      closed_of_shrinks shorter closed, ?_⟩
    rw [standing.addresses]
    exact reaches_pass wide bounded closed reaches
  exact (settle_succ step n cells addresses
    (step cells addresses ⟨standing, bounded, closed, reaches⟩)).2.2.2

/-- The cells that layout starts with. -/
def initial (pieces : List Piece) : List Cell := pieces.map fun p => { piece := p }

/-- The cells that layout ends with. -/
def settled (m : Mode) (pieces : List Piece) : List Cell :=
  (settle m maxPasses (initial pieces) (startAddresses m (initial pieces) 0).toArray).1

theorem standing_initial (m : Mode) (pieces : List Piece) :
    Standing m pieces (initial pieces) (startAddresses m (initial pieces) 0).toArray := by
  refine ⟨?_, rfl, ?_⟩
  · rw [initial, List.map_map]
    exact List.map_id pieces
  · intro c met t _
    obtain ⟨p, -, rfl⟩ := List.mem_map.mp met
    exact nofun

theorem standing_settled (m : Mode) (pieces : List Piece) :
    Standing m pieces (settled m pieces) (startAddresses m (settled m pieces) 0).toArray ∧
      Decided (settled m pieces) := by
  obtain ⟨standing, decided⟩ := settle_standing (standing_initial m pieces) 4
  exact ⟨⟨standing.pieces, rfl, standing.calls⟩, decided⟩

theorem chunks_eq (m : Mode) (pieces : List Piece) :
    chunks m pieces = ((settled m pieces).zip (startAddresses m (settled m pieces) 0)).mapM
      fun (c, ip) => c.bytes m (startAddresses m (settled m pieces) 0).toArray ip := by
  have same := (settle_standing (standing_initial m pieces) 4).1.addresses
  change (settle m maxPasses (initial pieces) (startAddresses m (initial pieces) 0).toArray).2 = _
    at same
  simp only [chunks]
  rw [show (pieces.map fun p => ({ piece := p } : Cell)) = initial pieces from rfl, same]
  rfl

/-- No branch is beyond the reach of its form when the function is shorter than 2 GiB with all branches
at their longest. -/
theorem reaches_settled {m : Mode} (wide : m ≠ .bits16) {pieces : List Piece}
    (bounded : total m (initial pieces) < 0x80000000) (closed : Closed (initial pieces)) :
    Reaches m (settled m pieces) := by
  refine settle_reaches wide (standing_initial m pieces) bounded closed ?_ 4
  intro k c kind t at_k _ short
  obtain ⟨p, -, rfl⟩ := List.mem_map.mp (List.mem_of_getElem? at_k)
  cases short

/-- Where the chunk at a position starts. -/
def offset (chunks : List (List UInt8)) (k : Nat) : Nat := (chunks.take k).flatten.length

/-- The bytes of a piece at position `k` among chunks. A branch has the displacement from its end to the
chunk that it names, and only a jump within reach is short. -/
inductive Written (m : Mode) (chunks : List (List UInt8)) (k : Nat) : Piece → List UInt8 → Prop
  | plain (bytes : List UInt8) : Written m chunks k (.plain bytes) bytes
  | branch {kind : Branch} {t : Nat} {form : BranchForm} {d : Int} :
      form ≠ .reserved → (form = .short → kind ≠ .call ∧ Branch.InReach d) →
      d = m.wrap (offset chunks t - (offset chunks k + (kind.bytes m form d).length)) →
      Written m chunks k (.branch kind t) (kind.bytes m form d)

theorem getElem?_zip_startAddresses (m : Mode) {cells : List Cell} {k : Nat} {c : Cell}
    (at_k : cells[k]? = some c) :
    (cells.zip (startAddresses m cells 0))[k]? = some (c, start m cells k) := by
  obtain ⟨inside, -⟩ := List.getElem?_eq_some_iff.mp at_k
  rw [List.getElem?_zip_eq_some]
  refine ⟨at_k, ?_⟩
  rw [getElem?_startAddresses m cells 0 inside, Nat.zero_add]

theorem bytes_eq_ok_branch {m : Mode} {addresses : Array Nat} {ip : Nat} {c : Cell}
    {bytes : List UInt8} {kind : Branch} {t : Nat} (piece : c.piece = .branch kind t) :
    c.bytes m addresses ip = .ok bytes ↔
      (c.form = .short → Branch.InReach (m.wrap (addresses.getD t 0 - ↑(ip + c.length m)))) ∧
        kind.bytes m c.form (m.wrap (addresses.getD t 0 - ↑(ip + c.length m))) = bytes := by
  simp only [Cell.bytes, piece]
  split
  · rename_i far
    exact ⟨nofun, fun near => absurd (near.1 far.1) far.2⟩
  · rename_i near
    rw [Except.ok.injEq]
    refine ⟨fun same => ⟨fun short => ?_, same⟩, And.right⟩
    exact Decidable.not_not.mp fun far => near ⟨short, far⟩

theorem length_bytes_of_decided {m : Mode} {cells : List Cell} (decided : Decided cells)
    {addresses : Array Nat} {ip : Nat} {c : Cell} {bytes : List UInt8} (met : c ∈ cells)
    (run : c.bytes m addresses ip = .ok bytes) : bytes.length = c.length m := by
  cases piece : c.piece with
  | plain bs =>
      simp only [Cell.bytes, piece] at run
      cases run
      simp only [Cell.length, piece]
  | branch kind t =>
      obtain ⟨-, rfl⟩ := (bytes_eq_ok_branch piece).mp run
      simp only [Cell.length, piece]
      exact kind.length_bytes m c.form _ (decided c met kind t piece)

section Chunks

variable {m : Mode} {pieces : List Piece} {cs : List (List UInt8)}

theorem length_chunks (run : chunks m pieces = .ok cs) : cs.length = (settled m pieces).length := by
  rw [chunks_eq] at run
  have same := ((mapM_eq_ok_iff _ _ _).mp run).length_eq
  rw [List.length_zip, length_startAddresses, Nat.min_self] at same
  exact same.symm

theorem exists_chunk (run : chunks m pieces = .ok cs) {k : Nat} {c : Cell}
    (at_k : (settled m pieces)[k]? = some c) :
    ∃ bytes, cs[k]? = some bytes ∧ c.bytes m (startAddresses m (settled m pieces) 0).toArray
      (start m (settled m pieces) k) = .ok bytes := by
  rw [chunks_eq] at run
  exact exists_getElem?_of_forall₂ ((mapM_eq_ok_iff _ _ _).mp run) (getElem?_zip_startAddresses m at_k)

theorem map_length_chunks (run : chunks m pieces = .ok cs) :
    cs.map List.length = (settled m pieces).map (Cell.length m) := by
  apply List.ext_getElem?
  intro k
  rw [List.getElem?_map, List.getElem?_map]
  cases at_k : (settled m pieces)[k]? with
  | none =>
      have beyond : cs[k]? = none := by
        rw [List.getElem?_eq_none_iff] at at_k ⊢
        rwa [length_chunks run]
      rw [beyond]
      rfl
  | some c =>
      obtain ⟨bytes, found, bytes_eq⟩ := exists_chunk run at_k
      have len := length_bytes_of_decided (standing_settled m pieces).2 (List.mem_of_getElem? at_k)
        bytes_eq
      rw [found, Option.map_some, Option.map_some, len]

theorem length_flatten_eq_total {cells : List Cell}
    (lengths : cs.map List.length = cells.map (Cell.length m)) : cs.flatten.length = total m cells := by
  induction cells generalizing cs with
  | nil =>
      obtain rfl := List.map_eq_nil_iff.mp lengths
      rfl
  | cons c cells ih =>
      cases cs with
      | nil => cases lengths
      | cons bytes cs =>
          obtain ⟨head, rest⟩ := List.cons.inj lengths
          rw [List.flatten_cons, List.length_append, total, head, ih rest]

theorem offset_chunks (run : chunks m pieces = .ok cs) (k : Nat) :
    offset cs k = start m (settled m pieces) k := by
  refine length_flatten_eq_total ?_
  rw [List.map_take, List.map_take, map_length_chunks run]

theorem length_settled (m : Mode) (pieces : List Piece) : (settled m pieces).length = pieces.length := by
  rw [← List.length_map Cell.piece, (standing_settled m pieces).1.pieces]

theorem closed_settled (closed : Closed (initial pieces)) : Closed (settled m pieces) := by
  intro c met kind t piece
  have pieces_eq := (standing_settled m pieces).1.pieces
  have on : Piece.branch kind t ∈ pieces := by
    rw [← pieces_eq, ← piece]
    exact List.mem_map_of_mem met
  rw [length_settled]
  have inside := closed ⟨.branch kind t, .reserved⟩ (List.mem_map.mpr ⟨_, on, rfl⟩) kind t rfl
  rwa [initial, List.length_map] at inside

theorem goal_eq (m : Mode) {cells : List Cell} {t : Nat} (inside : t < cells.length) :
    (startAddresses m cells 0).toArray.getD t 0 = start m cells t := by
  rw [Array.getD_eq_getD_getElem?, List.getElem?_toArray, getElem?_startAddresses m cells 0 inside,
    Nat.zero_add, Option.getD_some]

theorem chunks_written (run : chunks m pieces = .ok cs) (closed : Closed (initial pieces)) {k : Nat}
    {piece : Piece} (at_k : pieces[k]? = some piece) :
    ∃ c, cs[k]? = some c ∧ Written m cs k piece c := by
  obtain ⟨standing, decided⟩ := standing_settled m pieces
  rw [← standing.pieces, List.getElem?_map, Option.map_eq_some_iff] at at_k
  obtain ⟨c, at_k, piece_c⟩ := at_k
  have met := List.mem_of_getElem? at_k
  obtain ⟨bytes, found, run_c⟩ := exists_chunk run at_k
  have len := length_bytes_of_decided decided met run_c
  refine ⟨bytes, found, ?_⟩
  cases piece with
  | plain bs =>
      simp only [Cell.bytes, piece_c] at run_c
      cases run_c
      exact .plain bytes
  | branch kind t =>
      obtain ⟨reach, rfl⟩ := (bytes_eq_ok_branch piece_c).mp run_c
      have inside := closed_settled (m := m) closed c met kind t piece_c
      rw [goal_eq m inside] at reach len ⊢
      refine .branch (decided c met kind t piece_c) ?_ ?_
      · intro short
        refine ⟨?_, reach short⟩
        rintro rfl
        exact standing.calls c met t piece_c short
      · rw [len, offset_chunks run, offset_chunks run]
        push_cast
        rfl

/-- Layout succeeds when the function is shorter than 2 GiB with all branches at their longest. -/
theorem exists_chunks (wide : m ≠ .bits16) (bounded : total m (initial pieces) < 0x80000000)
    (closed : Closed (initial pieces)) : ∃ cs, chunks m pieces = .ok cs := by
  rw [chunks_eq]
  apply exists_mapM_eq_ok
  rintro ⟨c, ip⟩ met
  obtain ⟨k, at_k⟩ := List.getElem?_of_mem met
  obtain ⟨at_c, -⟩ := List.getElem?_zip_eq_some.mp at_k
  obtain ⟨-, rfl⟩ := Prod.mk.inj (Option.some.inj (at_k.symm.trans (getElem?_zip_startAddresses m at_c)))
  cases piece : c.piece with
  | plain bytes => exact ⟨bytes, by simp only [Cell.bytes, piece]⟩
  | branch kind t =>
      refine ⟨_, (bytes_eq_ok_branch piece).mpr ⟨fun short => ?_, rfl⟩⟩
      have reach := reaches_settled wide bounded closed k c kind t at_c piece short
      have inside := closed_settled (m := m) closed c (List.mem_of_getElem? at_c) kind t piece
      obtain ⟨low, high⟩ := reach
      rw [goal_eq m inside, length_of_short piece short, wrap_eq_self m wide (by omega) (by omega)]
      exact ⟨by omega, by omega⟩

end Chunks

section Behind

variable {m : Mode} {cells : List Cell} (bytes : List UInt8)

def plainCell (bytes : List UInt8) : Cell := { piece := .plain bytes }

theorem shrink_congr {old old' : Array Nat} {c : Cell} (now : Array Nat) (ip gained : Nat)
    (same : ∀ kind t, c.piece = .branch kind t → old'.getD t 0 = old.getD t 0) :
    c.shrink m old' now ip gained = c.shrink m old now ip gained := by
  unfold Cell.shrink
  split
  · rfl
  · rename_i kind t piece
    have address : addressOf old' now t = addressOf old now t := by
      rw [addressOf, same kind t piece, addressOf]
    rw [distance, address, distance]

/-- A piece behind the others takes no part in a pass over them. -/
theorem pass_append_plain {old old' : Array Nat}
    (same : ∀ c ∈ cells, ∀ kind t, c.piece = .branch kind t → old'.getD t 0 = old.getD t 0)
    (now : Array Nat) (ip gained : Nat) :
    (pass m old' (cells ++ [plainCell bytes]) now ip gained).cells =
        (pass m old cells now ip gained).cells ++ [plainCell bytes] ∧
      (pass m old' (cells ++ [plainCell bytes]) now ip gained).gained =
        (pass m old cells now ip gained).gained := by
  induction cells generalizing now ip gained with
  | nil => simp [pass, Cell.shrink, plainCell]
  | cons c cells ih =>
      obtain ⟨same_c, same⟩ := List.forall_mem_cons.mp same
      obtain ⟨cells_eq, gained_eq⟩ := ih same (now.push ip)
        (ip + (c.shrink m old (now.push ip) ip gained).length m)
        (gained + (c.length m - (c.shrink m old (now.push ip) ip gained).length m))
      simp only [List.cons_append, pass, shrink_congr _ _ _ same_c]
      exact ⟨congrArg _ cells_eq, gained_eq⟩

theorem start_append_of_le (c : Cell) {k : Nat} (inside : k ≤ cells.length) :
    start m (cells ++ [c]) k = start m cells k := by
  rw [start, List.take_append_of_le_length inside, start]

theorem startAddresses_append (c : Cell) (ip : Nat) :
    startAddresses m (cells ++ [c]) ip = startAddresses m cells ip ++ [ip + total m cells] := by
  induction cells generalizing ip with
  | nil => rfl
  | cons d cells ih =>
      rw [List.cons_append, startAddresses, ih, startAddresses, total, Nat.add_assoc, List.cons_append]

/-- What branches aim at stands where it stood. -/
theorem goal_append (closed : Closed cells) (d : Cell) :
    ∀ c ∈ cells, ∀ kind t, c.piece = .branch kind t →
      (startAddresses m (cells ++ [d]) 0).toArray.getD t 0 =
        (startAddresses m cells 0).toArray.getD t 0 := by
  intro c met kind t piece
  have inside := closed c met kind t piece
  rw [goal_eq m inside, goal_eq m (Nat.lt_of_lt_of_le inside (by simp)), start_append_of_le d (Nat.le_of_lt inside)]

theorem settle_append_plain (closed : Closed cells) (n : Nat) :
    (settle m n (cells ++ [plainCell bytes]) (startAddresses m (cells ++ [plainCell bytes]) 0).toArray).1 =
      (settle m n cells (startAddresses m cells 0).toArray).1 ++ [plainCell bytes] := by
  induction n generalizing cells with
  | zero => rfl
  | succ n ih =>
      obtain ⟨cells_eq, gained_eq⟩ := pass_append_plain (m := m) bytes
        (goal_append (m := m) closed (plainCell bytes)) #[] 0 0
      have next := closed_of_shrinks (shrinks_pass m (startAddresses m cells 0).toArray cells #[] 0 0) closed
      simp only [settle, gained_eq, addresses_pass, Array.empty_append, cells_eq]
      split
      · rfl
      · exact ih next

theorem settled_append_plain {pieces : List Piece} (closed : Closed (initial pieces)) :
    settled m (pieces ++ [.plain bytes]) = settled m pieces ++ [plainCell bytes] := by
  have same : initial (pieces ++ [.plain bytes]) = initial pieces ++ [plainCell bytes] := List.map_append
  rw [settled, same]
  exact settle_append_plain bytes closed maxPasses

/-- A plain piece behind all others, to which none of them branches, leaves the bytes of the others alone. -/
theorem chunks_append_plain {pieces : List Piece} (closed : Closed (initial pieces)) :
    chunks m (pieces ++ [.plain bytes]) = (chunks m pieces).map (· ++ [bytes]) := by
  have goals := goal_append (m := m) (closed_settled (m := m) closed) (plainCell bytes)
  rw [chunks_eq, settled_append_plain bytes closed, startAddresses_append,
    List.zip_append (length_startAddresses m _ 0).symm, List.mapM_append, ← startAddresses_append _ 0, chunks_eq]
  have same : ∀ x ∈ (settled m pieces).zip (startAddresses m (settled m pieces) 0),
      x.1.bytes m (startAddresses m (settled m pieces ++ [plainCell bytes]) 0).toArray x.2 =
        x.1.bytes m (startAddresses m (settled m pieces) 0).toArray x.2 := by
    rintro ⟨c, ip⟩ met
    cases piece : c.piece with
    | plain bs => simp only [Cell.bytes, piece]
    | branch kind t => simp only [Cell.bytes, piece, goals c (List.of_mem_zip met).1 kind t piece]
  rw [mapM_congr same]
  cases List.mapM (fun x : Cell × Nat => x.1.bytes m (startAddresses m (settled m pieces) 0).toArray x.2)
    ((settled m pieces).zip (startAddresses m (settled m pieces) 0)) <;> rfl

end Behind

end X86.Layout

end InstrStream
