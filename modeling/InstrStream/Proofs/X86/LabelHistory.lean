import InstrStream.Proofs.X86.SharedLabels
import Mathlib.Data.Finset.Card

/-! The history of labels. What has been asked of a stream is told again here as a list of events: labels made, labels
placed, instructions added. Whether a stream of branches and of instructions without operands can be finalized is
decided by this list alone: every label made must have been placed, and if there are instructions at all, every label
placed must stand before an instruction, and before one only. -/
namespace InstrStream.X86.Emitter

open Assembly

/-- What has happened in a stream. Labels are named by their owners. -/
inductive LabelEvent where
  | made (l : Handle)
  | placed (l : Handle)
  /-- An instruction was added. -/
  | added
deriving DecidableEq, Repr

namespace LabelEvent

def made? : LabelEvent → Option Handle
  | .made l => some l
  | _ => none

def placed? : LabelEvent → Option Handle
  | .placed l => some l
  | _ => none

variable (events : List LabelEvent)

/-- The label was placed, and no instruction has been added since then. -/
def Waits (l : Handle) : Prop :=
  ∃ before after, events = before ++ .placed l :: after ∧ .added ∉ after

/-- The label was placed before the instruction that has `n` others before it. -/
def StandsBefore (l : Handle) (n : Nat) : Prop :=
  ∃ before after, events = before ++ .placed l :: after ∧ .added ∈ after ∧ before.count .added = n

/-- The labels that were made and never placed. -/
def lost : Finset Handle := (events.filterMap made?).toFinset \ (events.filterMap placed?).toFinset

/-- Every label made has been placed. If there are instructions, the last label placed is followed by one, and no label
stands before two of them. -/
structure Consistent : Prop where
  placed : ∀ l, .made l ∈ events → .placed l ∈ events
  carried : .added ∈ events → (∀ l, ¬ Waits events l) ∧
    ∀ l i j, StandsBefore events l i → StandsBefore events l j → i = j

variable {events}

theorem made?_eq_some_iff {x : LabelEvent} {l : Handle} : x.made? = some l ↔ x = .made l := by
  cases x <;> simp [made?]

theorem placed?_eq_some_iff {x : LabelEvent} {l : Handle} : x.placed? = some l ↔ x = .placed l := by
  cases x <;> simp [placed?]

theorem mem_lost {l : Handle} : l ∈ lost events ↔ .made l ∈ events ∧ .placed l ∉ events := by
  simp only [lost, Finset.mem_sdiff, List.mem_toFinset, List.mem_filterMap, made?_eq_some_iff,
    placed?_eq_some_iff, exists_eq_right]

/-- Where an event stands in a history that has grown by one. -/
theorem last_or_earlier {x y : LabelEvent} {before after : List LabelEvent}
    (grown : events ++ [x] = before ++ y :: after) :
    (y = x ∧ after = []) ∨ ∃ rest, after = rest ++ [x] ∧ events = before ++ y :: rest := by
  rcases List.eq_nil_or_concat after with rfl | ⟨rest, z, rfl⟩
  · obtain ⟨-, rfl⟩ := List.append_singleton_inj.mp grown
    exact .inl ⟨rfl, rfl⟩
  · have regrouped : before ++ y :: rest.concat z = (before ++ y :: rest) ++ [z] := by simp
    obtain ⟨rfl, rfl⟩ := List.append_singleton_inj.mp (grown.trans regrouped)
    exact .inr ⟨rest, List.concat_eq_append, rfl⟩

theorem waits_concat {x : LabelEvent} {l : Handle} :
    Waits (events ++ [x]) l ↔ x = .placed l ∨ Waits events l ∧ x ≠ .added := by
  constructor
  · rintro ⟨before, after, grown, none_since⟩
    rcases last_or_earlier grown with ⟨rfl, -⟩ | ⟨rest, rfl, old⟩
    · exact .inl rfl
    · rw [List.mem_append, not_or, List.mem_singleton] at none_since
      exact .inr ⟨⟨before, rest, old, none_since.1⟩, Ne.symm none_since.2⟩
  · rintro (rfl | ⟨⟨before, rest, rfl, none_since⟩, other⟩)
    · exact ⟨events, [], rfl, List.not_mem_nil⟩
    · refine ⟨before, rest ++ [x], by simp, ?_⟩
      rw [List.mem_append, List.mem_singleton]
      rintro (met | same)
      · exact none_since met
      · exact other same.symm

theorem standsBefore_concat {x : LabelEvent} {l : Handle} {n : Nat} :
    StandsBefore (events ++ [x]) l n ↔
      StandsBefore events l n ∨ x = .added ∧ Waits events l ∧ n = events.count .added := by
  constructor
  · rintro ⟨before, after, grown, followed, rfl⟩
    rcases last_or_earlier grown with ⟨-, rfl⟩ | ⟨rest, rfl, rfl⟩
    · cases followed
    · by_cases earlier : .added ∈ rest
      · exact .inl ⟨before, rest, rfl, earlier, rfl⟩
      · rw [List.mem_append, List.mem_singleton, or_iff_right earlier] at followed
        refine .inr ⟨followed.symm, ⟨before, rest, rfl, earlier⟩, ?_⟩
        simp [List.count_eq_zero_of_not_mem earlier]
  · rintro (⟨before, rest, rfl, followed, count⟩ | ⟨rfl, ⟨before, rest, rfl, earlier⟩, rfl⟩)
    · exact ⟨before, rest ++ [x], by simp, List.mem_append_left _ followed, count⟩
    · refine ⟨before, rest ++ [.added], by simp, by simp, ?_⟩
      simp [List.count_eq_zero_of_not_mem earlier]

end LabelEvent

open LabelEvent

/-- What a request does, by the labels that records use at the time and by the reply. -/
def Request.events (owner : Handle → Handle) : Request → Reply → List LabelEvent
  | .make h, _ => [.made (owner h)]
  | .share _ _, _ => []
  | .place h, .done => [.made (owner h), .placed (owner h)]
  | .place h, _ => [.made (owner h)]
  | .emit (.branch _ h), _ => [.made (owner h), .added]
  | .emit (.plain _), _ => [.added]
  | .syscall, .done => [.added]
  | .syscall, _ => []

/-- All that some requests do, one after another. -/
def history (e : Emitter) : List Request → List LabelEvent
  | [] => []
  | r :: requests => r.events e.owner (e.request r).2 ++ (e.request r).1.history requests

/-- A stream remembers what has happened in it. -/
structure Recorded (events : List LabelEvent) (e : Emitter) : Prop where
  tallied : e.Tallied
  made : ∀ l, l ∈ e.labels ↔ .made l ∈ events
  distinct : e.labels.Nodup
  placed : ∀ l, l ∈ e.placed ↔ .placed l ∈ events
  added : events.count .added = e.items.size
  waits : ∀ l, e.waiting = some l ↔ Waits events l
  stands : ∀ l n, StandsBefore events l n ↔ ∃ item, e.items[n]? = some item ∧ item.label = some l

section Steps

variable {e e₁ : Emitter} {events : List LabelEvent} {h : Handle}

theorem recorded_initial (m : Mode) : Recorded [] { mode := m } := by
  refine ⟨tallied_initial m [], ?_, List.nodup_nil, ?_, rfl, ?_, ?_⟩
  · intro l
    exact iff_of_false List.not_mem_nil List.not_mem_nil
  · intro l
    exact iff_of_false List.not_mem_nil List.not_mem_nil
  · intro l
    refine iff_of_false nofun ?_
    rintro ⟨before, after, empty, -⟩
    simp at empty
  · intro l n
    refine iff_of_false ?_ ?_
    · rintro ⟨before, after, empty, -⟩
      simp at empty
    · rintro ⟨item, found, -⟩
      simp at found

/-- Who uses which label is no part of the history. -/
theorem Recorded.withAliases (recorded : Recorded events e) (aliases : List (Handle × Handle)) :
    Recorded events { e with aliases } :=
  ⟨⟨recorded.tallied.carried, recorded.tallied.placed_made, recorded.tallied.branch_made⟩, recorded.made,
    recorded.distinct, recorded.placed, recorded.added, recorded.waits, recorded.stands⟩

theorem Recorded.ensureLabel (recorded : Recorded events e) (h : Handle) :
    Recorded (events ++ [.made (e.owner h)]) (e.ensureLabel h) := by
  have tallied := recorded.tallied.ensureLabel h
  obtain ⟨labels, made_eq, made_iff⟩ := ensureLabel_eq e h
  have distinct : (e.ensureLabel h).labels.Nodup := by
    rw [Emitter.ensureLabel]
    split
    · exact recorded.distinct
    · rename_i new
      exact List.nodup_cons.mpr ⟨new, recorded.distinct⟩
  rw [made_eq] at tallied distinct ⊢
  refine ⟨tallied, ?_, distinct, ?_, ?_, ?_, ?_⟩
  · intro l
    rw [made_iff, recorded.made, List.mem_append, List.mem_singleton, LabelEvent.made.injEq]
  · intro l
    rw [recorded.placed, List.mem_append, List.mem_singleton]
    simp
  · rw [List.count_append, recorded.added]
    simp
  · intro l
    rw [recorded.waits, waits_concat]
    simp
  · intro l n
    rw [standsBefore_concat, recorded.stands]
    simp

/-- The label of a record that is placed while none waits. -/
theorem Recorded.place (recorded : Recorded events e) (idle : e.waiting = none) {l : Handle} (made : l ∈ e.labels) :
    Recorded (events ++ [.placed l]) { e with waiting := some l, placed := l :: e.placed } := by
  have carried := recorded.tallied.carried
  rw [idle, Option.toList_none, List.append_nil] at carried
  refine ⟨⟨?_, ?_, recorded.tallied.branch_made⟩, ?_, recorded.distinct, ?_, ?_, ?_, ?_⟩
  · rw [List.reverse_cons, carried]
    rfl
  · intro k placed
    rcases List.mem_cons.mp placed with rfl | old
    · exact made
    · exact recorded.tallied.placed_made k old
  · intro k
    rw [recorded.made, List.mem_append, List.mem_singleton]
    simp
  · intro k
    rw [List.mem_cons, recorded.placed, List.mem_append, List.mem_singleton, LabelEvent.placed.injEq, or_comm]
  · rw [List.count_append, recorded.added]
    simp
  · intro k
    rw [waits_concat, ← recorded.waits, idle]
    simp
  · intro k n
    rw [standsBefore_concat, recorded.stands]
    simp

/-- An instruction that is added takes the label that waits. -/
theorem Recorded.push (recorded : Recorded events e) (x : Emission)
    (made : ∀ kind t, x = .branch kind t → t ∈ e.labels) : Recorded (events ++ [.added]) (e.push x) := by
  refine ⟨recorded.tallied.push x made, ?_, recorded.distinct, ?_, ?_, ?_, ?_⟩
  · intro l
    exact (recorded.made l).trans (by simp)
  · intro l
    exact (recorded.placed l).trans (by simp)
  · rw [List.count_append, recorded.added, Emitter.push, Array.size_push]
    rfl
  · intro l
    rw [waits_concat]
    simp [Emitter.push]
  · intro l n
    rw [standsBefore_concat, recorded.stands, ← recorded.waits, recorded.added, Emitter.push, Array.getElem?_push]
    by_cases last : n = e.items.size
    · subst last
      simp
    · simp [last]

theorem Recorded.emit (recorded : Recorded events e) (x : Emission) :
    Recorded (events ++ (Request.emit x).events e.owner .done) (e.emit x) := by
  cases x with
  | plain i => exact recorded.push (.plain i) nofun
  | branch kind t =>
      have step := (recorded.ensureLabel t).push (.branch kind ((e.ensureLabel t).owner t)) ?_
      · rw [List.append_assoc] at step
        exact step
      · rintro _ _ ⟨⟩
        rw [owner_ensureLabel]
        exact owner_mem_ensureLabel e t

/-- Every request adds to the history what it does to the stream. -/
theorem Recorded.request (recorded : Recorded events e) (r : Request) :
    Recorded (events ++ r.events e.owner (e.request r).2) (e.request r).1 := by
  cases r with
  | make h => exact recorded.ensureLabel h
  | share h other =>
      obtain ⟨aliases, shared⟩ := exists_request_share e h other
      rw [Request.events, List.append_nil, shared]
      exact recorded.withAliases aliases
  | place h =>
      have made := recorded.ensureLabel h
      have here := owner_mem_ensureLabel e h
      rw [← owner_ensureLabel e h] at here
      rw [Emitter.request, Emitter.place]
      cases idle : (e.ensureLabel h).waiting with
      | some other => exact made
      | none =>
          have placed := made.place idle here
          rw [List.append_assoc, owner_ensureLabel] at placed
          simp only [owner_ensureLabel]
          exact placed
  | emit x => exact recorded.emit x
  | syscall =>
      rcases request_syscall e with offered | ⟨cause, refused⟩
      · rw [offered]
        exact recorded.emit (.plain .syscall)
      · rw [refused]
        change Recorded (events ++ []) e
        rw [List.append_nil]
        exact recorded

theorem Recorded.serve (recorded : Recorded events e) (requests : List Request) :
    Recorded (events ++ e.history requests) (e.serve requests).1 := by
  induction requests generalizing e events with
  | nil =>
      rw [history, List.append_nil]
      exact recorded
  | cons r requests ih =>
      have rest := ih (recorded.request r)
      rw [List.append_assoc] at rest
      exact rest

end Steps

section Instructions

/-- An instruction of the request has no operand, unless it is a branch. -/
def Request.isBare : Request → Bool
  | .emit (.plain i) => i ∈ [Instruction.ret, .nop, .int3, .hlt]
  | _ => true

/-- All instructions of a stream exist in its mode. -/
structure Encodable (m : Mode) (e : Emitter) : Prop where
  mode : e.mode = m
  exist : ∀ item ∈ e.items.toList, existsIn m item.emission = true

variable {m : Mode} {e : Emitter}

theorem encodable_initial (m : Mode) : Encodable m { mode := m } := by
  refine ⟨rfl, ?_⟩
  intro item met
  cases met

theorem Encodable.ensureLabel (encodable : Encodable m e) (h : Handle) : Encodable m (e.ensureLabel h) := by
  obtain ⟨labels, made_eq, -⟩ := ensureLabel_eq e h
  rw [made_eq]
  exact ⟨encodable.mode, encodable.exist⟩

theorem Encodable.push (encodable : Encodable m e) {x : Emission} (known : existsIn m x = true) :
    Encodable m (e.push x) := by
  refine ⟨encodable.mode, ?_⟩
  intro item met
  rw [Emitter.push, Array.toList_push, List.mem_append, List.mem_singleton] at met
  rcases met with old | rfl
  · exact encodable.exist item old
  · exact known

theorem existsIn_of_width {i : Instruction} (narrow : i.width? = none) : existsIn m (.plain i) = true := by
  rw [existsIn, Instruction.existsIn, narrow]
  simp

theorem Encodable.request (encodable : Encodable m e) {r : Request} (bare : r.isBare = true) :
    Encodable m (e.request r).1 := by
  cases r with
  | make h => exact encodable.ensureLabel h
  | share h other =>
      obtain ⟨aliases, shared⟩ := exists_request_share e h other
      rw [shared]
      exact ⟨encodable.mode, encodable.exist⟩
  | place h =>
      have made := encodable.ensureLabel h
      rw [Emitter.request, Emitter.place]
      cases (e.ensureLabel h).waiting with
      | some other => exact made
      | none => exact ⟨made.mode, made.exist⟩
  | emit x =>
      cases x with
      | plain i =>
          apply encodable.push
          apply existsIn_of_width
          simp only [Request.isBare, List.mem_cons, List.not_mem_nil, or_false, decide_eq_true_eq] at bare
          rcases bare with rfl | rfl | rfl | rfl <;> rfl
      | branch kind t => exact (encodable.ensureLabel t).push rfl
  | syscall =>
      rcases request_syscall e with offered | ⟨cause, refused⟩
      · rw [offered]
        exact encodable.push (existsIn_of_width rfl)
      · rw [refused]
        exact encodable

theorem Encodable.serve (encodable : Encodable m e) {requests : List Request}
    (bare : ∀ r ∈ requests, r.isBare = true) : Encodable m (e.serve requests).1 := by
  induction requests generalizing e with
  | nil => exact encodable
  | cons r requests ih =>
      apply ih (encodable.request (bare r List.mem_cons_self))
      intro s met
      exact bare s (List.mem_cons_of_mem r met)

end Instructions

section Finalize

/-- The most bytes that an emission can take. -/
def longest (m : Mode) : Emission → Nat
  | .plain i => (i.bytes m).length
  | .branch kind _ => kind.reservedLength m

/-- Number of bytes that a stream takes at most: with every branch at its longest. -/
def room (e : Emitter) : Nat := (e.items.toList.map fun item => longest e.mode item.emission).sum

/-- The pieces of a stream in which every label that a branch goes to stands before an instruction. -/
def piecesOf (e : Emitter) : List Piece :=
  e.items.toList.map fun item => pieceAmong e.mode e.items.toList item.emission

theorem total_initial (m : Mode) (all items : List Item) :
    Layout.total m (Layout.initial (items.map fun item => pieceAmong m all item.emission)) =
      (items.map fun item => longest m item.emission).sum := by
  induction items with
  | nil => rfl
  | cons item items ih =>
      have length : Layout.Cell.length m { piece := pieceAmong m all item.emission } =
          longest m item.emission := by
        cases item.emission <;> rfl
      rw [List.map_cons, List.map_cons, List.sum_cons, ← ih, ← length]
      rfl

theorem nodup_labelsOf_iff (items : List Item) :
    (labelsOf items).Nodup ↔ ∀ (l : Handle) (i j : Nat), (∃ item, items[i]? = some item ∧ item.label = some l) →
      (∃ item, items[j]? = some item ∧ item.label = some l) → i = j := by
  rw [labelsOf, List.Nodup, List.pairwise_filterMap, List.pairwise_iff_getElem]
  constructor
  · rintro apart l i j ⟨a, at_i, label_a⟩ ⟨b, at_j, label_b⟩
    obtain ⟨inside_i, rfl⟩ := List.getElem?_eq_some_iff.mp at_i
    obtain ⟨inside_j, rfl⟩ := List.getElem?_eq_some_iff.mp at_j
    by_contra other
    rcases Nat.lt_or_gt_of_ne other with less | more
    · exact apart i j inside_i inside_j less l label_a l label_b rfl
    · exact apart j i inside_j inside_i more l label_b l label_a rfl
  · rintro once i j inside_i inside_j less l label_i k label_j rfl
    have same := once l i j ⟨_, List.getElem?_eq_getElem inside_i, label_i⟩
      ⟨_, List.getElem?_eq_getElem inside_j, label_j⟩
    omega

variable {e : Emitter} {events : List LabelEvent}

/-- As many labels are not placed as the history has lost. -/
theorem Recorded.length_unplaced (recorded : Recorded events e) : e.unplaced.length = (lost events).card := by
  have same : e.unplaced.toFinset = lost events := by
    ext l
    rw [List.mem_toFinset, unplaced, List.mem_filter, recorded.made, mem_lost, decide_eq_true_eq, recorded.placed]
  have distinct : e.unplaced.Nodup := recorded.distinct.filter _
  rw [← same, List.toFinset_card_of_nodup distinct]

theorem Recorded.unplaced_eq_nil_iff (recorded : Recorded events e) :
    e.unplaced = [] ↔ ∀ l, .made l ∈ events → .placed l ∈ events := by
  rw [← List.length_eq_zero_iff, recorded.length_unplaced, Finset.card_eq_zero, Finset.eq_empty_iff_forall_notMem]
  simp only [mem_lost, not_and, not_not]

theorem Recorded.isEmpty_iff (recorded : Recorded events e) : e.items.isEmpty ↔ .added ∉ events := by
  rw [← List.count_eq_zero, recorded.added, Array.isEmpty_iff_size_eq_zero]

/-- Labels stand before one instruction each exactly if they do so in the history. -/
theorem Recorded.once_iff (recorded : Recorded events e) :
    (labelsOf e.items.toList).Nodup ↔
      ∀ l i j, StandsBefore events l i → StandsBefore events l j → i = j := by
  simp only [nodup_labelsOf_iff, recorded.stands, Array.getElem?_toList]

theorem Recorded.idle_iff (recorded : Recorded events e) : e.waiting = none ↔ ∀ l, ¬ Waits events l := by
  simp only [← recorded.waits, Option.eq_none_iff_forall_ne_some, ne_eq]

/-- A label before two instructions is noticed, because labels that stand somewhere have been made. -/
theorem Recorded.once_of_repeated? (recorded : Recorded events e) (unique : e.repeated? = none) :
    (labelsOf e.items.toList).Nodup := by
  rw [List.nodup_iff_count_le_one]
  intro l
  by_contra repeated
  have stands : l ∈ labelsOf e.items.toList := List.count_pos_iff.mp (by omega)
  have placed : l ∈ e.placed := by
    rw [← List.mem_reverse, recorded.tallied.carried]
    exact List.mem_append_left _ stands
  rw [repeated?, List.find?_eq_none] at unique
  have alone := unique l (recorded.tallied.placed_made l placed)
  rw [decide_eq_true_eq] at alone
  exact alone (by rw [labelsOf] at repeated; omega)

/-- A stream that can be finalized has a consistent history: each cause of failure is looked for in turn. -/
theorem Recorded.consistent_of_finalize (recorded : Recorded events e) {chunks : List (List UInt8)}
    (done : e.finalize = .ok chunks) : Consistent events := by
  rw [finalize] at done
  split at done
  case isTrue => cases done
  case isFalse all_placed =>
      refine ⟨recorded.unplaced_eq_nil_iff.mp (not_not.mp all_placed), fun added => ?_⟩
      split at done
      case isTrue empty => exact absurd added (recorded.isEmpty_iff.mp empty)
      case isFalse =>
          split at done
          case isTrue => cases done
          case isFalse idle =>
              split at done
              case h_1 => cases done
              case h_2 unique =>
                  refine ⟨recorded.idle_iff.mp ?_, recorded.once_iff.mp (recorded.once_of_repeated? unique)⟩
                  simpa using idle

/-- A branch of a stream whose labels are all placed goes to a label before an instruction. -/
theorem Recorded.exists_position (recorded : Recorded events e) (idle : e.waiting = none)
    (all_placed : ∀ h ∈ e.labels, h ∈ e.placed) {item : Item} (met : item ∈ e.items.toList) {kind : Branch}
    {t : Handle} (branch : item.emission = .branch kind t) :
    ∃ n, e.items.toList.findIdx? (fun i => i.label = some t) = some n ∧ n < e.items.toList.length := by
  have made : t ∈ e.labels := by
    apply recorded.tallied.branch_made
    exact List.mem_filterMap.mpr ⟨item, met, by rw [branch]⟩
  have carried := recorded.tallied.carried
  rw [idle, Option.toList_none, List.append_nil] at carried
  have stands : t ∈ labelsOf e.items.toList := by
    rw [← carried, List.mem_reverse]
    exact all_placed t made
  obtain ⟨owner, on, label⟩ := List.mem_filterMap.mp stands
  cases found : e.items.toList.findIdx? (fun i => i.label = some t) with
  | none =>
      have absent := List.findIdx?_eq_none_iff.mp found owner on
      simp [label] at absent
  | some n =>
      obtain ⟨inside, -⟩ := List.findIdx?_eq_some_iff_getElem.mp found
      exact ⟨n, rfl, inside⟩

/-- With a consistent history nothing but the length of the code is left that finalizing could fail for. -/
theorem Recorded.exists_finalize {m : Mode} (recorded : Recorded events e) (encodable : Encodable m e)
    (wide : m ≠ .bits16) (short : e.room < 0x80000000) (consistent : Consistent events) (added : .added ∈ events) :
    ∃ chunks, e.finalize = .ok chunks := by
  obtain ⟨nothing_waits, once⟩ := consistent.carried added
  have idle := recorded.idle_iff.mpr nothing_waits
  have all_placed : ∀ h ∈ e.labels, h ∈ e.placed := by
    intro h made
    rw [recorded.placed]
    exact consistent.placed h ((recorded.made h).mp made)
  have each : ∀ item ∈ e.items.toList, e.piece item =
      if existsIn e.mode item.emission then .ok (pieceAmong e.mode e.items.toList item.emission)
      else .error (.stream .only64Bit) := by
    intro item met
    rw [piece]
    cases emission : item.emission with
    | plain i => rfl
    | branch kind t =>
        obtain ⟨n, found, -⟩ := recorded.exists_position idle all_placed met emission
        simp only [found, existsIn, pieceAmong, Option.getD_some, if_true]
  have closed : Layout.Closed (Layout.initial e.piecesOf) := by
    intro c met kind n piece
    obtain ⟨_, on, rfl⟩ := List.mem_map.mp met
    obtain ⟨item, among, rfl⟩ := List.mem_map.mp on
    rw [Layout.initial, List.length_map, piecesOf, List.length_map]
    cases emission : item.emission with
    | plain i => simp [emission, pieceAmong] at piece
    | branch kind' t =>
        obtain ⟨position, found, inside⟩ := recorded.exists_position idle all_placed among emission
        simp only [emission, pieceAmong, found, Option.getD_some, Piece.branch.injEq] at piece
        omega
  have exist : (e.items.toList.all fun item => existsIn e.mode item.emission) = true := by
    rw [List.all_eq_true]
    intro item met
    rw [encodable.mode]
    exact encodable.exist item met
  have bounded : Layout.total e.mode (Layout.initial e.piecesOf) < 0x80000000 := by
    rw [piecesOf, total_initial]
    exact short
  obtain ⟨chunks, laid⟩ := Layout.exists_chunks (by rw [encodable.mode]; exact wide) bounded closed
  rw [finalize_eq e _ all_placed idle (recorded.once_iff.mpr once) each, if_pos exist]
  exact ⟨chunks, by rw [← piecesOf, laid]; rfl⟩

theorem Recorded.finalize_of_empty (recorded : Recorded events e)
    (placed : ∀ l, .made l ∈ events → .placed l ∈ events) (empty : .added ∉ events) : e.finalize = .ok [] := by
  rw [finalize, if_neg (not_not.mpr (recorded.unplaced_eq_nil_iff.mpr placed)),
    if_pos (recorded.isEmpty_iff.mpr empty)]

theorem Recorded.finalize_of_lost (recorded : Recorded events e) (some_lost : lost events ≠ ∅) :
    e.finalize = .error (.stream (.neverPlaced (lost events).card)) := by
  have not_placed : e.unplaced ≠ [] := by
    intro none_left
    rw [← List.length_eq_zero_iff, recorded.length_unplaced, Finset.card_eq_zero] at none_left
    exact some_lost none_left
  rw [finalize, if_pos not_placed, recorded.length_unplaced]

end Finalize

/-- The history of labels decides whether a stream can be finalized. Take a new stream for 32- or 64-bit code and any
requests for labels, branches and instructions without operands, met or not, of less than 2 GiB in all. Finalizing it
succeeds exactly if the history is consistent; without instructions there are no bytes then, and if labels were lost,
the error tells how many. -/
theorem finalize_iff_consistent {bits : Nat} {start : Emitter} (created : create bits = .ok start)
    (wide : bits = 32 ∨ bits = 64) (requests : List Request) (bare : ∀ r ∈ requests, r.isBare = true)
    (short : (start.serve requests).1.room < 0x80000000) :
    ((∃ chunks, (start.serve requests).1.finalize = .ok chunks) ↔ Consistent (start.history requests)) ∧
      (.added ∉ start.history requests → ∀ chunks, (start.serve requests).1.finalize = .ok chunks → chunks = []) ∧
      (lost (start.history requests) ≠ ∅ → ∃ cause, (start.serve requests).1.finalize = .error cause ∧
        cause.message =
          s!"assembly error: {(lost (start.history requests)).card} branch target label(s) never placed") := by
  obtain ⟨m, m_wide, rfl⟩ : ∃ m : Mode, m ≠ .bits16 ∧ start = { mode := m } := by
    rcases wide with rfl | rfl
    · exact ⟨.bits32, by decide, (Except.ok.inj created).symm⟩
    · exact ⟨.bits64, by decide, (Except.ok.inj created).symm⟩
  have recorded := (recorded_initial m).serve requests
  rw [List.nil_append] at recorded
  have encodable : Encodable m (Emitter.serve { mode := m } requests).1 :=
    (encodable_initial m).serve bare
  refine ⟨⟨?_, ?_⟩, ?_, ?_⟩
  · rintro ⟨chunks, done⟩
    exact recorded.consistent_of_finalize done
  · intro consistent
    by_cases added : .added ∈ Emitter.history { mode := m } requests
    · exact recorded.exists_finalize encodable m_wide short consistent added
    · exact ⟨[], recorded.finalize_of_empty consistent.placed added⟩
  · intro empty chunks done
    have placed := (recorded.consistent_of_finalize done).placed
    rw [recorded.finalize_of_empty placed empty] at done
    exact (Except.ok.inj done).symm
  · intro some_lost
    exact ⟨_, recorded.finalize_of_lost some_lost, rfl⟩

/-- A jump to a label that is shared, and a label that is refused at first because that one waits. -/
def crowded : List Request :=
  [.share ⟨1⟩ ⟨2⟩, .emit (.branch (.jump none) ⟨1⟩), .place ⟨2⟩, .place ⟨3⟩, .emit (.plain .nop)]

/-- Placing the refused label again behind the instruction makes the history consistent; without that it is lost. -/
theorem finalize_iff_consistent_crowded :
    Consistent (history { mode := .bits32 } (crowded ++ [.place ⟨3⟩, .syscall, .emit (.plain .ret)])) ∧
      ∃ cause, (serve { mode := .bits32 } crowded).1.finalize = .error cause ∧
        cause.message = "assembly error: 1 branch target label(s) never placed" := by
  have created : create 32 = .ok { mode := .bits32 } := rfl
  have again := finalize_iff_consistent created (.inl rfl)
    (crowded ++ [.place ⟨3⟩, .syscall, .emit (.plain .ret)]) (by decide) (by decide +kernel)
  have refused := finalize_iff_consistent created (.inl rfl) crowded (by decide) (by decide +kernel)
  refine ⟨again.1.mp ⟨[[0xeb, 0x00], [0x90], [0xc3]], by decide +kernel⟩, ?_⟩
  have one_lost : (lost (history { mode := .bits32 } crowded)).card = 1 := by decide +kernel
  obtain ⟨cause, failed, message⟩ := refused.2.2 fun none_lost => by rw [none_lost] at one_lost; cases one_lost
  rw [one_lost] at message
  exact ⟨cause, failed, message⟩

end InstrStream.X86.Emitter
