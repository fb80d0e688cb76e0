import InstrStream.Proofs.Chain
import InstrStream.Proofs.X86.Labels

/-! Where the records of a function stand. Layout gives one chunk for each instruction; each record takes
the chunk of its instruction, or no bytes, and the offset that has as many instructions before it as the
record has. Cut in this way the code is the bytes of the records one after another, and offsets are
lengths of what stands before. -/
namespace InstrStream.X86.Assembly

/-- The bytes of each step: the next chunk for one that emits, and none for any other. -/
def slices : List Step → List (List UInt8) → List (List UInt8)
  | [], _ => []
  | s :: rest, cs => if s.emits then cs.headD [] :: slices rest cs.tail else [] :: slices rest cs

section Slices

variable {steps : List Step} {cs : List (List UInt8)}

theorem length_slices (steps : List Step) (cs : List (List UInt8)) :
    (slices steps cs).length = steps.length := by
  induction steps generalizing cs with
  | nil => rfl
  | cons s rest ih =>
      rw [slices]
      split <;> rw [List.length_cons, ih, List.length_cons]

/-- The bytes of the first steps are the chunks of the instructions among them. -/
theorem flatten_take_slices (steps : List Step) (cs : List (List UInt8)) (i : Nat) :
    ((slices steps cs).take i).flatten = (cs.take ((steps.take i).countP Step.emits)).flatten := by
  induction steps generalizing cs i with
  | nil => simp [slices]
  | cons s rest ih =>
      cases i with
      | zero => rfl
      | succ i =>
          rw [slices, List.take_succ_cons]
          split
          case isTrue loud =>
              rw [List.countP_cons_of_pos loud, List.take_succ_cons, List.flatten_cons, ih]
              cases cs <;> simp
          case isFalse silent =>
              rw [List.countP_cons_of_neg silent, List.take_succ_cons, List.flatten_cons, ih,
                List.nil_append]

theorem getElem?_slices {i : Nat} {s : Step} (at_i : steps[i]? = some s) :
    (slices steps cs)[i]? =
      some (if s.emits then cs.getD ((steps.take i).countP Step.emits) [] else []) := by
  induction steps generalizing cs i with
  | nil => cases at_i
  | cons r rest ih =>
      cases i with
      | zero =>
          obtain rfl := Option.some.inj at_i
          rw [slices]
          split
          · cases cs <;> rfl
          · rfl
      | succ i =>
          have later : (slices rest (if r.emits then cs.tail else cs))[i]? = _ := ih at_i
          rw [slices, List.take_succ_cons]
          split
          case isTrue loud =>
              rw [if_pos loud] at later
              rw [List.getElem?_cons_succ, later, List.countP_cons_of_pos loud]
              cases cs <;> simp
          case isFalse silent =>
              rw [if_neg silent] at later
              rw [List.getElem?_cons_succ, later, List.countP_cons_of_neg silent]

theorem length_counts (n : Nat) (steps : List Step) : (counts n steps).length = steps.length := by
  induction steps generalizing n with
  | nil => rfl
  | cons s rest ih => rw [counts, List.length_cons, ih, List.length_cons]

theorem getElem?_counts {n i : Nat} (inside : i < steps.length) :
    (counts n steps)[i]? = some (n + (steps.take i).countP Step.emits) := by
  induction steps generalizing n i with
  | nil => cases inside
  | cons s rest ih =>
      cases i with
      | zero => rfl
      | succ i =>
          rw [counts, List.getElem?_cons_succ, ih (Nat.lt_of_succ_lt_succ inside), List.take_succ_cons]
          split
          case isTrue loud =>
              rw [List.countP_cons_of_pos loud]
              congr 1
              omega
          case isFalse silent => rw [List.countP_cons_of_neg silent]

theorem getElem?_starts {pc n : Nat} (inside : n < cs.length) :
    (starts pc cs)[n]? = some (pc + Layout.offset cs n) := by
  induction cs generalizing pc n with
  | nil => cases inside
  | cons c cs ih =>
      cases n with
      | zero => rfl
      | succ n =>
          rw [starts, List.getElem?_cons_succ, ih (Nat.lt_of_succ_lt_succ inside), Layout.offset,
            Layout.offset, List.take_succ_cons, List.flatten_cons, List.length_append, Nat.add_assoc]

theorem length_starts (pc : Nat) (cs : List (List UInt8)) : (starts pc cs).length = cs.length := by
  induction cs generalizing pc with
  | nil => rfl
  | cons c cs ih => rw [starts, List.length_cons, ih, List.length_cons]

theorem getD_starts (cs : List (List UInt8)) (n : Nat) :
    (starts 0 cs).getD n cs.flatten.length = Layout.offset cs n := by
  rw [List.getD_eq_getElem?_getD]
  by_cases inside : n < cs.length
  · rw [getElem?_starts inside, Option.getD_some, Nat.zero_add]
  · have beyond : (starts 0 cs)[n]? = none := by
      rw [List.getElem?_eq_none_iff, length_starts]
      omega
    rw [beyond, Option.getD_none, Layout.offset, List.take_of_length_le (by omega)]

theorem getElem?_offsets (cs : List (List UInt8)) {ns : List Nat} {i n : Nat} (at_i : ns[i]? = some n) :
    (offsets cs ns)[i]? = some (Layout.offset cs n) := by
  rw [offsets, List.getElem?_map, at_i, Option.map_some, Array.getD_eq_getD_getElem?,
    List.getElem?_toArray, ← List.getD_eq_getElem?_getD, getD_starts]

theorem length_filterMap_emission (steps : List Step) :
    (steps.filterMap Step.emission).length = steps.countP Step.emits := by
  rw [List.length_filterMap_eq_countP]
  rfl

theorem getElem?_emissions {i : Nat} {s : Step} {x : Emission} (at_i : steps[i]? = some s)
    (loud : s.emission = some x) :
    (steps.filterMap Step.emission)[(steps.take i).countP Step.emits]? = some x := by
  induction steps generalizing i with
  | nil => cases at_i
  | cons r rest ih =>
      cases i with
      | zero =>
          obtain rfl := Option.some.inj at_i
          rw [List.filterMap_cons_some loud]
          rfl
      | succ i =>
          rw [List.take_succ_cons]
          cases emission : r.emission with
          | none =>
              rw [List.filterMap_cons_none emission,
                List.countP_cons_of_neg (by simp [Step.emits, emission])]
              exact ih at_i
          | some y =>
              rw [List.filterMap_cons_some emission,
                List.countP_cons_of_pos (by simp [Step.emits, emission]),
                List.getElem?_cons_succ]
              exact ih at_i

end Slices

section Layout

variable {isTarget : Handle → Bool} {m : Mode} {steps : List Step} {cs : List (List UInt8)}

/-- What stands behind the bytes of all steps: the NOP of a target that nothing follows. -/
def trailer (isTarget : Handle → Bool) (steps : List Step) : List UInt8 :=
  if (waitingEnd isTarget none steps).isSome then [0x90] else []

theorem length_pieces (isTarget : Handle → Bool) (m : Mode) (steps : List Step) :
    (pieces isTarget m steps).length =
      steps.countP Step.emits + (trailer isTarget steps).length := by
  rw [pieces, List.length_append, List.length_map, length_filterMap_emission, trailer]
  split <;> rfl

variable (distinct : (steps.map Step.handle).Nodup)
include distinct

theorem before_lt_length_pieces (m : Mode) {t : Handle} (target : isTarget t = true)
    (met : t ∈ steps.map Step.handle) : before steps t < (pieces isTarget m steps).length := by
  obtain ⟨l, -, found⟩ := findIdx?_leader id none distinct nofun target (List.getElem?_idxOf met)
  obtain ⟨inside, -⟩ := List.findIdx?_eq_some_iff_getElem.mp found
  have same := congrArg List.length (map_items isTarget (fun _ => ()) id none steps)
  rw [List.length_map, List.length_append, List.length_map] at same
  rw [pieces, List.length_append, List.length_map]
  rw [same] at inside
  refine Nat.lt_of_lt_of_eq inside (congrArg _ ?_)
  split <;> rfl

/-- A target that nothing follows waits at the end. -/
theorem trailer_of_silent {t : Handle} (target : isTarget t = true) (met : t ∈ steps.map Step.handle)
    (silent : before steps t = steps.countP Step.emits) : trailer isTarget steps = [0x90] := by
  have inside := before_lt_length_pieces distinct .bits64 target met
  rw [length_pieces, silent] at inside
  unfold trailer at inside ⊢
  split
  case isTrue => rfl
  case isFalse waits =>
      rw [if_neg waits] at inside
      exact absurd inside (Nat.lt_irrefl _)

variable (branches : ∀ kind t, .branch kind t ∈ steps.filterMap Step.emission →
  isTarget t = true ∧ t ∈ steps.map Step.handle)
include branches

theorem closed_pieces (m : Mode) : Layout.Closed (Layout.initial (pieces isTarget m steps)) := by
  intro c met kind n piece
  rw [Layout.initial, List.length_map]
  obtain ⟨p, on, rfl⟩ := List.mem_map.mp met
  obtain rfl : p = .branch kind n := piece
  rw [pieces, List.mem_append] at on
  rcases on with on | nop
  · obtain ⟨x, emitted, same⟩ := List.mem_map.mp on
    cases x with
    | plain i => cases same
    | branch k t =>
        cases same
        obtain ⟨target, inside⟩ := branches kind t emitted
        exact before_lt_length_pieces distinct m target inside
  · split at nop
    · rw [List.mem_singleton] at nop
      cases nop
    · cases nop

/-- The bytes of a step that emits are what layout wrote for its emission. -/
theorem exists_slice (run : Layout.chunks m (pieces isTarget m steps) = .ok cs) {i : Nat} {s : Step}
    {x : Emission} (at_i : steps[i]? = some s) (loud : s.emission = some x) :
    ∃ c, (slices steps cs)[i]? = some c ∧ cs[(steps.take i).countP Step.emits]? = some c ∧
      Layout.Written m cs ((steps.take i).countP Step.emits) (pieceOf m steps x) c := by
  have at_n : (pieces isTarget m steps)[(steps.take i).countP Step.emits]? =
      some (pieceOf m steps x) := by
    have found := getElem?_emissions at_i loud
    obtain ⟨inside, -⟩ := List.getElem?_eq_some_iff.mp found
    rw [pieces, List.getElem?_append_left (by rwa [List.length_map]), List.getElem?_map, found,
      Option.map_some]
  obtain ⟨c, found, written⟩ := Layout.chunks_written run (closed_pieces distinct branches m) at_n
  refine ⟨c, ?_, found, written⟩
  have emits : s.emits = true := by simp [Step.emits, loud]
  rw [getElem?_slices at_i, if_pos emits, List.getD_eq_getElem?_getD, found, Option.getD_some]

/-- The code is the bytes of the steps one after another, and at most a NOP. -/
theorem flatten_chunks (run : Layout.chunks m (pieces isTarget m steps) = .ok cs) :
    cs.flatten = (slices steps cs).flatten ++ trailer isTarget steps := by
  have count : cs.length = steps.countP Step.emits + (trailer isTarget steps).length := by
    rw [Layout.length_chunks run, Layout.length_settled, length_pieces]
  have whole := flatten_take_slices steps cs steps.length
  rw [List.take_of_length_le (by rw [length_slices]), List.take_length] at whole
  rw [whole]
  unfold trailer at count ⊢
  split
  case isFalse waits =>
      rw [if_neg waits, List.length_nil, Nat.add_zero] at count
      rw [List.take_of_length_le (Nat.le_of_eq count), List.append_nil]
  case isTrue waits =>
      rw [if_pos waits, List.length_singleton] at count
      have at_end : (pieces isTarget m steps)[steps.countP Step.emits]? = some (.plain [0x90]) := by
        rw [pieces, List.getElem?_append_right (by rw [List.length_map, length_filterMap_emission]),
          List.length_map, length_filterMap_emission, Nat.sub_self, if_pos waits]
        rfl
      obtain ⟨c, found, written⟩ := Layout.chunks_written run (closed_pieces distinct branches m) at_end
      cases written with
      | plain =>
          have all : cs = cs.take (steps.countP Step.emits) ++ [[0x90]] := by
            have last := List.take_add_one (l := cs) (i := steps.countP Step.emits)
            rwa [List.take_of_length_le (Nat.le_of_eq count), found, Option.toList_some] at last
          conv_lhs => rw [all]
          rw [List.flatten_append, List.flatten_singleton]

end Layout

section SetOffsets

variable {pool : Pool}

/-- What no write changes is not changed by setting offsets. -/
theorem setOffsets_keeps {count : Pool → Nat} (keeps : ∀ p h f, count (Pool.modify p h f) = count p)
    (pool : Pool) (offs : List (Handle × Nat)) : count (setOffsets pool offs) = count pool := by
  induction offs generalizing pool with
  | nil => rfl
  | cons x offs ih => exact (ih _).trans (keeps ..)

theorem get?_setOffsets (pool : Pool) (offs : List (Handle × Nat)) (h : Handle) :
    ∃ pc, (setOffsets pool offs).get? h = (pool.get? h).map fun r => { r with pc } := by
  induction offs generalizing pool with
  | nil =>
      refine ⟨(pool.record h).pc, ?_⟩
      cases found : pool.get? h with
      | none => exact found
      | some r =>
          rw [Pool.record_eq_of_get? found]
          exact found
  | cons x offs ih =>
      obtain ⟨pc, later⟩ := ih (pool.modify x.1 fun r => { r with pc := x.2 })
      refine ⟨pc, ?_⟩
      rw [setOffsets, List.foldl_cons]
      refine later.trans ?_
      rw [Pool.get?_modify]
      split
      · rw [Option.map_map]
        rfl
      · rfl

theorem get?_setOffsets_of_notMem {offs : List (Handle × Nat)} {h : Handle}
    (off : h ∉ offs.map Prod.fst) : (setOffsets pool offs).get? h = pool.get? h := by
  induction offs generalizing pool with
  | nil => rfl
  | cons x offs ih =>
      rw [List.map_cons, List.mem_cons, not_or] at off
      rw [setOffsets, List.foldl_cons]
      refine (ih off.2).trans ?_
      rw [Pool.get?_modify, if_neg (Ne.symm off.1)]

theorem get?_setOffsets_of_mem {offs : List (Handle × Nat)} (distinct : (offs.map Prod.fst).Nodup)
    {h : Handle} {pc : Nat} (met : (h, pc) ∈ offs) :
    (setOffsets pool offs).get? h = (pool.get? h).map fun r => { r with pc := pc } := by
  induction offs generalizing pool with
  | nil => cases met
  | cons x offs ih =>
      obtain ⟨off, distinct⟩ := List.nodup_cons.mp distinct
      rw [setOffsets, List.foldl_cons]
      rcases List.mem_cons.mp met with rfl | later
      · refine (get?_setOffsets_of_notMem off).trans ?_
        rw [Pool.get?_modify, if_pos rfl]
      · have other : x.1 ≠ h := by
          rintro rfl
          exact off (List.mem_map.mpr ⟨_, later, rfl⟩)
        refine (ih distinct later).trans ?_
        rw [Pool.get?_modify, if_neg other]

end SetOffsets

end InstrStream.X86.Assembly
