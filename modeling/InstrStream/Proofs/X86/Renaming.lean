import InstrStream.Listing
import InstrStream.Proofs.X86.Retargeting

/-! Programs with other handles. Handles tell the records of a program apart and say where it branches to;
beyond that they have no meaning. A program whose handles are replaced consistently is laid out as before,
each of its records has the offset of the one it replaces, and diagnostics and listings differ at most in
the handles that they name. -/
namespace InstrStream

/-- A payload with other handles in its branch operands and without its scratch bits. -/
def Payload.renamed (ρ : Handle → Handle) (p : Payload) : Payload :=
  { p with src := p.src.retarget ρ, dst := p.dst.retarget ρ, mark := 0 }

theorem Payload.retargets_renamed (ρ : Handle → Handle) (p : Payload) : p.Retargets ρ (p.renamed ρ) :=
  ⟨rfl, rfl, ⟨ρ, rfl⟩, rfl⟩

namespace X86

open Assembly X86.Frame

theorem keepsFrames_renamed (ρ : Handle → Handle) : KeepsFrames (Payload.renamed ρ) where
  op _ := rfl
  own p mark src dst := by
    rw [Payload.renamed, Operand.retarget_of_target?_eq_none ρ src,
      Operand.retarget_of_target?_eq_none ρ dst, ← mark]

/-- A program with other handles. -/
def renamedText (ρ : Handle → Handle) (text : List (Handle × Payload)) : List (Handle × Payload) :=
  text.map (Prod.map ρ (Payload.renamed ρ))

/-- The renaming keeps apart the branches that stay in the program and those that leave it. -/
def KeepsBranches (ρ : Handle → Handle) (text : List (Handle × Payload)) : Prop :=
  ∀ x ∈ text, ∀ t, x.2.dst = .branch t →
    functionOf (renamedText ρ text) (ρ t) = functionOf text t ∧ (functionOf text t = false → ρ t = t)

section Renamed

variable {m : Mode} {ρ : Handle → Handle} {text : List (Handle × Payload)}

theorem map_fst_renamedText : (renamedText ρ text).map Prod.fst = (text.map Prod.fst).map ρ := by
  rw [renamedText, List.map_map, List.map_map]
  rfl

theorem keepsBranches_id (text : List (Handle × Payload)) : KeepsBranches id text := by
  intro x _ t _
  refine ⟨?_, fun _ => rfl⟩
  rw [functionOf, map_fst_renamedText, List.map_id, functionOf]
  rfl

theorem keepsBranches_of_closed (ρ : Handle → Handle)
    (closed : ∀ x ∈ text, ∀ t, x.2.dst = .branch t → t ∈ text.map Prod.fst) : KeepsBranches ρ text := by
  intro x met t dst
  have inside := closed x met t dst
  have renamed : functionOf (renamedText ρ text) (ρ t) = true := by
    rw [functionOf_eq_true_iff, map_fst_renamedText]
    exact List.mem_map_of_mem inside
  rw [functionOf_eq_true_iff.mpr inside, renamed]
  exact ⟨rfl, nofun⟩

/-- A step with other handles. -/
def renamedStep (ρ : Handle → Handle) (s : Step) : Step :=
  ⟨ρ s.handle, s.emission.map (Emission.retarget ρ)⟩

theorem emits_renamedStep (s : Step) : (renamedStep ρ s).emits = s.emits := by
  rw [Step.emits, Step.emits, renamedStep, Option.isSome_map]

variable (keeps : KeepsBranches ρ text)
include keeps

theorem stepsFor_renamedText :
    stepsFor m (renamedText ρ text) = (stepsFor m text).map (renamedStep ρ) := by
  rw [stepsFor, stepsFor, List.map_map]
  nth_rewrite 2 [renamedText]
  rw [List.map_map]
  apply List.map_congr_left
  intro x met
  refine (emission_retargets (x.2.retargets_renamed ρ) (keeps x met) x.1 (ρ x.1)).trans ?_
  rw [Function.comp_apply, renamedStep, handle_step]
  rfl

theorem reportsFor_renamedText (function : String) :
    reportsFor m (renamedText ρ text) function = text.filterMap fun x =>
      (loweredIn m (functionOf text) (ρ x.1, x.2)).message? names function := by
  rw [reportsFor]
  nth_rewrite 2 [renamedText]
  rw [List.filterMap_map]
  apply List.filterMap_congr
  intro x met
  exact message?_retargets (x.2.retargets_renamed ρ) (keeps x met) function (ρ x.1)

/-- A program is carried over to the same program with other handles. -/
theorem carries_renamedText (distinct : ((renamedText ρ text).map Prod.fst).Nodup) :
    Carries m ρ text (renamedText ρ text) := by
  have steps : stepsFor m (renamedText ρ text) = _ := stepsFor_renamedText keeps
  have distinct₀ : ((stepsFor m text).map Step.handle).Nodup := by
    rw [map_fst_renamedText] at distinct
    rw [map_handle_stepsFor]
    exact distinct.of_map ρ
  refine ⟨?_, ?_, ?_⟩
  · rw [steps, List.filterMap_map, List.map_filterMap]
    rfl
  · intro t met
    rw [← map_handle_stepsFor m] at met distinct
    obtain ⟨s, on, rfl⟩ := List.mem_map.mp met
    obtain ⟨front, rest, split⟩ := List.append_of_mem on
    rw [steps, split, List.map_append, List.map_cons] at distinct
    rw [split] at distinct₀
    have renamed := before_append distinct
    rw [steps, split, List.map_append, List.map_cons, before_append distinct₀]
    refine renamed.trans ?_
    rw [List.countP_map]
    congr 1
    funext s
    exact emits_renamedStep s
  · intro u
    simp only [mem_targetsIn, map_fst_renamedText]
    constructor
    · rintro ⟨⟨y, renamed, target⟩, met⟩
      obtain ⟨x, on, rfl⟩ := List.mem_map.mp renamed
      change (x.2.dst.retarget ρ).target? = some u at target
      rw [Operand.target?_retarget, Option.map_eq_some_iff] at target
      obtain ⟨t, target, rfl⟩ := target
      have named := (keeps x on t (Operand.target?_eq_some_iff.mp target)).1
      rw [← map_fst_renamedText, ← functionOf_eq_true_iff, named, functionOf_eq_true_iff] at met
      exact ⟨t, ⟨⟨x, on, target⟩, met⟩, rfl⟩
    · rintro ⟨t, ⟨⟨x, on, target⟩, met⟩, rfl⟩
      refine ⟨⟨_, List.mem_map_of_mem on, ?_⟩, List.mem_map_of_mem met⟩
      change (x.2.dst.retarget ρ).target? = some (ρ t)
      rw [Operand.target?_retarget, target, Option.map_some]

end Renamed

/-- The second program is the first one with other handles and scratch bits, and branches of the first
stay in it. -/
structure Renames (ρ : Handle → Handle) (text text' : List (Handle × Payload)) : Prop where
  same : renamedText ρ text = renamedText id text'
  closed : ∀ x ∈ text, ∀ t, x.2.src = .branch t ∨ x.2.dst = .branch t → t ∈ text.map Prod.fst

/-- Two messages that differ at most in the handle that they name. -/
def DifferInHandle (h k : Handle) (a b : String) : Prop :=
  ∃ front back, a = front ++ h.text ++ back ∧ b = front ++ k.text ++ back

section Messages

theorem differInHandle_message (function : String) (op : Opcode) (r : Report) (h k : Handle) :
    DifferInHandle h k (r.message names function h op) (r.message names function k op) := by
  cases r with
  | unsetOpcode =>
      refine ⟨function ++ ": ", ": instruction with unset opcode", ?_, ?_⟩ <;>
        simp only [Report.message, toString, String.append_assoc]
  | rejected cause =>
      refine ⟨function ++ ": ", ": " ++ names.opcode op ++ ": " ++ cause.message, ?_, ?_⟩ <;>
        simp only [Report.message, toString, String.append_assoc]

end Messages

section Renaming

variable {m : Mode} {ρ : Handle → Handle} {text text' : List (Handle × Payload)}
  (renames : Renames ρ text text')
include renames

theorem Renames.handles : text'.map Prod.fst = (text.map Prod.fst).map ρ := by
  rw [← map_fst_renamedText, renames.same, map_fst_renamedText, List.map_id]

theorem Renames.keepsBranches : KeepsBranches ρ text :=
  keepsBranches_of_closed ρ fun x met t dst => renames.closed x met t (.inr dst)

theorem Renames.carries (distinct : (text'.map Prod.fst).Nodup) :
    Carries m ρ text (renamedText ρ text) ∧ Carries m id text' (renamedText ρ text) := by
  -- The two programs meet in one with the handles of the second and without scratch bits.
  have distinct_id : ((renamedText id text').map Prod.fst).Nodup := by
    rwa [map_fst_renamedText, List.map_id]
  refine ⟨carries_renamedText renames.keepsBranches ?_, ?_⟩
  · rwa [renames.same]
  · rw [renames.same]
    exact carries_renamedText (keepsBranches_id text') distinct_id

/-- Programs that differ in handles are laid out alike, and their records have the same offsets. -/
theorem Renames.layout (distinct : (text'.map Prod.fst).Nodup) :
    layoutFor m text' = layoutFor m text ∧ ∀ h ∈ text.map Prod.fst,
      before (stepsFor m text') (ρ h) = before (stepsFor m text) h := by
  obtain ⟨carries, carries'⟩ := renames.carries (m := m) distinct
  have distinct₀ : (text.map Prod.fst).Nodup := by
    rw [renames.handles] at distinct
    exact distinct.of_map ρ
  have distinct_ρ : ((renamedText ρ text).map Prod.fst).Nodup := by
    rwa [map_fst_renamedText, ← renames.handles]
  constructor
  · rw [← carries.layoutFor_eq distinct₀ distinct_ρ, ← carries'.layoutFor_eq distinct distinct_ρ]
  · intro h met
    have inside : ρ h ∈ text'.map Prod.fst := by
      rw [renames.handles]
      exact List.mem_map_of_mem met
    rw [← carries.before_eq h met, ← carries'.before_eq (ρ h) inside]
    rfl

/-- The diagnostics differ in handles only. -/
theorem Renames.reports (function : String) :
    List.Forall₂ (fun a b => ∃ h ∈ text.map Prod.fst, DifferInHandle h (ρ h) a b)
      (reportsFor m text function) (reportsFor m text' function) := by
  have second : reportsFor m text' function = text.filterMap fun x =>
      (loweredIn m (functionOf text) (ρ x.1, x.2)).message? names function := by
    rw [← reportsFor_renamedText renames.keepsBranches, renames.same,
      reportsFor_renamedText (keepsBranches_id text')]
    rfl
  have paired : List.Forall₂ (fun x y => x = y ∧ x ∈ text) text text :=
    List.forall₂_same.mpr fun x met => ⟨rfl, met⟩
  rw [second]
  refine List.rel_filterMap ?_ paired
  rintro x _ ⟨rfl, met⟩
  simp only [loweredIn, Lowered.message?]
  cases lowerRecord m (functionOf text) x.2 with
  | ok emission => exact .none
  | error r =>
      exact .some ⟨x.1, List.mem_map_of_mem met, differInHandle_message function x.2.op r x.1 (ρ x.1)⟩

end Renaming

section Framed

variable (m : Mode) (size : UInt32) (fp : Bool)

theorem mem_epilogueTail {p q : Payload} (met : q ∈ epilogueTail m fp p) :
    q = p ∨ q.src.target? = none ∧ q.dst.target? = none := by
  rcases List.mem_append.mp met with own | ret
  · split at own
    · rw [List.mem_singleton.mp own]
      exact .inr ⟨rfl, rfl⟩
    · cases own
  · exact .inl (List.mem_singleton.mp ret)

theorem mem_prologue {p : Payload} (met : p ∈ prologue m fp size) :
    p.src.target? = none ∧ p.dst.target? = none := by
  cases fp with
  | false =>
      rw [List.mem_singleton.mp met]
      exact ⟨rfl, rfl⟩
  | true =>
      simp only [prologue, enter, if_true, List.cons_append, List.nil_append, List.mem_cons,
        List.not_mem_nil, or_false] at met
      rcases met with rfl | rfl | rfl <;> exact ⟨rfl, rfl⟩

/-- A record of an expanded program says what one of the program says, or branches nowhere. -/
theorem mem_withEpilogues {n : Nat} {text : List (Handle × Payload)} {x : Handle × Payload}
    (met : x ∈ withEpilogues m size fp n text) :
    (∃ y ∈ text, x.2 = y.2) ∨ x.2.src.target? = none ∧ x.2.dst.target? = none := by
  induction text generalizing n with
  | nil => cases met
  | cons y text ih =>
      have later : ∀ {k}, x ∈ withEpilogues m size fp k text →
          (∃ z ∈ y :: text, x.2 = z.2) ∨ x.2.src.target? = none ∧ x.2.dst.target? = none := by
        intro k on
        refine (ih on).imp_left ?_
        rintro ⟨z, in_text, same⟩
        exact ⟨z, List.mem_cons_of_mem y in_text, same⟩
      rw [withEpilogues] at met
      split at met
      · simp only [List.cons_append, List.mem_cons, List.mem_append] at met
        rcases met with rfl | tail | rest
        · exact .inr ⟨rfl, rfl⟩
        · refine (mem_epilogueTail m fp (List.of_mem_zip tail).2).imp_left ?_
          intro same
          exact ⟨y, List.mem_cons_self, same⟩
        · exact later rest
      · rcases List.mem_cons.mp met with rfl | rest
        · exact .inl ⟨_, List.mem_cons_self, rfl⟩
        · exact later rest

theorem mem_framed {n : Nat} {text : List (Handle × Payload)} {x : Handle × Payload}
    (met : x ∈ framed m size fp n text) :
    (∃ y ∈ text, x.2 = y.2) ∨ x.2.src.target? = none ∧ x.2.dst.target? = none := by
  rw [framed] at met
  split at met
  · exact .inl ⟨x, met, rfl⟩
  · rcases List.mem_append.mp met with entry | body
    · exact .inr (mem_prologue m size fp (List.of_mem_zip entry).2)
    · exact mem_withEpilogues m size fp body

theorem handle_mem_withEpilogues {n : Nat} {text : List (Handle × Payload)} {h : Handle}
    (met : h ∈ text.map Prod.fst) : h ∈ (withEpilogues m size fp n text).map Prod.fst := by
  induction text generalizing n with
  | nil => cases met
  | cons y text ih =>
      rw [withEpilogues]
      rcases List.mem_cons.mp met with rfl | later
      · split <;> exact List.mem_cons_self
      · split
        · rw [List.map_append]
          exact List.mem_append_right _ (ih later)
        · exact List.mem_cons_of_mem _ (ih later)

theorem handle_mem_framed {n : Nat} {text : List (Handle × Payload)} {h : Handle}
    (met : h ∈ text.map Prod.fst) : h ∈ (framed m size fp n text).map Prod.fst := by
  rw [framed]
  split
  · exact met
  · rw [List.map_append]
    exact List.mem_append_right _ (handle_mem_withEpilogues m size fp met)

theorem payload_mem_withEpilogues {n : Nat} {text : List (Handle × Payload)} {x : Handle × Payload}
    (met : x ∈ text) :
    ∃ h, (h, x.2) ∈ withEpilogues m size fp n text ∧ (x.2.op ≠ .ret → h = x.1) := by
  induction text generalizing n with
  | nil => cases met
  | cons y text ih =>
      rw [withEpilogues]
      rcases List.mem_cons.mp met with rfl | later
      · split
        · rename_i ret
          -- A return moves to the last record of its epilogue.
          have last : x.2 ∈ epilogueTail m fp x.2 := List.mem_append_right _ List.mem_cons_self
          have paired : (epilogueTail m fp x.2).length ≤
              (issuedFrom n (epilogueTail m fp x.2).length).length := by
            rw [length_issuedFrom]
          rw [← List.map_snd_zip paired] at last
          obtain ⟨⟨h, p⟩, on, same⟩ := List.mem_map.mp last
          obtain rfl : p = x.2 := same
          exact ⟨h, List.mem_append_left _ (List.mem_cons_of_mem _ on), fun other => absurd ret other⟩
        · exact ⟨x.1, List.mem_cons_self, fun _ => rfl⟩
      · split
        · obtain ⟨h, on, same⟩ := ih later
          exact ⟨h, List.mem_append_right _ on, same⟩
        · obtain ⟨h, on, same⟩ := ih later
          exact ⟨h, List.mem_cons_of_mem _ on, same⟩

/-- What a record says is still said in the framed program, and by the same record unless it is a return. -/
theorem payload_mem_framed {n : Nat} {text : List (Handle × Payload)} {x : Handle × Payload}
    (met : x ∈ text) : ∃ h, (h, x.2) ∈ framed m size fp n text ∧ (x.2.op ≠ .ret → h = x.1) := by
  rw [framed]
  split
  · exact ⟨x.1, met, fun _ => rfl⟩
  · obtain ⟨h, on, same⟩ := payload_mem_withEpilogues m size fp met
    exact ⟨h, List.mem_append_right _ on, same⟩

/-- Frames are added alike to programs that differ in handles, if the records issued for them are
renamed too. -/
theorem Renames.framed {ρ : Handle → Handle} {text text' : List (Handle × Payload)}
    (renames : Renames ρ text text') {n n' : Nat} (shift : ∀ i, ρ ⟨n + i⟩ = ⟨n' + i⟩) :
    Renames ρ (Frame.framed m size fp n text) (Frame.framed m size fp n' text') := by
  constructor
  · have first := map_framed (keepsFrames_renamed ρ) m size fp shift text
    have second := map_framed (ρ := id) (n := n') (keepsFrames_renamed id) m size fp (fun _ => rfl) text'
    exact first.trans ((congrArg _ renames.same).trans second.symm)
  · intro x met t branch
    rcases mem_framed m size fp met with ⟨y, on, same⟩ | ⟨src, dst⟩
    · rw [same] at branch
      exact handle_mem_framed m size fp (renames.closed y on t branch)
    · rcases branch with branch | branch
      · rw [branch] at src
        cases src
      · rw [branch] at dst
        cases dst

end Framed

section Listings

variable (names : Names) {pool pool' : Pool} {ρ : Handle → Handle}

/-- A record and the one it is renamed to have the same offset. -/
def SameOffset (pool pool' : Pool) (ρ : Handle → Handle) (h : Handle) : Prop :=
  ∃ r r', pool.get? h = some r ∧ pool'.get? (ρ h) = some r' ∧ r'.pc = r.pc

theorem operand_retarget (o : Operand) (same : ∀ t, o = .branch t → SameOffset pool pool' ρ t) :
    ∃ text, Listing.operand names pool o = .ok text ∧
      Listing.operand names pool' (o.retarget ρ) = .ok text := by
  cases o with
  | branch t =>
      obtain ⟨r, r', found, found', pc⟩ := same t rfl
      refine ⟨toString r.pc, ?_, ?_⟩
      · simp only [Listing.operand, Pool.get, found]
        rfl
      · simp only [Operand.retarget, Listing.operand, Pool.get, found', ← pc]
        rfl
  | _ => exact ⟨_, rfl, rfl⟩

theorem operand?_retarget (o : Operand) (same : ∀ t, o = .branch t → SameOffset pool pool' ρ t) :
    ∃ text, Listing.operand? names pool o = .ok text ∧
      Listing.operand? names pool' (o.retarget ρ) = .ok text := by
  obtain ⟨text, first, second⟩ := operand_retarget names o same
  have isNone : (o.retarget ρ).isNone = o.isNone := by cases o <;> rfl
  rw [Listing.operand?, Listing.operand?, isNone, first, second]
  split
  · exact ⟨_, rfl, rfl⟩
  · exact ⟨_, rfl, rfl⟩

/-- Records that differ in handles have the same line in a listing. -/
theorem line_renamed {r r' : Record} (pc : r'.pc = r.pc)
    (payload : r'.toPayload.renamed id = r.toPayload.renamed ρ)
    (same : ∀ t, r.src = .branch t ∨ r.dst = .branch t → SameOffset pool pool' ρ t) :
    ∃ text, Listing.line names pool r = .ok text ∧ Listing.line names pool' r' = .ok text := by
  simp only [Payload.renamed, Operand.retarget_id, Payload.mk.injEq] at payload
  obtain ⟨op, src, reg, dst, -⟩ := payload
  obtain ⟨src_text, src_run, src_run'⟩ := operand?_retarget names r.src fun t branch => same t (.inl branch)
  obtain ⟨dst_text, dst_run, dst_run'⟩ := operand?_retarget names r.dst fun t branch => same t (.inr branch)
  rw [← src] at src_run'
  rw [← dst] at dst_run'
  simp only [Listing.line, Listing.operands, src_run, dst_run, src_run', dst_run', pc, op, reg]
  exact ⟨_, rfl, rfl⟩

theorem exists_mapM_map {α β ε : Type} (f g : α → Except ε β) (ρ : α → α) {xs : List α}
    (each : ∀ x ∈ xs, ∃ y, f x = .ok y ∧ g (ρ x) = .ok y) :
    ∃ ys, xs.mapM f = .ok ys ∧ (xs.map ρ).mapM g = .ok ys := by
  induction xs with
  | nil => exact ⟨[], rfl, rfl⟩
  | cons x xs ih =>
      obtain ⟨y, head, head'⟩ := each x List.mem_cons_self
      obtain ⟨ys, tail, tail'⟩ := ih fun z met => each z (List.mem_cons_of_mem x met)
      refine ⟨y :: ys, ?_, ?_⟩
      · rw [List.mapM_cons, head, tail]
        rfl
      · rw [List.map_cons, List.mapM_cons, head', tail']
        rfl

/-- Lists that differ in handles have the same listing. -/
theorem render_renamed {head head' : Option Handle} {hs : List Handle}
    (chain : pool.chain head = .ok hs) (chain' : pool'.chain head' = .ok (hs.map ρ))
    (offsets : ∀ h ∈ hs, SameOffset pool pool' ρ h)
    (payloads : ∀ h ∈ hs, (pool'.record (ρ h)).toPayload.renamed id = (pool.record h).toPayload.renamed ρ)
    (closed : ∀ h ∈ hs, ∀ t, (pool.record h).src = .branch t ∨ (pool.record h).dst = .branch t → t ∈ hs) :
    ∃ text, Listing.render names pool head = .ok text ∧ Listing.render names pool' head' = .ok text := by
  have lines : ∀ h ∈ hs, ∃ text, Listing.line names pool (pool.record h) = .ok text ∧
      Listing.line names pool' (pool'.record (ρ h)) = .ok text := by
    intro h met
    apply line_renamed names _ (payloads h met)
    · intro t branch
      exact offsets t (closed h met t branch)
    · obtain ⟨r, r', found, found', pc⟩ := offsets h met
      rw [Pool.record_eq_of_get? found, Pool.record_eq_of_get? found', pc]
  obtain ⟨texts, run, run'⟩ := exists_mapM_map (fun h => Listing.line names pool (pool.record h))
    (fun h => Listing.line names pool' (pool'.record h)) ρ lines
  refine ⟨String.join texts, ?_, ?_⟩
  · simp only [Listing.render, chain, bind, Except.bind]
    rw [run]
    rfl
  · simp only [Listing.render, chain', bind, Except.bind]
    rw [run']
    rfl

end Listings

end X86

end InstrStream
