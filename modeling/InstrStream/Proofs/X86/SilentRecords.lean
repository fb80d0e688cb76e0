import InstrStream.Proofs.X86.Retargeting

/-! Records that emit nothing are transparent. A branch to such a record goes to whatever follows it, so it
can be taken out of a list when those who branch to it branch to its successor instead: the code stays the
same, and so do the offsets of all other records and everything that is reported about them. -/
namespace InstrStream

/-- Goes to `next` in place of `r`. -/
def skipping (r next h : Handle) : Handle := if h = r then next else h

/-- A payload that branches to `next` where it branched to `r`. -/
def Payload.bypass (r next : Handle) (p : Payload) : Payload :=
  { p with dst := p.dst.retarget (skipping r next) }

/-- A record that branches and leads to `next` where it branched or led to `r`. -/
def Record.bypass (r next : Handle) (x : Record) : Record :=
  { x with toPayload := x.toPayload.bypass r next, link := x.link.map (skipping r next) }

/-- Takes the record `r` out of the list `hs`, where `next` comes after it. -/
def Pool.bypass (p : Pool) (hs : List Handle) (r next : Handle) : Pool :=
  hs.foldl (fun p h => p.modify h (Record.bypass r next)) p

section Bypass

variable {p : Pool} {hs : List Handle} {r next : Handle}

theorem skipping_self (r next : Handle) : skipping r next r = next := if_pos rfl

theorem skipping_of_ne {h : Handle} (other : h ≠ r) : skipping r next h = h := if_neg other

theorem Pool.issued_bypass (p : Pool) (hs : List Handle) (r next : Handle) :
    (p.bypass hs r next).issued = p.issued := by
  induction hs generalizing p with
  | nil => rfl
  | cons h hs ih => exact (ih (p.modify h (Record.bypass r next))).trans (p.issued_modify h _)

theorem Pool.get?_bypass (distinct : hs.Nodup) (k : Handle) :
    (p.bypass hs r next).get? k =
      if k ∈ hs then (p.get? k).map (Record.bypass r next) else p.get? k := by
  induction hs generalizing p with
  | nil => rw [if_neg List.not_mem_nil, bypass, List.foldl_nil]
  | cons h hs ih =>
      obtain ⟨off, distinct⟩ := List.nodup_cons.mp distinct
      rw [bypass, List.foldl_cons]
      refine (ih (p := p.modify h _) distinct).trans ?_
      rw [Pool.get?_modify]
      by_cases here : h = k
      · subst here
        rw [if_neg off, if_pos rfl, if_pos List.mem_cons_self]
      · have same : k ∈ h :: hs ↔ k ∈ hs := by
          rw [List.mem_cons, or_iff_right (Ne.symm here)]
        simp only [if_neg here, same]

theorem Pool.record_bypass (distinct : hs.Nodup) (inside : ∀ h ∈ hs, ∃ x, p.get? h = some x) (k : Handle) :
    (p.bypass hs r next).record k = if k ∈ hs then (p.record k).bypass r next else p.record k := by
  rw [Pool.record, Pool.get?_bypass distinct]
  split
  · rename_i met
    obtain ⟨x, found⟩ := inside k met
    rw [Pool.record, found]
    rfl
  · rfl

theorem Pool.pc_bypass (distinct : hs.Nodup) (inside : ∀ h ∈ hs, ∃ x, p.get? h = some x)
    (r next k : Handle) :
    ((p.bypass hs r next).record k).pc = (p.record k).pc := by
  rw [Pool.record_bypass distinct inside]
  split <;> rfl

/-- A way that avoids `r` stays as it is, but for where it ends. -/
theorem Pool.Path.bypass {q : Pool} {a b : Option Handle} {ks : List Handle} (path : p.Path a ks b)
    (next : Handle) (off : r ∉ ks)
    (changed : ∀ h ∈ ks, q.get? h = (p.get? h).map (Record.bypass r next)) :
    q.Path (a.map (skipping r next)) ks (b.map (skipping r next)) := by
  induction path with
  | stop a => exact .stop _
  | @visit h x ks b found _ ih =>
      have other : h ≠ r := by
        rintro rfl
        exact off List.mem_cons_self
      have at_h := changed h List.mem_cons_self
      rw [found, Option.map_some] at at_h
      rw [Option.map_some, skipping_of_ne other]
      apply Pool.Path.visit at_h
      apply ih
      · intro later
        exact off (List.mem_cons_of_mem h later)
      · intro k met
        exact changed k (List.mem_cons_of_mem h met)

/-- Without `r` the list is what it was, and starts at `next` where it started at `r`. -/
theorem Pool.Path.without {a : Option Handle} {front rest : List Handle}
    (path : p.Path a (front ++ r :: next :: rest) none) :
    (p.bypass (front ++ r :: next :: rest) r next).Path (a.map (skipping r next))
      (front ++ next :: rest) none := by
  have distinct := path.nodup
  have changed : ∀ h ∈ front ++ r :: next :: rest,
      (p.bypass (front ++ r :: next :: rest) r next).get? h = (p.get? h).map (Record.bypass r next) := by
    intro h met
    rw [Pool.get?_bypass distinct, if_pos met]
  obtain ⟨b, before, after⟩ := path.split
  obtain rfl := after.head_eq (h := r) rfl
  obtain ⟨-, distinct_rest, apart⟩ := List.nodup_append.mp distinct
  obtain ⟨off_rest, -⟩ := List.nodup_cons.mp distinct_rest
  have off_front : r ∉ front := by
    intro met
    exact apart r met r List.mem_cons_self rfl
  refine Pool.Path.append (before.bypass next off_front fun h met => ?_) ?_
  · exact changed h (List.mem_append_left _ met)
  · rw [Option.map_some, skipping_self]
    cases after with
    | @visit _ x _ _ found rest_path =>
        have link : x.link = some next := rest_path.head_eq rfl
        rw [link] at rest_path
        have onward := rest_path.bypass next off_rest fun h met =>
          changed h (List.mem_append_right _ (List.mem_cons_of_mem r met))
        have other : next ≠ r := by
          rintro rfl
          exact off_rest List.mem_cons_self
        rwa [Option.map_some, skipping_of_ne other] at onward

end Bypass

namespace X86

open Assembly X86.Frame

section Frames

variable (m : Mode) (size : UInt32) (fp : Bool)

theorem head?_withEpilogues (n : Nat) (text : List (Handle × Payload)) :
    ((withEpilogues m size fp n text).map Prod.fst).head? = (text.map Prod.fst).head? := by
  cases text with
  | nil => rfl
  | cons y text =>
      rw [withEpilogues]
      split <;> rfl

/-- A record that is no return stands among the others as if it were not there, whatever it says. -/
theorem withEpilogues_insert (n : Nat) (front rest : List (Handle × Payload)) :
    ∃ above below, (∀ x : Handle × Payload, x.2.op ≠ .ret →
        withEpilogues m size fp n (front ++ x :: rest) = above ++ x :: below) ∧
      withEpilogues m size fp n (front ++ rest) = above ++ below ∧
      (below.map Prod.fst).head? = (rest.map Prod.fst).head? := by
  induction front generalizing n with
  | nil =>
      refine ⟨[], withEpilogues m size fp n rest, ?_, rfl, head?_withEpilogues m size fp n rest⟩
      intro x other
      rw [List.nil_append, withEpilogues, if_neg other]
      rfl
  | cons y front ih =>
      simp only [List.cons_append, withEpilogues]
      split
      · obtain ⟨above, below, with_x, without_x, head⟩ := ih (n + (epilogueTail m fp y.2).length)
        let epilogue := (y.1, release m size) ::
          (issuedFrom n (epilogueTail m fp y.2).length).zip (epilogueTail m fp y.2)
        refine ⟨epilogue ++ above, below, ?_, ?_, head⟩
        · intro x other
          rw [List.append_assoc, ← with_x x other]
          rfl
        · rw [List.append_assoc, ← without_x]
          rfl
      · obtain ⟨above, below, with_x, without_x, head⟩ := ih n
        refine ⟨y :: above, below, ?_, ?_, head⟩
        · intro x other
          rw [with_x x other]
          rfl
        · rw [without_x]
          rfl

theorem framed_insert (n : Nat) (front rest : List (Handle × Payload)) :
    ∃ above below, (∀ x : Handle × Payload, x.2.op ≠ .ret →
        framed m size fp n (front ++ x :: rest) = above ++ x :: below) ∧
      (rest ≠ [] → framed m size fp n (front ++ rest) = above ++ below) ∧
      (below.map Prod.fst).head? = (rest.map Prod.fst).head? := by
  by_cases none : size = 0
  · refine ⟨front, rest, ?_, ?_, rfl⟩
    · intro x _
      rw [framed, if_pos (.inl none)]
    · intro _
      rw [framed, if_pos (.inl none)]
  · obtain ⟨above, below, with_x, without_x, head⟩ := withEpilogues_insert m size fp n front rest
    -- The prologue is numbered after the epilogues, of which there are as many without a record.
    have grown : ∀ x : Handle × Payload, (above ++ x :: below).length - (front ++ x :: rest).length =
        (above ++ below).length - (front ++ rest).length := by
      intro x
      simp only [List.length_append, List.length_cons]
      omega
    let entry := (issuedFrom (n + ((above ++ below).length - (front ++ rest).length))
      (prologue m fp size).length).zip (prologue m fp size)
    refine ⟨entry ++ above, below, ?_, ?_, head⟩
    · intro x other
      rw [framed, if_neg (by simp [none]), with_x x other, List.append_assoc]
      simp only [grown, entry]
    · intro notLast
      rw [framed, if_neg (by simp [none, notLast]), without_x, List.append_assoc]

end Frames

section Steps

variable {front rest : List Step} {s : Step}

/-- A step with the target of its branch replaced. -/
def Assembly.Step.retarget (φ : Handle → Handle) (s : Step) : Step :=
  ⟨s.handle, s.emission.map (Emission.retarget φ)⟩

theorem before_retarget (φ : Handle → Handle) (steps : List Step) (t : Handle) :
    before (steps.map (Step.retarget φ)) t = before steps t := by
  have handles : (steps.map (Step.retarget φ)).map Step.handle = steps.map Step.handle := by
    rw [List.map_map]
    rfl
  rw [before, handles, ← List.map_take, List.countP_map, before]
  congr 1
  funext s
  exact Option.isSome_map

variable (distinct : ((front ++ s :: rest).map Step.handle).Nodup)
include distinct

/-- As many instructions stand before the others when a step that emits none is left out. -/
theorem before_without (silent : s.emits = false) {t : Handle} (met : t ∈ (front ++ rest).map Step.handle) :
    before (front ++ rest) t = before (front ++ s :: rest) t := by
  obtain ⟨u, on, rfl⟩ := List.mem_map.mp met
  have distinct' : ((front ++ rest).map Step.handle).Nodup :=
    distinct.sublist (((List.sublist_cons_self s rest).append_left front).map Step.handle)
  -- Only behind the step is it among the steps that are counted, and there it counts for nothing.
  rcases List.mem_append.mp on with above | below
  · obtain ⟨left, right, rfl⟩ := List.append_of_mem above
    rw [List.append_assoc, List.cons_append] at distinct distinct' ⊢
    rw [List.append_assoc, List.cons_append, before_append distinct, before_append distinct']
  · obtain ⟨left, right, rfl⟩ := List.append_of_mem below
    rw [← List.cons_append, ← List.append_assoc] at distinct ⊢
    rw [← List.append_assoc] at distinct' ⊢
    rw [before_append distinct, before_append distinct', List.countP_append, List.countP_append,
      List.countP_cons_of_neg (by simp [silent])]

/-- The next step takes the place of one that is left out. -/
theorem before_next {next : Handle} (head : (rest.map Step.handle).head? = some next) :
    before (front ++ rest) next = before (front ++ s :: rest) s.handle := by
  cases rest with
  | nil => cases head
  | cons u rest =>
      cases head
      have distinct' : ((front ++ u :: rest).map Step.handle).Nodup :=
        distinct.sublist (((List.sublist_cons_self s _).append_left front).map Step.handle)
      rw [before_append distinct, before_append distinct']

end Steps

/-- A program whose branches to `r` go to `next`. -/
def bypassedText (r next : Handle) (text : List (Handle × Payload)) : List (Handle × Payload) :=
  text.map (Prod.map id (Payload.bypass r next))

section Programs

variable {m : Mode} {above below : List (Handle × Payload)} {r next : Handle} {p : Payload}

theorem retargets_bypass (r next : Handle) (p : Payload) :
    p.Retargets (skipping r next) (p.bypass r next) :=
  ⟨rfl, rfl, ⟨id, (Operand.retarget_id p.src).symm⟩, rfl⟩

theorem keepsFrames_bypass (r next : Handle) : KeepsFrames (Payload.bypass r next) where
  op _ := rfl
  own p _ _ dst := by
    rw [Payload.bypass, Operand.retarget_of_target?_eq_none _ dst]

theorem map_fst_bypassedText (text : List (Handle × Payload)) :
    (bypassedText r next text).map Prod.fst = text.map Prod.fst := by
  rw [bypassedText, List.map_map]
  rfl

section Own

variable (own : p.dst.target? = none) (f f' : Handle → Bool)
include own

theorem retargets_own : p.Retargets id p ∧ ∀ t, p.dst = .branch t →
    f' (id t) = f t ∧ (f t = false → id t = t) := by
  refine ⟨⟨rfl, rfl, ⟨id, (Operand.retarget_id _).symm⟩, (Operand.retarget_id _).symm⟩, ?_⟩
  intro t dst
  rw [dst] at own
  cases own

/-- Whether a record that branches nowhere emits does not depend on the rest of the function. -/
theorem emits_own_iff : (∃ x, lower m f' p = .ok (some x)) ↔ ∃ x, lower m f p = .ok (some x) := by
  obtain ⟨same, inside⟩ := retargets_own own f f'
  rw [lower_retargets same inside]
  rcases lower m f p with e | _ | x <;> simp [Except.map]

theorem message?_own (function : String) (h : Handle) :
    (loweredIn m f' (h, p)).message? names function = (loweredIn m f (h, p)).message? names function := by
  obtain ⟨same, inside⟩ := retargets_own own f f'
  exact message?_retargets same inside function h

end Own

variable (head : (below.map Prod.fst).head? = some next)
include head

/-- What branches to a record of the function still does, and what branches elsewhere stays as it is. -/
theorem functionOf_bypassedText (t : Handle) :
    functionOf (bypassedText r next (above ++ below)) (skipping r next t) =
        functionOf (above ++ (r, p) :: below) t ∧
      (functionOf (above ++ (r, p) :: below) t = false → skipping r next t = t) := by
  by_cases here : t = r
  · subst here
    have inside : functionOf (above ++ (t, p) :: below) t = true := by
      rw [functionOf_eq_true_iff, List.map_append, List.map_cons]
      exact List.mem_append_right _ List.mem_cons_self
    rw [inside, skipping_self, functionOf_eq_true_iff, map_fst_bypassedText, List.map_append]
    exact ⟨List.mem_append_right _ (List.mem_of_head? head), nofun⟩
  · rw [skipping_of_ne here]
    refine ⟨?_, fun _ => rfl⟩
    rw [Bool.eq_iff_iff, functionOf_eq_true_iff, functionOf_eq_true_iff, map_fst_bypassedText,
      List.map_append, List.map_append, List.map_cons, List.mem_append, List.mem_append, List.mem_cons,
      or_iff_right here]

theorem stepsFor_bypassedText :
    stepsFor m (bypassedText r next (above ++ below)) =
      ((above ++ below).map fun x =>
        (loweredIn m (functionOf (above ++ (r, p) :: below)) x).step).map (Step.retarget (skipping r next)) := by
  rw [stepsFor, List.map_map]
  nth_rewrite 2 [bypassedText]
  rw [List.map_map]
  apply List.map_congr_left
  intro x _
  refine (emission_retargets (retargets_bypass r next x.2)
    (fun t _ => functionOf_bypassedText (p := p) head t) x.1 x.1).trans ?_
  rw [Function.comp_apply, Step.retarget, handle_step]
  rfl

theorem reportsFor_bypassedText (function : String) :
    reportsFor m (bypassedText r next (above ++ below)) function =
      (above ++ below).filterMap fun x =>
        (loweredIn m (functionOf (above ++ (r, p) :: below)) x).message? names function := by
  rw [reportsFor]
  nth_rewrite 2 [bypassedText]
  rw [List.filterMap_map]
  apply List.filterMap_congr
  intro x _
  exact message?_retargets (retargets_bypass r next x.2)
    (fun t _ => functionOf_bypassedText (p := p) head t) function x.1

theorem mem_targetsIn_bypassedText (own : p.dst.target? = none) (u : Handle) :
    u ∈ targetsIn (bypassedText r next (above ++ below)) ↔
      ∃ t ∈ targetsIn (above ++ (r, p) :: below), skipping r next t = u := by
  have inside : ∀ t, skipping r next t ∈ (bypassedText r next (above ++ below)).map Prod.fst ↔
      t ∈ (above ++ (r, p) :: below).map Prod.fst := by
    intro t
    rw [← functionOf_eq_true_iff, ← functionOf_eq_true_iff, (functionOf_bypassedText (p := p) head t).1]
  simp only [mem_targetsIn]
  constructor
  · rintro ⟨⟨y, mapped, target⟩, met⟩
    obtain ⟨x, on, rfl⟩ := List.mem_map.mp mapped
    change (x.2.dst.retarget _).target? = some u at target
    rw [Operand.target?_retarget, Option.map_eq_some_iff] at target
    obtain ⟨t, target, rfl⟩ := target
    have on' : x ∈ above ++ (r, p) :: below := by
      rw [List.mem_append] at on ⊢
      exact on.imp_right (List.mem_cons_of_mem _)
    exact ⟨t, ⟨⟨x, on', target⟩, (inside t).mp met⟩, rfl⟩
  · rintro ⟨t, ⟨⟨x, on, target⟩, met⟩, rfl⟩
    have on' : x ∈ above ++ below := by
      rw [List.mem_append, List.mem_cons] at on
      rw [List.mem_append]
      refine on.imp_right (Or.resolve_left · ?_)
      rintro rfl
      rw [own] at target
      cases target
    refine ⟨⟨_, List.mem_map_of_mem on', ?_⟩, (inside t).mpr met⟩
    change (x.2.dst.retarget _).target? = some _
    rw [Operand.target?_retarget, target, Option.map_some]

/-- What is reported is what was reported before, less the messages about the record itself. -/
theorem reportsFor_split (above : List (Handle × Payload)) (r : Handle) (p : Payload) (function : String) :
    ∃ before after,
      reportsFor m (above ++ (r, p) :: below) function = before ++
        ((loweredIn m (functionOf (above ++ (r, p) :: below)) (r, p)).message? names function).toList ++
        after ∧
      reportsFor m (bypassedText r next (above ++ below)) function = before ++ after := by
  rw [reportsFor_bypassedText (p := p) head, reportsFor, List.filterMap_append, List.filterMap_append,
    List.filterMap_cons]
  refine ⟨_, _, ?_, rfl⟩
  cases (loweredIn m (functionOf (above ++ (r, p) :: below)) (r, p)).message? names function with
  | none => rw [Option.toList_none, List.append_nil]
  | some message => rw [Option.toList_some, List.append_assoc, List.singleton_append]

/-- A program is carried over to the same program without a record that emits nothing. -/
theorem carries_bypassedText (distinct : ((above ++ (r, p) :: below).map Prod.fst).Nodup)
    (own : p.dst.target? = none)
    (silent : ∀ x, lower m (functionOf (above ++ (r, p) :: below)) p ≠ .ok (some x)) :
    Carries m (skipping r next) (above ++ (r, p) :: below) (bypassedText r next (above ++ below)) := by
  set text := above ++ (r, p) :: below with text_def
  set step := fun x => (loweredIn m (functionOf text) x).step with step_def
  have steps' : stepsFor m (bypassedText r next (above ++ below)) =
      (above.map step ++ below.map step).map (Step.retarget (skipping r next)) := by
    rw [stepsFor_bypassedText (p := p) head, List.map_append]
  have steps : stepsFor m text = above.map step ++ step (r, p) :: below.map step := by
    rw [stepsFor, text_def, List.map_append, List.map_cons]
  have quiet : (step (r, p)).emission = none := by
    rw [Option.eq_none_iff_forall_ne_some]
    intro x emits
    exact silent x (emission_step.mp emits)
  have handles : ∀ xs : List (Handle × Payload), (xs.map step).map Step.handle = xs.map Prod.fst :=
    map_handle_steps m (functionOf text)
  have distinct_steps : ((above.map step ++ step (r, p) :: below.map step).map Step.handle).Nodup := by
    rw [← steps, map_handle_stepsFor]
    exact distinct
  refine ⟨?_, ?_, ?_⟩
  · rw [steps', steps, List.filterMap_map, List.map_filterMap, List.filterMap_append, List.filterMap_append,
      List.filterMap_cons]
    simp only [quiet, Option.map_none]
    rfl
  · intro t met
    rw [steps', steps, before_retarget]
    -- The record itself is replaced by the next one; all others keep their handles.
    by_cases here : t = r
    · subst here
      rw [skipping_self, before_next distinct_steps (by rw [handles, head])]
      exact congrArg _ (handle_step _)
    · rw [skipping_of_ne here]
      apply before_without distinct_steps
      · rw [Step.emits, quiet]
        rfl
      · rw [List.map_append, handles, handles, ← List.map_append]
        simpa [text_def, here] using met
  · exact mem_targetsIn_bypassedText head own

end Programs

section Lists

variable {m : Mode} {w : Workspace} {front rest : List Handle} {r next : Handle}

theorem op_ne_ret_of_silent {pool : Pool} {hs : List Handle} (silent : ∀ x, ¬ Emits m pool hs r x) :
    (pool.record r).op ≠ .ret := by
  intro ret
  apply silent (.plain .ret)
  rw [Emits, lower, ret]
  rfl

theorem program_bypass {pool : Pool} {hs ks : List Handle} (distinct : hs.Nodup)
    (inside : ∀ h ∈ hs, ∃ x, pool.get? h = some x) (subset : ks ⊆ hs) :
    (pool.bypass hs r next).program ks = bypassedText r next (pool.program ks) := by
  rw [Pool.program, bypassedText, Pool.program, List.map_map]
  apply List.map_congr_left
  intro h met
  rw [Pool.record_bypass distinct inside, if_pos (subset met)]
  rfl

/-- The programs with their frames, with and without the record. -/
theorem framed_bypass {pool : Pool} {a : Option Handle} (path : pool.Path a (front ++ r :: next :: rest) none)
    (notReturn : (pool.record r).op ≠ .ret) (size : UInt32) (fp : Bool) (n : Nat) :
    ∃ above below, (below.map Prod.fst).head? = some next ∧
      framed m size fp n (pool.program (front ++ r :: next :: rest)) =
        above ++ (r, (pool.record r).toPayload) :: below ∧
      framed m size fp n
          ((pool.bypass (front ++ r :: next :: rest) r next).program (front ++ next :: rest)) =
        bypassedText r next (above ++ below) := by
  obtain ⟨above, below, with_x, without_x, head⟩ := framed_insert m size fp n (pool.program front)
    (pool.program (next :: rest))
  have with_r := with_x (r, (pool.record r).toPayload) notReturn
  have without_r := without_x nofun
  refine ⟨above, below, head, ?_, ?_⟩
  · rw [← with_r, Pool.program, List.map_append]
    rfl
  · have subset : front ++ next :: rest ⊆ front ++ r :: next :: rest :=
      ((List.sublist_cons_self r _).append_left front).subset
    have shift : ∀ i, id (⟨n + i⟩ : Handle) = ⟨n + i⟩ := fun _ => rfl
    rw [program_bypass path.nodup (fun h => path.exists_record) subset, bypassedText,
      ← map_framed (keepsFrames_bypass r next) m size fp shift, Pool.program, List.map_append]
    exact congrArg _ without_r

end Lists

section Runs

variable {m : Mode} {w w' v v' : Workspace} {s s' t t' : Symbol} {hs ks : List Handle}
  {text text' : List (Handle × Payload)} {r next : Handle}
  (one : Produced m w w' s s' hs text) (two : Produced m v v' t t' ks text')
  (carries : Carries m (skipping r next) text text')
include one two carries

theorem Carries.code_eq : t'.code = s'.code := by
  rw [one.code, two.code, carries.layoutFor_eq one.distinct two.distinct]

/-- Records that stay have the same offset, whether they are on the list or not. -/
theorem Carries.pc_eq {h : Handle} (other : h ≠ r)
    (listed : h ∈ text'.map Prod.fst ↔ h ∈ text.map Prod.fst) (before : v.pool.issued = w.pool.issued)
    (after : v'.pool.issued = w'.pool.issued) (pc : (v.pool.record h).pc = (w.pool.record h).pc) :
    (v'.pool.record h).pc = (w'.pool.record h).pc := by
  have layout_eq := carries.layoutFor_eq one.distinct two.distinct
  have kept : keptOffset v.pool v'.pool h = keptOffset w.pool w'.pool h := by
    rw [keptOffset, keptOffset, before, after, pc]
  cases layout : layoutFor m text with
  | error e => rw [one.kept h (.inl ⟨e, layout⟩), two.kept h (.inl ⟨e, layout_eq.trans layout⟩), kept]
  | ok cs =>
      by_cases met : h ∈ text.map Prod.fst
      · have same := carries.before_eq h met
        rw [skipping_of_ne other] at same
        rw [one.placed cs layout h met, two.placed cs (layout_eq.trans layout) h (listed.mpr met), same]
      · rw [one.kept h (.inr met), two.kept h (.inr fun on => met (listed.mp on)), kept]

end Runs

/-- The list is assembled with the record and without it, and the one program is carried over to the
other. -/
theorem assemble_bypass {m : Mode} {b : Backend} (known : IsBackend m b) {w : Workspace} {s : Symbol}
    {front rest : List Handle} {r next : Handle}
    (chain : w.pool.chain s.text = .ok (front ++ r :: next :: rest))
    (issued : ∀ h ∈ front ++ r :: next :: rest, h.index < w.pool.issued)
    (silent : ∀ x, ¬ Emits m w.pool (front ++ r :: next :: rest) r x)
    (own : (w.pool.record r).dst.target? = none) :
    ∃ w' s' v' t' above below, b.assemble w s = (w', .ok s') ∧
      b.assemble { w with pool := w.pool.bypass (front ++ r :: next :: rest) r next }
        { s with text := s.text.map (skipping r next) } = (v', .ok t') ∧
      (below.map Prod.fst).head? = some next ∧
      Produced m w w' s s' (front ++ r :: next :: rest)
        (above ++ (r, (w.pool.record r).toPayload) :: below) ∧
      Produced m { w with pool := w.pool.bypass (front ++ r :: next :: rest) r next } v'
        { s with text := s.text.map (skipping r next) } t' (front ++ next :: rest)
        (bypassedText r next (above ++ below)) ∧
      Carries m (skipping r next) (above ++ (r, (w.pool.record r).toPayload) :: below)
        (bypassedText r next (above ++ below)) := by
  set hs := front ++ r :: next :: rest with hs_def
  have path := Pool.chain_eq_ok_iff.mp chain
  have issued' : ∀ h ∈ front ++ next :: rest, h.index < (w.pool.bypass hs r next).issued := by
    intro h met
    rw [Pool.issued_bypass]
    exact issued h (((List.sublist_cons_self r _).append_left front).subset met)
  obtain ⟨w', s', run, one⟩ := assemble_produces known chain issued
  obtain ⟨v', t', run', two⟩ := assemble_produces (w := { w with pool := w.pool.bypass hs r next })
    (s := { s with text := s.text.map (skipping r next) }) known
    (Pool.chain_eq_ok_iff.mpr path.without) issued'
  obtain ⟨above, below, head, with_r, without_r⟩ := framed_bypass (m := m) path
    (op_ne_ret_of_silent silent) s.frameSize w.ctx.framePointer w.pool.issued
  simp only [Pool.issued_bypass] at two
  rw [without_r] at two
  rw [with_r] at one
  have silent_framed : ∀ x, lower m (functionOf (above ++ (r, (w.pool.record r).toPayload) :: below))
      (w.pool.record r).toPayload ≠ .ok (some x) := by
    intro x emits
    obtain ⟨y, emits⟩ := (emits_own_iff own hs.contains _).mp ⟨x, emits⟩
    exact silent y emits
  exact ⟨w', s', v', t', above, below, run, run', head, one, two,
    carries_bypassedText head one.distinct own silent_framed⟩

/-- A record that emits nothing, branches nowhere and is not the last of its list can be taken out. The
records that branched to it branch to the next one, and so does the head of the list if it was the first.
Code, offsets and diagnostics stay, but for its own. -/
theorem silent_record_transparent {m : Mode} {b : Backend} (known : IsBackend m b) (w : Workspace)
    (s : Symbol) (front : List Handle) (r next : Handle) (rest hs : List Handle)
    (list : hs = front ++ r :: next :: rest) (chain : w.pool.chain s.text = .ok hs)
    (issued : ∀ h ∈ hs, h.index < w.pool.issued) (silent : ∀ x, ¬ Emits m w.pool hs r x)
    (own : (w.pool.record r).dst.target? = none) :
    ∃ w' s' v' t', b.assemble w s = (w', .ok s') ∧
      b.assemble { w with pool := w.pool.bypass hs r next }
        { s with text := s.text.map (skipping r next) } = (v', .ok t') ∧
      (w.pool.bypass hs r next).chain (s.text.map (skipping r next)) = .ok (front ++ next :: rest) ∧
      t'.code = s'.code ∧ (∀ h, h ≠ r → (v'.pool.record h).pc = (w'.pool.record h).pc) ∧
      ∃ before after,
        w'.ctx.diagnostics.toList = w.ctx.diagnostics.toList ++ (before ++
          ((loweredIn m hs.contains (r, (w.pool.record r).toPayload)).message? names s.name).toList ++
          after) ∧
        v'.ctx.diagnostics.toList = w.ctx.diagnostics.toList ++ (before ++ after) := by
  subst list
  have path := Pool.chain_eq_ok_iff.mp chain
  obtain ⟨w', s', v', t', above, below, run, run', head, one, two, carries⟩ :=
    assemble_bypass known chain issued silent own
  refine ⟨w', s', v', t', run, run', Pool.chain_eq_ok_iff.mpr path.without, carries.code_eq one two, ?_, ?_⟩
  · intro h other
    have pc := Pool.pc_bypass path.nodup (fun h => path.exists_record) r next h
    apply carries.pc_eq one two other _ (Pool.issued_bypass w.pool _ r next) _ pc
    · rw [map_fst_bypassedText]
      simp [other]
    · have count := one.issued
      have count' := two.issued
      simp only [bypassedText, List.length_map, List.length_append, List.length_cons,
        Pool.issued_bypass] at count count'
      omega
  · obtain ⟨before, after, reports, reports'⟩ := reportsFor_split (m := m) head above r
      (w.pool.record r).toPayload s.name
    have same_layout := carries.layoutFor_eq one.distinct two.distinct
    have diagnostics := one.diagnostics
    have diagnostics' := two.diagnostics
    rw [reports, message?_own own (front ++ r :: next :: rest).contains, List.append_assoc _ after] at diagnostics
    rw [reports', same_layout, List.append_assoc before] at diagnostics'
    exact ⟨before, _, diagnostics, diagnostics'⟩

/-- A loop back to its head, which has no opcode and is named by a NOP too. -/
def spinning : List Payload :=
  [{}, { op := .nop, dst := .branch ⟨0⟩ }, { op := .jmp, dst := .branch ⟨0⟩ }, { op := .ret }]

def spinningSymbol : Symbol := { name := "spinning", text := some ⟨0⟩, frameSize := 16 }

/-- Without its head the loop starts at the NOP, and only the report about the head is gone. -/
theorem silent_record_transparent_head :
    ∃ w' s' v' t' before after,
      amd64.assemble (listed amd64Target true spinning) spinningSymbol = (w', .ok s') ∧
      amd64.assemble
        { listed amd64Target true spinning with
          pool := (listed amd64Target true spinning).pool.bypass [⟨0⟩, ⟨1⟩, ⟨2⟩, ⟨3⟩] ⟨0⟩ ⟨1⟩ }
        { spinningSymbol with text := some ⟨1⟩ } = (v', .ok t') ∧
      t'.code = s'.code ∧ (v'.pool.record ⟨2⟩).pc = (w'.pool.record ⟨2⟩).pc ∧
      w'.ctx.diagnostics.toList =
        before ++ ["spinning: inst0: instruction with unset opcode"] ++ after ∧
      v'.ctx.diagnostics.toList = before ++ after := by
  have silent : ∀ x, ¬ Emits .bits64 (listed amd64Target true spinning).pool [⟨0⟩, ⟨1⟩, ⟨2⟩, ⟨3⟩] ⟨0⟩ x := by
    intro x emits
    cases emits
  obtain ⟨w', s', v', t', run, run', -, code, pc, before, after, reported, reported'⟩ :=
    silent_record_transparent (.inl ⟨rfl, rfl⟩) (listed amd64Target true spinning) spinningSymbol
      [] ⟨0⟩ ⟨1⟩ [⟨2⟩, ⟨3⟩] [⟨0⟩, ⟨1⟩, ⟨2⟩, ⟨3⟩] rfl rfl (by decide) silent rfl
  exact ⟨w', s', v', t', before, after, run, run', code, pc ⟨2⟩ (by decide), reported, reported'⟩

end X86

end InstrStream
