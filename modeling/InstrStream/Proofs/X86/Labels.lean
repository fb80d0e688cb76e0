import InstrStream.Proofs.X86.Relaxation
import InstrStream.X86.Assembly
import Mathlib.Data.List.Nodup

/-! Labels. Two passes over the steps of a function deal with labels: one lets targets share them, one
places them. Both follow the same rule for the target that waits at a step, so every target uses the
label that stands before the first instruction at or behind it. What is left of labels after that is a
number: the position of a branch's target among the instructions is the number of instructions before
the record it names. -/
namespace InstrStream.X86.Assembly

variable (isTarget : Handle → Bool)

/-- The target that waits for an instruction once a record has been reached. -/
def waitingAt (first : Option Handle) (h : Handle) : Option Handle :=
  first <|> if isTarget h then some h else none

/-- The target that still waits behind a step. -/
def waitingAfter (first : Option Handle) (s : Step) : Option Handle :=
  if s.emits then none else waitingAt isTarget first s.handle

/-- The target that waits when the record `t` is reached, which is the one whose label `t` uses. -/
def leader : Option Handle → List Step → Handle → Option Handle
  | _, [], _ => none
  | first, s :: rest, t =>
    if s.handle = t then waitingAt isTarget first t else leader (waitingAfter isTarget first s) rest t

/-- The item that an emission becomes behind a label. -/
def itemOf (owner : Handle → Handle) (label : Option Handle) : Emission → Item
  | .plain i => ⟨label, .plain i⟩
  | .branch kind t => ⟨label, .branch kind (owner t)⟩

/-- The instructions that steps emit, each with the label before it. -/
def items (owner : Handle → Handle) : Option Handle → List Step → List Item
  | none, [] => []
  | some h, [] => [⟨some h, .plain .nop⟩]
  | first, s :: rest =>
    match s.emission with
    | none => items owner (waitingAt isTarget first s.handle) rest
    | some emission => itemOf owner (waitingAt isTarget first s.handle) emission :: items owner none rest

/-- The number of instructions before each step, from `n` on. -/
def counts : Nat → List Step → List Nat
  | _, [] => []
  | n, s :: rest => n :: counts (if s.emits then n + 1 else n) rest

variable {isTarget}

theorem waitingAt_eq_some {first : Option Handle} {h k : Handle}
    (waits : waitingAt isTarget first k = some h) : first = some h ∨ h = k ∧ isTarget k = true := by
  cases first with
  | some f => exact .inl waits
  | none =>
      right
      change (if isTarget k then some k else none) = some h at waits
      split at waits
      · rename_i target
        exact ⟨(Option.some.inj waits).symm, target⟩
      · cases waits

theorem leader_eq_none {first : Option Handle} {steps : List Step} {t : Handle}
    (off : t ∉ steps.map Step.handle) : leader isTarget first steps t = none := by
  induction steps generalizing first with
  | nil => rfl
  | cons s rest ih =>
      rw [List.map_cons, List.mem_cons, not_or] at off
      rw [leader, if_neg (Ne.symm off.1), ih off.2]

section Sharing

theorem owner_share (e : Emitter) (h k t : Handle) :
    Emitter.owner { e with aliases := (h, k) :: e.aliases } t = if t = h then k else e.owner t := by
  unfold Emitter.owner
  rw [List.lookup_cons]
  split
  · rename_i same
    rw [if_pos (by simpa using same), Option.getD_some]
  · rename_i other
    rw [if_neg (by simpa using other)]

/-- The stream after one step of the sharing pass: a target that meets a waiting one uses its label. -/
def shareStep (isTarget : Handle → Bool) (e : Emitter) (first : Option Handle) (h : Handle) : Emitter :=
  match first with
  | some f => if isTarget h then { e with aliases := (h, e.owner f) :: e.aliases } else e
  | none => e

theorem shareStep_eq (e : Emitter) (first : Option Handle) (h : Handle) :
    shareStep isTarget e first h = { e with aliases := (shareStep isTarget e first h).aliases } := by
  unfold shareStep
  split
  · split <;> rfl
  · rfl

theorem owner_shareStep_of_ne (e : Emitter) (first : Option Handle) {h t : Handle} (other : t ≠ h) :
    (shareStep isTarget e first h).owner t = e.owner t := by
  unfold shareStep
  split
  · split
    · rw [owner_share, if_neg other]
    · rfl
  · rfl

theorem owner_shareStep_self (isTarget : Handle → Bool) (e : Emitter) (first : Option Handle)
    (h : Handle) (own : e.owner h = h) (own_first : ∀ f, first = some f → e.owner f = f) :
    (shareStep isTarget e first h).owner h =
      if isTarget h then (waitingAt isTarget first h).getD (e.owner h) else e.owner h := by
  unfold shareStep
  cases first with
  | none =>
      cases target : isTarget h with
      | false => simp
      | true => simp [waitingAt, target, own]
  | some f =>
      cases target : isTarget h with
      | false => simp
      | true => simp [owner_share, waitingAt, own_first f rfl]

theorem shareLabels_cons (e : Emitter) (first : Option Handle) (s : Step) (rest : List Step)
    (none_made : e.labels = []) (apart : first ≠ some s.handle) :
    shareLabels isTarget e first (s :: rest) =
      shareLabels isTarget (shareStep isTarget e first s.handle) (waitingAfter isTarget first s)
        rest := by
  cases target : isTarget s.handle with
  | false => cases first <;> simp [shareLabels, shareStep, target, waitingAfter, waitingAt]
  | true =>
      cases first with
      | none => simp [shareLabels, shareStep, target, waitingAfter, waitingAt]
      | some h =>
          have other : s.handle ≠ h := fun same => apart (congrArg some same.symm)
          simp [shareLabels, shareStep, target, waitingAfter, waitingAt, Emitter.shareLabel, none_made,
            other]

theorem waitingAfter_eq_some {first : Option Handle} {s : Step} {h : Handle}
    (waits : waitingAfter isTarget first s = some h) :
    s.emits = false ∧ waitingAt isTarget first s.handle = some h := by
  unfold waitingAfter at waits
  split at waits
  · cases waits
  · rename_i silent
    exact ⟨by simpa using silent, waits⟩

/-- Sharing never meets a label that is taken, and it leaves each target with the label of its leader. -/
theorem exists_shareLabels (isTarget : Handle → Bool) (e : Emitter) (first : Option Handle)
    (steps : List Step) (none_made : e.labels = []) (distinct : (steps.map Step.handle).Nodup)
    (apart : ∀ h, first = some h → h ∉ steps.map Step.handle ∧ e.owner h = h)
    (own : ∀ h ∈ steps.map Step.handle, e.owner h = h) :
    ∃ e', shareLabels isTarget e first steps = .ok e' ∧ e' = { e with aliases := e'.aliases } ∧
      ∀ t, e'.owner t =
        if isTarget t then (leader isTarget first steps t).getD (e.owner t) else e.owner t := by
  induction steps generalizing e first with
  | nil =>
      refine ⟨e, by cases first <;> rfl, rfl, fun t => ?_⟩
      simp only [leader, Option.getD_none, ite_self]
  | cons s rest ih =>
      -- The target that waits is never ahead, and it owns its label: both survive the step.
      obtain ⟨off, distinct⟩ := List.nodup_cons.mp distinct
      have apart_s : first ≠ some s.handle := fun same =>
        (apart s.handle same).1 List.mem_cons_self
      have own_s := own s.handle List.mem_cons_self
      have own_first : ∀ f, first = some f → e.owner f = f := fun f same => (apart f same).2
      set e₁ := shareStep isTarget e first s.handle with e₁_def
      have e₁_eq : e₁ = { e with aliases := e₁.aliases } := shareStep_eq e first s.handle
      have keeps : ∀ t, t ≠ s.handle → e₁.owner t = e.owner t := fun t other =>
        owner_shareStep_of_ne e first other
      have self := owner_shareStep_self isTarget e first s.handle own_s own_first
      rw [shareLabels_cons e first s rest none_made apart_s]
      obtain ⟨e', run, same, owner⟩ := ih e₁ (waitingAfter isTarget first s)
        (by rw [e₁_eq]; exact none_made) distinct
        (by
          intro h waits
          obtain ⟨-, waits⟩ := waitingAfter_eq_some waits
          rcases waitingAt_eq_some waits with old | ⟨rfl, target⟩
          · have away := (apart h old).1
            rw [List.map_cons, List.mem_cons, not_or] at away
            exact ⟨away.2, by rw [keeps h away.1, (apart h old).2]⟩
          · exact ⟨off, by rw [self, if_pos target, waits, Option.getD_some]⟩)
        (by
          intro h met
          have other : h ≠ s.handle := fun same => off (same ▸ met)
          rw [keeps h other, own h (List.mem_cons_of_mem _ met)])
      refine ⟨e', run, ?_, fun t => ?_⟩
      · rw [same, e₁_eq]
      · rw [owner t, leader]
        by_cases at_s : s.handle = t
        · subst at_s
          rw [leader_eq_none off, Option.getD_none, ite_self, self, if_pos rfl]
        · rw [if_neg at_s, keeps t (Ne.symm at_s)]

end Sharing

section Emission

variable (isTarget)

/-- The handle that the label before an item belongs to, for all items that have one. -/
def labelsOf (items : List Item) : List Handle := items.filterMap Item.label

/-- The records whose labels branches among the items go to. -/
def branchesOf (items : List Item) : List Handle :=
  items.filterMap fun i => match i.emission with
    | .branch _ t => some t
    | .plain _ => none

/-- What a stream has become after items were added to it. -/
structure Extended (e e' : Emitter) (added : List Item) : Prop where
  mode : e'.mode = e.mode
  aliases : e'.aliases = e.aliases
  waiting : e'.waiting = none
  items : e'.items.toList = e.items.toList ++ added
  placed : ∀ h, h ∈ e'.placed ↔ h ∈ e.placed ∨ h ∈ labelsOf added
  labels : ∀ h, h ∈ e'.labels → h ∈ e.labels ∨ h ∈ labelsOf added ∨ h ∈ branchesOf added

theorem Extended.trans {e e₁ e₂ : Emitter} {xs ys : List Item} (first : Extended e e₁ xs)
    (second : Extended e₁ e₂ ys) : Extended e e₂ (xs ++ ys) := by
  refine ⟨second.mode.trans first.mode, second.aliases.trans first.aliases, second.waiting, ?_, ?_, ?_⟩
  · rw [second.items, first.items, List.append_assoc]
  · intro h
    rw [second.placed, first.placed, labelsOf, labelsOf, labelsOf, List.filterMap_append,
      List.mem_append, or_assoc]
  · intro h made
    simp only [labelsOf, branchesOf, List.filterMap_append, List.mem_append]
    rcases second.labels h made with made | made | made
    · rcases first.labels h made with made | made | made
      · exact .inl made
      · exact .inr (.inl (.inl made))
      · exact .inr (.inr (.inl made))
    · exact .inr (.inl (.inr made))
    · exact .inr (.inr (.inr made))

theorem ensureLabel_eq (e : Emitter) (h : Handle) :
    ∃ labels, e.ensureLabel h = { e with labels } ∧
      ∀ k, k ∈ labels ↔ k ∈ e.labels ∨ k = e.owner h := by
  unfold Emitter.ensureLabel
  split
  · rename_i made
    exact ⟨e.labels, rfl, fun k => ⟨.inl, fun either => either.elim id fun same => same ▸ made⟩⟩
  · exact ⟨e.owner h :: e.labels, rfl, fun k => by rw [List.mem_cons, or_comm]⟩

/-- A stream that differs from another by the label that has just been placed. -/
structure Labelled (e e₁ : Emitter) (first : Option Handle) : Prop where
  mode : e₁.mode = e.mode
  aliases : e₁.aliases = e.aliases
  waiting : e₁.waiting = first
  items : e₁.items = e.items
  placed : ∀ h, h ∈ e₁.placed ↔ h ∈ e.placed ∨ first = some h
  labels : ∀ h, h ∈ e₁.labels → h ∈ e.labels ∨ first = some h

theorem Labelled.owner {e e₁ : Emitter} {first : Option Handle} (placed : Labelled e e₁ first) :
    e₁.owner = e.owner := by
  funext t
  rw [Emitter.owner, placed.aliases, Emitter.owner]

theorem Labelled.emit {e e₁ : Emitter} {first : Option Handle} (placed : Labelled e e₁ first)
    (emission : Emission) : Extended e (e₁.emit emission) [itemOf e.owner first emission] := by
  have label : labelsOf [itemOf e.owner first emission] = first.toList := by
    cases emission <;> cases first <;> rfl
  cases emission with
  | plain i =>
      refine ⟨placed.mode, placed.aliases, rfl, ?_, ?_, ?_⟩
      · simp [Emitter.emit, Emitter.push, placed.items, itemOf, placed.waiting]
      · intro h
        rw [label, Option.mem_toList]
        exact placed.placed h
      · intro h made
        rw [label, Option.mem_toList]
        exact (placed.labels h made).imp_right .inl
  | branch kind t =>
      obtain ⟨more, made_eq, more_iff⟩ := ensureLabel_eq e₁ t
      have run : e₁.emit (.branch kind t) =
          Emitter.push { e₁ with labels := more } (.branch kind (e₁.owner t)) := by
        simp only [Emitter.emit, Emitter.branch, made_eq]
        rfl
      rw [run]
      refine ⟨placed.mode, placed.aliases, rfl, ?_, ?_, ?_⟩
      · simp [Emitter.push, placed.items, itemOf, placed.waiting, placed.owner]
      · intro h
        rw [label, Option.mem_toList]
        exact placed.placed h
      · intro h made
        rw [label, Option.mem_toList]
        rcases (more_iff h).mp made with old | new
        · exact (placed.labels h old).imp_right .inl
        · exact .inr (.inr (by simp [branchesOf, itemOf, new, placed.owner]))

theorem exists_placeFirst (e : Emitter) (first : Option Handle) (idle : e.waiting = none)
    (own : ∀ h, first = some h → e.owner h = h) :
    ∃ e₁, placeFirst e first = .ok e₁ ∧ Labelled e e₁ first := by
  cases first with
  | none => exact ⟨e, rfl, rfl, rfl, idle, rfl, by simp, fun h made => .inl made⟩
  | some f =>
      obtain ⟨more, made_eq, more_iff⟩ := ensureLabel_eq e f
      have own_f := own f rfl
      refine ⟨{ e with labels := more, waiting := some f, placed := f :: e.placed }, ?_, ?_⟩
      · simp only [placeFirst, Emitter.place, made_eq, idle]
        simp only [Emitter.owner] at own_f ⊢
        rw [own_f]
      · refine ⟨rfl, rfl, rfl, rfl, ?_, ?_⟩
        · intro h
          simp only [List.mem_cons, Option.some.injEq, eq_comm, or_comm]
        · intro h made
          exact ((more_iff h).mp made).imp_right fun new => by rw [new, own_f]

theorem emitSteps_silent {e e' : Emitter} {first : Option Handle} {s : Step} {rest : List Step}
    {ns : List Nat} (silent : s.emission = none)
    (run : emitSteps isTarget e (waitingAt isTarget first s.handle) rest = .ok (e', ns)) :
    emitSteps isTarget e first (s :: rest) = .ok (e', e.items.size :: ns) := by
  rw [waitingAt] at run
  rw [emitSteps]
  simp only [silent, run]
  rfl

theorem emitSteps_loud {e e₁ e' : Emitter} {first : Option Handle} {s : Step} {rest : List Step}
    {ns : List Nat} {x : Emission} (loud : s.emission = some x)
    (place : placeFirst e (waitingAt isTarget first s.handle) = .ok e₁)
    (run : emitSteps isTarget (e₁.emit x) none rest = .ok (e', ns)) :
    emitSteps isTarget e first (s :: rest) = .ok (e', e.items.size :: ns) := by
  rw [waitingAt] at place
  rw [emitSteps]
  simp only [loud, place, bind, Except.bind, run]
  rfl

theorem items_silent {owner : Handle → Handle} {first : Option Handle} {s : Step} {rest : List Step}
    (silent : s.emission = none) : items isTarget owner first (s :: rest) =
      items isTarget owner (waitingAt isTarget first s.handle) rest := by
  simp only [items, silent]

theorem items_loud {owner : Handle → Handle} {first : Option Handle} {s : Step} {rest : List Step}
    {x : Emission} (loud : s.emission = some x) : items isTarget owner first (s :: rest) =
      itemOf owner (waitingAt isTarget first s.handle) x :: items isTarget owner none rest := by
  simp only [items, loud]

theorem labelsOf_itemOf_cons (owner : Handle → Handle) (label : Option Handle) (x : Emission)
    (rest : List Item) : labelsOf (itemOf owner label x :: rest) = label.toList ++ labelsOf rest := by
  cases x <;> cases label <;> rfl

/-- Emission never fails, and it adds the items of the steps. -/
theorem exists_emitSteps (e : Emitter) (first : Option Handle) (steps : List Step)
    (idle : e.waiting = none)
    (own : ∀ h ∈ labelsOf (items isTarget e.owner first steps), e.owner h = h) :
    ∃ e', emitSteps isTarget e first steps = .ok (e', counts e.items.size steps) ∧
      Extended e e' (items isTarget e.owner first steps) := by
  induction steps generalizing e first with
  | nil =>
      cases first with
      | none => exact ⟨e, rfl, rfl, rfl, idle, by simp [items], by simp [items, labelsOf],
          fun h made => .inl made⟩
      | some f =>
          obtain ⟨e₁, run, placed⟩ := exists_placeFirst e (some f) idle fun h same =>
            own h (by simpa [items, labelsOf] using same.symm)
          refine ⟨e₁.emit (.plain .nop), ?_, placed.emit (.plain .nop)⟩
          rw [emitSteps, run]
          rfl
  | cons s rest ih =>
      cases emission : s.emission with
      | none =>
          have silent : s.emits = false := by rw [Step.emits, emission]; rfl
          rw [items_silent isTarget emission] at own ⊢
          obtain ⟨e', run, extended⟩ := ih e (waitingAt isTarget first s.handle) idle own
          refine ⟨e', ?_, extended⟩
          rw [emitSteps_silent isTarget emission run, counts, silent]
          rfl
      | some x =>
          have loud : s.emits = true := by rw [Step.emits, emission]; rfl
          rw [items_loud isTarget emission] at own ⊢
          rw [labelsOf_itemOf_cons] at own
          obtain ⟨e₁, place, placed⟩ := exists_placeFirst e (waitingAt isTarget first s.handle) idle
            fun h waits => own h (List.mem_append_left _ (Option.mem_toList.mpr waits))
          have step := placed.emit x
          have owner : (e₁.emit x).owner = e.owner := by
            funext t
            rw [Emitter.owner, step.aliases, Emitter.owner]
          have size : (e₁.emit x).items.size = e.items.size + 1 := by
            rw [← Array.length_toList, step.items, List.length_append, Array.length_toList]
            rfl
          obtain ⟨e', run, extended⟩ := ih (e₁.emit x) none step.waiting fun h met => by
            rw [owner] at met ⊢
            exact own h (List.mem_append_right _ met)
          rw [owner] at extended
          refine ⟨e', ?_, step.trans extended⟩
          rw [emitSteps_loud isTarget emission place run, counts, loud, size]
          rfl

end Emission

section Positions

variable {owner : Handle → Handle} {first : Option Handle} {steps : List Step}

theorem waitingAfter_silent {s : Step} (silent : s.emission = none) :
    waitingAfter isTarget first s = waitingAt isTarget first s.handle := by
  rw [waitingAfter, Step.emits, silent]
  rfl

theorem waitingAfter_loud {s : Step} {x : Emission} (loud : s.emission = some x) :
    waitingAfter isTarget first s = none := by
  rw [waitingAfter, Step.emits, loud]
  rfl

theorem mem_of_leader {t l : Handle} (leads : leader isTarget first steps t = some l) :
    first = some l ∨ l ∈ steps.map Step.handle := by
  induction steps generalizing first with
  | nil => cases leads
  | cons s rest ih =>
      rw [List.map_cons, List.mem_cons]
      rw [leader] at leads
      split at leads
      · rename_i same
        subst same
        exact (waitingAt_eq_some leads).imp_right fun own => .inl own.1
      · rcases ih leads with waits | later
        · obtain ⟨-, waits⟩ := waitingAfter_eq_some waits
          exact (waitingAt_eq_some waits).imp_right fun own => .inl own.1
        · exact .inr (.inr later)

/-- The label of an item is that of the target that waited before the steps, or of one that leads
itself. -/
theorem leader_of_mem_labelsOf {h : Handle} (distinct : (steps.map Step.handle).Nodup)
    (met : h ∈ labelsOf (items isTarget owner first steps)) :
    first = some h ∨ leader isTarget first steps h = some h := by
  induction steps generalizing first with
  | nil =>
      cases first with
      | none => cases met
      | some f =>
          simp only [items, labelsOf, List.filterMap_cons, List.filterMap_nil, List.mem_singleton] at met
          exact .inl (congrArg some met.symm)
  | cons s rest ih =>
      obtain ⟨off, distinct⟩ := List.nodup_cons.mp distinct
      have here : waitingAt isTarget first s.handle = some h →
          first = some h ∨ leader isTarget first (s :: rest) h = some h := by
        intro waits
        refine (waitingAt_eq_some waits).imp_right fun own => ?_
        rw [leader, if_pos own.1.symm, own.1]
        exact own.1 ▸ waits
      have later : leader isTarget (waitingAfter isTarget first s) rest h = some h →
          leader isTarget first (s :: rest) h = some h := by
        intro leads
        have other : s.handle ≠ h := by
          rintro rfl
          rw [leader_eq_none off] at leads
          cases leads
        rw [leader, if_neg other, leads]
      cases emission : s.emission with
      | none =>
          rw [items_silent isTarget emission] at met
          rcases ih distinct met with waits | leads
          · exact here waits
          · exact .inr (later (waitingAfter_silent emission ▸ leads))
      | some x =>
          rw [items_loud isTarget emission, labelsOf_itemOf_cons, List.mem_append,
            Option.mem_toList] at met
          rcases met with waits | met
          · exact here waits
          · rcases ih distinct met with waits | leads
            · cases waits
            · exact .inr (later (waitingAfter_loud emission ▸ leads))

theorem mem_of_mem_labelsOf {h : Handle} (distinct : (steps.map Step.handle).Nodup)
    (met : h ∈ labelsOf (items isTarget owner first steps)) :
    first = some h ∨ h ∈ steps.map Step.handle := by
  rcases leader_of_mem_labelsOf distinct met with waits | leads
  · exact .inl waits
  · exact mem_of_leader leads

theorem notMem_of_waitingAt {s : Step} {rest : List Step}
    (apart : ∀ h, first = some h → h ∉ (s :: rest).map Step.handle)
    (off : s.handle ∉ rest.map Step.handle) {h : Handle}
    (waits : waitingAt isTarget first s.handle = some h) : h ∉ rest.map Step.handle := by
  rcases waitingAt_eq_some waits with old | ⟨rfl, -⟩
  · exact fun met => apart h old (List.mem_cons_of_mem _ met)
  · exact off

/-- No label stands before two instructions. -/
theorem nodup_labelsOf (distinct : (steps.map Step.handle).Nodup)
    (apart : ∀ h, first = some h → h ∉ steps.map Step.handle) :
    (labelsOf (items isTarget owner first steps)).Nodup := by
  induction steps generalizing first with
  | nil => cases first <;> simp [items, labelsOf]
  | cons s rest ih =>
      obtain ⟨off, distinct⟩ := List.nodup_cons.mp distinct
      cases emission : s.emission with
      | none =>
          rw [items_silent isTarget emission]
          exact ih distinct fun h waits => notMem_of_waitingAt apart off waits
      | some x =>
          rw [items_loud isTarget emission, labelsOf_itemOf_cons]
          have tail : (labelsOf (items isTarget owner none rest)).Nodup := ih distinct nofun
          cases waits : waitingAt isTarget first s.handle with
          | none => exact tail
          | some h =>
              refine List.nodup_cons.mpr ⟨fun met => ?_, tail⟩
              rcases mem_of_mem_labelsOf distinct met with none_waits | later
              · cases none_waits
              · exact notMem_of_waitingAt apart off waits later

theorem label_itemOf (label : Option Handle) (x : Emission) : (itemOf owner label x).label = label := by
  cases x <;> rfl

/-- A waiting target gets the next instruction, or the NOP at the end. -/
theorem items_waiting (isTarget : Handle → Bool) (owner : Handle → Handle) (h : Handle)
    (steps : List Step) :
    ∃ x rest, items isTarget owner (some h) steps = itemOf owner (some h) x :: rest := by
  induction steps with
  | nil => exact ⟨.plain .nop, [], rfl⟩
  | cons s rest ih =>
      cases emission : s.emission with
      | none =>
          rw [items_silent isTarget emission]
          exact ih
      | some x => exact ⟨x, _, items_loud isTarget emission⟩

/-- The label that a target uses stands before the first instruction at or behind the target: its
position is the number of instructions before the target. -/
theorem findIdx?_leader (owner : Handle → Handle) (first : Option Handle)
    (distinct : (steps.map Step.handle).Nodup)
    (apart : ∀ h, first = some h → h ∉ steps.map Step.handle) {t : Handle} (target : isTarget t = true)
    {i : Nat} (at_i : (steps.map Step.handle)[i]? = some t) :
    ∃ l, leader isTarget first steps t = some l ∧
      (items isTarget owner first steps).findIdx? (fun item => item.label = some l) =
        some ((steps.take i).countP Step.emits) := by
  induction steps generalizing first i with
  | nil => simp at at_i
  | cons s rest ih =>
      obtain ⟨off, distinct⟩ := List.nodup_cons.mp distinct
      cases i with
      | zero =>
          obtain rfl : s.handle = t := Option.some.inj at_i
          obtain ⟨l, waits⟩ : ∃ l, waitingAt isTarget first s.handle = some l := by
            cases first with
            | some f => exact ⟨f, rfl⟩
            | none => exact ⟨s.handle, if_pos target⟩
          refine ⟨l, by rw [leader, if_pos rfl, waits], ?_⟩
          cases emission : s.emission with
          | none =>
              obtain ⟨x, tail, head⟩ := items_waiting isTarget owner l rest
              rw [items_silent isTarget emission, waits, head, List.findIdx?_cons, label_itemOf]
              simp
          | some x =>
              rw [items_loud isTarget emission, waits, List.findIdx?_cons, label_itemOf]
              simp
      | succ i =>
          have other : s.handle ≠ t := by
            rintro rfl
            exact off (List.mem_of_getElem? at_i)
          rw [leader, if_neg other]
          cases emission : s.emission with
          | none =>
              obtain ⟨l, leads, position⟩ :=
                ih _ distinct (fun h waits => notMem_of_waitingAt apart off waits) at_i
              refine ⟨l, by rw [waitingAfter_silent emission, leads], ?_⟩
              rw [items_silent isTarget emission, position, List.take_succ_cons, List.countP_cons_of_neg]
              simp [Step.emits, emission]
          | some x =>
              obtain ⟨l, leads, position⟩ := ih none distinct nofun at_i
              refine ⟨l, by rw [waitingAfter_loud emission, leads], ?_⟩
              -- The leader comes later, so the search passes over this instruction.
              have apart_l : waitingAt isTarget first s.handle ≠ some l := by
                intro waits
                rcases mem_of_leader leads with none_waits | later
                · cases none_waits
                · exact notMem_of_waitingAt apart off waits later
              rw [items_loud isTarget emission, List.findIdx?_cons, label_itemOf, position,
                List.take_succ_cons, List.countP_cons_of_pos]
              · simp [apart_l]
              · simp [Step.emits, emission]

end Positions

section Pieces

variable (isTarget)

/-- The number of instructions before the record `t`. -/
def before (steps : List Step) (t : Handle) : Nat :=
  (steps.take ((steps.map Step.handle).idxOf t)).countP Step.emits

/-- The target that waits behind all steps. -/
def waitingEnd (first : Option Handle) (steps : List Step) : Option Handle :=
  steps.foldl (waitingAfter isTarget) first

def existsIn (m : Mode) : Emission → Bool
  | .plain i => i.existsIn m
  | .branch _ _ => true

/-- The piece of an emission. The target of a branch is found by counting. -/
def pieceOf (m : Mode) (steps : List Step) : Emission → Piece
  | .plain i => .plain (i.bytes m)
  | .branch kind t => .branch kind (before steps t)

/-- What layout is given: the instructions of the steps, and a NOP when a target waits at the end. -/
def pieces (m : Mode) (steps : List Step) : List Piece :=
  (steps.filterMap Step.emission).map (pieceOf m steps) ++
    if (waitingEnd isTarget none steps).isSome then [.plain (Instruction.nop.bytes m)] else []

theorem mapM_eq_ite {α β ε : Type} {f : α → Except ε β} {g : α → β} {ok : α → Bool} {fault : ε}
    (xs : List α) (each : ∀ x ∈ xs, f x = if ok x then .ok (g x) else .error fault) :
    xs.mapM f = if xs.all ok then .ok (xs.map g) else .error fault := by
  induction xs with
  | nil => rfl
  | cons x xs ih =>
      rw [List.mapM_cons, each x List.mem_cons_self, ih fun y met => each y (List.mem_cons_of_mem x met),
        List.all_cons]
      cases ok x with
      | false => rfl
      | true => cases xs.all ok <;> rfl

theorem map_items {α : Type} (k : Emission → α) (owner : Handle → Handle) (first : Option Handle)
    (steps : List Step) :
    (items isTarget owner first steps).map (fun item => k item.emission) =
      (steps.filterMap Step.emission).map (fun x => k (itemOf owner none x).emission) ++
        if (waitingEnd isTarget first steps).isSome then [k (.plain .nop)] else [] := by
  induction steps generalizing first with
  | nil => cases first <;> rfl
  | cons s rest ih =>
      rw [waitingEnd, List.foldl_cons]
      cases emission : s.emission with
      | none =>
          rw [items_silent isTarget emission, ih, waitingAfter_silent emission,
            List.filterMap_cons_none emission]
          rfl
      | some x =>
          rw [items_loud isTarget emission, List.map_cons, ih, waitingAfter_loud emission,
            List.filterMap_cons_some emission, List.map_cons, List.cons_append]
          cases x <;> rfl

theorem finalize_eq (e : Emitter) (g : Item → Piece) (placed : ∀ h ∈ e.labels, h ∈ e.placed)
    (idle : e.waiting = none) (once : (labelsOf e.items.toList).Nodup)
    (each : ∀ item ∈ e.items.toList, e.piece item =
      if existsIn e.mode item.emission then .ok (g item) else .error (.stream .only64Bit)) :
    e.finalize =
      if e.items.toList.all (fun item => existsIn e.mode item.emission) then
        (Layout.chunks e.mode (e.items.toList.map g)).mapError .stream
      else .error (.stream .only64Bit) := by
  have unplaced : e.unplaced = [] := by
    rw [Emitter.unplaced, List.filter_eq_nil_iff]
    intro h made
    simpa using placed h made
  have repeated : e.repeated? = none := by
    rw [Emitter.repeated?, List.find?_eq_none]
    intro h _
    simpa [labelsOf] using List.nodup_iff_count_le_one.mp once h
  rw [Emitter.finalize, if_neg (not_not.mpr unplaced)]
  split
  · rename_i empty
    have nil : e.items.toList = [] := by simpa using empty
    rw [nil]
    rfl
  · rw [if_neg (by rw [idle]; exact nofun)]
    simp only [repeated]
    rw [mapM_eq_ite e.items.toList each]
    split <;> rfl

/-- The piece of an emission whose branch target is a label, found among items. -/
def pieceAmong (m : Mode) (items : List Item) : Emission → Piece
  | .plain i => .plain (i.bytes m)
  | .branch kind l => .branch kind ((items.findIdx? fun item => item.label = some l).getD 0)

variable {isTarget} {steps : List Step}

theorem existsIn_itemOf (m : Mode) (owner : Handle → Handle) (x : Emission) :
    existsIn m (itemOf owner none x).emission = existsIn m x := by
  cases x <;> rfl

theorem all_existsIn_items (m : Mode) (owner : Handle → Handle) :
    (items isTarget owner none steps).all (fun item => existsIn m item.emission) =
      (steps.filterMap Step.emission).all (existsIn m) := by
  have same := congrArg (fun l => l.all id) (map_items isTarget (existsIn m) owner none steps)
  simp only [List.all_map, List.all_append, existsIn_itemOf] at same
  have nop : (if (waitingEnd isTarget none steps).isSome = true then
      [existsIn m (.plain .nop)] else []).all id = true := by
    split
    · cases m <;> rfl
    · rfl
  rw [nop, Bool.and_true] at same
  exact same

theorem mem_emissions_of_branch {owner : Handle → Handle} {item : Item} {kind : Branch} {l : Handle}
    (met : item ∈ items isTarget owner none steps) (branch : item.emission = .branch kind l) :
    ∃ t, .branch kind t ∈ steps.filterMap Step.emission ∧ l = owner t := by
  have on : item.emission ∈ (items isTarget owner none steps).map fun item => item.emission :=
    List.mem_map_of_mem met
  rw [map_items isTarget (fun x => x), List.mem_append, branch] at on
  rcases on with on | nop
  · obtain ⟨x, emitted, same⟩ := List.mem_map.mp on
    cases x with
    | plain i => cases same
    | branch kind' t =>
        cases same
        exact ⟨t, emitted, rfl⟩
  · split at nop
    · rw [List.mem_singleton] at nop
      cases nop
    · cases nop

section Owners

variable {owner : Handle → Handle} (distinct : (steps.map Step.handle).Nodup)
  (led : ∀ t, owner t = if isTarget t then (leader isTarget none steps t).getD t else t)
include distinct led

theorem owner_of_mem_labelsOf {h : Handle} (met : h ∈ labelsOf (items isTarget owner none steps)) :
    owner h = h := by
  rcases leader_of_mem_labelsOf distinct met with waits | leads
  · cases waits
  · rw [led, leads, Option.getD_some]
    exact ite_self h

theorem findIdx?_owner {t : Handle} (target : isTarget t = true) (met : t ∈ steps.map Step.handle) :
    (items isTarget owner none steps).findIdx? (fun item => item.label = some (owner t)) =
      some (before steps t) := by
  obtain ⟨l, leads, found⟩ := findIdx?_leader owner none distinct nofun target
    (List.getElem?_idxOf met)
  rw [led t, if_pos target, leads, Option.getD_some]
  exact found

end Owners

section Branches

variable {owner : Handle → Handle}
  (position : ∀ kind t, .branch kind t ∈ steps.filterMap Step.emission →
    (items isTarget owner none steps).findIdx? (fun item => item.label = some (owner t)) =
      some (before steps t))
include position

/-- A label that a branch goes to stands before an instruction. -/
theorem mem_labelsOf_of_mem_branchesOf {h : Handle}
    (branch : h ∈ branchesOf (items isTarget owner none steps)) :
    h ∈ labelsOf (items isTarget owner none steps) := by
  obtain ⟨item, met, same⟩ := List.mem_filterMap.mp branch
  cases emission : item.emission with
  | plain i =>
      rw [emission] at same
      cases same
  | branch kind l =>
      rw [emission] at same
      obtain rfl : l = h := Option.some.inj same
      obtain ⟨t, on, rfl⟩ := mem_emissions_of_branch met emission
      obtain ⟨inside, label, -⟩ := List.findIdx?_eq_some_iff_getElem.mp (position kind t on)
      exact List.mem_filterMap.mpr ⟨_, List.getElem_mem inside, by simpa using label⟩

theorem piece_eq {e : Emitter} (all : e.items.toList = items isTarget owner none steps) {item : Item}
    (met : item ∈ e.items.toList) :
    e.piece item =
      if existsIn e.mode item.emission then
        .ok (pieceAmong e.mode (items isTarget owner none steps) item.emission)
      else .error (.stream .only64Bit) := by
  rw [all] at met
  rw [Emitter.piece, all]
  cases emission : item.emission with
  | plain i => rfl
  | branch kind l =>
      obtain ⟨t, on, rfl⟩ := mem_emissions_of_branch met emission
      simp only [position kind t on, existsIn, pieceAmong, Option.getD_some, if_true]

theorem map_pieceAmong (m : Mode) :
    (items isTarget owner none steps).map
        (fun item => pieceAmong m (items isTarget owner none steps) item.emission) =
      pieces isTarget m steps := by
  rw [map_items, pieces]
  congr 1
  refine List.map_congr_left fun x met => ?_
  cases x with
  | plain i => rfl
  | branch kind t =>
      simp only [itemOf, pieceAmong, pieceOf]
      rw [position kind t met, Option.getD_some]

end Branches

/-- Both passes over the steps succeed. They leave a stream in which every label made is placed and none
waits or stands before two instructions, so only the instructions decide whether it can be laid out. -/
theorem exists_stream (m : Mode) (distinct : (steps.map Step.handle).Nodup)
    (branches : ∀ kind t, .branch kind t ∈ steps.filterMap Step.emission →
      isTarget t = true ∧ t ∈ steps.map Step.handle) :
    ∃ e e', shareLabels isTarget { mode := m } none steps = .ok e ∧
      e = { mode := m, aliases := e.aliases } ∧
      emitSteps isTarget e none steps = .ok (e', counts 0 steps) ∧ e'.waiting = none ∧
      (labelsOf e'.items.toList).Nodup ∧ (∀ h ∈ e'.labels, h ∈ e'.placed) ∧
      e'.finalize =
        if (steps.filterMap Step.emission).all (existsIn m) then
          (Layout.chunks m (pieces isTarget m steps)).mapError .stream
        else .error (.stream .only64Bit) := by
  obtain ⟨e, share, e_eq, led⟩ := exists_shareLabels isTarget { mode := m } none steps rfl
    distinct nofun fun h _ => rfl
  obtain ⟨e', emit, extended⟩ := exists_emitSteps isTarget e none steps (by rw [e_eq])
    fun h => owner_of_mem_labelsOf distinct led
  have position : ∀ kind t, .branch kind t ∈ steps.filterMap Step.emission → _ :=
    fun kind t on => findIdx?_owner distinct led (branches kind t on).1 (branches kind t on).2
  have mode : e'.mode = m := by rw [extended.mode, e_eq]
  have all : e'.items.toList = items isTarget e.owner none steps := by
    rw [extended.items, e_eq]
    rfl
  have once : (labelsOf e'.items.toList).Nodup := all ▸ nodup_labelsOf distinct nofun
  have placed : ∀ h ∈ e'.labels, h ∈ e'.placed := by
    intro h made
    rw [extended.placed]
    rcases extended.labels h made with old | label | branch
    · rw [e_eq] at old
      cases old
    · exact .inr label
    · exact .inr (mem_labelsOf_of_mem_branchesOf position branch)
  have finish := finalize_eq e' _ placed extended.waiting once fun item => piece_eq position all
  rw [all, mode, all_existsIn_items, map_pieceAmong position] at finish
  have empty : e.items.size = 0 := by
    rw [e_eq]
    rfl
  rw [empty] at emit
  exact ⟨e, e', share, e_eq, emit, extended.waiting, once, placed, finish⟩

/-- What the records of a function come to, as far as labels are concerned: nothing about labels can
fail, and a branch goes to the position that has as many instructions before it as its target has. -/
theorem chunks_eq (m : Mode) (distinct : (steps.map Step.handle).Nodup)
    (branches : ∀ kind t, .branch kind t ∈ steps.filterMap Step.emission →
      isTarget t = true ∧ t ∈ steps.map Step.handle) :
    chunks m isTarget steps = .ok (
      if (steps.filterMap Step.emission).all (existsIn m) then
        ((Layout.chunks m (pieces isTarget m steps)).mapError .stream).map (·, counts 0 steps)
      else .error (.stream .only64Bit)) := by
  obtain ⟨e, e', share, -, emit, -, -, -, finish⟩ := exists_stream m distinct branches
  simp only [chunks, share, bind, Except.bind, emit, finish]
  cases (steps.filterMap Step.emission).all (existsIn m) with
  | false => rfl
  | true => cases Layout.chunks m (pieces isTarget m steps) <;> rfl

end Pieces

end InstrStream.X86.Assembly
