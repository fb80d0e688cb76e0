import InstrStream.Chain
import Mathlib.Data.List.Nodup
import Mathlib.Data.List.Range

/-! Paths of links. A path says which records are met between two places of a list; the chain of a head
is its path to the end. Paths are what operations on pools are reasoned about with: they can be cut,
joined and carried over to any pool that agrees on the links of the records met. -/
namespace InstrStream.Pool

/-- Following links from the first place meets exactly these records and arrives at the second. -/
inductive Path (p : Pool) : Option Handle → List Handle → Option Handle → Prop
  | stop (a : Option Handle) : Path p a [] a
  | visit {h : Handle} {r : Record} {hs : List Handle} {b : Option Handle} :
      p.get? h = some r → Path p r.link hs b → Path p (some h) (h :: hs) b

variable {p q : Pool} {a b c : Option Handle} {hs ks : List Handle}

theorem Path.append (first : p.Path a hs b) (second : p.Path b ks c) : p.Path a (hs ++ ks) c := by
  induction first with
  | stop a => exact second
  | visit found _ ih => exact .visit found (ih second)

theorem Path.split (path : p.Path a (hs ++ ks) c) : ∃ b, p.Path a hs b ∧ p.Path b ks c := by
  induction hs generalizing a with
  | nil => exact ⟨a, .stop a, path⟩
  | cons h hs ih =>
      cases path with
      | visit found rest =>
          obtain ⟨b, left, right⟩ := ih rest
          exact ⟨b, .visit found left, right⟩

theorem Path.head_eq {h : Handle} (path : p.Path a hs b) (head : hs.head? = some h) : a = some h := by
  cases path with
  | stop => cases head
  | visit => exact head

theorem Path.exists_head {k : Handle} (path : p.Path a hs (some k)) : ∃ h, a = some h := by
  cases path with
  | stop => exact ⟨k, rfl⟩
  | visit => exact ⟨_, rfl⟩

theorem Path.link_mem (path : p.Path a hs none) {h k : Handle} (met : h ∈ hs)
    (link : (p.record h).link = some k) : k ∈ hs := by
  obtain ⟨left, right, rfl⟩ := List.append_of_mem met
  obtain ⟨b, _, rest⟩ := path.split
  cases rest with
  | visit found rest =>
      rw [record, found, Option.getD_some] at link
      rw [link] at rest
      cases rest with
      | visit => simp

theorem Path.head?_eq (path : p.Path a hs none) : a = hs.head? := by
  cases path with
  | stop => rfl
  | visit => rfl

theorem Path.link_getLast? {h : Handle} (path : p.Path a hs none) (last : hs.getLast? = some h) :
    ∃ r, p.get? h = some r ∧ r.link = none := by
  obtain ⟨ks, rfl⟩ := List.getLast?_eq_some_iff.mp last
  obtain ⟨b, -, back⟩ := path.split
  cases back with
  | visit found rest =>
      generalize next : Record.link _ = link at rest
      cases rest
      exact ⟨_, found, next⟩

/-- A path that arrives here goes no further: there is no handle, or no slot at it. -/
def Ends (p : Pool) (a : Option Handle) : Prop := ∀ h, a = some h → p.get? h = none

theorem ends_none (p : Pool) : p.Ends none := nofun

/-- A list that ends has only one path to its end. -/
theorem Path.unique_of_ends (ends : p.Ends b) (one : p.Path a hs b) (two : p.Path a ks b) : hs = ks := by
  induction hs generalizing a ks with
  | nil =>
      cases one
      cases two with
      | stop => rfl
      | visit found rest =>
          rw [ends _ rfl] at found
          cases found
  | cons h hs ih =>
      cases one with
      | visit found rest =>
          cases two with
          | stop =>
              rw [ends _ rfl] at found
              cases found
          | visit found' rest' =>
              obtain rfl := Option.some.inj (found.symm.trans found')
              rw [ih rest rest']

theorem Path.unique (one : p.Path a hs none) (two : p.Path a ks none) : hs = ks :=
  one.unique_of_ends p.ends_none two

/-- A list that ends meets no record twice: the rest of it after the second visit would be all of it. -/
theorem Path.nodup_of_ends (ends : p.Ends b) (path : p.Path a hs b) : hs.Nodup := by
  induction hs generalizing a with
  | nil => exact List.nodup_nil
  | cons h hs ih =>
      cases path with
      | visit found rest =>
          refine List.nodup_cons.mpr ⟨?_, ih rest⟩
          intro again
          obtain ⟨left, right, rfl⟩ := List.append_of_mem again
          obtain ⟨c, _, tail⟩ := rest.split
          cases tail with
          | visit found' tail' =>
              have whole := Path.unique_of_ends ends (.visit found rest) (.visit found' tail')
              have := congrArg List.length whole
              simp only [List.length_cons, List.length_append] at this
              omega

theorem Path.nodup (path : p.Path a hs none) : hs.Nodup := path.nodup_of_ends p.ends_none

theorem Path.exists_record (path : p.Path a hs b) {h : Handle} (met : h ∈ hs) :
    ∃ r, p.get? h = some r := by
  induction path with
  | stop a => cases met
  | visit found _ ih =>
      rcases List.mem_cons.mp met with rfl | later
      · exact ⟨_, found⟩
      · exact ih later

theorem get?_eq_some_iff_lt {h : Handle} : (∃ r, p.get? h = some r) ↔ h.index < p.size := by
  rw [← Nat.not_le, ← get?_eq_none_iff_size, ← Option.ne_none_iff_exists']

theorem Path.index_lt (path : p.Path a hs b) {h : Handle} (met : h ∈ hs) : h.index < p.size :=
  get?_eq_some_iff_lt.mp (path.exists_record met)

/-- There are at most as many records on a list that ends as the pool has slots. -/
theorem Path.length_le_of_ends (ends : p.Ends b) (path : p.Path a hs b) : hs.length ≤ p.size := by
  have distinct : (hs.map Handle.index).Nodup :=
    (path.nodup_of_ends ends).map fun h k same => by cases h; cases k; exact congrArg Handle.mk same
  have inside : hs.map Handle.index ⊆ List.range p.size := by
    intro i hi
    obtain ⟨h, met, rfl⟩ := List.mem_map.mp hi
    exact List.mem_range.mpr (path.index_lt met)
  simpa only [List.length_map, List.length_range] using List.Nodup.length_le_of_subset distinct inside

theorem Path.length_le (path : p.Path a hs none) : hs.length ≤ p.size :=
  path.length_le_of_ends p.ends_none

theorem Path.congr (path : p.Path a hs b)
    (same : ∀ h ∈ hs, (q.get? h).map Record.link = (p.get? h).map Record.link) : q.Path a hs b := by
  induction path with
  | stop a => exact .stop a
  | @visit h r hs b found _ ih =>
      have link := same h List.mem_cons_self
      rw [found, Option.map_some, Option.map_eq_some_iff] at link
      obtain ⟨r', found', link⟩ := link
      refine .visit found' ?_
      rw [link]
      exact ih fun k met => same k (List.mem_cons_of_mem h met)

theorem chainWithin_eq_ok_iff (fuel : Nat) :
    p.chainWithin fuel a = .ok hs ↔ p.Path a hs none ∧ hs.length ≤ fuel := by
  induction fuel generalizing a hs with
  | zero =>
      constructor
      · intro run
        cases a with
        | none =>
            cases run
            exact ⟨.stop none, Nat.le_refl _⟩
        | some h => cases run
      · rintro ⟨path, short⟩
        obtain rfl := List.length_eq_zero_iff.mp (Nat.le_zero.mp short)
        cases path
        rfl
  | succ fuel ih =>
      cases a with
      | none =>
          constructor
          · intro run
            cases run
            exact ⟨.stop none, Nat.zero_le _⟩
          · rintro ⟨path, _⟩
            cases path
            rfl
      | some h =>
          constructor
          · intro run
            rw [chainWithin] at run
            split at run
            · cases run
            · rename_i r found
              split at run
              · rename_i rest tail
                cases run
                obtain ⟨path, short⟩ := ih.mp tail
                exact ⟨.visit found path, Nat.succ_le_succ short⟩
              · cases run
          · rintro ⟨path, short⟩
            cases path with
            | visit found path =>
                rw [chainWithin, found]
                simp only [ih.mpr ⟨path, Nat.le_of_succ_le_succ short⟩]

/-- The chain of a head is its path to the end. -/
theorem chain_eq_ok_iff : p.chain a = .ok hs ↔ p.Path a hs none := by
  rw [chain, chainWithin_eq_ok_iff]
  exact ⟨And.left, fun path => ⟨path, path.length_le⟩⟩

theorem chainWithin_eq_outOfBounds {h : Handle} (past : p.get? h = none) {fuel : Nat}
    (path : p.Path a hs (some h)) (short : hs.length ≤ fuel) :
    p.chainWithin fuel a = .error (.outOfBounds h) := by
  induction hs generalizing a fuel with
  | nil =>
      cases path
      cases fuel with
      | zero =>
          have outside : ¬ h.index < p.size := by
            rw [← get?_eq_some_iff_lt, past]
            exact nofun
          rw [chainWithin, if_neg outside]
      | succ fuel => rw [chainWithin, past]
  | cons k hs ih =>
      cases fuel with
      | zero => cases short
      | succ fuel =>
          cases path with
          | visit found rest =>
              rw [chainWithin, found]
              simp only [ih rest (Nat.le_of_succ_le_succ short)]

/-- A chain that leads past every slot faults there. -/
theorem chain_eq_outOfBounds {h : Handle} (past : p.get? h = none) (path : p.Path a hs (some h)) :
    p.chain a = .error (.outOfBounds h) := by
  have ends : p.Ends (some h) := by
    rintro _ ⟨⟩
    exact past
  exact chainWithin_eq_outOfBounds past path (path.length_le_of_ends ends)

theorem get?_eq_some_record {h : Handle} (inside : h.index < p.size) :
    p.get? h = some (p.record h) := by
  obtain ⟨r, found⟩ := get?_eq_some_iff_lt.mpr inside
  rw [record, found, Option.getD_some]

theorem record_eq_of_get? {h : Handle} {r : Record} (found : p.get? h = some r) : p.record h = r := by
  rw [record, found, Option.getD_some]

theorem record_congr {h : Handle} (same : q.get? h = p.get? h) : q.record h = p.record h := by
  rw [record, same, record]

theorem lt_size_of_lt_issued {h : Handle} (issued : h.index < p.issued) : h.index < p.size := by
  rw [p.size_eq]
  exact Nat.lt_of_lt_of_le issued (Nat.le_max_right _ _)

/-- What no write changes is not changed by linking. -/
theorem linkAll_keeps {count : Pool → Nat} (keeps : ∀ p h f, count (modify p h f) = count p) (p : Pool)
    (next : Option Handle) (hs : List Handle) : count (p.linkAll next hs) = count p := by
  fun_induction linkAll p next hs with
  | case1 => rfl
  | case2 => exact keeps ..
  | case3 p h k rest ih => exact ih.trans (keeps ..)

@[simp] theorem issued_linkAll (p : Pool) (next : Option Handle) (hs : List Handle) :
    (p.linkAll next hs).issued = p.issued := linkAll_keeps issued_modify p next hs

@[simp] theorem size_linkAll (p : Pool) (next : Option Handle) (hs : List Handle) :
    (p.linkAll next hs).size = p.size := linkAll_keeps size_modify p next hs

theorem get?_linkAll_of_notMem (p : Pool) (next : Option Handle) (hs : List Handle) {k : Handle}
    (off : k ∉ hs) : (p.linkAll next hs).get? k = p.get? k := by
  fun_induction linkAll p next hs with
  | case1 => rfl
  | case2 p h =>
      have other : h ≠ k := fun same => off (same ▸ List.mem_cons_self)
      rw [get?_modify, if_neg other]
  | case3 p h l rest ih =>
      have other : h ≠ k := fun same => off (same ▸ List.mem_cons_self)
      rw [ih fun later => off (List.mem_cons_of_mem h later), get?_modify, if_neg other]

theorem get?_linkAll (p : Pool) (next : Option Handle) (hs : List Handle) (k : Handle) :
    ∃ link, (p.linkAll next hs).get? k = (p.get? k).map fun r => { r with link } := by
  fun_induction linkAll p next hs with
  | case1 p =>
      refine ⟨(p.record k).link, ?_⟩
      cases found : p.get? k with
      | none => rfl
      | some r => rw [record_eq_of_get? found, Option.map_some]
  | case2 p h =>
      by_cases same : h = k
      · exact ⟨next, by rw [get?_modify, if_pos same]⟩
      · refine ⟨(p.record k).link, ?_⟩
        rw [get?_modify, if_neg same]
        cases found : p.get? k with
        | none => rfl
        | some r => rw [record_eq_of_get? found, Option.map_some]
  | case3 p h l rest ih =>
      obtain ⟨link, changed⟩ := ih
      refine ⟨link, ?_⟩
      rw [changed, get?_modify]
      split
      · rw [Option.map_map]
        rfl
      · rfl

/-- Linked records make up a path to where the last of them leads. -/
theorem path_linkAll (p : Pool) (next : Option Handle) (h : Handle) (hs : List Handle)
    (distinct : (h :: hs).Nodup) (inside : ∀ k ∈ h :: hs, k.index < p.size) :
    (p.linkAll next (h :: hs)).Path (some h) (h :: hs) next := by
  induction hs generalizing p h with
  | nil =>
      have found := get?_eq_some_record (inside h List.mem_cons_self)
      refine .visit (r := { p.record h with link := next }) ?_ (.stop next)
      rw [linkAll, get?_modify, if_pos rfl, found, Option.map_some]
  | cons k rest ih =>
      obtain ⟨fresh, distinct⟩ := List.nodup_cons.mp distinct
      have found := get?_eq_some_record (inside h List.mem_cons_self)
      refine .visit (r := { p.record h with link := some k }) ?_ ?_
      · rw [linkAll, get?_linkAll_of_notMem _ _ _ fresh, get?_modify, if_pos rfl, found,
          Option.map_some]
      · refine ih _ k distinct fun l met => ?_
        rw [size_modify]
        exact inside l (List.mem_cons_of_mem h met)

end InstrStream.Pool
