import InstrStream.Proofs.X86.LabelProtocol

/-! Records that share a label. Whoever writes a stream asks for one thing after another: labels, instructions, and
that a record use the label of another one. Which label a record uses changes only when it is asked to share again, so
two records that share a label do so until one of them is. The label is settled at the time of sharing: if the other
record moves on to a third one later, it does not take along those that had joined it before. -/
namespace InstrStream.X86.Emitter

open Assembly

inductive Request where
  | make (h : Handle)
  | share (h other : Handle)
  | place (h : Handle)
  | emit (x : Emission)
  | syscall
deriving DecidableEq, Repr

inductive Reply where
  | done
  | refused (cause : EncodingError)
  | fault (cause : Fault)
deriving DecidableEq, Repr

/-- The stream after a request, and the reply. A placement that is refused has made its label; nothing else is left
behind by a request that is not met. -/
def request (e : Emitter) : Request → Emitter × Reply
  | .make h => (e.ensureLabel h, .done)
  | .share h other =>
    match e.shareLabel h other with
    | .ok e' => (e', .done)
    | .error cause => (e, .fault cause)
  | .place h =>
    match e.place h with
    | (e', .ok ()) => (e', .done)
    | (e', .error cause) => (e', .refused cause)
  | .emit x => (e.emit x, .done)
  | .syscall =>
    match e.syscall with
    | .ok e' => (e', .done)
    | .error cause => (e, .refused cause)

/-- The stream after some requests, one after another, and the replies. -/
def serve (e : Emitter) : List Request → Emitter × List Reply
  | [] => (e, [])
  | r :: requests =>
    let (e', reply) := e.request r
    let (last, replies) := e'.serve requests
    (last, reply :: replies)

namespace Request

/-- The record `h` is to use the label of another one. -/
def Reshares (h : Handle) : Request → Prop
  | .share k other => k = h ∧ other ≠ h
  | _ => False

/-- The same request with the record `c` in the place of `t`, unless it is about sharing. -/
def instead (t c : Handle) : Request → Request
  | .make h => .make (if h = t then c else h)
  | .place h => .place (if h = t then c else h)
  | .emit (.branch kind h) => .emit (.branch kind (if h = t then c else h))
  | r => r

end Request

/-- Two records share a label: it has been made and placed for both or for neither, and to branch to one of them or to
place its label is to do so with the other. -/
structure SharesLabel (e : Emitter) (t c : Handle) : Prop where
  label : e.label? t = e.label? c
  placed : e.isPlaced t = e.isPlaced c
  branch : ∀ kind, e.branch kind t = e.branch kind c
  place : e.place t = e.place c

variable {e e₁ : Emitter} {t c h k : Handle}

theorem ensureLabel_congr (same : e.owner t = e.owner c) : e.ensureLabel t = e.ensureLabel c := by
  rw [ensureLabel, same, ensureLabel]

theorem branch_congr (same : e.owner t = e.owner c) (kind : Branch) : e.branch kind t = e.branch kind c := by
  simp only [branch, ensureLabel_congr same, owner_ensureLabel, same]

theorem place_congr (same : e.owner t = e.owner c) : e.place t = e.place c := by
  simp only [place, ensureLabel_congr same, owner_ensureLabel, same]

/-- What records share is the owner of their label. -/
theorem sharesLabel_iff : e.SharesLabel t c ↔ e.owner t = e.owner c := by
  constructor
  · intro shares
    have last : (e.branch .call t).items.back? = (e.branch .call c).items.back? := by rw [shares.branch]
    simp only [branch, push, owner_ensureLabel, Array.back?_push, Option.some.injEq, Item.mk.injEq,
      Emission.branch.injEq, true_and] at last
    exact last.2
  · intro same
    refine ⟨?_, ?_, branch_congr same, place_congr same⟩
    · rw [label?, same, label?]
    · rw [isPlaced, same, isPlaced]

section Requests

theorem owner_place (e : Emitter) (h : Handle) : (e.place h).1.owner = e.owner := by
  rw [← owner_ensureLabel e h, place]
  split <;> rfl

theorem owner_emit (e : Emitter) (x : Emission) : (e.emit x).owner = e.owner := by
  cases x with
  | plain i => rfl
  | branch kind target => exact owner_ensureLabel e target

theorem owner_shareLabel_of_ne (shared : e.shareLabel h c = .ok e₁) (other : k = h → c = h) :
    e₁.owner k = e.owner k := by
  unfold shareLabel at shared
  split at shared
  · cases shared
  · split at shared
    · cases shared
      rfl
    · rename_i apart
      cases shared
      rw [owner_share, if_neg fun same => apart (other same).symm]

/-- Sharing makes one record use the label that the other one uses. -/
theorem owner_shareLabel_self (shared : e.shareLabel t c = .ok e₁) : e₁.owner t = e.owner c := by
  unfold shareLabel at shared
  split at shared
  · cases shared
  · split at shared
    · rename_i same
      cases shared
      rw [same]
    · cases shared
      rw [owner_share, if_pos rfl]

/-- A request to share changes nothing but who uses which label. -/
theorem exists_request_share (e : Emitter) (h other : Handle) :
    ∃ aliases, (e.request (.share h other)).1 = { e with aliases } := by
  rw [request, shareLabel]
  split
  · rename_i shared
    split at shared
    · cases shared
    · split at shared <;> cases shared <;> exact ⟨_, rfl⟩
  · exact ⟨_, rfl⟩

/-- A system call is an instruction like others, or it is refused and leaves nothing behind. -/
theorem request_syscall (e : Emitter) :
    e.request .syscall = (e.emit (.plain .syscall), .done) ∨
      ∃ cause, e.request .syscall = (e, .refused cause) := by
  rw [request, syscall]
  split
  · rename_i offered
    split at offered <;> cases offered
    exact .inl rfl
  · exact .inr ⟨_, rfl⟩

/-- A request leaves all records their labels, except for the one that it asks to share again. -/
theorem owner_request {r : Request} (keeps : ¬ r.Reshares k) : (e.request r).1.owner k = e.owner k := by
  cases r with
  | make h => exact congrFun (owner_ensureLabel e h) k
  | share h other =>
      rw [request]
      split
      · rename_i e' shared
        apply owner_shareLabel_of_ne shared
        rintro rfl
        by_contra apart
        exact keeps ⟨rfl, apart⟩
      · rfl
  | place h =>
      have placed := congrFun (owner_place e h) k
      rw [request]
      split
      all_goals
        rename_i run
        rw [run] at placed
        exact placed
  | emit x => exact congrFun (owner_emit e x) k
  | syscall =>
      rcases request_syscall e with offered | ⟨cause, refused⟩
      · rw [offered, owner_emit]
      · rw [refused]

theorem owner_serve {requests : List Request} (keeps : ∀ r ∈ requests, ¬ r.Reshares k) :
    (e.serve requests).1.owner k = e.owner k := by
  induction requests generalizing e with
  | nil => rfl
  | cons r requests ih =>
      apply (ih fun s met => keeps s (List.mem_cons_of_mem r met)).trans
      exact owner_request (keeps r List.mem_cons_self)

theorem serve_append (e : Emitter) (before after : List Request) :
    (e.serve (before ++ after)).1 = ((e.serve before).1.serve after).1 := by
  induction before generalizing e with
  | nil => rfl
  | cons r before ih => exact ih (e.request r).1

/-- A record that shares a label is as good as the other one in any request that is not about sharing. -/
theorem request_instead (same : e.owner t = e.owner c) (r : Request) :
    e.request (r.instead t c) = e.request r := by
  have chosen : ∀ h, e.owner (if h = t then c else h) = e.owner h := by
    intro h
    split
    · rename_i is_t
      rw [is_t, same]
    · rfl
  cases r with
  | make h => simp only [Request.instead, request, ensureLabel_congr (chosen h)]
  | place h => simp only [Request.instead, request, place_congr (chosen h)]
  | emit x =>
      cases x with
      | plain i => rfl
      | branch kind h => simp only [Request.instead, request, emit, branch_congr (chosen h)]
  | share h other => rfl
  | syscall => rfl

theorem serve_instead {requests : List Request} (same : e.owner t = e.owner c)
    (keeps : ∀ r ∈ requests, ¬ r.Reshares t ∧ ¬ r.Reshares c) :
    e.serve (requests.map (Request.instead t c)) = e.serve requests := by
  induction requests generalizing e with
  | nil => rfl
  | cons r requests ih =>
      obtain ⟨keeps_t, keeps_c⟩ := keeps r List.mem_cons_self
      have later : (e.request r).1.owner t = (e.request r).1.owner c := by
        rw [owner_request keeps_t, owner_request keeps_c, same]
      have rest := ih later fun s met => keeps s (List.mem_cons_of_mem r met)
      simp only [List.map_cons, serve, request_instead same, rest]

end Requests

/-- A record that was asked to use the label of another one shares it with that one for as long as neither is asked
again, and can stand for it in all that is asked of the stream. If the other one is asked to share with a third record,
the two go on sharing exactly if the first one shared its label with that third record already. -/
theorem sharing_lasts_iff (shared : e.shareLabel t c = .ok e₁) {requests : List Request}
    (keeps : ∀ r ∈ requests, ¬ r.Reshares t) :
    ((∀ r ∈ requests, ¬ r.Reshares c) →
      (e₁.serve requests).1.SharesLabel t c ∧
        e₁.serve (requests.map (Request.instead t c)) = e₁.serve requests) ∧
      ∀ before d after e₂, requests = before ++ .share c d :: after → c ≠ d →
        (e₁.serve before).1.shareLabel c d = .ok e₂ → (∀ r ∈ after, ¬ r.Reshares c) →
        ((e₁.serve requests).1.SharesLabel t c ↔ (e₁.serve before).1.SharesLabel t d) := by
  have agreed : e₁.owner t = e₁.owner c := by
    rw [owner_shareLabel_self shared, owner_shareLabel_of_ne shared id]
  constructor
  · intro keeps_c
    refine ⟨sharesLabel_iff.mpr ?_, serve_instead agreed fun r met => ⟨keeps r met, keeps_c r met⟩⟩
    rw [owner_serve keeps, owner_serve keeps_c, agreed]
  · rintro before d after e₂ rfl apart moved keeps_after
    have reached : (e₁.serve (before ++ .share c d :: after)).1 = (e₂.serve after).1 := by
      rw [serve_append, serve, request]
      simp only [moved]
    have moved_c : (e₂.serve after).1.owner c = (e₁.serve before).1.owner d := by
      rw [owner_serve keeps_after, owner_shareLabel_self moved]
    have kept_t : (e₁.serve (before ++ .share c d :: after)).1.owner t = (e₁.serve before).1.owner t := by
      rw [owner_serve keeps, owner_serve fun r met => keeps r (List.mem_append_left _ met)]
    rw [sharesLabel_iff, sharesLabel_iff, kept_t, reached, moved_c]

/-- A stream in which the record 1 has been asked to use the label of the record 2. -/
def joined : Emitter := { mode := .bits64, aliases := [(⟨1⟩, ⟨2⟩)] }

/-- A jump to the record 1, and behind it the label of the record 2. -/
def jumpToJoined : List Request := [.emit (.branch (.jump none) ⟨1⟩), .place ⟨2⟩, .emit (.plain .nop)]

/-- The jump goes to the label that is placed, unless the record 2 has been asked in between to share with the
record 3: then the label that the jump needs is never placed. -/
theorem sharing_lasts_parted :
    Emitter.shareLabel { mode := .bits64 } ⟨1⟩ ⟨2⟩ = .ok joined ∧
      (joined.serve jumpToJoined).1.SharesLabel ⟨1⟩ ⟨2⟩ ∧
      (joined.serve jumpToJoined).1.finalize = .ok [[0xeb, 0x00], [0x90]] ∧
      ¬ (joined.serve (.share ⟨2⟩ ⟨3⟩ :: jumpToJoined)).1.SharesLabel ⟨1⟩ ⟨2⟩ ∧
      (joined.serve (.share ⟨2⟩ ⟨3⟩ :: jumpToJoined)).1.finalize = .error (.stream (.neverPlaced 1)) := by
  have shared : Emitter.shareLabel { mode := .bits64 } ⟨1⟩ ⟨2⟩ = .ok joined := rfl
  have keeps : ∀ h, ∀ r ∈ jumpToJoined, ¬ r.Reshares h := by
    intro h r met
    simp only [jumpToJoined, List.mem_cons, List.not_mem_nil, or_false] at met
    rcases met with rfl | rfl | rfl <;> exact id
  have keeps_first : ∀ r ∈ .share ⟨2⟩ ⟨3⟩ :: jumpToJoined, ¬ r.Reshares ⟨1⟩ := by
    intro r met
    rcases List.mem_cons.mp met with rfl | met
    · exact fun moved => absurd moved.1 (by decide)
    · exact keeps ⟨1⟩ r met
  have lasting := ((sharing_lasts_iff shared (keeps ⟨1⟩)).1 (keeps ⟨2⟩)).1
  have parting := (sharing_lasts_iff shared keeps_first).2 [] ⟨3⟩ jumpToJoined _ rfl (by decide) rfl (keeps ⟨2⟩)
  refine ⟨shared, lasting, by decide +kernel, ?_, by decide +kernel⟩
  rw [parting, sharesLabel_iff]
  decide

end InstrStream.X86.Emitter
