import InstrStream.Journal
import InstrStream.Record
import InstrStream.Target
import InstrStream.Text.Quoted

/-! The context of one assembly job: its target, its diagnostics and the count of records issued one
by one. A diagnostic goes to the listener first and is recorded whatever the listener does. -/
namespace InstrStream

/-- What happens to a diagnostic besides being recorded. -/
inductive Listener where
  | silent
  /-- Note it in the journal as a warning. -/
  | journal
  /-- Keep it, with `tag` in front, among the messages heard. -/
  | keep (tag : String)
deriving DecidableEq, Repr

structure Context where
  id : ContextId
  target : Target
  system : System := .linux
  /-- Whether frames maintain a frame pointer. -/
  framePointer : Bool := false
  listener : Listener := .silent
  heard : Array String := #[]
  diagnostics : Array String := #[]
  /-- Number of records issued one by one rather than from a block. -/
  individual : Nat := 0
  journal : Journal := #[]
deriving DecidableEq, Repr

namespace Context

def note (c : Context) (level : Level) (message : String) : Context :=
  { c with journal := c.journal.push ⟨level, message⟩ }

def tell (c : Context) (message : String) : Context :=
  match c.listener with
  | .silent => c
  | .journal => c.note .warn message
  | .keep tag => { c with heard := c.heard.push (tag ++ message) }

/-- Reports a diagnostic: the listener hears it, then it is recorded. -/
def report (c : Context) (message : String) : Context :=
  let c := c.tell message
  { c with diagnostics := c.diagnostics.push message }

@[simp] theorem diagnostics_tell (c : Context) (message : String) :
    (c.tell message).diagnostics = c.diagnostics := by
  unfold tell
  cases c.listener <;> rfl

@[simp] theorem diagnostics_report (c : Context) (message : String) :
    (c.report message).diagnostics = c.diagnostics.push message := by
  simp [report]

def reportAll (c : Context) (messages : List String) : Context := messages.foldl report c

/-- Issues one record outside any pool. Only the count remembers it. -/
def issueRecord (c : Context) : Record × Context :=
  (.fresh c.id, { c with individual := c.individual + 1 })

/-- One-line description. The identity is left out, since it differs from run to run. -/
def describe (c : Context) : String :=
  "Link \x7b id: LinkId(_), arch: " ++ Text.quoted c.target.name ++ ", headtype: " ++ c.system.name ++
    ", frame_pointer: " ++ (if c.framePointer then "true" else "false") ++
    s!", diagnostics: {c.diagnostics.size} \x7d"

end Context

end InstrStream
