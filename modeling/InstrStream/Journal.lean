/-! The journal of a job: what was noted along the way, oldest first. Nothing reads it back. -/
namespace InstrStream

inductive Level where
  | trace
  | debug
  | warn
deriving DecidableEq, Repr

def Level.name : Level → String
  | .trace => "TRACE"
  | .debug => "DEBUG"
  | .warn => "WARN"

structure Event where
  level : Level
  message : String
deriving DecidableEq, Repr

def Event.text (e : Event) : String := e.level.name ++ " " ++ e.message

abbrev Journal := Array Event

end InstrStream
