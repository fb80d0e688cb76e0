import InstrStream.Backend

/-! Registries: backends by name. The entries are kept in ascending order of their names, compared
code point by code point. -/
namespace InstrStream

structure Registry where
  entries : List (String × Backend)

namespace Registry

def empty : Registry := ⟨[]⟩

/-- Puts a backend at its place among ordered entries, instead of one with the same name. -/
def place (name : String) (backend : Backend) : List (String × Backend) → List (String × Backend)
  | [] => [(name, backend)]
  | (key, other) :: rest =>
    if name = key then (name, backend) :: rest
    else if name < key then (name, backend) :: (key, other) :: rest
    else (key, other) :: place name backend rest

def resolve? (r : Registry) (name : String) : Option Backend := r.entries.lookup name

/-- Registers a backend; the one that had the name before, if any, is returned. -/
def register (r : Registry) (name : String) (backend : Backend) : Option Backend × Registry :=
  (r.resolve? name, ⟨place name backend r.entries⟩)

def names (r : Registry) : List String := r.entries.map Prod.fst

def describe (r : Registry) : String :=
  "Registry \x7b arches: " ++ Text.quotedList r.names ++ " \x7d"

end Registry

end InstrStream
