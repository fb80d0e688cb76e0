import InstrStream.Pool

/-! Chains: the handles met by following links. A chain of a pool visits no record twice unless it
never ends, so more visits than there are slots mean that it never ends. -/
namespace InstrStream.Pool

def chainWithin (p : Pool) : Nat → Option Handle → Except Fault (List Handle)
  | _, none => .ok []
  | 0, some h => .error (if h.index < p.size then .endlessChain h else .outOfBounds h)
  | fuel + 1, some h =>
    match p.get? h with
    | none => .error (.outOfBounds h)
    | some r =>
      match p.chainWithin fuel r.link with
      | .ok rest => .ok (h :: rest)
      | .error e => .error e

/-- The handles of the chain that starts at `head`, in order. -/
def chain (p : Pool) (head : Option Handle) : Except Fault (List Handle) :=
  p.chainWithin p.size head

/-- Links each handle to the one after it, and the last one to `next`. -/
def linkAll (p : Pool) (next : Option Handle) : List Handle → Pool
  | [] => p
  | [h] => p.modify h fun r => { r with link := next }
  | h :: k :: rest => linkAll (p.modify h fun r => { r with link := some k }) next (k :: rest)

end InstrStream.Pool
