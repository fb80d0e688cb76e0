import InstrStream.Chain
import InstrStream.Context

/-! A workspace is a pool together with the context its records belong to. It is what a backend works
in: records it makes come from the same pool, by the same rule, as those of the caller. -/
namespace InstrStream

structure Workspace where
  ctx : Context
  pool : Pool
deriving DecidableEq, Repr

namespace Workspace

def note (w : Workspace) (level : Level) (message : String) : Workspace :=
  { w with ctx := w.ctx.note level message }

def report (w : Workspace) (message : String) : Workspace := { w with ctx := w.ctx.report message }

/-- The context after record `h` came too late for the block. The first such record is noted apart. -/
def overflowed (w : Workspace) (h : Handle) : Context :=
  let ctx :=
    if w.pool.overflow = 0 then
      w.ctx.note .debug (s!"instruction block of {w.pool.capacity} records exhausted, " ++
        "falling back to individual records")
    else w.ctx
  (ctx.note .trace ("overflow record " ++ h.text)).issueRecord.2

/-- Issues a fresh record of this workspace's context. -/
def alloc (w : Workspace) : Handle × Workspace :=
  let (h, pool) := w.pool.issue w.ctx.id
  (h, ⟨if w.pool.hasRoom then w.ctx else w.overflowed h, pool⟩)

@[simp] theorem alloc_fst (w : Workspace) : w.alloc.1 = ⟨w.pool.issued⟩ := Pool.issue_fst ..

def modify (w : Workspace) (h : Handle) (f : Record → Record) : Workspace :=
  { w with pool := w.pool.modify h f }

def update (w : Workspace) (h : Handle) (f : Record → Record) : Except Fault Workspace := do
  return { w with pool := ← w.pool.update h f }

end Workspace

end InstrStream
