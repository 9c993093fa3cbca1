import ScriptInference.Entity.Copy

/-!
# Computations over the store

Inference reads and extends the store. Joining two entities follows their members in parallel, and
on some cyclic graphs this never ends: every round meets a copy made by the round before. Joins
therefore carry a bound on the number of their steps, and a computation that exceeds it has no
result: it stops with the store it has reached.
-/

namespace ScriptInference

/-- A computation over the store under a bound on the steps of each join. -/
abbrev Infer (α : Type) := ReaderT Nat (StateT Store (Except Store)) α

namespace Infer

/-- More steps than a join of any practical size takes. -/
def defaultBound : Nat := 4000000

def alloc (e : Entity) : Infer Handle := modifyGet (Store.alloc e)

def copy (h : Handle) (o : Overrides) : Infer Handle := modifyGet (Store.copy h o)

def retain (h : Handle) : Infer Handle := do
  modify (Store.retain h)
  return h

def release (h : Handle) : Infer Unit := modify (Store.release h)

def releaseAll (hs : List Handle) : Infer Unit := modify (Store.releaseAll hs)

def inherit (h prototype : Handle) : Infer Unit := modify (Store.inherit h prototype)

def node (h : Handle) : Infer Entity := return (← get).node h

end Infer

end ScriptInference
