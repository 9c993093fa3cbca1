/-!
# Options of inference
-/

namespace ScriptInference

/-- Access chains of more than `maxChainLength` hops are not resolved. With `mergeReassignments`,
binding a name again joins the old and the new value. With `implicitLoopIndex`, a loop over `x` also
binds `__x_idx`. -/
structure Options where
  hashCacheCapacity : Nat := 50
  maxChainLength : Nat := 64
  mergeReassignments : Bool := true
  implicitLoopIndex : Bool := true
  deriving DecidableEq, Repr

namespace Options

/-- The last assignment wins. -/
def strict : Options := { mergeReassignments := false }

/-- Only what the program spells out. -/
def minimal : Options := { strict with implicitLoopIndex := false }

def preset? (name : String) : Option Options :=
  if name = "default" then some {}
  else if name = "strict" then some strict
  else if name = "minimal" then some minimal
  else none

end Options

end ScriptInference
