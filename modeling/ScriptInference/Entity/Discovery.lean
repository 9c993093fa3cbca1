import ScriptInference.Collection.Enumeration
import ScriptInference.Entity.Store

/-!
# Nodes in order of discovery

Following edges from a list of roots, nodes are numbered in the order in which they are first met:
the roots in order, then the neighbours of each node in turn. The list has no repetitions and is
closed under the edges.
-/

namespace ScriptInference

/-- Continues from the node at the given position. -/
def discoverFrom (edges : Handle → List Handle) :
    Nat → Nat → Enumeration Handle → Enumeration Handle
  | 0, _, known => known
  | bound + 1, position, known =>
    match known.items[position]? with
    | none => known
    | some h => discoverFrom edges bound (position + 1) (known.addAll (edges h))

/-- Everything reachable from the roots. Each step finishes one node, so the size of the store is
bound enough. -/
def Store.discover (s : Store) (edges : Handle → List Handle) (roots : List Handle) :
    Enumeration Handle :=
  discoverFrom edges s.size 0 (Enumeration.empty.addAll roots)

end ScriptInference
