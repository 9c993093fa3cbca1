import ScriptInference.Hashing.CanonicalId
import ScriptInference.Resolution.AccessChain

/-!
# Access chains as reports

A hop as a JSON row: its kind, what it accesses, and whether it is marked. Expressions are named by
their canonical ids.
-/

namespace ScriptInference

def Access.toRow : Access → Json
  | name n => .arr [.str "name", .str n]
  | member n => .arr [.str "name", .str n]
  | value e => .arr [.str "node", .str e.id, .str e.span.id]
  | index e => .arr [.str "node", .str e.id, .str e.span.id]
  | call as => .arr [.str "arguments", .strings (as.map Expr.id)]
  | slice => .arr [.str "range"]

def Hop.toRow (hop : Hop) : Json :=
  .arr [.str hop.access.kindName, hop.access.toRow, .bool hop.reference]

end ScriptInference
