import ScriptInference.Json.Basic
import ScriptInference.Syntax.Block

/-!
# Outlines of programs

The blocks of a program as a JSON report: where each block stands, what it declares, what it binds
and which functions are nested directly in it.
-/

namespace ScriptInference

def Span.toRow (s : Span) : Json :=
  .arr [.nat s.start.toNat, .nat s.stop.toNat, .nat s.line.toNat, .str s.id]

namespace Binding

def kindName : Binding → String
  | assignment _ _ _ => "assignment"
  | loop _ _ _ => "loop"

def isAssignment : Binding → Bool
  | assignment _ _ _ => true
  | loop _ _ _ => false

def toRow (b : Binding) : Json := .arr [.str b.kindName, .str b.span.id, .str b.target.kindName]

end Binding

namespace Block

def kindName : Block → String
  | chunk _ => "chunk"
  | function _ => "function"

/-- The report on a block whose enclosing block has the given id. -/
def outline (b : Block) (parent : Option String) : Json :=
  .object [("block", .str b.kindName), ("id", .str b.id), ("span", b.span.toRow),
    ("parent", .ofOption .str parent), ("statements", .nat b.body.length),
    ("parameters", .strings (b.parameters.map Param.name)),
    ("bindings", .arr (b.bindings.map Binding.toRow)),
    ("assignments", .arr ((b.bindings.filter Binding.isAssignment).map fun x => x.span.toRow)),
    ("functions", .strings (b.functions.map FunctionDecl.id))]

end Block

def Chunk.outline (c : Chunk) : Json := .arr (c.blocks.map fun b => b.1.outline b.2)

end ScriptInference
