import ScriptInference.Syntax.Walk

/-!
# Lexical blocks

The blocks of a program are its chunk and its function bodies. A block owns the binding sites that
the walk meets between its beginning and its end and outside every function nested in it; statements
inside conditionals and loops belong to the enclosing block, and so do default values of its
parameters.
-/

namespace ScriptInference

inductive Block where
  | chunk (c : Chunk)
  | function (f : FunctionDecl)

namespace Block

def span : Block → Span
  | chunk c => c.span
  | function f => f.span

def id (b : Block) : String := b.span.id

def body : Block → List Stmt
  | chunk c => c.body
  | function f => f.body

def parameters : Block → List Param
  | chunk _ => []
  | function f => f.parameters

/-- What the walk meets inside the block. -/
def interior (b : Block) : List Event := walkParams b.parameters ++ walkStmts b.body

end Block

/-- The part of a walk at nesting depth zero, starting at the given depth. A function that begins
there is kept, its interior is not. -/
def surface : Nat → List Event → List Event
  | _, [] => []
  | 0, .enter f :: es => .enter f :: surface 1 es
  | 0, e :: es => e :: surface 0 es
  | d + 1, .enter _ :: es => surface (d + 2) es
  | d + 1, .leave :: es => surface d es
  | d + 1, _ :: es => surface (d + 1) es

namespace Block

/-- Assignments and loops of the block, in source order. -/
def bindings (b : Block) : List Binding :=
  (surface 0 b.interior).filterMap fun
    | .binding x => some x
    | _ => none

/-- Functions directly nested in the block. -/
def functions (b : Block) : List FunctionDecl :=
  (surface 0 b.interior).filterMap fun
    | .enter f => some f
    | _ => none

end Block

/-- The blocks that begin in a walk, each with the id of the innermost block around it; `around`
lists the ids of the blocks around the walk, innermost first. -/
def nestedBlocks : List String → List Event → List (Block × Option String)
  | _, [] => []
  | around, .enter f :: es => (.function f, around.head?) :: nestedBlocks (f.id :: around) es
  | around, .leave :: es => nestedBlocks around.tail es
  | around, _ :: es => nestedBlocks around es

namespace Chunk

/-- Every block with the id of its enclosing block, enclosing blocks first. -/
def blocks (c : Chunk) : List (Block × Option String) :=
  (.chunk c, none) :: nestedBlocks [c.span.id] c.walk

def blockIds (c : Chunk) : List String := c.blocks.map (·.1.id)

end Chunk

end ScriptInference
