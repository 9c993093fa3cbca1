import ScriptInference.Json.Parser
import ScriptInference.Syntax.Block
import ScriptInference.Syntax.Json

/-!
# Handing chunks over as text

A chunk read from text must have distinct block ids, since scopes are kept by block id. A malformed
text is reported before a repeated id.
-/

namespace ScriptInference

inductive ChunkError where
  | malformed
  | duplicateBlockId (id : String)
  deriving DecidableEq, Repr

namespace ChunkError

def message : ChunkError → String
  | malformed => "Malformed AST payload"
  | duplicateBlockId id => s!"Node id '{id}' is used by more than one block"

end ChunkError

/-- The first element that repeats an earlier one; `seen` lists the earlier ones. -/
def firstRepeat? {α : Type} [DecidableEq α] (seen : List α) : List α → Option α
  | [] => none
  | a :: rest => if a ∈ seen then some a else firstRepeat? (a :: seen) rest

namespace Chunk

def text (c : Chunk) : String := c.toJson.text

def ofText (s : String) : Except ChunkError Chunk :=
  match (Json.parse? s).bind ofJson? with
  | none => .error .malformed
  | some c =>
    match firstRepeat? [] c.blockIds with
    | some id => .error (.duplicateBlockId id)
    | none => .ok c

end Chunk

end ScriptInference
