import ScriptInference.Syntax.Basic

/-!
# Access chains

An access expression such as `a.b[c]()` is read as a chain of hops from its root outwards. The root
is a name or a literal value; indexing with a string literal is a member hop. The mark `@` in front
of an access belongs to the hop it stands before, and repeating it changes nothing.
-/

namespace ScriptInference

inductive Access where
  | name (name : String)
  | value (node : Expr)
  | member (name : String)
  | index (node : Expr)
  | call (arguments : List Expr)
  | slice

structure Hop where
  access : Access
  reference : Bool

namespace Access

def isCall : Access → Bool
  | call _ => true
  | _ => false

def kindName : Access → String
  | name _ => "Identifier"
  | value _ => "Value"
  | member _ => "Member"
  | index _ => "Index"
  | call _ => "Call"
  | slice => "Slice"

end Access

namespace Expr

/-- The hop for indexing with `i`. -/
def indexAccess (i : Expr) : Access :=
  match i.stringLiteral? with
  | some name => .member name
  | none => .index i

/-- The hops of an expression in front of those already collected; `reference` tells whether a mark
is waiting for its hop. -/
def hopsOnto : Expr → Bool → List Hop → Option (List Hop)
  | .unary .reference a _, _, acc => a.hopsOnto true acc
  | .member b n _, r, acc => b.hopsOnto false (⟨.member n, r⟩ :: acc)
  | .index b i _, r, acc => b.hopsOnto false (⟨i.indexAccess, r⟩ :: acc)
  | .slice b _ _ _, r, acc => b.hopsOnto false (⟨.slice, r⟩ :: acc)
  | .call b as _, r, acc => b.hopsOnto false (⟨.call as, r⟩ :: acc)
  | .identifier n _, r, acc => some (⟨.name n, r⟩ :: acc)
  | e, r, acc => if e.isValue then some (⟨.value e, r⟩ :: acc) else none

/-- The hops from the root outwards; `none` when the root is neither a name nor a value. -/
def accessChain (e : Expr) : Option (List Hop) := e.hopsOnto false []

end Expr

end ScriptInference
