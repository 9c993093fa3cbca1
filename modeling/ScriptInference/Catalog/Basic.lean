import ScriptInference.Catalog.Signature

/-!
# Catalogs of types

A catalog keeps the signatures of primitive types apart from those of named library types. A type is
stored under its own name, and inserting it again replaces the earlier signature.
-/

namespace ScriptInference

structure Catalog where
  primitives : SortedMap String Signature := ∅
  types : SortedMap String Signature := ∅
  deriving DecidableEq

namespace Catalog

def empty : Catalog := {}

def insert (c : Catalog) (s : Signature) : Catalog :=
  if Tag.isPrimitive s.typeName then { c with primitives := c.primitives.insert s.typeName s }
  else { c with types := c.types.insert s.typeName s }

def get? (c : Catalog) (typeName : String) : Option Signature :=
  (c.primitives.get? typeName).or (c.types.get? typeName)

/-- Names of the primitive types, then of the others. -/
def typeNames (c : Catalog) : List String := c.primitives.keys ++ c.types.keys

end Catalog

inductive CatalogError where
  | malformed
  | unreadable
  | missingType (typeName member : String)
  | missingArgumentLabel (typeName member : String) (argument : Nat)
  deriving DecidableEq, Repr

namespace CatalogError

def message : CatalogError → String
  | malformed => "Malformed catalog"
  | unreadable => "Failed to read catalog"
  | missingType typeName member => s!"Member '{member}' of type '{typeName}' has no type"
  | missingArgumentLabel typeName member argument =>
    s!"Argument '{argument}' of '{typeName}.{member}' has no label"

end CatalogError

end ScriptInference
