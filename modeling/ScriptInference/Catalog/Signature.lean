import ScriptInference.Catalog.Tag
import ScriptInference.Collection.ContentSet
import ScriptInference.Collection.SortedMap
import ScriptInference.Json.Printer
import ScriptInference.Text.Crc32

/-!
# Signatures of catalog types

A definition describes one member of a type. A value member has only a type tag; a callable member
has the tag `function`, its arguments in order and the types it may return. Definitions are
deduplicated by the checksum of their canonical JSON text, in which the description takes no part. A
signature is the table of members of one type together with the element types that indexing produces
for each key type.
-/

namespace ScriptInference

structure Argument where
  label : String
  types : List String
  optional : Bool := false
  deriving DecidableEq, Repr

structure Definition where
  type : String
  arguments : List Argument := []
  returns : List String := []
  description : Option String := none
  deriving DecidableEq, Repr

namespace Argument

def toJson (a : Argument) : Json :=
  .object [("label", .str a.label), ("types", .strings a.types), ("optional", .bool a.optional)]

end Argument

namespace Definition

def value (type : String) : Definition := { type }

/-- A callable member; without return types it returns `any`. -/
def function (arguments : List Argument) (returns : List String) : Definition :=
  { type := Tag.function, arguments, returns := if returns.isEmpty then [Tag.any] else returns }

def withDescription (d : Definition) (description : String) : Definition :=
  { d with description := some description }

def isFunction (d : Definition) : Bool := d.type = Tag.function

/-- Number of arguments that must be supplied. -/
def requiredArity (d : Definition) : Nat := d.arguments.countP (!·.optional)

/-- The fields that make two definitions the same. -/
def shapeFields (d : Definition) : List (String × Json) :=
  [("type", .str d.type), ("arguments", .arr (d.arguments.map Argument.toJson)),
    ("returns", .strings d.returns)]

def canonicalText (d : Definition) : String := (Json.object d.shapeFields).text

instance : ContentHash Definition := ⟨fun d => Crc32.ofText d.canonicalText⟩

def toJson (d : Definition) : Json :=
  .object (d.shapeFields ++
    match d.description with
    | some text => [("description", .str text)]
    | none => [])

end Definition

structure Signature where
  typeName : String
  definitions : SortedMap String Definition := ∅
  indexes : SortedMap String (List String) := ∅
  deriving DecidableEq

namespace Signature

def new (typeName : String) : Signature := { typeName }

def withDefinition (s : Signature) (name : String) (d : Definition) : Signature :=
  { s with definitions := s.definitions.insert name d }

def withIndex (s : Signature) (keyType : String) (types : List String) : Signature :=
  { s with indexes := s.indexes.insert keyType types }

def definition? (s : Signature) (name : String) : Option Definition := s.definitions.get? name

/-- Element types for a key type; an entry for `any` serves the key types without one. -/
def indexTypes? (s : Signature) (keyType : String) : Option (List String) :=
  (s.indexes.get? keyType).or (s.indexes.get? Tag.any)

def toJson (s : Signature) : Json :=
  .object [("type_name", .str s.typeName),
    ("definitions", .object (s.definitions.mapValues Definition.toJson).toList),
    ("indexes", .object (s.indexes.mapValues Json.strings).toList)]

end Signature

end ScriptInference
