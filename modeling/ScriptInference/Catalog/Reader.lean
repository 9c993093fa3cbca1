import ScriptInference.Catalog.Basic
import ScriptInference.Json.Parser
import ScriptInference.Json.Record

/-!
# Reading catalogs

A catalog text is a JSON object from type names to signatures. The whole text is read before
anything is checked. Then the types are taken in name order, and within a type the members in name
order; each type is inserted as soon as it has passed, so a fault leaves the types before it in
place. Of repeated type or member names the last one counts.
-/

namespace ScriptInference

/-- An argument as it stands in the text. -/
structure RawArgument where
  label : Option String
  types : List String
  optional : Bool

structure RawDefinition where
  type : Option String
  arguments : List RawArgument
  returns : List String
  description : Option String

structure RawSignature where
  definitions : SortedMap String RawDefinition
  indexes : SortedMap String (List String)

abbrev RawCatalog := SortedMap String RawSignature

namespace RawArgument

def ofJson? (j : Json) : Option RawArgument := do
  let r ← j.asRecord? ["label", "types", "optional"]
  return {
    label := ← r.optional "label" Json.asString?
    types := ← r.withDefault "types" [] Json.asStrings?
    optional := ← r.withDefault "optional" false Json.asBool? }

/-- An argument needs a label; without types it takes `any`. -/
def check (typeName member : String) (position : Nat) (a : RawArgument) :
    Except CatalogError Argument :=
  match a.label with
  | none => .error (.missingArgumentLabel typeName member position)
  | some label =>
    .ok { label, types := if a.types.isEmpty then [Tag.any] else a.types, optional := a.optional }

def checkAll (typeName member : String) : Nat → List RawArgument →
    Except CatalogError (List Argument)
  | _, [] => .ok []
  | position, a :: rest => do
    let first ← a.check typeName member position
    let others ← checkAll typeName member (position + 1) rest
    return first :: others

end RawArgument

namespace RawDefinition

def ofJson? (j : Json) : Option RawDefinition := do
  let r ← j.asRecord? ["type", "arguments", "returns", "description"]
  return {
    type := ← r.optional "type" Json.asString?
    arguments := ← r.withDefault "arguments" [] (Json.asListOf? RawArgument.ofJson?)
    returns := ← r.withDefault "returns" [] Json.asStrings?
    description := ← r.optional "description" Json.asString? }

def describe (d : Definition) : Option String → Definition
  | some text => d.withDescription text
  | none => d

/-- A member needs a type; only callable members keep arguments and return types. -/
def check (typeName member : String) (d : RawDefinition) : Except CatalogError Definition :=
  match d.type with
  | none => .error (.missingType typeName member)
  | some type =>
    if type.isEmpty then .error (.missingType typeName member)
    else if type = Tag.function then do
      let arguments ← RawArgument.checkAll typeName member 0 d.arguments
      return describe (.function arguments d.returns) d.description
    else .ok (describe (.value type) d.description)

end RawDefinition

namespace RawSignature

def ofJson? (j : Json) : Option RawSignature := do
  let r ← j.asRecord? ["definitions", "indexes"]
  return {
    definitions := .ofList (← r.withDefault "definitions" [] (Json.asPairs? RawDefinition.ofJson?))
    indexes := .ofList (← r.withDefault "indexes" [] (Json.asPairs? Json.asStrings?)) }

def checkMembers (typeName : String) : List (String × RawDefinition) → Signature →
    Except CatalogError Signature
  | [], s => .ok s
  | (member, d) :: rest, s => do
    let definition ← d.check typeName member
    checkMembers typeName rest (s.withDefinition member definition)

def check (typeName : String) (raw : RawSignature) : Except CatalogError Signature :=
  checkMembers typeName raw.definitions.toList { typeName, indexes := raw.indexes }

end RawSignature

namespace Catalog

def readText? (text : String) : Option RawCatalog := do
  let j ← Json.parse? text
  return .ofList (← j.asPairs? RawSignature.ofJson?)

/-- Inserts checked types in order, up to the first fault. -/
def insertChecked (c : Catalog) : List (String × RawSignature) → Catalog × Except CatalogError Unit
  | [] => (c, .ok ())
  | (typeName, raw) :: rest =>
    match raw.check typeName with
    | .error e => (c, .error e)
    | .ok s => insertChecked (c.insert s) rest

/-- Adds the types of a text; types of the same name are replaced. -/
def extend (c : Catalog) (text : String) : Catalog × Except CatalogError Unit :=
  match readText? text with
  | none => (c, .error .malformed)
  | some raw => c.insertChecked raw.toList

def ofText (text : String) : Except CatalogError Catalog :=
  match empty.extend text with
  | (c, .ok ()) => .ok c
  | (_, .error e) => .error e

/-- The catalog in a file with the given content; `none` is a file that cannot be opened. -/
def ofFile (content : Option ByteArray) : Except CatalogError Catalog :=
  match content.bind String.fromUTF8? with
  | none => .error .unreadable
  | some text => ofText text

end Catalog

end ScriptInference
