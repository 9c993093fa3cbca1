import ScriptInference.Json.Basic

/-!
# Records in JSON

A record with known field names is given as an object, or as an array of its fields in order. In an
object unknown fields are ignored and a known field may stand only once. An array may leave out
fields at its end, but then only fields that have a default.
-/

namespace ScriptInference.Json

structure Record where
  positional : Bool
  fields : List (String × Json)

namespace Record

def get? (r : Record) (name : String) : Option Json :=
  (r.fields.find? (fun f => f.1 = name)).map (·.2)

def required {α : Type} (r : Record) (name : String) (decode : Json → Option α) : Option α :=
  (r.get? name).bind decode

/-- A field that may be missing from an object, or null. -/
def optional {α : Type} (r : Record) (name : String) (decode : Json → Option α) :
    Option (Option α) :=
  match r.get? name with
  | none => if r.positional then none else some none
  | some .null => some none
  | some j => (decode j).map some

/-- A field that may be missing, but not null. -/
def withDefault {α : Type} (r : Record) (name : String) (default : α) (decode : Json → Option α) :
    Option α :=
  match r.get? name with
  | none => some default
  | some j => decode j

end Record

/-- The known fields of an object: `none` when a key denotes no text or a known field is
repeated. -/
def knownFields (names : List String) :
    List (Option String × Json) → Option (List (String × Json))
  | [] => some []
  | (none, _) :: _ => none
  | (some key, j) :: rest => do
    let known ← knownFields names rest
    if names.contains key then
      if known.any (fun f => f.1 = key) then none else some ((key, j) :: known)
    else some known

def asRecord? (names : List String) : Json → Option Record
  | .obj fields => (knownFields names fields).map fun known => ⟨false, known⟩
  | .arr items =>
    if items.length ≤ names.length then some ⟨true, names.zip items⟩ else none
  | _ => none

/-- All items, each decoded. -/
def asListOf? {α : Type} (decode : Json → Option α) (j : Json) : Option (List α) :=
  j.asArray?.bind fun items => items.mapM decode

def asStrings? (j : Json) : Option (List String) := j.asListOf? asString?

/-- The pairs of an object; every key must denote a text. -/
def asPairs? {α : Type} (decode : Json → Option α) : Json → Option (List (String × α))
  | .obj fields => fields.mapM fun f => do
    let key ← f.1
    let value ← decode f.2
    return (key, value)
  | _ => none

end ScriptInference.Json
