import ScriptInference.Catalog.Basic

/-!
# The intrinsic types of MiniScript

The catalog that is used when a program brings none of its own: the members of the primitive types,
and under `general` the functions that need no receiver.
-/

namespace ScriptInference.Intrinsics

/-- An argument that must be given. -/
def need (label : String) (types : List String) : Argument := { label, types }

/-- An argument that may be left out. -/
def may (label : String) (types : List String) : Argument := { label, types, optional := true }

def method (name : String) (arguments : List Argument) (returns : List String)
    (description : Option String := none) : String × Definition :=
  (name, { Definition.function arguments returns with description })

def generalMembers : List (String × Definition) :=
  [method "abs" [need "x" ["number"]] ["number"],
    method "bitAnd" [need "a" ["number"], need "b" ["number"]] ["number"],
    method "bitOr" [need "a" ["number"], need "b" ["number"]] ["number"],
    method "bitXor" [need "a" ["number"], need "b" ["number"]] ["number"],
    method "ceil" [need "x" ["number"]] ["number"],
    method "char" [need "code" ["number"]] ["string"],
    method "code" [need "self" ["string"]] ["number"],
    method "cos" [need "radians" ["number"]] ["number"],
    method "floor" [need "x" ["number"]] ["number"],
    method "funcRef" [] ["map"],
    method "hasIndex" [need "self" ["string", "list", "map"], need "index" ["any"]] ["number"],
    method "hash" [need "value" ["any"]] ["number"],
    method "indexOf" [need "self" ["string", "list", "map"], need "value" ["any"],
      may "after" ["any"]] ["any"],
    method "indexes" [need "self" ["string", "list", "map"]] ["list"],
    method "insert" [need "self" ["string", "list"], need "index" ["number"],
      need "value" ["any"]] ["string", "list"],
    method "intrinsics" [] ["map"],
    method "join" [need "self" ["list"], may "delimiter" ["string"]] ["string"],
    method "len" [need "self" ["string", "list", "map"]] ["number"]
      "Length of a string, list or map.",
    method "list" [] ["map"],
    method "lower" [need "self" ["string"]] ["string"],
    method "map" [] ["map"],
    method "number" [] ["map"],
    method "pi" [] ["number"],
    method "pop" [need "self" ["list", "map"]] ["any"],
    method "print" [may "value" ["any"], may "delimiter" ["string"]] ["null"]
      "Print a value to the text display.",
    method "pull" [need "self" ["list", "map"]] ["any"],
    method "push" [need "self" ["list", "map"], need "value" ["any"]] ["list", "map"],
    method "range" [need "from" ["number"], may "to" ["number"], may "step" ["number"]] ["list"]
      "List of numbers from `from` to `to`.",
    method "refEquals" [need "a" ["any"], need "b" ["any"]] ["number"],
    method "remove" [need "self" ["string", "list", "map"], need "key" ["any"]] ["any"],
    method "replace" [need "self" ["string", "list", "map"], need "oldValue" ["any"],
      need "newValue" ["any"], may "maxCount" ["number"]] ["string", "list", "map"],
    method "rnd" [may "seed" ["number"]] ["number"],
    method "round" [need "x" ["number"], may "decimalPlaces" ["number"]] ["number"],
    method "shuffle" [need "self" ["list", "map"]] ["null"],
    method "sign" [need "x" ["number"]] ["number"],
    method "sin" [need "radians" ["number"]] ["number"],
    method "slice" [need "seq" ["string", "list"], may "from" ["number"],
      may "to" ["number"]] ["string", "list"],
    method "sort" [need "self" ["list"], may "byKey" ["any"],
      may "ascending" ["number"]] ["list"],
    method "split" [need "self" ["string"], may "delimiter" ["string"],
      may "maxCount" ["number"]] ["list"],
    method "sqrt" [need "x" ["number"]] ["number"],
    method "stackTrace" [] ["list"],
    method "str" [need "value" ["any"]] ["string"],
    method "string" [] ["map"],
    method "sum" [need "self" ["list", "map"]] ["number"],
    method "tan" [need "radians" ["number"]] ["number"],
    method "time" [] ["number"] "Seconds since the program started.",
    method "upper" [need "self" ["string"]] ["string"],
    method "val" [need "self" ["any"]] ["number"],
    method "values" [need "self" ["string", "list", "map"]] ["list"],
    method "version" [] ["map"],
    method "wait" [may "seconds" ["number"]] ["null"] "Pause execution.",
    method "yield" [] ["null"]]

def listMembers : List (String × Definition) :=
  [method "hasIndex" [need "index" ["any"]] ["number"],
    method "indexOf" [need "value" ["any"], may "after" ["any"]] ["any"],
    method "indexes" [] ["list"],
    method "insert" [need "index" ["number"], need "value" ["any"]] ["list"],
    method "join" [may "delimiter" ["string"]] ["string"],
    method "len" [] ["number"],
    method "pop" [] ["any"],
    method "pull" [] ["any"],
    method "push" [need "value" ["any"]] ["list"],
    method "remove" [need "key" ["any"]] ["null"],
    method "replace" [need "oldValue" ["any"], need "newValue" ["any"],
      may "maxCount" ["number"]] ["list"],
    method "shuffle" [] ["null"],
    method "sort" [may "byKey" ["any"], may "ascending" ["number"]] ["list"],
    method "sum" [] ["number"],
    method "values" [] ["list"]]

def mapMembers : List (String × Definition) :=
  [method "hasIndex" [need "index" ["any"]] ["number"],
    method "indexOf" [need "value" ["any"], may "after" ["any"]] ["any"],
    method "indexes" [] ["list"],
    method "len" [] ["number"],
    method "pop" [] ["any"],
    method "pull" [] ["any"],
    method "push" [need "value" ["any"]] ["map"],
    method "remove" [need "key" ["any"]] ["number"],
    method "replace" [need "oldValue" ["any"], need "newValue" ["any"],
      may "maxCount" ["number"]] ["map"],
    method "shuffle" [] ["null"],
    method "sum" [] ["number"],
    method "values" [] ["list"]]

def stringMembers : List (String × Definition) :=
  [method "code" [] ["number"],
    method "hasIndex" [need "index" ["any"]] ["number"],
    method "indexOf" [need "value" ["any"], may "after" ["any"]] ["any"],
    method "indexes" [] ["list"],
    method "insert" [need "index" ["number"], need "value" ["any"]] ["string"],
    method "len" [] ["number"],
    method "lower" [] ["string"],
    method "remove" [need "key" ["any"]] ["string"],
    method "replace" [need "oldValue" ["any"], need "newValue" ["any"],
      may "maxCount" ["number"]] ["string"],
    method "split" [may "delimiter" ["string"], may "maxCount" ["number"]] ["list"],
    method "upper" [] ["string"],
    method "val" [] ["number"],
    method "values" [] ["list"]]

def signature (typeName : String) (members : List (String × Definition))
    (indexes : List (String × List String) := []) : Signature :=
  { typeName, definitions := .ofList members, indexes := .ofList indexes }

def signatures : List Signature :=
  [signature "any" [],
    signature "function" [],
    signature "general" generalMembers,
    signature "list" listMembers [("number", ["any"])],
    signature "map" mapMembers [("any", ["any"])],
    signature "null" [],
    signature "number" [],
    signature "string" stringMembers [("number", ["string"])]]

end ScriptInference.Intrinsics

namespace ScriptInference

def Catalog.intrinsics : Catalog := Intrinsics.signatures.foldl Catalog.insert .empty

end ScriptInference
