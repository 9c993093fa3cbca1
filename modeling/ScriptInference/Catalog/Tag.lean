/-!
# Type tags

A type is named by a tag. Eight tags are primitive; `any` is the universal type, and `general` is
the type that holds the members available without a receiver.
-/

namespace ScriptInference.Tag

def any : String := "any"

def string : String := "string"

def number : String := "number"

def map : String := "map"

def list : String := "list"

def function : String := "function"

def null : String := "null"

def general : String := "general"

def primitives : List String := [general, any, string, number, map, list, function, null]

def isPrimitive (tag : String) : Bool := primitives.contains tag

end ScriptInference.Tag
