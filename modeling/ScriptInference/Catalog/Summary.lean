import ScriptInference.Catalog.Signature

/-!
# Summaries of signatures

Short JSON reports on definitions and signatures, in which definitions are named by their content
hash.
-/

namespace ScriptInference

def Argument.toRow (a : Argument) : Json := .arr [.str a.label, .strings a.types, .bool a.optional]

namespace Definition

def toRow (d : Definition) : Json :=
  .arr [.nat (contentHash d).toNat, .strings d.returns, .arr (d.arguments.map Argument.toRow)]

def summary (d : Definition) : Json :=
  .object [("type", .str d.type), ("function", .bool d.isFunction),
    ("args", .arr (d.arguments.map Argument.toRow)), ("returns", .strings d.returns),
    ("description", .ofOption .str d.description), ("hash", .nat (contentHash d).toNat),
    ("arity", .nat d.requiredArity)]

end Definition

def Signature.summary (s : Signature) : Json :=
  .object [("name", .str s.typeName),
    ("definitions", .arr (s.definitions.toList.map fun d =>
      .arr [.str d.1, .nat (contentHash d.2).toNat])),
    ("indexes", .arr (s.indexes.toList.map fun i => .arr [.str i.1, .strings i.2]))]

end ScriptInference
