import ScriptInference.Scope.Namespace

/-!
# Binding values

Maps and lists are bound as they are; any other value is bound as a copy that carries the name and
the line of its binding. A function bound into an entity gets that entity as its context. With
merging, a value bound over others becomes the union of the old values and the new one.
-/

namespace ScriptInference.Infer

/-- The entity to be stored for a value; consumes the hold on the value. -/
def prepare (value : Handle) (name : Option String) (line : UInt64) : Infer Handle := do
  let e ← node value
  if e.isReferenceShaped then
    match name with
    | some label => if e.label.isEmpty then modify (Store.modifyNode value ({ · with label }))
    | none => pure ()
    return value
  else
    let kind := if name.isSome && e.kind != .function then some EntityKind.variable else none
    let fresh ← copy value { kind, label := name, line := some line }
    release value
    return fresh

/-- The distinct entities stored in the slots of a key, other than the given one. -/
def stored (s : Store) (n : Namespace) (key : Property) (value : Handle) : List Handle :=
  (((s.slots key).filterMap (n.local? s)).filter (· ≠ value)).eraseDups

/-- The union of a value with what its slots hold; consumes the hold on the value. -/
def mergeStored (n : Namespace) (key : Property) (value : Handle) : Infer Handle := do
  let s ← get
  match stored s n key value with
  | [] => return value
  | old =>
    let e := s.node value
    let merged ← union e.kind e.label (old ++ [value])
    release value
    return merged

/-- Binds a value under a key, consuming the hold on it. The answer tells whether the namespace took
it. -/
def bind (merge : Bool) (n : Namespace) (key : Property) (value : Handle) (line : UInt64) :
    Infer Bool := do
  if (← node value).kind = .function then
    match n.owner? with
    | some owner => modify (Store.setContext value owner)
    | none => pure ()
  let name := match key with
    | .identifier name => some name
    | .value _ => none
  let bound ← prepare value name line
  let bound ← if merge then mergeStored n key bound else pure bound
  modifyGet (n.setProperty key bound)

end ScriptInference.Infer
