import ScriptInference.Entity.Join

/-!
# Reading and writing members

A lookup asks the entity and then its prototypes, nearest first. The entity itself must be able to
hold members, and the search goes on only through prototypes tagged as maps, lists or `any`.
Prototype links may form a cycle; the chain is cut before the first node that would occur twice.

A member is asked for by name or by a value. A value selects the members stored under its type tags,
and several different ones are answered by their union. Reading a callable member calls it, unless
the call is suppressed.
-/

namespace ScriptInference

inductive Property where
  | identifier (name : String)
  | value (key : Handle)
  deriving DecidableEq, Repr

namespace Store

/-- The chain from `h`, whose nodes so far are `seen`. -/
def isaFrom (s : Store) : Nat → Std.TreeSet Handle → Handle → List Handle
  | 0, _, h => [h]
  | bound + 1, seen, h =>
    match s.isa? h with
    | none => [h]
    | some p => if seen.contains p then [h] else h :: isaFrom s bound (seen.insert p) p

/-- The entity followed by its prototypes, nearest first. -/
def isaChain (s : Store) (h : Handle) : List Handle := s.isaFrom s.size {h} h

/-- The nodes that answer a lookup. -/
def lookupChain (s : Store) (h : Handle) : List Handle :=
  match s.isaChain h with
  | [] => []
  | first :: rest =>
    if (s.node first).isMapShaped then
      first :: rest.takeWhile fun p => (s.node p).isInheritable
    else []

/-- The member stored under a name. Passes no hold. -/
def findName? (s : Store) (h : Handle) (name : String) : Option Handle :=
  (s.lookupChain h).findSome? fun n => s.member? n (.identifier name)

/-- The distinct members that a key of the given types selects, on the first node that has any.
Passes no hold. -/
def findIndexed (s : Store) (h : Handle) (keyTypes : SortedSet String) : List Handle :=
  (((s.lookupChain h).map fun n => ((s.node n).indexMatches keyTypes).eraseDups).find?
    (!·.isEmpty)).getD []

/-- Writes a member, consuming the caller's hold on it. An entity that cannot hold members refuses,
and so does every entity for a key without types. -/
def setProperty (h : Handle) (key : Property) (value : Handle) (s : Store) : Bool × Store :=
  if !(s.node h).isMapShaped then (false, s.release value)
  else
    match key with
    | .identifier name => (true, s.putMember h (.identifier name) value)
    | .value k =>
      match (s.node k).types.toList with
      | [] => (false, s.release value)
      | tags =>
        let s := tags.foldl (fun s tag => (s.retain value).putMember h (.type tag) value) s
        (true, s.release value)

/-- The keys that a property is written under. -/
def slots (s : Store) : Property → List EntryKey
  | .identifier name => [.identifier name]
  | .value k => (s.node k).types.toList.map .type

end Store

namespace Infer

/-- The stored member for a key. Never calls it. -/
def lookup (h : Handle) : Property → Infer (Option Handle)
  | .identifier name => do
    match (← get).findName? h name with
    | some found => return some (← retain found)
    | none => return none
  | .value k => do
    let s ← get
    match s.findIndexed h (s.node k).types with
    | [] => return none
    | [found] => return some (← retain found)
    | first :: rest =>
      let e := s.node first
      return some (← union e.kind e.label (first :: rest))

def hasProperty (h : Handle) (key : Property) : Infer Bool := do
  match ← lookup h key with
  | some found =>
    release found
    return true
  | none => return false

/-- What a call returns: a copy of the declared result, or a new entity of the return types. -/
def invoke (h : Handle) : Infer Handle := do
  let e ← node h
  match e.result with
  | some r => copy r { kind := some .expression }
  | none =>
    let types := e.returnTypes
    alloc
      { kind := .expression, label := e.label
        types := if types.isEmpty then .ofList [Tag.any] else types }

/-- A member as an expression reads it; consumes the hold on the member. -/
def readMember (found : Handle) (suppress : Bool) : Infer Handle := do
  if !suppress && (← node found).isCallable then
    let called ← invoke found
    release found
    return called
  else return found

def resolveMember (h : Handle) (key : Property) (suppress : Bool) : Infer (Option Handle) := do
  match ← lookup h key with
  | some found => return some (← readMember found suppress)
  | none => return none

def setProperty (h : Handle) (key : Property) (value : Handle) : Infer Bool :=
  modifyGet (Store.setProperty h key value)

end Infer

end ScriptInference
