import ScriptInference.Catalog.Basic
import ScriptInference.Entity.Describe

/-!
# The registry of types

A registry holds one seeded entity for each type of its catalog and those registered while running.
A name, once taken, keeps its entity. Registered entities are never handed out by the definition
queries: what they return is a copy.

A property asked of several types at once is settled in a fixed order: a single candidate type
decides; then the definition on `any`; then the general definition; then the only match; and
otherwise the union of all matches.
-/

namespace ScriptInference

/-- The registry holds every entity of `types`, and those of `primitives` once more. -/
structure TypeRegistry where
  catalog : Catalog
  primitives : SortedMap String Handle := ∅
  types : SortedMap String Handle := ∅
  customs : SortedSet String := ∅

namespace TypeRegistry

def holds (r : TypeRegistry) : List Handle := r.primitives.values ++ r.types.values

def seedPrimitive (r : TypeRegistry) (signature : Signature) (s : Store) : TypeRegistry × Store :=
  let (h, s) := s.ofSignature signature
  ({ r with
      primitives := r.primitives.insert signature.typeName h
      types := r.types.insert signature.typeName h }, s.retain h)

def seedType (r : TypeRegistry) (signature : Signature) (s : Store) : TypeRegistry × Store :=
  let (h, s) := s.ofSignature signature
  ({ r with types := r.types.insert signature.typeName h }, s)

/-- A registry with one entity for each type of the catalog. -/
def new (catalog : Catalog) (s : Store) : TypeRegistry × Store :=
  let seeded :=
    catalog.primitives.values.foldl (fun (r, s) signature => seedPrimitive r signature s)
    (({ catalog } : TypeRegistry), s)
  catalog.types.values.foldl (fun (r, s) signature => seedType r signature s) seeded

def typeNames (r : TypeRegistry) : List String := r.types.keys

def customTypes (r : TypeRegistry) : List String := r.customs.toList

def isCustom (r : TypeRegistry) (name : String) : Bool := name ∈ r.customs

/-- The entity registered under a name. Passes no hold. -/
def type? (r : TypeRegistry) (name : String) : Option Handle := r.types.get? name

/-- The entity of a primitive type. Passes no hold. -/
def primitive? (r : TypeRegistry) (name : String) : Option Handle := r.primitives.get? name

/-- Registers a type under a free name and consumes the hold on its entity; a taken name is
refused. -/
def setCustom (r : TypeRegistry) (name : String) (h : Handle) (s : Store) :
    Bool × TypeRegistry × Store :=
  if r.types.contains name then (false, r, s.release h)
  else (true, { r with types := r.types.insert name h, customs := r.customs.insert name }, s)

/-- Registers deep copies of the custom types of another registry, in name order. -/
def merge (r other : TypeRegistry) (s : Store) : TypeRegistry × Store :=
  other.customs.toList.foldl (fun (r, s) name =>
    match other.type? name with
    | none => (r, s)
    | some h =>
      let (copy, s) := s.deepCopy h {}
      (r.setCustom name copy s).2) (r, s)

/-- Merges one of several registries into another. They are told apart by their keys, and a registry
takes nothing from itself. -/
def mergeKeyed {κ : Type} [DecidableEq κ] (target source : κ × TypeRegistry) (s : Store) :
    TypeRegistry × Store :=
  if target.1 = source.1 then (target.2, s) else target.2.merge source.2 s

/-- The registered types among `types`, with their entities; all of them when `types` has `any`. -/
def candidates (r : TypeRegistry) (types : SortedSet String) : List (String × Handle) :=
  if Tag.any ∈ types then r.types.toList
  else types.toList.filterMap fun name => (r.type? name).map fun h => (name, h)

/-- Element types that the catalog gives for indexing a type. -/
def indexTypes (r : TypeRegistry) (typeName : String) (keyTypes : SortedSet String) :
    SortedSet String :=
  match r.catalog.get? typeName with
  | none => ∅
  | some signature =>
    if Tag.any ∈ keyTypes then .ofList signature.indexes.values.flatten
    else .ofList (keyTypes.toList.filterMap signature.indexTypes?).flatten

/-- Named members of the candidate types; the first type that has a name describes it. -/
def identifiers (r : TypeRegistry) (s : Store) (types : SortedSet String) : Completions :=
  ((r.candidates types).map (·.2)).foldl s.addNames ∅

/-- Names available without a receiver. -/
def generalIdentifiers (r : TypeRegistry) (s : Store) : Completions :=
  r.identifiers s (.ofList [Tag.general])

end TypeRegistry

/-- Adds the items whose names are still free. -/
def Completions.addMissing (items more : Completions) : Completions :=
  more.toList.foldl (fun items e => items.insertIfNew e.1 e.2) items

/-- Every name that can follow a dot after the entity: its own members, inherited ones, then those
of its types. -/
def TypeRegistry.completions (r : TypeRegistry) (s : Store) (h : Handle) : Completions :=
  Completions.addMissing (s.memberNames h) (r.identifiers s (s.node h).types)

namespace Infer

/-- A copy in place of the entity; consumes the hold on it. -/
def detach (h : Handle) : Infer Handle := do
  let fresh ← copy h {}
  release h
  return fresh

/-- The matches of a query, each with the name of its type. -/
def matching (find : String → Handle → Infer (Option Handle)) :
    List (String × Handle) → Infer (List (String × Handle))
  | [] => return []
  | (name, h) :: rest => do
    let found ← find name h
    let others ← matching find rest
    return (found.toList.map fun f => (name, f)) ++ others

/-- Keeps one match and releases the others. -/
def pick (chosen : Handle) (found : List (String × Handle)) : Infer (Option Handle) := do
  releaseAll ((found.map (·.2)).erase chosen)
  return some chosen

/-- Settles several matches; consumes the holds on them. -/
def settle (candidateCount : Nat) (found : List (String × Handle)) (label : String)
    (general : Infer (Option Handle)) : Infer (Option Handle) := do
  match found with
  | [] => return none
  | (_, first) :: rest =>
    if candidateCount = 1 then pick first found
    else
      match found.find? (fun m => m.1 = Tag.any) with
      | some (_, h) => pick h found
      | none =>
        match ← general with
        | some g =>
          releaseAll (found.map (·.2))
          return some g
        | none =>
          if rest.isEmpty then return some first
          else
            let merged ← union (← node first).kind label (found.map (·.2))
            releaseAll (found.map (·.2))
            return some merged

/-- A copy of the property as one type defines it. -/
def definedOn (h : Handle) (property : String) (suppress : Bool) : Infer (Option Handle) := do
  match ← resolveMember h (.identifier property) suppress with
  | none => return none
  | some found => return some (← detach found)

/-- The property as the general type defines it. -/
def generalDefinition (r : TypeRegistry) (property : String) (suppress : Bool) :
    Infer (Option Handle) := do
  match r.type? Tag.general with
  | none => return none
  | some h => definedOn h property suppress

/-- The property as some type among `types` defines it. -/
def definition (r : TypeRegistry) (types : SortedSet String) (property : String) (suppress : Bool) :
    Infer (Option Handle) := do
  let candidates := r.candidates types
  let found ← matching (fun _ h => definedOn h property suppress) candidates
  settle candidates.length found property (generalDefinition r property suppress)

/-- What indexing a value of `types` gives: stored members of the types, else the index table of the
catalog. -/
def indexDefinition (r : TypeRegistry) (types : SortedSet String) (key : Handle) :
    Infer (Option Handle) := do
  let keyTypes := (← node key).types
  let candidates := r.candidates types
  let found ← matching (fun name h => do
    match ← lookup h (.value key) with
    | some found => return some (← detach found)
    | none =>
      let elements := r.indexTypes name keyTypes
      if elements.isEmpty then return none
      else return some (← alloc { kind := .internal, label := name ++ "[]", types := elements }))
    candidates
  settle candidates.length found "index" (return none)

/-- A property access. It always has an answer: the types of the entity are asked after its members,
and what nobody defines is a new `any`. -/
def resolveProperty (r : TypeRegistry) (h : Handle) (key : Property) (suppress : Bool) :
    Infer Handle := do
  match ← resolveMember h key suppress with
  | some found => return found
  | none =>
    let types := (← node h).types
    match key with
    | .identifier name =>
      match ← definition r types name suppress with
      | some found => return found
      | none => alloc (.anyNamed name)
    | .value k =>
      match ← indexDefinition r types k with
      | some found => return found
      | none => alloc .any

end Infer

end ScriptInference
