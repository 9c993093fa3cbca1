import ScriptInference.Catalog.Summary
import ScriptInference.Entity.Describe
import ScriptInference.Entity.Discovery

/-!
# Snapshots of a graph

A snapshot lists the nodes reachable from some roots in order of discovery and names each node by
its place in that list. From a node, members come first in key order, then the prototype, the
context and the result. Two graphs have the same snapshot exactly if they look the same from their
roots.
-/

namespace ScriptInference

structure SnapshotNode where
  entity : Entity
  entries : List (EntryKey × Nat)
  isa : Option Nat
  context : Option Nat
  result : Option Nat

structure Snapshot where
  roots : List Nat
  nodes : List SnapshotNode

namespace Store

/-- Every live edge out of a node. -/
def edges (s : Store) (h : Handle) : List Handle :=
  (s.node h).members.values ++ (s.isa? h).toList ++ (s.context? h).toList ++
    (s.node h).result.toList

def snapshot (s : Store) (roots : List Handle) : Snapshot :=
  let known := s.discover s.edges roots
  let number := fun h => (known.rank? h).getD known.size
  { roots := roots.map number
    nodes := known.toList.map fun h =>
      { entity := s.node h
        entries := (s.node h).members.toList.map fun e => (e.1, number e.2)
        isa := (s.isa? h).map number
        context := (s.context? h).map number
        result := (s.node h).result.map number } }

end Store

/-- Which of the four shapes an entity has: map, inheritable, reference and callable. -/
def Entity.shapeLetters (e : Entity) : String :=
  (if e.isMapShaped then "m" else "") ++ (if e.isInheritable then "i" else "") ++
    (if e.isReferenceShaped then "r" else "") ++ (if e.isCallable then "c" else "")

def EntryKey.toRow (target : Nat) : EntryKey → Json
  | identifier name => .arr [.str "id", .str name, .nat target]
  | type tag => .arr [.str "type", .str tag, .nat target]

def nonEmptyField (name : String) (items : List Json) : List (String × Json) :=
  if items.isEmpty then [] else [(name, .arr items)]

/-- Fields that say nothing are left out. -/
def SnapshotNode.toJson (n : SnapshotNode) : Json :=
  let e := n.entity
  .object ([("kind", .str e.kind.name), ("label", .str e.label), ("types", .strings e.types.toList),
      ("flags", .str e.shapeLetters)] ++
    optionalField "line" (fun l => .nat l.toNat) e.line ++
    optionalField "source" .str e.source ++
    nonEmptyField "sigs" (e.signatures.toList.map Definition.toRow) ++
    nonEmptyField "entries" (n.entries.map fun x => x.1.toRow x.2) ++
    optionalField "isa" .nat n.isa ++
    optionalField "context" .nat n.context ++
    optionalField "return" .nat n.result)

def Snapshot.toJson (s : Snapshot) : Json :=
  .object [("roots", .arr (s.roots.map .nat)), ("nodes", .arr (s.nodes.map SnapshotNode.toJson))]

end ScriptInference
