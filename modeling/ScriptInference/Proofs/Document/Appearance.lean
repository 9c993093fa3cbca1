import ScriptInference.Proofs.Document.Mirrors

/-!
# What twins look like

A snapshot shows a graph of entities, and a list of completions shows names. Twins have the same
snapshots up to lines and sources, and the same completions up to lines.
-/

namespace ScriptInference

section Snapshots

def SnapshotNode.unplaced (n : SnapshotNode) : SnapshotNode :=
  { n with entity := n.entity.unplaced }

/-- The snapshot without lines and sources. -/
def Snapshot.unplaced (g : Snapshot) : Snapshot :=
  { g with nodes := g.nodes.map SnapshotNode.unplaced }

namespace Store.Twin
variable {z : Zone} {s s' : Store}

theorem edges_eq (twin : s.Twin z s') (h : Handle) : s'.edges h = s.edges h := by
  have result : (s'.node h).result = (s.node h).result := twin.congr h Entity.result fun _ => rfl
  rw [edges, edges, twin.members_eq, twin.isa?_eq, twin.context?_eq, result]

theorem unplaced_snapshot (twin : s.Twin z s') (roots : List Handle) :
    (s'.snapshot roots).unplaced = (s.snapshot roots).unplaced := by
  have known : s'.discover s'.edges roots = s.discover s.edges roots := by
    rw [funext twin.edges_eq, discover, discover, twin.size_eq]
  unfold snapshot
  rw [known]
  simp only [Snapshot.unplaced, List.map_map]
  refine congrArg _ (List.map_congr_left fun h _ => ?_)
  have result : (s'.node h).result = (s.node h).result := twin.congr h Entity.result fun _ => rfl
  simp only [Function.comp, SnapshotNode.unplaced, twin.same, twin.members_eq, twin.isa?_eq,
    twin.context?_eq, result]

end Store.Twin

end Snapshots

section Completions

namespace SortedMap
variable {κ υ ω : Type} [LT κ] [DecidableEq κ] [DecidableLT κ] [StrictOrder κ]

theorem mapValues_insert (f : υ → ω) (m : SortedMap κ υ) (k : κ) (v : υ) :
    (m.insert k v).mapValues f = (m.mapValues f).insert k (f v) := by
  have entries : ∀ l : List (κ × υ), (insertEntry k v l).map (fun e => (e.1, f e.2)) =
      insertEntry k (f v) (l.map fun e => (e.1, f e.2)) := by
    intro l
    induction l with
    | nil => rfl
    | cons e rest ih =>
      rw [insertEntry, List.map_cons, insertEntry]
      split
      · rfl
      · split
        · rfl
        · rw [List.map_cons, ih]
  simp only [mapValues, insert, entries]

theorem mapValues_insertIfNew (f : υ → ω) (m : SortedMap κ υ) (k : κ) (v : υ) :
    (m.insertIfNew k v).mapValues f = (m.mapValues f).insertIfNew k (f v) := by
  have present : (m.mapValues f).contains k = m.contains k := by
    rw [contains, contains, get?_mapValues, Option.isSome_map]
  rw [insertIfNew, insertIfNew, present]
  split
  · rfl
  · exact mapValues_insert f m k v

end SortedMap

def Completion.unlined (i : Completion) : Completion := { i with line := none }

/-- The completions without lines. -/
def Completions.unlined (items : Completions) : Completions := items.mapValues Completion.unlined

namespace Completions

theorem unlined_insertIfNew (items : Completions) (name : String) (i : Completion) :
    unlined (items.insertIfNew name i) = (unlined items).insertIfNew name i.unlined :=
  SortedMap.mapValues_insertIfNew Completion.unlined items name i

theorem unlined_addMissing (items more : Completions) :
    unlined (items.addMissing more) = (unlined items).addMissing (unlined more) := by
  have added : ∀ (l : List (String × Completion)) (items : Completions),
      unlined (l.foldl (fun items e => items.insertIfNew e.1 e.2) items) =
        (l.map fun e => (e.1, e.2.unlined)).foldl
        (fun items e => items.insertIfNew e.1 e.2) (unlined items) := by
    intro l
    induction l with
    | nil => exact fun _ => rfl
    | cons e rest ih =>
      intro items
      rw [List.foldl_cons, ih, unlined_insertIfNew]
      rfl
  exact added more.toList items

end Completions

namespace Store.Twin
variable {z : Zone} {s s' : Store}

variable (twin : s.Twin z s')

include twin

theorem unlined_ofEntity (h : Handle) :
    (Completion.ofEntity (s'.node h)).unlined = (Completion.ofEntity (s.node h)).unlined :=
  twin.congr h (fun e => (Completion.ofEntity e).unlined) fun _ => rfl

theorem unlined_addNames {items items' : Completions} (same : items'.unlined = items.unlined)
    (h : Handle) : (s'.addNames items' h).unlined = (s.addNames items h).unlined := by
  unfold addNames
  rw [twin.members_eq]
  apply List.foldl_rel (r := fun a b => Completions.unlined a = Completions.unlined b) same
  intro entry _ items' items same
  split
  · rw [Completions.unlined_insertIfNew, Completions.unlined_insertIfNew, same,
      twin.unlined_ofEntity]
  · exact same

theorem unlined_foldl_addNames (hs : List Handle) :
    Completions.unlined (hs.foldl s'.addNames ∅) = Completions.unlined (hs.foldl s.addNames ∅) :=
  List.foldl_rel (r := fun a b => Completions.unlined a = Completions.unlined b) rfl
    fun h _ _ _ same => twin.unlined_addNames same h

theorem pseudoCompletion_eq (p : Pseudo) :
    Scope.pseudoCompletion s' p = Scope.pseudoCompletion s p := by
  cases p with
  | stored h => rw [Scope.pseudoCompletion, Scope.pseudoCompletion, twin.types_eq]
  | unknownReceiver => rfl

/-- The names that are visible in a scope, up to the lines where they are bound. -/
theorem unlined_completions (c : Scope) (r : TypeRegistry) :
    (c.completions r s').unlined = (c.completions r s).unlined := by
  unfold Scope.completions TypeRegistry.generalIdentifiers TypeRegistry.identifiers
  dsimp only
  rw [Completions.unlined_addMissing, Completions.unlined_addMissing, twin.unlined_foldl_addNames,
    funext twin.pseudoCompletion_eq]
  refine congrArg (Completions.addMissing · _) ?_
  apply List.foldl_rel (r := fun a b => Completions.unlined a = Completions.unlined b)
    (twin.unlined_foldl_addNames _)
  intro name _ items' items same
  split
  · rw [Completions.unlined_insertIfNew, Completions.unlined_insertIfNew, same]
  · exact same

end Store.Twin

end Completions

end ScriptInference
