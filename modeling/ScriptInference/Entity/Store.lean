import ScriptInference.Entity.Basic

/-!
# The store of entities

All entities of a run live in one store and are named by their position. The store only grows.
Beside the contents of each node it keeps the number of its holders; a node without holders is dead,
and links to it no longer lead anywhere. Contents and counts are separate components, so that
counting never touches what is known about a value.

A node that loses its last holder releases everything it holds. Nodes that hold each other in a
cycle therefore stay alive.

Every function below that returns a handle passes one hold to its caller, unless it says otherwise.
-/

namespace ScriptInference

structure Store where
  nodes : Array Entity := #[]
  holders : Array Nat := #[]
  aligned : holders.size = nodes.size := by rfl

namespace Store

def empty : Store := {}

def size (s : Store) : Nat := s.nodes.size

/-- The contents behind a handle, whether the node is still alive or not. -/
def node (s : Store) (h : Handle) : Entity := s.nodes.getD h.index default

def count (s : Store) (h : Handle) : Nat := s.holders.getD h.index 0

def live (s : Store) (h : Handle) : Bool := 0 < s.count h

def member? (s : Store) (h : Handle) (key : EntryKey) : Option Handle := (s.node h).member? key

/-- Changes the contents of a node and leaves the counts alone. -/
def modifyNode (h : Handle) (f : Entity → Entity) (s : Store) : Store :=
  { s with nodes := s.nodes.modify h.index f, aligned := by simp [s.aligned] }

def setCount (h : Handle) (n : Nat) (s : Store) : Store :=
  { s with holders := s.holders.modify h.index fun _ => n, aligned := by simp [s.aligned] }

def retain (h : Handle) (s : Store) : Store :=
  { s with holders := s.holders.modify h.index (· + 1), aligned := by simp [s.aligned] }

def retainAll (hs : List Handle) (s : Store) : Store := hs.foldl (fun s h => s.retain h) s

/-- Gives up one hold. The bound limits how many nodes die one through another. -/
def releaseWithin : Nat → Handle → Store → Store
  | 0, _, s => s
  | bound + 1, h, s =>
    match s.count h with
    | 0 => s
    | 1 =>
      let held := (s.node h).holds
      held.foldl (fun s k => releaseWithin bound k s) (s.setCount h 0)
    | n + 2 => s.setCount h (n + 1)

/-- Gives up one hold. A chain of dying nodes has no repetition, so its length is bounded by the
size of the store. -/
def release (h : Handle) (s : Store) : Store := releaseWithin (s.size + 1) h s

def releaseAll (hs : List Handle) (s : Store) : Store := hs.foldl (fun s h => s.release h) s

@[simp] theorem nodes_retain (h : Handle) (s : Store) : (s.retain h).nodes = s.nodes := rfl

@[simp] theorem nodes_retainAll (hs : List Handle) (s : Store) :
    (s.retainAll hs).nodes = s.nodes := by
  induction hs generalizing s with
  | nil => rfl
  | cons h rest ih => exact ih (s.retain h)

theorem nodes_foldl {f : Store → Handle → Store} (hf : ∀ s h, (f s h).nodes = s.nodes)
    (hs : List Handle) (s : Store) : (hs.foldl f s).nodes = s.nodes := by
  induction hs generalizing s with
  | nil => rfl
  | cons h rest ih => rw [List.foldl_cons, ih, hf]

/-- Giving up holds changes who is alive, and never what is known. -/
@[simp] theorem nodes_releaseWithin (bound : Nat) (h : Handle) (s : Store) :
    (releaseWithin bound h s).nodes = s.nodes := by
  induction bound generalizing h s with
  | zero => rfl
  | succ bound ih =>
    unfold releaseWithin
    split
    · rfl
    · rw [nodes_foldl fun s k => ih k s]
      rfl
    · rfl

@[simp] theorem nodes_release (h : Handle) (s : Store) : (s.release h).nodes = s.nodes :=
  nodes_releaseWithin _ h s

@[simp] theorem nodes_releaseAll (hs : List Handle) (s : Store) :
    (s.releaseAll hs).nodes = s.nodes :=
  nodes_foldl (fun s h => nodes_release h s) hs s

/-- Appends a node without holders. -/
def push (e : Entity) (s : Store) : Store :=
  { nodes := s.nodes.push e, holders := s.holders.push 0, aligned := by simp [s.aligned] }

/-- A new node with the given contents. It takes its own holds on what the contents name. -/
def alloc (e : Entity) (s : Store) : Handle × Store :=
  let h : Handle := ⟨s.size⟩
  (h, (s.push e).retainAll (h :: e.holds))

@[simp] theorem size_modifyNode (h : Handle) (f : Entity → Entity) (s : Store) :
    (s.modifyNode h f).size = s.size := by simp [size, modifyNode]

theorem node_modifyNode (h k : Handle) (f : Entity → Entity) (s : Store) (hk : k.index < s.size) :
    (s.modifyNode h f).node k = if k = h then f (s.node k) else s.node k := by
  have hk' : k.index < s.nodes.size := hk
  have index_eq : h.index = k.index ↔ k = h := by
    cases h
    cases k
    simp [eq_comm]
  simp only [node, modifyNode, Array.getD_eq_getD_getElem?, Array.getElem?_modify, index_eq]
  split
  · simp [hk']
  · rfl

theorem node_push_lt (e : Entity) (s : Store) (k : Handle) (hk : k.index < s.size) :
    (s.push e).node k = s.node k := by
  have hk' : k.index < s.nodes.size := hk
  simp [node, push, Array.getD_eq_getD_getElem?, Array.getElem?_push, Nat.ne_of_lt hk']

/-- A new node leaves every older one as it was. -/
theorem node_alloc_lt (e : Entity) (s : Store) (k : Handle) (hk : k.index < s.size) :
    (s.alloc e).2.node k = s.node k := by
  rw [← node_push_lt e s k hk]
  simp [node, alloc]

theorem node_alloc (e : Entity) (s : Store) : (s.alloc e).2.node (s.alloc e).1 = e := by
  simp [node, alloc, push, size]

/-- A new node with the contents of another. Members are shared. -/
def copy (h : Handle) (o : Overrides) (s : Store) : Handle × Store :=
  s.alloc ((s.node h).override o)

/-- Stores a member, taking over the caller's hold on it; the member stored before is released. -/
def putMember (h : Handle) (key : EntryKey) (value : Handle) (s : Store) : Store :=
  let old := s.member? h key
  let s := s.modifyNode h fun e => { e with members := e.members.insert key value }
  s.releaseAll old.toList

/-- Stores the result of calls, taking over the caller's hold on it. -/
def setResult (h value : Handle) (s : Store) : Store :=
  let old := (s.node h).result
  (s.modifyNode h fun e => { e with result := some value }).releaseAll old.toList

def setContext (h owner : Handle) (s : Store) : Store :=
  s.modifyNode h fun e => { e with context := some owner }

/-- Replaces the prototype link and releases a prototype that the entity held. -/
def setPrototype (h : Handle) (isa : Option Prototype) (s : Store) : Store :=
  let old := ((s.node h).isa.filter Prototype.owned).map Prototype.target
  (s.modifyNode h fun e => { e with isa }).releaseAll old.toList

/-- Links a prototype without holding it. -/
def setIsa (h prototype : Handle) (s : Store) : Store :=
  s.setPrototype h (some ⟨prototype, false⟩)

/-- Links a prototype and consumes the caller's hold on it. When that hold is the only one, as for a
prototype written in place, it goes to the entity; otherwise it is given up. -/
def inherit (h prototype : Handle) (s : Store) : Store :=
  let owned := s.count prototype = 1
  let s := if owned then s else s.release prototype
  s.setPrototype h (some ⟨prototype, owned⟩)

/-- The prototype, if it is still alive. Passes no hold. -/
def isa? (s : Store) (h : Handle) : Option Handle :=
  ((s.node h).isa.map Prototype.target).filter s.live

/-- The context, if it is still alive. Passes no hold. -/
def context? (s : Store) (h : Handle) : Option Handle := (s.node h).context.filter s.live

/-- Seeds the members of a catalog type. -/
def insertSignature (h : Handle) (signature : Signature) (s : Store) : Store :=
  let s := signature.definitions.toList.foldl (fun s (name, d) =>
    let kind := if d.isFunction then EntityKind.function else .property
    let (m, s) := s.alloc
      { Entity.ofType kind d.type with label := name, signatures := .ofList [d] }
    s.putMember h (.identifier name) m) s
  s.modifyNode h fun e => { e with shaped := true }

/-- The entity of a catalog type. -/
def ofSignature (signature : Signature) (s : Store) : Handle × Store :=
  let (h, s) := s.alloc
    { Entity.ofType .internal signature.typeName with label := signature.typeName }
  (h, s.insertSignature h signature)

end Store

end ScriptInference
