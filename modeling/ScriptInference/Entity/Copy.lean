import ScriptInference.Entity.Store

/-!
# Deep copies

A deep copy duplicates everything reachable from its roots through members and results. Prototype
and context links that lead into the copied part are redirected to the copies; links that lead out
of it are kept. A node reached twice is copied once, so sharing and cycles survive.

The search goes depth first. A node gets its copy when it is met, with the contents of the original,
and the copy is listed before the search descends. It is half-built until all its parts have been
copied and take the place of the old ones. Links are redirected when the search has ended, in a
second pass.

A half-built copy takes no holds. The old parts it names are held by the original, and the copies
that replace them come with holds of their own. A prototype that a copy owns is taken hold of in the
second pass, if the link is kept.
-/

namespace ScriptInference

/-- A deep copy under way: the copies made so far, each under the node it is a copy of, and the
store that they have been added to. -/
structure Copying where
  memo : Std.TreeMap Handle Handle := ∅
  store : Store

/-- Copies of the members, under the same keys, and of the result. -/
def Entity.copyParts (copy : Handle → StateM Copying Handle) (e : Entity) :
    StateM Copying (SortedMap EntryKey Handle × Option Handle) := do
  let members ← e.members.toList.mapM fun entry => return (entry.1, ← copy entry.2)
  let result ← e.result.mapM copy
  return (.ofList members, result)

/-- The copy of a node. The old nodes do not change meanwhile, so they are read from the store `s`
in which the copying began. A chain of nodes that are met for the first time has no repetition, so
its length is bounded by the size of that store. -/
def copyNode (s : Store) : Nat → Handle → StateM Copying Handle
  | 0, h => return h
  | bound + 1, h => do
    let c ← get
    match c.memo[h]? with
    | some copy =>
      set { c with store := c.store.retain copy }
      return copy
    | none =>
      let original := s.node h
      let copy : Handle := ⟨c.store.size⟩
      -- Listed before descending, so that cycles lead to this copy.
      set { memo := c.memo.insert h copy, store := c.store.push original : Copying }
      let (members, result) ← original.copyParts (copyNode s bound)
      modify fun c =>
        let finished := c.store.modifyNode copy fun e => { e with members, result }
        { c with store := finished.retain copy }
      return copy

/-- Contents with each link redirected that is alive and leads to a copied node. A redirected
prototype link is not held. -/
def Entity.relink (live : Handle → Bool) (memo : Std.TreeMap Handle Handle) (e : Entity) : Entity :=
  let copy? (target : Handle) : Option Handle := if live target then memo[target]? else none
  { e with
    isa := (e.isa.bind fun p => (copy? p.target).map (⟨·, false⟩)).or e.isa
    context := (e.context.bind copy?).or e.context }

namespace Store

/-- Settles the links of a finished copy. No copy changes which of the old nodes are alive, so `live`
tells it for the store in which the copying began. -/
def settle (live : Handle → Bool) (memo : Std.TreeMap Handle Handle) (copy : Handle) (s : Store) :
    Store :=
  let s := s.modifyNode copy (·.relink live memo)
  s.retainAll (((s.node copy).isa.filter Prototype.owned).toList.map Prototype.target)

/-- Copies of the roots, made together, with a bound on the depth of the search. -/
def copyGraphWithin (bound : Nat) (roots : List Handle) (s : Store) : List Handle × Store :=
  let (copies, c) := (roots.mapM (copyNode s bound)).run { store := s }
  (copies, c.memo.toList.foldl (fun t e => t.settle s.live c.memo e.2) c.store)

/-- Copies of the roots, made together. -/
def copyGraph (roots : List Handle) (s : Store) : List Handle × Store :=
  s.copyGraphWithin (s.size + 1) roots

def deepCopy (h : Handle) (o : Overrides) (s : Store) : Handle × Store :=
  let (copies, t) := s.copyGraph [h]
  let copy := copies.headD h
  (copy, t.modifyNode copy fun e => e.override o)

end Store

end ScriptInference
