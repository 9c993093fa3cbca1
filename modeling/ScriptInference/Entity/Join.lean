import Std.Data.TreeSet
import ScriptInference.Entity.Infer

/-!
# Joining entities

Joining `b` into `a` adds the types, signatures and members of `b` to `a`. Members present on both
sides are joined in turn, and a pair of nodes is joined only once. A member that only `b` has is
taken over, as it is or as a deep copy. An entity without a live prototype or context takes that of
`b`. A union is the join of its members into a new entity, and shares no member with them.

The members of a pair are brought in one after the other, and a pair met on the way is finished
before the next member. What is left to do is kept as a list, so a join of any depth is a run of
single steps.
-/

namespace ScriptInference

structure JoinMode where
  signatures : Bool := true
  deepCopy : Bool := false
  deriving DecidableEq, Repr

namespace Store

/-- Adds the types, signatures and links of `b` to `a`. -/
def absorb (mode : JoinMode) (a b : Handle) (s : Store) : Store :=
  let other := s.node b
  let isa := if (s.isa? a).isNone && (s.isa? b).isSome then other.isa else none
  let context := if (s.context? a).isNone then s.context? b else none
  let s := s.modifyNode a fun e =>
    { e with
      types := e.types.union other.types
      signatures := if mode.signatures then e.signatures.union other.signatures else e.signatures
      shaped := e.shaped || other.shaped
      isa := isa.or e.isa
      context := context.or e.context }
  s.retainAll ((isa.filter Prototype.owned).toList.map Prototype.target)

/-- Takes over a member that `a` does not have. -/
def adopt (mode : JoinMode) (a : Handle) (key : EntryKey) (value : Handle) (s : Store) : Store :=
  let (value, s) := if mode.deepCopy then s.deepCopy value {} else (value, s.retain value)
  s.modifyNode a fun e => { e with members := e.members.insert key value }

end Store

/-- The order of pairs of nodes: by the first node, then by the second. -/
def pairOrder : Handle × Handle → Handle × Handle → Ordering :=
  compareLex (compareOn Prod.fst) (compareOn Prod.snd)

instance : Std.TransCmp pairOrder :=
  inferInstanceAs (Std.TransCmp (compareLex (compareOn Prod.fst) (compareOn Prod.snd)))

instance : Std.LawfulEqCmp pairOrder where
  eq_of_compare {p q} h := by
    obtain ⟨first, second⟩ := compareLex_eq_eq.1 h
    exact Prod.ext (Std.compare_eq_iff_eq.1 first) (Std.compare_eq_iff_eq.1 second)

/-- A member of the other side that is still to be brought into a node. -/
structure PendingEntry where
  into : Handle
  key : EntryKey
  value : Handle

/-- A join under way: the pairs joined so far, and what is left to do, in order. -/
structure Joining where
  seen : Std.TreeSet (Handle × Handle) pairOrder := ∅
  pending : List PendingEntry := []
  store : Store

namespace Joining

/-- Begins a pair of nodes that has not been met: absorbs what is known of `b` itself, and leaves
its members to be brought in before everything else. -/
def enter (mode : JoinMode) (a b : Handle) (j : Joining) : Joining :=
  if a = b || j.seen.contains (a, b) then j
  else
    { seen := j.seen.insert (a, b)
      pending := (j.store.node b).members.toList.map (fun e => ⟨a, e.1, e.2⟩) ++ j.pending
      store := j.store.absorb mode a b }

/-- Brings in one member: a member that the node has is joined with it, any other is taken over. -/
def bring (mode : JoinMode) (e : PendingEntry) (j : Joining) : Joining :=
  match j.store.member? e.into e.key with
  | some mine => j.enter mode mine e.value
  | none => { j with store := j.store.adopt mode e.into e.key e.value }

/-- Brings in what is left, member by member. A join that needs more steps stops with the store it
has reached. -/
def run (mode : JoinMode) : Nat → Joining → Except Store Store
  | _, ⟨_, [], store⟩ => .ok store
  | 0, ⟨_, _ :: _, store⟩ => .error store
  | bound + 1, ⟨seen, e :: rest, store⟩ => run mode bound (bring mode e ⟨seen, rest, store⟩)

/-- More steps do not change a result. -/
theorem run_mono {mode : JoinMode} {bound more : Nat} (h : bound ≤ more) {j : Joining} {s : Store}
    (hr : run mode bound j = .ok s) : run mode more j = .ok s := by
  induction bound generalizing more j with
  | zero =>
    obtain ⟨seen, pending, store⟩ := j
    cases pending with
    | nil => simpa [run] using hr
    | cons => simp [run] at hr
  | succ bound ih =>
    obtain ⟨seen, pending, store⟩ := j
    cases pending with
    | nil => simpa [run] using hr
    | cons e rest =>
      obtain ⟨k, rfl⟩ := Nat.exists_eq_add_of_le' (Nat.le_trans (Nat.le_add_left 1 bound) h)
      exact ih (Nat.le_of_succ_le_succ h) hr

end Joining

/-- Joins `b` into `a` within a number of steps. -/
def Store.joinWithin (mode : JoinMode) (bound : Nat) (a b : Handle) (s : Store) :
    Except Store Store :=
  (Joining.enter mode a b { store := s }).run mode bound

namespace Infer

def join (mode : JoinMode) (a b : Handle) : Infer Unit := fun bound s =>
  (s.joinWithin mode bound a b).map fun t => ((), t)

def joinAll (mode : JoinMode) (a : Handle) : List Handle → Infer Unit
  | [] => return
  | b :: rest => do
    join mode a b
    joinAll mode a rest

/-- A new entity that joins the members. -/
def union (kind : EntityKind) (label : String) (members : List Handle) : Infer Handle := do
  let merged ← alloc { kind, label }
  joinAll { deepCopy := true } merged members
  return merged

end Infer

end ScriptInference
