import ScriptInference.Proofs.Collection.Views
import ScriptInference.Proofs.Entity.Discovery

/-!
# Sound stores

A store is closed if no handle in it dangles: whatever a node names, by a member, a result, a
prototype or a context, is a node of the store. It is sound if moreover a node that is alive holds
only nodes that are alive. Both are what counting holders is for; nothing else is assumed of a
graph, which may have cycles, sharing and dead links.

Contents and counts are separate components of a store. The lemmas below say what the primitive
changes do to either.
-/

namespace ScriptInference

variable {s t : Store} {h k : Handle} {e : Entity} {hs : List Handle}

/-- Everything that an entity names. -/
def Entity.links (e : Entity) : List Handle :=
  e.parts ++ (e.isa.map Prototype.target).toList ++ e.context.toList

theorem Entity.mem_links_of_member? {key : EntryKey} {m : Handle} (h : e.member? key = some m) :
    m ∈ e.links := by
  have hv : m ∈ e.members.values := SortedMap.mem_values_iff.2 ⟨key, h⟩
  simp [links, parts, hv]

theorem Entity.mem_links_of_mem_parts {m : Handle} (h : m ∈ e.parts) : m ∈ e.links := by
  simp [links, h]

namespace Store

def Closed (s : Store) : Prop := ∀ h ∈ s, ∀ k ∈ (s.node h).links, k ∈ s

structure Sound (s : Store) : Prop where
  closed : s.Closed
  held : ∀ h, s.live h → ∀ k ∈ (s.node h).holds, s.live k

instance (s : Store) (h : Handle) : Decidable (h ∈ s) :=
  inferInstanceAs (Decidable (h.index < s.size))

theorem forall_mem_iff {p : Handle → Prop} : (∀ h ∈ s, p h) ↔ ∀ i : Fin s.size, p ⟨i⟩ :=
  ⟨fun hp i => hp ⟨i⟩ i.isLt, fun hp h hh => hp ⟨h.index, hh⟩⟩

instance (s : Store) : Decidable s.Closed := decidable_of_iff _ forall_mem_iff.symm

section Contents

theorem node_eq (h : t.nodes = s.nodes) (k : Handle) : t.node k = s.node k := by
  simp [node, h]

theorem size_eq (h : t.nodes = s.nodes) : t.size = s.size := by
  simp [size, h]

@[simp] theorem size_retain (h : Handle) (s : Store) : (s.retain h).size = s.size := rfl

@[simp] theorem size_retainAll (hs : List Handle) (s : Store) : (s.retainAll hs).size = s.size :=
  size_eq (nodes_retainAll hs s)

@[simp] theorem node_retainAll (hs : List Handle) (s : Store) (k : Handle) :
    (s.retainAll hs).node k = s.node k :=
  node_eq (nodes_retainAll hs s) k

theorem nodes_pushAll (contents : List Entity) (s : Store) :
    (contents.foldl (fun t e => t.push e) s).nodes = s.nodes ++ contents.toArray := by
  induction contents generalizing s with
  | nil => simp
  | cons e rest ih =>
    rw [List.foldl_cons, ih]
    simp [push]

/-- A node outside the store has the contents of an entity of which nothing is known. -/
theorem node_of_not_mem (hh : h ∉ s) : s.node h = default := by
  have outside : s.nodes.size ≤ h.index := Nat.le_of_not_lt hh
  simp [node, Array.getD_eq_getD_getElem?, Array.getElem?_eq_none outside]

/-- Changing a node outside the store changes nothing. -/
theorem node_modifyNode_eq (h k : Handle) (f : Entity → Entity) (s : Store) :
    (s.modifyNode h f).node k = if k = h ∧ k ∈ s then f (s.node k) else s.node k := by
  by_cases hk : k ∈ s
  · simp [node_modifyNode h k f s hk, hk]
  · have outside : k ∉ s.modifyNode h f := by simpa [mem_iff] using hk
    simp [node_of_not_mem outside, node_of_not_mem hk, hk]

end Contents

section Counts

theorem mem_of_live (hh : s.live h) : h ∈ s := by
  by_contra outside
  have out : s.holders.size ≤ h.index := by
    rw [s.aligned]
    exact Nat.le_of_not_lt outside
  simp [live, count, Array.getD_eq_getD_getElem?, Array.getElem?_eq_none out] at hh

theorem sound_iff : s.Sound ↔ s.Closed ∧ ∀ h ∈ s, s.live h → ∀ k ∈ (s.node h).holds, s.live k :=
  ⟨fun hs => ⟨hs.closed, fun h _ => hs.held h⟩,
    fun hs => ⟨hs.1, fun h hl => hs.2 h (mem_of_live hl) hl⟩⟩

instance (s : Store) : Decidable s.Sound :=
  haveI : Decidable (∀ h ∈ s, s.live h → ∀ k ∈ (s.node h).holds, s.live k) :=
    decidable_of_iff _ forall_mem_iff.symm
  decidable_of_iff _ sound_iff.symm

theorem count_retain (hk : k ∈ s) (h : Handle) :
    (s.retain h).count k = s.count k + if h = k then 1 else 0 := by
  have inside : k.index < s.holders.size := by
    rw [s.aligned]
    exact hk
  have index_eq : h.index = k.index ↔ h = k := by
    cases h
    cases k
    simp
  simp only [count, retain, Array.getD_eq_getD_getElem?, Array.getElem?_modify, index_eq]
  split <;> simp [inside]

theorem count_retainAll (hk : k ∈ s) (hs : List Handle) :
    (s.retainAll hs).count k = s.count k + hs.count k := by
  induction hs generalizing s with
  | nil => rfl
  | cons h rest ih =>
    have step : s.retainAll (h :: rest) = (s.retain h).retainAll rest := rfl
    have inside : k ∈ s.retain h := hk
    rw [step, ih inside, count_retain hk, List.count_cons]
    simp only [beq_iff_eq]
    omega

theorem live_iff : s.live h = true ↔ 0 < s.count h := by
  simp [live]

theorem count_of_not_mem (hh : h ∉ s) : s.count h = 0 := by
  by_contra positive
  exact hh (mem_of_live (live_iff.2 (Nat.pos_of_ne_zero positive)))

theorem live_retainAll (hk : s.live k) (hs : List Handle) : (s.retainAll hs).live k := by
  rw [live_iff] at hk ⊢
  rw [count_retainAll (mem_of_live (live_iff.2 hk))]
  omega

theorem live_retainAll_of_mem (hk : k ∈ s) (h : k ∈ hs) : (s.retainAll hs).live k := by
  have positive : 0 < hs.count k := List.count_pos_iff.2 h
  rw [live_iff, count_retainAll hk]
  omega

theorem live_retainAll_of_not_mem (hk : k ∈ s) (h : k ∉ hs) :
    (s.retainAll hs).live k = s.live k := by
  simp [live, count_retainAll hk, List.count_eq_zero_of_not_mem h]

theorem size_push (e : Entity) (s : Store) : (s.push e).size = s.size + 1 := by simp [size, push]

theorem mem_push (hk : k ∈ s) (e : Entity) : k ∈ s.push e := by
  rw [mem_iff, size_push]
  exact Nat.lt_succ_of_lt hk

theorem count_push (e : Entity) (k : Handle) (s : Store) : (s.push e).count k = s.count k := by
  simp only [count, push, Array.getD_eq_getD_getElem?, Array.getElem?_push]
  split
  · rename_i last
    simp [last]
  · rfl

theorem count_pushAll (contents : List Entity) (k : Handle) (s : Store) :
    (contents.foldl (fun t e => t.push e) s).count k = s.count k := by
  induction contents generalizing s with
  | nil => rfl
  | cons e rest ih => rw [List.foldl_cons, ih, count_push]

end Counts

end Store

end ScriptInference
