import ScriptInference.Entity.Lookup
import ScriptInference.Proofs.Entity.Closedness

/-!
# Writing members

An entity that takes a member stores it in all slots of the key and changes nothing else; an entity
that refuses changes nothing at all. Who holds what is left aside here: it does not affect the
contents.
-/

namespace ScriptInference.Store
variable {s t : Store}

theorem nodes_modifyNode (same : t.nodes = s.nodes) (h : Handle) (f : Entity → Entity) :
    (t.modifyNode h f).nodes = (s.modifyNode h f).nodes := by
  simp [modifyNode, same]

/-- Stores a value in several slots of a node. -/
def write (h : Handle) (slots : List EntryKey) (value : Handle) (s : Store) : Store :=
  slots.foldl (fun s slot => s.modifyNode h
    fun e => { e with members := e.members.insert slot value }) s

theorem nodes_putMember (h : Handle) (key : EntryKey) (value : Handle) (s : Store) :
    (s.putMember h key value).nodes = (s.write h [key] value).nodes := by
  simp [putMember, write]

theorem nodes_putMembers (h : Handle) (slots : List EntryKey) (value : Handle)
    (same : t.nodes = s.nodes) :
    (slots.foldl (fun t slot => (t.retain value).putMember h slot value) t).nodes =
      (s.write h slots value).nodes := by
  induction slots generalizing s t with
  | nil => exact same
  | cons slot rest ih =>
    refine ih ?_
    rw [nodes_putMember]
    exact nodes_modifyNode same h _

/-- All that a write can do: store the member in every slot of the key, or refuse. -/
theorem setProperty_cases (h : Handle) (key : Property) (value : Handle) (s : Store) :
    ((s.setProperty h key value).1 = true ∧
      (s.setProperty h key value).2.nodes = (s.write h (s.slots key) value).nodes) ∨
    ((s.setProperty h key value).1 = false ∧ (s.setProperty h key value).2.nodes = s.nodes) := by
  unfold setProperty
  by_cases shaped : (s.node h).isMapShaped
  · rw [if_neg (by simp [shaped])]
    cases key with
    | identifier name => exact .inl ⟨rfl, nodes_putMember h _ value s⟩
    | value k =>
      have stored := nodes_putMembers h ((s.node k).types.toList.map .type) value (t := s) rfl
      rw [List.foldl_map] at stored
      cases tags : (s.node k).types.toList with
      | nil => exact .inr ⟨by simp [tags], by simp [tags]⟩
      | cons tag rest =>
        rw [tags] at stored
        refine .inl ⟨by simp [tags], ?_⟩
        simpa [tags, slots] using stored
  · rw [if_pos (by simp [shaped])]
    exact .inr ⟨rfl, nodes_release value s⟩

section
variable {h value : Handle} {slots : List EntryKey}

theorem size_write : (s.write h slots value).size = s.size := by
  induction slots generalizing s with
  | nil => rfl
  | cons slot rest ih => exact ih.trans (size_modifyNode h _ s)

theorem node_write_of_ne {n : Handle} (ne : n ≠ h) : (s.write h slots value).node n = s.node n := by
  induction slots generalizing s with
  | nil => rfl
  | cons slot rest ih =>
    refine ih.trans ?_
    rw [node_modifyNode_eq, if_neg fun here => ne here.1]

theorem types_write (n : Handle) : ((s.write h slots value).node n).types = (s.node n).types := by
  induction slots generalizing s with
  | nil => rfl
  | cons slot rest ih =>
    refine ih.trans ?_
    rw [node_modifyNode_eq]
    split <;> rfl

theorem member?_write (hh : h ∈ s) (key : EntryKey) :
    (s.write h slots value).member? h key =
      if key ∈ slots then some value else s.member? h key := by
  induction slots generalizing s with
  | nil => simp [write]
  | cons slot rest ih =>
    have stored : h ∈ s.modifyNode h fun e =>
        { e with members := e.members.insert slot value } := by
      rw [mem_iff, size_modifyNode]
      exact hh
    have first :
        (s.modifyNode h fun e => { e with members := e.members.insert slot value }).member? h
        key = if key = slot then some value else s.member? h key := by
      rw [member?, node_modifyNode_eq, if_pos ⟨rfl, hh⟩, Entity.member?, SortedMap.get?_insert]
      rfl
    refine (ih stored).trans ?_
    rw [first]
    by_cases later : key ∈ rest
    · simp [later]
    · simp [later]

theorem Closed.write (closed : s.Closed) (hv : value ∈ s) : (s.write h slots value).Closed := by
  induction slots generalizing s with
  | nil => exact closed
  | cons slot rest ih =>
    refine ih (closed.insert_member hv h slot) ?_
    rw [mem_iff, size_modifyNode]
    exact hv

end

end ScriptInference.Store
