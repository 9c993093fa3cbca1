import ScriptInference.Proofs.Entity.JoinEnding
import ScriptInference.Proofs.Entity.Paths

/-!
# A join covers what it joins

When `b` has been joined into `a`, every path from `b` can be followed from `a`. The join changes
the graph it walks over, it meets each pair of nodes once, and its two sides may overlap, so there
is no measure to follow. Instead the join is accompanied by a relation between nodes: every node of
the first store stands for itself, a pair that was met is related, and a deep copy stands for its
original. Along a member of the right side, related nodes lead to related nodes, except where that
member is still pending. Steps only add to the relation. When nothing is pending any more it is a
simulation.
-/

namespace ScriptInference

variable {e : PendingEntry} {t : Store} {rest : List PendingEntry} {bound : Nat}

namespace Store
variable {s : Store} {mode : JoinMode}

theorem mem_types_absorb {a b : Handle} (ha : a ∈ s) {tag : String} (ht : tag ∈ (s.node b).types) :
    tag ∈ ((s.absorb mode a b).node a).types := by
  simp only [absorb, node_retainAll, node_modifyNode_eq]
  rw [if_pos ⟨trivial, ha⟩]
  exact SortedSet.mem_union.2 (.inr ht)

/-- What is found under the key of a member that was taken over. -/
theorem member?_adopt (mode : JoinMode) {a : Handle} (ha : a ∈ s) (key : EntryKey)
    (value : Handle) :
    (s.adopt mode a key value).member? a key =
      some (if mode.deepCopy then s.image (s.copied [value]) value else value) := by
  rw [adopt_eq]
  split
  · have stored : a ∈ (s.copyGraph [value]).2 := (grows_copyGraph [value] s).mem ha
    rw [member?, node_modifyNode_eq, if_pos ⟨rfl, stored⟩, Entity.member?, SortedMap.get?_insert,
      if_pos rfl]
  · have stored : a ∈ s.retain value := ha
    rw [member?, node_modifyNode_eq, if_pos ⟨rfl, stored⟩, Entity.member?, SortedMap.get?_insert,
      if_pos rfl]

/-- The copies made for a member that was taken over are not touched afterwards. -/
theorem node_adopt_image (deep : mode.deepCopy = true) {a value n : Handle} (ha : a ∈ s)
    (key : EntryKey) (hn : n ∈ (s.copied [value]).toList) :
    (s.adopt mode a key value).node (s.image (s.copied [value]) n) =
      s.redirect (s.copied [value]) (s.node n) := by
  have ne : s.image (s.copied [value]) n ≠ a := by
    intro same
    exact image_not_mem hn (same ▸ ha)
  rw [adopt_eq, if_pos deep, node_modifyNode_eq, if_neg fun h => ne h.1, node_copyGraph_image hn]

end Store

namespace Joining

/-- No handle of the join dangles. -/
structure Inside (j : Joining) : Prop where
  closed : j.store.Closed
  pending : ∀ e ∈ j.pending, e.into ∈ j.store ∧ e.value ∈ j.store

section
variable {mode : JoinMode} {j : Joining}

theorem Inside.opened (h : j.Inside) {a b : Handle} (ha : a ∈ j.store) :
    (j.opened mode a b).Inside where
  closed := h.closed.absorb mode a b
  pending e he := by
    have grown := Store.grows_absorb mode a b j.store
    rcases List.mem_append.1 he with he | he
    · obtain ⟨entry, hentry, rfl⟩ := List.mem_map.1 he
      have value_mem : entry.2 ∈ (j.store.node b).members.values := List.mem_map_of_mem hentry
      exact ⟨grown.mem ha, grown.mem (h.closed.links b (Entity.mem_links_iff.2 (.inl value_mem)))⟩
    · exact ⟨grown.mem (h.pending e he).1, grown.mem (h.pending e he).2⟩

theorem Inside.enter (h : j.Inside) {a b : Handle} (ha : a ∈ j.store) :
    (j.enter mode a b).Inside := by
  rcases enter_cases mode a b j with ⟨-, step⟩ | ⟨-, -, step⟩
  · rw [step]
    exact h
  · rw [step]
    exact h.opened ha

theorem Inside.bring (h : j.Inside) (hv : e.value ∈ j.store) : (j.bring mode e).Inside := by
  rcases bring_cases mode e j with ⟨mine, -, -, step⟩ | ⟨mine, hmine, -, -, step⟩ | ⟨free, step⟩
  · rw [step]
    exact h
  · rw [step]
    exact h.opened (h.closed.member? hmine)
  · rw [step]
    have grown := Store.grows_adopt mode e.value free
    refine ⟨h.closed.adopt mode e.into e.key hv, fun e' he' => ?_⟩
    exact ⟨grown.mem (h.pending e' he').1, grown.mem (h.pending e' he').2⟩

/-- Bringing in the first of the pending members. -/
theorem Inside.step {seen : Std.TreeSet (Handle × Handle) pairOrder} {store : Store}
    (h : Inside ⟨seen, e :: rest, store⟩) : (Joining.bring mode e ⟨seen, rest, store⟩).Inside := by
  have rest_inside : Inside ⟨seen, rest, store⟩ :=
    ⟨h.closed, fun e' he' => h.pending e' (List.mem_cons_of_mem e he')⟩
  exact rest_inside.bring (h.pending e List.mem_cons_self).2

end

/-- The relation between the nodes of the store under way and those of the first store `s`. -/
structure Tracks (s : Store) (related : Handle → Handle → Prop) (j : Joining) : Prop where
  closed : s.Closed
  grown : s.Grows j.store
  stored : ∀ u v, related u v → u ∈ j.store ∧ v ∈ s
  same : ∀ n ∈ s, related n n
  seen : ∀ u v, j.seen.contains (u, v) → v ∈ s → related u v
  types : ∀ u v, related u v → ∀ tag ∈ (s.node v).types, tag ∈ (j.store.node u).types
  member : ∀ u v key w, related u v → s.member? v key = some w →
    (∃ u', j.store.member? u key = some u' ∧ related u' w) ∨ ⟨u, key, w⟩ ∈ j.pending

namespace Tracks
variable {s : Store} {related : Handle → Handle → Prop} {mode : JoinMode} {j : Joining}

section
variable (h : j.Tracks s related)

include h

theorem grow (grown : j.store.Grows t) :
    Tracks s related { j with store := t } where
  closed := h.closed
  grown := h.grown.trans grown
  stored u v huv := ⟨grown.mem (h.stored u v huv).1, (h.stored u v huv).2⟩
  same := h.same
  seen := h.seen
  types u v huv tag ht := (grown.contents u (h.stored u v huv).1).types tag (h.types u v huv tag ht)
  member u v key w huv hw := by
    rcases h.member u v key w huv hw with ⟨u', hu', h'⟩ | pending
    · exact .inl ⟨u', grown.member (h.stored u v huv).1 hu', h'⟩
    · exact .inr pending

/-- A pending member may be forgotten once it is there. -/
theorem discharge {pending : List PendingEntry}
    (done : ∀ e ∈ j.pending, e ∈ pending ∨
      (e.value ∈ s → ∃ u', j.store.member? e.into e.key = some u' ∧ related u' e.value)) :
    Tracks s related { j with pending } where
  closed := h.closed
  grown := h.grown
  stored := h.stored
  same := h.same
  seen := h.seen
  types := h.types
  member u v key w huv hw := by
    rcases h.member u v key w huv hw with present | left
    · exact .inl present
    · rcases done _ left with still | present
      · exact .inr still
      · exact .inl (present (h.closed.member? hw))

/-- The relation may be extended by pairs that it tracks as well. -/
theorem extend (new : Handle → Handle → Prop)
    (stored : ∀ u v, new u v → u ∈ j.store ∧ v ∈ s)
    (types : ∀ u v, new u v → ∀ tag ∈ (s.node v).types, tag ∈ (j.store.node u).types)
    (member : ∀ u v key w, new u v → s.member? v key = some w →
      (∃ u', j.store.member? u key = some u' ∧ new u' w) ∨ ⟨u, key, w⟩ ∈ j.pending) :
    j.Tracks s fun u v => related u v ∨ new u v where
  closed := h.closed
  grown := h.grown
  stored u v huv := huv.elim (h.stored u v) (stored u v)
  same n hn := .inl (h.same n hn)
  seen u v met hv := .inl (h.seen u v met hv)
  types u v huv := huv.elim (h.types u v) (types u v)
  member u v key w huv hw := by
    rcases huv with huv | huv
    · exact (h.member u v key w huv hw).imp_left fun ⟨u', hu', h'⟩ => ⟨u', hu', .inl h'⟩
    · exact (member u v key w huv hw).imp_left fun ⟨u', hu', h'⟩ => ⟨u', hu', .inr h'⟩

theorem meet {a b : Handle} (hab : b ∈ s → related a b) :
    Tracks s related { j with seen := j.seen.insert (a, b) } where
  closed := h.closed
  grown := h.grown
  stored := h.stored
  same := h.same
  seen u v met hv := by
    rcases contains_insert_iff.1 met with pair | met
    · cases pair
      exact hab hv
    · exact h.seen u v met hv
  types := h.types
  member := h.member

/-- Beginning a pair relates its nodes. -/
theorem opened {a b : Handle} (ha : a ∈ j.store) :
    (j.opened mode a b).Tracks s fun u v => related u v ∨ (u = a ∧ v = b ∧ b ∈ s) := by
  have grown := Store.grows_absorb mode a b j.store
  have before : Tracks s related { j.opened mode a b with seen := j.seen } :=
    (h.grow grown).discharge fun e he => .inl (List.mem_append_right _ he)
  have extended := before.extend (fun u v => u = a ∧ v = b ∧ b ∈ s) ?_ ?_ ?_
  · exact extended.meet fun hb => .inr ⟨rfl, rfl, hb⟩
  · rintro u v ⟨rfl, rfl, hb⟩
    exact ⟨grown.mem ha, hb⟩
  · rintro u v ⟨rfl, rfl, hb⟩ tag ht
    exact Store.mem_types_absorb ha ((h.grown.contents v hb).types tag ht)
  · rintro u v key w ⟨rfl, rfl, hb⟩ hw
    have entry : (key, w) ∈ (j.store.node v).members.toList :=
      SortedMap.get?_eq_some_iff.1 (h.grown.member hb hw)
    exact .inr (List.mem_append_left _ (List.mem_map.2 ⟨(key, w), entry, rfl⟩))

/-- A member that was taken over stands for its original, and so do the copies behind it. -/
theorem adopted (into_mem : e.into ∈ j.store) (free : j.store.member? e.into e.key = none) :
    ∃ related', (∀ u v, related u v → related' u v) ∧
      Tracks s related' { j with store := j.store.adopt mode e.into e.key e.value } ∧
      (e.value ∈ s → ∃ u', (j.store.adopt mode e.into e.key e.value).member? e.into e.key =
        some u' ∧ related' u' e.value) := by
  have grown := Store.grows_adopt mode e.value free
  have grown_tracks := h.grow grown
  have taken := Store.member?_adopt mode into_mem e.key e.value
  by_cases deep : mode.deepCopy
  · let copied := j.store.copied [e.value]
    have extended := grown_tracks.extend
      (fun u v => v ∈ s ∧ v ∈ copied.toList ∧ u = j.store.image copied v) ?_ ?_ ?_
    · refine ⟨_, fun u v huv => .inl huv, extended, fun hv => ?_⟩
      rw [if_pos deep] at taken
      exact ⟨_, taken, .inr ⟨hv, Store.mem_copied_iff.2 (.root (List.mem_singleton.2 rfl)), rfl⟩⟩
    · rintro u v ⟨hv, copy, rfl⟩
      refine ⟨?_, hv⟩
      rw [Store.adopt_eq, if_pos deep, Store.mem_iff, Store.size_modifyNode]
      exact Store.image_mem_copyGraph copy
    · rintro u v ⟨hv, copy, rfl⟩ tag ht
      rw [Store.node_adopt_image deep into_mem e.key copy]
      exact (h.grown.contents v hv).types tag ht
    · rintro u v key w ⟨hv, copy, rfl⟩ hw
      have here : j.store.member? v key = some w := h.grown.member hv hw
      refine .inl ⟨j.store.image copied w, ?_, h.closed.member? hw, ?_, rfl⟩
      · rw [Store.member?, Store.node_adopt_image deep into_mem e.key copy, Entity.member?,
          Store.redirect, SortedMap.get?_mapValues]
        exact Option.map_eq_some_iff.2 ⟨w, here, rfl⟩
      · exact Store.mem_copied_iff.2 (Store.span_member (Store.mem_copied_iff.1 copy) here)
  · refine ⟨related, fun _ _ huv => huv, grown_tracks, fun hv => ?_⟩
    rw [if_neg deep] at taken
    exact ⟨e.value, taken, h.same e.value hv⟩

end

/-- A step keeps the relation and may add to it. -/
theorem bring {seen : Std.TreeSet (Handle × Handle) pairOrder} {store : Store}
    (h : Tracks s related ⟨seen, e :: rest, store⟩) (inside : Inside ⟨seen, e :: rest, store⟩) :
    ∃ related', (∀ u v, related u v → related' u v) ∧
      (Joining.bring mode e ⟨seen, rest, store⟩).Tracks s related' := by
  have into_mem := (inside.pending e List.mem_cons_self).1
  rcases bring_cases mode e ⟨seen, rest, store⟩ with
    ⟨mine, hmine, met, step⟩ | ⟨mine, hmine, -, -, step⟩ | ⟨free, step⟩
  · rw [step]
    refine ⟨related, fun _ _ huv => huv, h.discharge fun e' he' => ?_⟩
    rcases List.mem_cons.1 he' with rfl | he'
    · refine .inr fun hv => ⟨mine, hmine, ?_⟩
      rcases met with rfl | met
      · exact h.same e'.value hv
      · exact h.seen mine e'.value met hv
    · exact .inl he'
  · have mine_mem : mine ∈ store := inside.closed.member? hmine
    rw [step]
    refine ⟨fun u v => related u v ∨ (u = mine ∧ v = e.value ∧ e.value ∈ s),
      fun _ _ huv => .inl huv, (h.opened mine_mem).discharge fun e' he' => ?_⟩
    rcases List.mem_append.1 he' with new | he'
    · exact .inl (List.mem_append_left _ new)
    · rcases List.mem_cons.1 he' with rfl | he'
      · refine .inr fun hv => ⟨mine, ?_, .inr ⟨rfl, rfl, hv⟩⟩
        exact (Store.grows_absorb mode mine e'.value store).member into_mem hmine
      · exact .inl (List.mem_append_right _ he')
  · obtain ⟨related', more, tracks, taken⟩ := h.adopted into_mem free
    rw [step]
    refine ⟨related', more, tracks.discharge fun e' he' => ?_⟩
    rcases List.mem_cons.1 he' with rfl | he'
    · exact .inr taken
    · exact .inl he'

/-- When nothing is pending any more, the relation is a simulation. -/
theorem simulation {seen : Std.TreeSet (Handle × Handle) pairOrder} {store : Store}
    (h : Tracks s related ⟨seen, [], store⟩) : store.Simulation s related where
  types := h.types
  member u v key w huv hw := (h.member u v key w huv hw).resolve_right List.not_mem_nil

theorem run (h : j.Tracks s related) (inside : j.Inside) (hr : j.run mode bound = .ok t) :
    ∃ related', (∀ u v, related u v → related' u v) ∧ t.Simulation s related' := by
  have all := run_ok_induction
    (P := fun k => (∃ related', (∀ u v, related u v → related' u v) ∧ k.Tracks s related') ∧
      k.Inside) ⟨⟨related, fun _ _ huv => huv, h⟩, inside⟩ ?_ hr
  · obtain ⟨_, ⟨related', more, done⟩, -⟩ := all
    exact ⟨related', more, done.simulation⟩
  · rintro seen e rest store ⟨⟨related', more, tracks⟩, inside⟩
    obtain ⟨later, more', tracks⟩ := tracks.bring inside
    exact ⟨⟨later, fun u v huv => more' u v (more u v huv), tracks⟩, inside.step⟩

/-- At the start every node stands for itself. -/
theorem start (closed : s.Closed) : Tracks s (fun u v => u = v ∧ v ∈ s) { store := s } where
  closed := closed
  grown := .refl s
  stored := by
    rintro u v ⟨rfl, hv⟩
    exact ⟨hv, hv⟩
  same n hn := ⟨rfl, hn⟩
  seen u v met := by simp at met
  types := by
    rintro u v ⟨rfl, -⟩ tag ht
    exact ht
  member := by
    rintro u v key w ⟨rfl, -⟩ hw
    exact .inl ⟨w, hw, rfl, closed.member? hw⟩

/-- Entering a pair relates its nodes. -/
theorem enter (h : j.Tracks s related) {a b : Handle} (ha : a ∈ j.store) (hb : b ∈ s) :
    ∃ related', related' a b ∧ (j.enter mode a b).Tracks s related' := by
  rcases enter_cases mode a b j with ⟨met, step⟩ | ⟨-, -, step⟩
  · rw [step]
    refine ⟨related, ?_, h⟩
    rcases met with rfl | met
    · exact h.same a hb
    · exact h.seen a b met hb
  · rw [step]
    exact ⟨_, .inr ⟨rfl, rfl, hb⟩, h.opened ha⟩

end Tracks

end Joining

namespace Store
variable {s : Store} {mode : JoinMode} {a b : Handle}

theorem covers_joinWithin (closed : s.Closed) (ha : a ∈ s) (hb : b ∈ s)
    (h : s.joinWithin mode bound a b = .ok t) : t.Covers a s b := by
  have inside : Joining.Inside { store := s } := ⟨closed, fun e he => absurd he List.not_mem_nil⟩
  obtain ⟨related, hab, tracks⟩ := (Joining.Tracks.start closed).enter ha hb
  obtain ⟨related', more, sim⟩ := tracks.run (inside.enter ha) h
  exact sim.covers (more a b hab)

/-- A join loses nothing, covers what it joins, and ends if it takes members over as they are. -/
theorem join_sound_monotone (closed : s.Closed) (ha : a ∈ s) (hb : b ∈ s) (mode : JoinMode) :
    (∀ bound t, s.joinWithin mode bound a b = .ok t → s.Grows t ∧ t.Covers a s b) ∧
      (mode.deepCopy = false → ∃ bound t, s.joinWithin mode bound a b = .ok t) := by
  refine ⟨fun bound t h => ⟨grows_joinWithin h, covers_joinWithin closed ha hb h⟩,
    fun shallow => ?_⟩
  exact Joining.ends_of_shallow shallow _

/-- Two nodes that are each other's member `next`; the second has one more member, the first. -/
def ring : Store where
  nodes := #[
    { Entity.ofType .map Tag.map with members := .ofList [(.identifier "next", ⟨1⟩)] },
    { Entity.ofType .list Tag.list with
      members := .ofList [(.identifier "next", ⟨0⟩), (.type "number", ⟨0⟩)] }]
  holders := #[2, 1]

theorem join_sound_monotone_ring :
    (∃ t, ring.joinWithin { deepCopy := true } 9 ⟨0⟩ ⟨1⟩ = .ok t ∧ ring.Grows t ∧
      t.Covers ⟨0⟩ ring ⟨1⟩) ∧
    ∃ bound t, ring.joinWithin {} bound ⟨0⟩ ⟨1⟩ = .ok t := by
  have closed : ring.Closed := by decide
  obtain ⟨t, ht⟩ : ∃ t, ring.joinWithin { deepCopy := true } 9 ⟨0⟩ ⟨1⟩ = .ok t := ⟨_, rfl⟩
  refine ⟨⟨t, ht, (join_sound_monotone closed (by decide) (by decide) _).1 9 t ht⟩, ?_⟩
  exact (join_sound_monotone closed (by decide) (by decide) _).2 rfl

end Store

end ScriptInference
