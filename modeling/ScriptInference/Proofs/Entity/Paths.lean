import ScriptInference.Proofs.Entity.Closedness

/-!
# Paths of members

What a value is known to be is what can be found by following members from it. A node covers
another, possibly one of another store, if every path from that one can be followed from it as well
and ends at a node with at least the types. The graphs have cycles and the paths are unbounded, so
covering is shown by a simulation: a relation between nodes that one step along a member keeps.
-/

namespace ScriptInference.Store

/-- The node at the end of a path. -/
def follow (s : Store) (h : Handle) : List EntryKey → Option Handle
  | [] => some h
  | key :: rest => (s.member? h key).bind fun m => s.follow m rest

/-- Whatever is found along a path from `v` in `s` is found along the same path from `u` in `t`. -/
def Covers (t : Store) (u : Handle) (s : Store) (v : Handle) : Prop :=
  ∀ path e, s.follow v path = some e →
    ∃ e', t.follow u path = some e' ∧ ∀ tag ∈ (s.node e).types, tag ∈ (t.node e').types

/-- A relation between the nodes of two stores that one step along a member keeps. -/
structure Simulation (t s : Store) (related : Handle → Handle → Prop) : Prop where
  types : ∀ u v, related u v → ∀ tag ∈ (s.node v).types, tag ∈ (t.node u).types
  member : ∀ u v key w, related u v → s.member? v key = some w →
    ∃ u', t.member? u key = some u' ∧ related u' w

section
variable {s t r : Store} {u v w : Handle}

theorem Simulation.covers {related : Handle → Handle → Prop} (sim : t.Simulation s related)
    (h : related u v) : t.Covers u s v := by
  intro path e he
  induction path generalizing u v with
  | nil =>
    obtain rfl := Option.some.inj he
    exact ⟨u, rfl, sim.types u v h⟩
  | cons key rest ih =>
    obtain ⟨w, hw, he⟩ := Option.bind_eq_some_iff.1 he
    obtain ⟨u', hu', h'⟩ := sim.member u v key w h hw
    obtain ⟨e', he', types⟩ := ih h' he
    exact ⟨e', by rw [follow, hu']; exact he', types⟩

namespace Covers

theorem types (h : t.Covers u s v) : ∀ tag ∈ (s.node v).types, tag ∈ (t.node u).types := by
  obtain ⟨e', he', types⟩ := h [] v rfl
  obtain rfl := Option.some.inj he'
  exact types

theorem member (h : t.Covers u s v) {key : EntryKey} (hw : s.member? v key = some w) :
    ∃ u', t.member? u key = some u' ∧ t.Covers u' s w := by
  obtain ⟨e', he', -⟩ := h [key] w (by rw [follow, hw]; rfl)
  obtain ⟨u', hu', -⟩ := Option.bind_eq_some_iff.1 he'
  refine ⟨u', hu', fun path e he => ?_⟩
  obtain ⟨e', he', types⟩ := h (key :: path) e (by rw [follow, hw]; exact he)
  rw [follow, hu'] at he'
  exact ⟨e', he', types⟩

theorem refl (s : Store) (u : Handle) : s.Covers u s u := fun _ e he => ⟨e, he, fun _ ht => ht⟩

theorem trans (h : t.Covers u s v) (k : s.Covers v r w) : t.Covers u r w := by
  intro path e he
  obtain ⟨e', he', types'⟩ := k path e he
  obtain ⟨e'', he'', types''⟩ := h path e' he'
  exact ⟨e'', he'', fun tag ht => types'' tag (types' tag ht)⟩

end Covers

/-- No path is lost where nodes keep their types and members. -/
theorem Covers.of_kept (closed : s.Closed)
    (types : ∀ n ∈ s, ∀ tag ∈ (s.node n).types, tag ∈ (t.node n).types)
    (member : ∀ n ∈ s, ∀ key m, s.member? n key = some m → t.member? n key = some m) (hu : u ∈ s) :
    t.Covers u s u := by
  have sim : t.Simulation s fun u v => u = v ∧ v ∈ s := by
    refine ⟨?_, ?_⟩
    · rintro u v ⟨rfl, hv⟩
      exact types u hv
    · rintro u v key w ⟨rfl, hv⟩ hw
      exact ⟨w, member u hv key w hw, rfl, closed.member? hw⟩
  exact sim.covers ⟨rfl, hu⟩

theorem Grows.covers (grown : s.Grows t) (closed : s.Closed) (hu : u ∈ s) : t.Covers u s u :=
  .of_kept closed (fun n hn => (grown.contents n hn).types)
    (fun _ hn _ _ hm => grown.member hn hm) hu

end

end ScriptInference.Store
