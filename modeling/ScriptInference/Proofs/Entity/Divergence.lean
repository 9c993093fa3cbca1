import ScriptInference.Proofs.Entity.Settling

/-!
# A join that never ends

That a pair of nodes is met only once does not keep a join with deep copies finite, since the
receiving side may gain a node with every round. In the store below, node `p` is its own member `x`,
and `a` and `b` lead to each other by `x` while `a` keeps itself and `b` keeps `p` under `y`. A
union takes a copy of `p` first. Joining `b` into that copy brings in `a`, and then again and again:
`b` gives the newest copy another copy of `p` under `y`, and `a` is joined into that one, which
brings in `b`.
-/

namespace ScriptInference

variable {n u v : Handle} {mode : JoinMode} {j : Joining}

namespace Store

/-- A node whose only part is itself is copied alone. -/
theorem copied_of_parts_eq {s : Store} {p : Handle} (parts : (s.node p).parts = [p]) :
    (s.copied [p]).toList = [p] := by
  have only : ∀ h, ReachedFrom (fun h => (s.node h).parts) [p] h → h = p := by
    intro h hh
    induction hh with
    | root hr => exact List.mem_singleton.1 hr
    | edge _ hk ih =>
      rw [ih, parts] at hk
      exact List.mem_singleton.1 hk
  have listed : ∀ h, h ∈ (s.copied [p]).toList ↔ h = p := by
    intro h
    refine mem_copied_iff.trans ⟨only h, ?_⟩
    rintro rfl
    exact .root (List.mem_singleton.2 rfl)
  have permuted : (s.copied [p]).toList.Perm [p] :=
    (List.perm_ext_iff_of_nodup (Enumeration.nodup _) (List.nodup_singleton p)).2
      (by simpa using listed)
  exact List.perm_singleton.1 permuted

variable {s : Store} {p : Handle} {x y : EntryKey}

section Adoption
variable (deep : mode.deepCopy = true) (members : (s.node p).members = .ofList [(x, p)])
  (result : (s.node p).result = none)
include deep members result

/-- Taking over a node that is its own member `x` makes one node, which is its own member `x`. -/
theorem adopt_loop_eq :
    s.adopt mode u y p = (s.copyGraph [p]).2.modifyNode u (fun e =>
      { e with members := e.members.insert y ⟨s.size⟩ }) ∧
    (s.copyGraph [p]).2.size = s.size + 1 ∧
    ((s.copyGraph [p]).2.node ⟨s.size⟩).members = .ofList [(x, ⟨s.size⟩)] := by
  have copied : (s.copied [p]).toList = [p] := by
    refine copied_of_parts_eq ?_
    rw [Entity.parts, members, result]
    rfl
  have listed : p ∈ (s.copied [p]).toList := by simp [copied]
  have image : s.image (s.copied [p]) p = ⟨s.size⟩ :=
    image_of_rank (((s.copied [p]).rank?_eq_some_iff p 0).2 (by simp [copied]))
  refine ⟨?_, ?_, ?_⟩
  · rw [adopt_eq, if_pos deep, image]
  · rw [size_copyGraph, copied]
    rfl
  · rw [← image, node_copyGraph_image listed, redirect, members]
    rfl

theorem size_adopt_loop : (s.adopt mode u y p).size = s.size + 1 := by
  obtain ⟨adopted, size, -⟩ := adopt_loop_eq (u := u) (y := y) deep members result
  rw [adopted, size_modifyNode, size]

theorem node_adopt_loop (hn : n ∈ s) (ne : n ≠ u) : (s.adopt mode u y p).node n = s.node n := by
  obtain ⟨adopted, -, -⟩ := adopt_loop_eq (u := u) (y := y) deep members result
  rw [adopted, node_modifyNode_eq, if_neg (fun h => ne h.1), node_copyGraph_of_mem hn]

theorem members_adopt_loop_receiver (hu : u ∈ s) :
    ((s.adopt mode u y p).node u).members = (s.node u).members.insert y ⟨s.size⟩ := by
  obtain ⟨adopted, -, -⟩ := adopt_loop_eq (u := u) (y := y) deep members result
  have stored : u ∈ (s.copyGraph [p]).2 := (grows_copyGraph [p] s).mem hu
  rw [adopted, node_modifyNode_eq, if_pos ⟨rfl, stored⟩, node_copyGraph_of_mem hu]

theorem members_adopt_loop_copy (hu : u ∈ s) :
    ((s.adopt mode u y p).node ⟨s.size⟩).members = .ofList [(x, ⟨s.size⟩)] := by
  obtain ⟨adopted, -, loop⟩ := adopt_loop_eq (u := u) (y := y) deep members result
  have ne : (⟨s.size⟩ : Handle) ≠ u := by
    rintro rfl
    exact Nat.lt_irrefl _ hu
  rw [adopted, node_modifyNode_eq, if_neg (fun h => ne h.1), loop]

end Adoption

end Store

namespace Joining

/-- A join that comes back to a state of one kind again and again does not end. -/
theorem never_ends_of_rounds (busy : Joining → Prop) (steps : Nat)
    (unfinished : ∀ j, busy j → j.pending ≠ [])
    (progress : ∀ j, busy j → ∃ k, busy k ∧ ∀ bound, j.run mode (bound + steps + 1) = k.run mode
      bound)
    (bound : Nat) (hj : busy j) (t : Store) : j.run mode bound ≠ .ok t := by
  induction bound using Nat.strong_induction_on generalizing j with
  | h bound ih =>
    intro done
    obtain ⟨k, hk, after⟩ := progress j hj
    by_cases enough : steps + 1 ≤ bound
    · obtain ⟨fewer, rfl⟩ := Nat.exists_eq_add_of_le' enough
      exact ih fewer (by omega) hk (after fewer ▸ done)
    · have later : k.run mode 0 = .ok t := by
        rw [← after 0]
        exact run_mono (by omega) done
      obtain ⟨seen, pending, store⟩ := k
      cases pending with
      | nil => exact unfinished _ hk rfl
      | cons e rest => cases later

variable {e : PendingEntry} {mine : Handle}

theorem bring_of_met (hmine : j.store.member? e.into e.key = some mine)
    (met : j.seen.contains (mine, e.value)) : j.bring mode e = j := by
  simp [bring, hmine, enter, met]

theorem bring_of_unmet (hmine : j.store.member? e.into e.key = some mine) (ne : mine ≠ e.value)
    (unmet : ¬ j.seen.contains (mine, e.value)) : j.bring mode e = j.opened mode mine e.value := by
  simp [bring, hmine, enter, ne, unmet, opened]

theorem bring_of_free (free : j.store.member? e.into e.key = none) :
    j.bring mode e = { j with store := j.store.adopt mode e.into e.key e.value } := by
  simp [bring, free]

end Joining

namespace Spiral

def p : Handle := ⟨0⟩
def a : Handle := ⟨1⟩
def b : Handle := ⟨2⟩
def x : EntryKey := .identifier "x"
def y : EntryKey := .identifier "y"

/-- The store before the union. -/
def store : Store where
  nodes := #[
    { Entity.ofType .map Tag.map with members := .ofList [(x, p)] },
    { Entity.ofType .map Tag.map with members := .ofList [(x, b), (y, a)] },
    { Entity.ofType .map Tag.map with members := .ofList [(x, a), (y, p)] }]
  holders := #[3, 3, 2]

/-- The node `u` stands beside those of `store`, which are as they were. -/
structure Beside (u : Handle) (s : Store) : Prop where
  kept : ∀ n ∈ store, s.node n = store.node n
  new : u ∉ store
  stored : u ∈ s

/-- Moreover `u` is a copy of `p`. -/
structure Stage (u : Handle) (s : Store) : Prop extends Beside u s where
  loop : (s.node u).members = .ofList [(x, u)]

section
variable {s : Store}

theorem Beside.ne (h : Beside u s) (hn : n ∈ store) : n ≠ u := by
  rintro rfl
  exact h.new hn

theorem Beside.mem (h : Beside u s) (hn : n ∈ store) : n ∈ s := by
  have inside : n.index < store.size := hn
  have beyond : store.size ≤ u.index := Nat.le_of_not_lt h.new
  have stored : u.index < s.size := h.stored
  exact Store.mem_iff.2 (by omega)

theorem Beside.absorb (h : Beside u s) (v : Handle) : Beside u (s.absorb mode u v) where
  kept n hn := by
    rw [Store.node_absorb_of_ne mode v (h.ne hn)]
    exact h.kept n hn
  new := h.new
  stored := by
    rw [Store.mem_iff, Store.size_absorb]
    exact h.stored

/-- A copy of `p` that `u` takes over stands beside `store` as well. -/
theorem Beside.adopt (deep : mode.deepCopy = true) (h : Beside u s) (key : EntryKey) :
    Stage ⟨s.size⟩ (s.adopt mode u key p) ∧
      (s.adopt mode u key p).member? u key = some ⟨s.size⟩ := by
  have hp : p ∈ store := by decide
  have members : (s.node p).members = .ofList [(x, p)] := by
    rw [h.kept p hp]
    rfl
  have result : (s.node p).result = none := by
    rw [h.kept p hp]
    rfl
  refine ⟨⟨⟨fun n hn => ?_, fun old => ?_, ?_⟩, ?_⟩, ?_⟩
  · rw [Store.node_adopt_loop deep members result (h.mem hn) (h.ne hn)]
    exact h.kept n hn
  · exact Nat.lt_irrefl s.size (h.mem old)
  · rw [Store.mem_iff, Store.size_adopt_loop deep members result]
    exact Nat.lt_succ_self s.size
  · exact Store.members_adopt_loop_copy deep members result h.stored
  · rw [Store.member?, Entity.member?,
      Store.members_adopt_loop_receiver deep members result h.stored,
      SortedMap.get?_insert, if_pos rfl]

theorem Stage.member?_x (h : Stage u s) : s.member? u x = some u := by
  rw [Store.member?, Entity.member?, h.loop]
  rfl

theorem Stage.member?_y (h : Stage u s) : s.member? u y = none := by
  rw [Store.member?, Entity.member?, h.loop]
  rfl

theorem Stage.absorb (h : Stage u s) (v : Handle) : Stage u (s.absorb mode u v) where
  toBeside := h.toBeside.absorb v
  loop := by
    rw [Store.members_absorb]
    exact h.loop

end

/-- The join has just begun to bring `a` into a copy `u` of `p`. -/
structure Round (u : Handle) (j : Joining) : Prop where
  stage : Stage u j.store
  met : j.seen.contains (u, a)
  unmet : ¬ j.seen.contains (u, b)
  known : ∀ pair, j.seen.contains pair → pair.1 ∈ j.store
  pending : ∃ rest, j.pending = ⟨u, x, b⟩ :: ⟨u, y, a⟩ :: rest

/-- Joining `a` into a copy of `p` that is in no pair yet begins a round. -/
theorem round_opened (stage : Stage v j.store)
    (known : ∀ pair, j.seen.contains pair → pair.1 ∈ j.store)
    (unknown : ∀ n, ¬ j.seen.contains (v, n)) : Round v (j.opened mode v a) where
  stage := stage.absorb a
  met := Joining.contains_insert_iff.2 (.inl rfl)
  unmet met := by
    rcases Joining.contains_insert_iff.1 met with same | met
    · cases same
    · exact unknown b met
  known pair hpair := by
    rw [Joining.opened, Store.mem_iff, Store.size_absorb]
    rcases Joining.contains_insert_iff.1 hpair with rfl | hpair
    · exact stage.stored
    · exact known pair hpair
  pending := by
    refine ⟨j.pending, ?_⟩
    rw [Joining.opened, stage.kept a (by decide)]
    rfl

/-- Four steps lead from one round to the next. -/
theorem Round.next (deep : mode.deepCopy = true) (h : Round u j) :
    ∃ k, (∃ v, Round v k) ∧ ∀ bound, j.run mode (bound + 3 + 1) = k.run mode bound := by
  obtain ⟨seen, pending, s⟩ := j
  obtain ⟨rest, rfl⟩ := h.pending
  have hb : b ∈ store := by decide
  have ha : a ∈ store := by decide
  -- `b` is joined into `u`, which leaves `a` and `p` to be brought in
  have first : Joining.bring mode ⟨u, x, b⟩ ⟨seen, ⟨u, y, a⟩ :: rest, s⟩ =
      ⟨seen.insert (u, b), ⟨u, x, a⟩ :: ⟨u, y, p⟩ :: ⟨u, y, a⟩ :: rest, s.absorb mode u b⟩ := by
    rw [Joining.bring_of_unmet h.stage.member?_x (h.stage.ne hb).symm h.unmet, Joining.opened,
      h.stage.kept b hb]
    rfl
  have stage₁ : Stage u (s.absorb mode u b) := h.stage.absorb b
  have second : Joining.bring mode ⟨u, x, a⟩
      ⟨seen.insert (u, b), ⟨u, y, p⟩ :: ⟨u, y, a⟩ :: rest, s.absorb mode u b⟩ =
      ⟨seen.insert (u, b), ⟨u, y, p⟩ :: ⟨u, y, a⟩ :: rest, s.absorb mode u b⟩ :=
    Joining.bring_of_met stage₁.member?_x (Joining.contains_insert_iff.2 (.inr h.met))
  have third : Joining.bring mode ⟨u, y, p⟩
      ⟨seen.insert (u, b), ⟨u, y, a⟩ :: rest, s.absorb mode u b⟩ =
      ⟨seen.insert (u, b), ⟨u, y, a⟩ :: rest, (s.absorb mode u b).adopt mode u y p⟩ :=
    Joining.bring_of_free stage₁.member?_y
  obtain ⟨stage₂, taken⟩ := stage₁.toBeside.adopt deep y
  -- the copy of `p` is new, so that no pair has it
  have known : ∀ pair, (seen.insert (u, b)).contains pair → pair.1 ∈ s := by
    intro pair hpair
    rcases Joining.contains_insert_iff.1 hpair with rfl | hpair
    · exact h.stage.stored
    · exact h.known pair hpair
  have unknown : ∀ n, ¬ (seen.insert (u, b)).contains (⟨(s.absorb mode u b).size⟩, n) := by
    intro n hn
    have old : (⟨(s.absorb mode u b).size⟩ : Handle) ∈ s := known _ hn
    rw [Store.size_absorb] at old
    exact Nat.lt_irrefl _ old
  let last : Joining := ⟨seen.insert (u, b), rest, (s.absorb mode u b).adopt mode u y p⟩
  have fourth : last.bring mode ⟨u, y, a⟩ = last.opened mode ⟨(s.absorb mode u b).size⟩ a :=
    Joining.bring_of_unmet taken (stage₂.ne ha).symm (unknown a)
  have known_last : ∀ pair, last.seen.contains pair → pair.1 ∈ last.store := by
    intro pair hpair
    have grown : s.Grows last.store :=
      (Store.grows_absorb mode u b s).trans (Store.grows_adopt mode p stage₁.member?_y)
    exact grown.mem (known pair hpair)
  refine ⟨last.opened mode ⟨(s.absorb mode u b).size⟩ a,
    ⟨_, round_opened stage₂ known_last unknown⟩, fun bound => ?_⟩
  rw [← fourth, Joining.run, first, Joining.run, second, Joining.run, third, Joining.run]

theorem Round.never_ends (deep : mode.deepCopy = true) (h : Round u j) (bound : Nat) (t : Store) :
    j.run mode bound ≠ .ok t := by
  refine Joining.never_ends_of_rounds (fun k => ∃ v, Round v k) 3 ?_ ?_ bound ⟨u, h⟩ t
  · rintro k ⟨v, hk⟩ done
    obtain ⟨rest, pending⟩ := hk.pending
    rw [done] at pending
    cases pending
  · rintro k ⟨v, hk⟩
    exact hk.next deep

/-- The new entity that joins the members of the union. -/
def m : Handle := ⟨3⟩

/-- The store when the union has made its entity. -/
def begun : Store := (store.alloc { kind := .map, label := "m" }).2

theorem beside_begun : Beside m begun where
  kept n hn := Store.node_alloc_lt _ _ n hn
  new := by decide
  stored := by decide

theorem enter_m (mode : JoinMode) (hv : v ∈ store) (s : Store) :
    Joining.enter mode m v { store := s } = Joining.opened mode m v { store := s } := by
  have ne : m ≠ v := (beside_begun.ne hv).symm
  rcases Joining.enter_cases mode m v { store := s } with ⟨met, -⟩ | ⟨-, -, opened⟩
  · simp [ne] at met
  · exact opened

/-- The union takes over a copy of `p` first. -/
theorem joined_p {bound : Nat} {t : Store} (h : begun.joinWithin mode bound m p = .ok t) :
    t = (begun.absorb mode m p).adopt mode m x p := by
  have hp : p ∈ store := by decide
  have free : (begun.absorb mode m p).member? m x = none := by
    rw [Store.member?, Entity.member?, Store.members_absorb]
    rfl
  have entered : Joining.opened mode m p { store := begun } =
      ⟨(∅ : Std.TreeSet (Handle × Handle) pairOrder).insert (m, p), [⟨m, x, p⟩],
        begun.absorb mode m p⟩ := by
    rw [Joining.opened, beside_begun.kept p hp]
    rfl
  rw [Store.joinWithin, enter_m mode hp, entered] at h
  cases bound with
  | zero => cases h
  | succ bound =>
    rw [Joining.run, Joining.bring_of_free free] at h
    cases bound <;> exact (Except.ok.inj h).symm

/-- From there `b` cannot be joined. -/
theorem joining_b_never_ends (deep : mode.deepCopy = true) (bound : Nat) (t : Store) :
    ((begun.absorb mode m p).adopt mode m x p).joinWithin mode bound m b ≠ .ok t := by
  intro h
  have hb : b ∈ store := by decide
  have ha : a ∈ store := by decide
  have beside : Beside m (begun.absorb mode m p) := beside_begun.absorb p
  obtain ⟨stage, taken⟩ := beside.adopt deep x
  let s := (begun.absorb mode m p).adopt mode m x p
  let u : Handle := ⟨(begun.absorb mode m p).size⟩
  have ne : u ≠ m := by
    intro same
    have old : u ∈ begun.absorb mode m p := same ▸ beside.stored
    exact Nat.lt_irrefl _ old
  have grown : (begun.absorb mode m p).Grows s := by
    refine Store.grows_adopt mode p ?_
    rw [Store.member?, Entity.member?, Store.members_absorb]
    rfl
  have stored : m ∈ s := grown.mem beside.stored
  have entered : Joining.opened mode m b { store := s } =
      ⟨(∅ : Std.TreeSet (Handle × Handle) pairOrder).insert (m, b), [⟨m, x, a⟩, ⟨m, y, p⟩],
        s.absorb mode m b⟩ := by
    rw [Joining.opened, stage.kept b hb]
    rfl
  have stage' : Stage u (s.absorb mode m b) := by
    refine ⟨⟨fun n hn => ?_, stage.new, ?_⟩, ?_⟩
    · rw [Store.node_absorb_of_ne mode b (beside_begun.ne hn)]
      exact stage.kept n hn
    · rw [Store.mem_iff, Store.size_absorb]
      exact stage.stored
    · rw [Store.members_absorb]
      exact stage.loop
  have mine : (s.absorb mode m b).member? m x = some u := by
    rw [Store.member?, Entity.member?, Store.members_absorb]
    exact taken
  let after : Joining := ⟨(∅ : Std.TreeSet (Handle × Handle) pairOrder).insert (m, b), [⟨m, y, p⟩],
    s.absorb mode m b⟩
  have only : ∀ pair, after.seen.contains pair → pair = (m, b) := by
    intro pair hpair
    rcases Joining.contains_insert_iff.1 hpair with same | none
    · exact same.symm
    · simp at none
  have unknown : ∀ n, ¬ after.seen.contains (u, n) := fun n hn => ne (congrArg Prod.fst (only _ hn))
  have round : Round u (after.opened mode u a) := by
    refine round_opened stage' (fun pair hpair => ?_) unknown
    rw [only pair hpair, Store.mem_iff, Store.size_absorb]
    exact stored
  have step : after.bring mode ⟨m, x, a⟩ = after.opened mode u a :=
    Joining.bring_of_unmet mine (stage.ne ha).symm (unknown a)
  rw [Store.joinWithin, enter_m mode hb, entered] at h
  cases bound with
  | zero => cases h
  | succ bound =>
    rw [Joining.run, step] at h
    exact round.never_ends deep bound t h

end Spiral

/-- A union of two entities of a small sound store that never ends. -/
theorem union_spiral_never_ends :
    Spiral.store.Sound ∧ ¬ (Infer.union .map "m" [Spiral.p, Spiral.b]).Ends Spiral.store := by
  refine ⟨by decide, ?_⟩
  rintro ⟨bound, r, hr⟩
  obtain ⟨_, _, made, hr⟩ := Infer.bind_ok hr
  cases made
  obtain ⟨_, _, joined, -⟩ := Infer.bind_ok hr
  obtain ⟨_, s, first, second⟩ := Infer.bind_ok joined
  obtain ⟨_, t, second, -⟩ := Infer.bind_ok second
  obtain rfl : s = _ := Spiral.joined_p (Infer.join_ok first)
  exact Spiral.joining_b_never_ends rfl bound t (Infer.join_ok second)

end ScriptInference
