import ScriptInference.Entity.Join
import ScriptInference.Proofs.Entity.DeepCopy

/-!
# Joins only add

A store grows into another if no node loses anything on the way: type tags, signatures and the
shaped flag stay, a member stays the same member, and a live prototype or context stays linked.
Every step of a join grows the store, and so does every join, whatever graph it runs on and whether
it finishes or not.
-/

namespace ScriptInference

variable {s t : Store} {key : EntryKey} {P : Joining → Prop}

/-- Nothing that `e` tells is lost in `e'`. -/
structure Entity.Gains (e e' : Entity) : Prop where
  types : ∀ tag ∈ e.types, tag ∈ e'.types
  member : ∀ key m, e.member? key = some m → e'.member? key = some m
  signatures : ∀ x ∈ e.signatures.hashes, x ∈ e'.signatures.hashes
  shaped : e.shaped → e'.shaped

namespace Entity.Gains

theorem refl (e : Entity) : e.Gains e where
  types _ h := h
  member _ _ h := h
  signatures _ h := h
  shaped h := h

theorem trans {e f g : Entity} (h : e.Gains f) (k : f.Gains g) : e.Gains g where
  types tag ht := k.types tag (h.types tag ht)
  member key m hm := k.member key m (h.member key m hm)
  signatures x hx := k.signatures x (h.signatures x hx)
  shaped hs := k.shaped (h.shaped hs)

end Entity.Gains

namespace Store

/-- Nothing that is known about a node of `s` is lost in `t`. -/
structure Grows (s t : Store) : Prop where
  size_le : s.size ≤ t.size
  contents : ∀ n ∈ s, (s.node n).Gains (t.node n)
  isa : ∀ n ∈ s, ∀ p, s.isa? n = some p → t.isa? n = some p
  context : ∀ n ∈ s, ∀ c, s.context? n = some c → t.context? n = some c

namespace Grows

theorem refl (s : Store) : s.Grows s where
  size_le := Nat.le_refl _
  contents _ _ := .refl _
  isa _ _ _ h := h
  context _ _ _ h := h

theorem mem (h : s.Grows t) {n : Handle} (hn : n ∈ s) : n ∈ t :=
  Nat.lt_of_lt_of_le hn h.size_le

theorem trans {u : Store} (h : s.Grows t) (k : t.Grows u) : s.Grows u where
  size_le := Nat.le_trans h.size_le k.size_le
  contents n hn := (h.contents n hn).trans (k.contents n (h.mem hn))
  isa n hn p hp := k.isa n (h.mem hn) p (h.isa n hn p hp)
  context n hn c hc := k.context n (h.mem hn) c (h.context n hn c hc)

theorem member {s t : Store} (h : s.Grows t) {n : Handle} (hn : n ∈ s) {key : EntryKey} {m : Handle}
    (hm : s.member? n key = some m) : t.member? n key = some m :=
  (h.contents n hn).member key m hm

/-- Old nodes lose no link that they keep, as long as no live node dies. -/
theorem of_links (size_le : s.size ≤ t.size) (contents : ∀ n ∈ s, (s.node n).Gains (t.node n))
    (isa : ∀ n ∈ s, ∀ p, s.isa? n = some p → (t.node n).isa = (s.node n).isa)
    (context : ∀ n ∈ s, ∀ c, s.context? n = some c → (t.node n).context = (s.node n).context)
    (alive : ∀ n, s.live n → t.live n) : s.Grows t where
  size_le := size_le
  contents := contents
  isa n hn p hp := by
    obtain ⟨hlink, hlive⟩ := Option.filter_eq_some_iff.1 hp
    rw [isa?, isa n hn p hp]
    exact Option.filter_eq_some_iff.2 ⟨hlink, alive p hlive⟩
  context n hn c hc := by
    obtain ⟨hlink, hlive⟩ := Option.filter_eq_some_iff.1 hc
    rw [context?, context n hn c hc]
    exact Option.filter_eq_some_iff.2 ⟨hlink, alive c hlive⟩

theorem of_node_eq (size_le : s.size ≤ t.size) (contents : ∀ n ∈ s, t.node n = s.node n)
    (alive : ∀ n, s.live n → t.live n) : s.Grows t := by
  refine .of_links size_le (fun n hn => ?_) (fun n hn _ _ => ?_) (fun n hn _ _ => ?_) alive
  · rw [contents n hn]
    exact .refl _
  · rw [contents n hn]
  · rw [contents n hn]

end Grows

theorem grows_retainAll (hs : List Handle) (s : Store) : s.Grows (s.retainAll hs) :=
  .of_node_eq (by simp) (by simp) fun _ hn => live_retainAll hn hs

theorem grows_copyGraph (roots : List Handle) (s : Store) : s.Grows (s.copyGraph roots).2 := by
  refine .of_node_eq ?_ (fun n hn => node_copyGraph_of_mem hn) fun n hn => ?_
  · rw [size_copyGraph]
    omega
  · have kept : ((s.copiedContents roots).foldl (fun t e => t.push e) s).live n := by
      rw [live, count_pushAll]
      exact hn
    rw [copyGraph_eq]
    exact live_retainAll kept _

/-- Changing one node keeps the growth of the store if the new contents of that node lose
nothing. -/
theorem Grows.modifyNode (h : s.Grows t) {a : Handle} {f : Entity → Entity}
    (contents : a ∈ s → (t.node a).Gains (f (t.node a)))
    (isa : ∀ p, t.isa? a = some p → (f (t.node a)).isa = (t.node a).isa)
    (context : ∀ c, t.context? a = some c → (f (t.node a)).context = (t.node a).context) :
    s.Grows (t.modifyNode a f) where
  size_le := by
    rw [size_modifyNode]
    exact h.size_le
  contents n hn := by
    rw [node_modifyNode a n f t (h.mem hn)]
    split
    · subst n
      exact (h.contents a hn).trans (contents hn)
    · exact h.contents n hn
  isa n hn p hp := by
    have before := h.isa n hn p hp
    rw [isa?, node_modifyNode a n f t (h.mem hn)]
    split
    · subst n
      rw [isa p before]
      exact before
    · exact before
  context n hn c hc := by
    have before := h.context n hn c hc
    rw [context?, node_modifyNode a n f t (h.mem hn)]
    split
    · subst n
      rw [context c before]
      exact before
    · exact before

variable (mode : JoinMode)

theorem size_absorb (a b : Handle) (s : Store) : (s.absorb mode a b).size = s.size := by
  simp [absorb]

theorem grows_absorb (a b : Handle) (s : Store) : s.Grows (s.absorb mode a b) := by
  refine .trans ((Grows.refl s).modifyNode (fun _ => ?_) (fun p hp => ?_) fun c hc => ?_)
    (grows_retainAll _ _)
  · refine ⟨fun tag ht => ?_, fun _ _ hm => hm, fun x hx => ?_, fun hs => ?_⟩
    · exact SortedSet.mem_union.2 (.inl ht)
    · dsimp only
      split
      · exact ContentSet.mem_hashes_union.2 (.inl hx)
      · exact hx
    · simp [hs]
  · simp [hp]
  · simp [hc]

/-- A member under a free key takes nothing away. -/
theorem Grows.insert_member (h : s.Grows t) {a : Handle} (free : a ∈ s → t.member? a key = none)
    (value : Handle) :
    s.Grows (t.modifyNode a fun e => { e with members := e.members.insert key value }) := by
  refine h.modifyNode (fun ha => ?_) (fun _ _ => rfl) fun _ _ => rfl
  refine ⟨fun _ ht => ht, fun k m hm => ?_, fun _ hx => hx, fun hs => hs⟩
  have other : k ≠ key := by
    rintro rfl
    have none_eq : (t.node a).member? k = none := free ha
    rw [none_eq] at hm
    cases hm
  rw [Entity.member?, SortedMap.get?_insert, if_neg other]
  exact hm

theorem modifyNode_override_self (h : Handle) (s : Store) :
    s.modifyNode h (fun e => e.override {}) = s := by
  have same : (fun e : Entity => e.override {}) = id := by
    funext e
    simp [Entity.override]
  have unchanged : s.nodes.modify h.index id = s.nodes := by
    ext i hi₁ hi₂
    · simp
    · simp [Array.getElem_modify]
  simp [modifyNode, same, unchanged]

theorem deepCopy_eq (h : Handle) (s : Store) :
    s.deepCopy h {} = (s.image (s.copied [h]) h, (s.copyGraph [h]).2) := by
  simp only [deepCopy, modifyNode_override_self, copyGraph_fst]
  rfl

theorem adopt_eq (a : Handle) (key : EntryKey) (value : Handle) (s : Store) :
    s.adopt mode a key value =
      if mode.deepCopy then
        (s.copyGraph [value]).2.modifyNode a fun e =>
          { e with members := e.members.insert key (s.image (s.copied [value]) value) }
      else (s.retain value).modifyNode a fun e =>
        { e with members := e.members.insert key value } := by
  unfold adopt
  cases mode.deepCopy
  · rfl
  · rw [if_pos rfl, deepCopy_eq]
    rfl

theorem grows_adopt {a : Handle} (value : Handle) (free : s.member? a key = none) :
    s.Grows (s.adopt mode a key value) := by
  rw [adopt_eq]
  split
  · refine (grows_copyGraph [value] s).insert_member (fun ha => ?_) _
    rw [member?, node_copyGraph_of_mem ha]
    exact free
  · exact (grows_retainAll [value] s).insert_member (fun _ => free) _

end Store

namespace Joining

/-- A new pair of nodes, begun. -/
def opened (mode : JoinMode) (a b : Handle) (j : Joining) : Joining where
  seen := j.seen.insert (a, b)
  pending := (j.store.node b).members.toList.map (fun e => ⟨a, e.1, e.2⟩) ++ j.pending
  store := j.store.absorb mode a b

theorem contains_insert_iff {seen : Std.TreeSet (Handle × Handle) pairOrder}
    {pair other : Handle × Handle} :
    (seen.insert pair).contains other ↔ pair = other ∨ seen.contains other := by
  simp [Std.TreeSet.contains_insert]

section
variable (mode : JoinMode)

theorem enter_cases (a b : Handle) (j : Joining) :
    ((a = b ∨ j.seen.contains (a, b)) ∧ j.enter mode a b = j) ∨
      (a ≠ b ∧ ¬ j.seen.contains (a, b) ∧ j.enter mode a b = j.opened mode a b) := by
  unfold enter
  split
  · rename_i h
    exact .inl ⟨by simpa using h, rfl⟩
  · rename_i h
    simp only [Bool.or_eq_true, decide_eq_true_eq, not_or] at h
    exact .inr ⟨h.1, h.2, rfl⟩

/-- All that one step can do: pass over a pair, begin one, or take a member over. -/
theorem bring_cases (e : PendingEntry) (j : Joining) :
    (∃ mine, j.store.member? e.into e.key = some mine ∧
      (mine = e.value ∨ j.seen.contains (mine, e.value)) ∧ j.bring mode e = j) ∨
    (∃ mine, j.store.member? e.into e.key = some mine ∧ mine ≠ e.value ∧
      ¬ j.seen.contains (mine, e.value) ∧ j.bring mode e = j.opened mode mine e.value) ∨
    (j.store.member? e.into e.key = none ∧
      j.bring mode e = { j with store := j.store.adopt mode e.into e.key e.value }) := by
  unfold bring
  split
  · rename_i mine hmine
    rcases enter_cases mode mine e.value j with ⟨met, h⟩ | ⟨ne, unmet, h⟩
    · exact .inl ⟨mine, hmine, met, h⟩
    · exact .inr (.inl ⟨mine, hmine, ne, unmet, h⟩)
  · rename_i free
    exact .inr (.inr ⟨free, rfl⟩)

theorem grows_enter (a b : Handle) (j : Joining) : j.store.Grows (j.enter mode a b).store := by
  rcases enter_cases mode a b j with ⟨-, h⟩ | ⟨-, -, h⟩
  · rw [h]
    exact .refl _
  · rw [h]
    exact Store.grows_absorb mode a b j.store

theorem grows_bring (e : PendingEntry) (j : Joining) : j.store.Grows (j.bring mode e).store := by
  rcases bring_cases mode e j with ⟨mine, -, -, h⟩ | ⟨mine, -, -, -, h⟩ | ⟨free, h⟩
  · rw [h]
    exact .refl _
  · rw [h]
    exact Store.grows_absorb mode mine e.value j.store
  · rw [h]
    exact Store.grows_adopt mode e.value free

end

section Run
variable {mode : JoinMode} {bound : Nat} {j : Joining}

/-- What every step preserves holds where a join stops, finished or not. -/
theorem run_induction (h : P j)
    (step : ∀ seen e rest store, P ⟨seen, e :: rest, store⟩ → P (bring mode e ⟨seen, rest, store⟩))
    (hr : j.run mode bound = .ok t ∨ j.run mode bound = .error t) :
    ∃ seen pending, P ⟨seen, pending, t⟩ ∧ (j.run mode bound = .ok t → pending = []) := by
  induction bound generalizing j with
  | zero =>
    obtain ⟨seen, pending, store⟩ := j
    cases pending <;> rcases hr with hr | hr <;> cases hr
    · exact ⟨seen, [], h, fun _ => rfl⟩
    · exact ⟨seen, _, h, fun ok => by cases ok⟩
  | succ bound ih =>
    obtain ⟨seen, pending, store⟩ := j
    cases pending with
    | nil =>
      rcases hr with hr | hr <;> cases hr
      exact ⟨seen, [], h, fun _ => rfl⟩
    | cons e rest => exact ih (step seen e rest store h) hr

theorem run_ok_induction (h : P j)
    (step : ∀ seen e rest store, P ⟨seen, e :: rest, store⟩ → P (bring mode e ⟨seen, rest, store⟩))
    (hr : j.run mode bound = .ok t) : ∃ seen, P ⟨seen, [], t⟩ := by
  obtain ⟨seen, pending, done, idle⟩ := run_induction h step (.inl hr)
  exact ⟨seen, idle hr ▸ done⟩

theorem grows_run (hr : j.run mode bound = .ok t ∨ j.run mode bound = .error t) :
    j.store.Grows t := by
  obtain ⟨_, _, grows, -⟩ := run_induction (P := fun k => j.store.Grows k.store) (.refl _)
    (fun seen e rest store h => h.trans (grows_bring mode e ⟨seen, rest, store⟩)) hr
  exact grows

end Run

end Joining

theorem Store.grows_joinWithin {mode : JoinMode} {bound : Nat} {a b : Handle}
    (h : s.joinWithin mode bound a b = .ok t) : s.Grows t :=
  (Joining.grows_enter mode a b { store := s }).trans (Joining.grows_run (.inl h))

end ScriptInference
