import ScriptInference.Proofs.Entity.JoinCover
import ScriptInference.Proofs.Entity.Settling

/-!
# Unions work beside the store

A union starts from a new entity without members and takes deep copies over, so that everything it
writes to is new, and new nodes have new members only. The store it started from is unchanged, and
the union covers each of the entities it was made of.
-/

namespace ScriptInference

variable {s t u : Store} {bound : Nat} {n : Handle} {e : PendingEntry} {mode : JoinMode} {r : Unit}

/-- The nodes of `s` are as they were, and the other nodes have none of them as a member. What they
name in `s` is named there. -/
structure Store.Extends (s t : Store) : Prop where
  size_le : s.size ≤ t.size
  kept : ∀ n ∈ s, t.node n = s.node n
  members : ∀ n, n ∉ s → ∀ m ∈ (t.node n).members.values, m ∉ s
  named : ∀ n, ∀ k ∈ (t.node n).links, k ∈ s → ∃ m, k ∈ (s.node m).links

namespace Store.Extends

theorem mem (h : s.Extends t) (hn : n ∈ s) : n ∈ t := Nat.lt_of_lt_of_le hn h.size_le

theorem covers (h : s.Extends t) (closed : s.Closed) (hn : n ∈ s) : t.Covers n s n := by
  refine .of_kept closed (fun k hk tag ht => ?_) (fun k hk key m hm => ?_) hn
  · rw [h.kept k hk]
    exact ht
  · rw [member?, h.kept k hk]
    exact hm

/-- A new node without members stands beside the others. -/
theorem alloc (s : Store) {e : Entity} (bare : e.links = []) : s.Extends (s.alloc e).2 := by
  have known : ∀ {n k}, k ∈ ((s.alloc e).2.node n).links → k ∈ (s.node n).links := by
    intro n k hk
    rw [node_alloc_eq] at hk
    split at hk
    · rw [bare] at hk
      cases hk
    · exact hk
  refine ⟨by simp [Store.alloc, size, push], node_alloc_lt e s, fun n hn m hm => ?_,
    fun n k hk _ => ?_⟩
  · have listed := known (Entity.mem_links_iff.2 (.inl hm))
    rw [node_of_not_mem hn] at listed
    cases listed
  · exact ⟨n, known hk⟩

theorem absorb (h : s.Extends t) {a : Handle} (ha : a ∉ s) (b : Handle) :
    s.Extends (t.absorb mode a b) where
  size_le := by
    rw [size_absorb]
    exact h.size_le
  kept n hn := by
    have ne : n ≠ a := by
      rintro rfl
      exact ha hn
    rw [node_absorb_of_ne mode b ne]
    exact h.kept n hn
  members n hn m hm := by
    rw [members_absorb] at hm
    exact h.members n hn m hm
  named n k hk hs := (mem_links_absorb hk).elim (h.named n k · hs) (h.named b k · hs)

theorem copyGraph (h : s.Extends t) (roots : List Handle) :
    s.Extends (t.copyGraph roots).2 where
  size_le := Nat.le_trans h.size_le (grows_copyGraph roots t).size_le
  kept n hn := by
    rw [node_copyGraph_of_mem (h.mem hn)]
    exact h.kept n hn
  members n hn m hm := by
    by_cases old : n ∈ t
    · rw [node_copyGraph_of_mem old] at hm
      exact h.members n hn m hm
    by_cases new : n ∈ (t.copyGraph roots).2
    · -- the members of a copy are copies
      obtain ⟨k, hk, rfl⟩ := exists_image_eq new old
      rw [node_copyGraph_image hk, redirect, SortedMap.values_mapValues] at hm
      obtain ⟨w, hw, rfl⟩ := List.mem_map.1 hm
      have spanned : w ∈ t.span roots :=
        .edge (mem_copied_iff.1 hk) (List.mem_append_left _ hw)
      intro hs
      exact image_not_mem (mem_copied_iff.2 spanned) (h.mem hs)
    · rw [node_of_not_mem new] at hm
      cases hm
  named n k hk hs := by
    by_cases old : n ∈ t
    · rw [node_copyGraph_of_mem old] at hk
      exact h.named n k hk hs
    by_cases new : n ∈ (t.copyGraph roots).2
    · obtain ⟨m, hm, rfl⟩ := exists_image_eq new old
      rw [node_copyGraph_image hm] at hk
      obtain ⟨j, hj, named⟩ := mem_links_redirect hk
      have same : k = j := by
        rcases named with same | rfl
        · exact same
        · by_cases listed : j ∈ (t.copied roots).toList
          · exact absurd (h.mem hs) (image_not_mem listed)
          · exact image_eq_self listed
      subst same
      exact h.named m k hj hs
    · rw [node_of_not_mem new] at hk
      cases hk

theorem insert_member (h : s.Extends t) {a value : Handle} (ha : a ∉ s) (hv : value ∉ s)
    (key : EntryKey) :
    s.Extends (t.modifyNode a fun e => { e with members := e.members.insert key value }) where
  size_le := by
    rw [size_modifyNode]
    exact h.size_le
  kept n hn := by
    have ne : n ≠ a := by
      rintro rfl
      exact ha hn
    rw [node_modifyNode_eq, if_neg fun h => ne h.1]
    exact h.kept n hn
  members n hn m hm := by
    rcases mem_values_insert_member hm with rfl | old
    · exact hv
    · exact h.members n hn m old
  named n k hk hs := by
    rw [node_modifyNode_eq] at hk
    split at hk
    · rcases Entity.mem_links_insert hk with rfl | old
      · exact absurd hs hv
      · exact h.named n k old hs
    · exact h.named n k hk hs

theorem adopt (deep : mode.deepCopy = true) (h : s.Extends t) {a : Handle} (ha : a ∉ s)
    (key : EntryKey) (value : Handle) : s.Extends (t.adopt mode a key value) := by
  have copied : value ∈ (t.copied [value]).toList :=
    mem_copied_iff.2 (.root (List.mem_singleton.2 rfl))
  rw [adopt_eq, if_pos deep]
  exact (h.copyGraph [value]).insert_member ha (fun hs => image_not_mem copied (h.mem hs)) key

end Store.Extends

namespace Joining

/-- The join writes only to nodes beside those of `s`. -/
structure Apart (s : Store) (j : Joining) : Prop where
  store : s.Extends j.store
  receivers : ∀ e ∈ j.pending, e.into ∉ s

namespace Apart
variable {j : Joining}

theorem opened (h : j.Apart s) {a : Handle} (ha : a ∉ s) (b : Handle) :
    (j.opened mode a b).Apart s where
  store := h.store.absorb ha b
  receivers e he := by
    rcases List.mem_append.1 he with he | he
    · obtain ⟨entry, -, rfl⟩ := List.mem_map.1 he
      exact ha
    · exact h.receivers e he

theorem enter (h : j.Apart s) {a : Handle} (ha : a ∉ s) (b : Handle) :
    (j.enter mode a b).Apart s := by
  rcases enter_cases mode a b j with ⟨-, step⟩ | ⟨-, -, step⟩
  · rw [step]
    exact h
  · rw [step]
    exact h.opened ha b

variable (deep : mode.deepCopy = true)

include deep

theorem bring (h : j.Apart s) (into_new : e.into ∉ s) : (j.bring mode e).Apart s := by
  rcases bring_cases mode e j with ⟨mine, -, -, step⟩ | ⟨mine, hmine, -, -, step⟩ | ⟨-, step⟩
  · rw [step]
    exact h
  · rw [step]
    have mine_new : mine ∉ s :=
      h.store.members e.into into_new mine (SortedMap.mem_values_iff.2 ⟨e.key, hmine⟩)
    exact h.opened mine_new e.value
  · rw [step]
    exact ⟨h.store.adopt deep into_new e.key e.value, h.receivers⟩

theorem step {seen : Std.TreeSet (Handle × Handle) pairOrder} {rest : List PendingEntry}
    {store : Store} (h : Apart s ⟨seen, e :: rest, store⟩) :
    (Joining.bring mode e ⟨seen, rest, store⟩).Apart s := by
  have rest_apart : Apart s ⟨seen, rest, store⟩ :=
    ⟨h.store, fun e' he' => h.receivers e' (List.mem_cons_of_mem e he')⟩
  exact rest_apart.bring deep (h.receivers e List.mem_cons_self)

theorem run (h : j.Apart s) (inside : j.Inside) (hr : j.run mode bound = .ok t) :
    s.Extends t ∧ t.Closed := by
  obtain ⟨_, done, inside⟩ := run_ok_induction (P := fun k => k.Apart s ∧ k.Inside) ⟨h, inside⟩
    (fun _ _ _ _ h => ⟨h.1.step deep, h.2.step⟩) hr
  exact ⟨done.store, inside.closed⟩

end Apart

end Joining

namespace Infer

/-- What is true of a store `u` after the members have been joined into a new node `m` of `t`. -/
structure Joined (s t : Store) (m : Handle) (members : List Handle) (u : Store) : Prop where
  closed : u.Closed
  store : s.Extends u
  grown : t.Grows u
  covers : ∀ b ∈ members, u.Covers m t b

theorem joined_join (deep : mode.deepCopy = true) {m b : Handle} (store : s.Extends t)
    (closed : t.Closed) (new : m ∉ s) (stored : m ∈ t) (hb : b ∈ t)
    (h : join mode m b bound t = .ok (r, u)) : Joined s t m [b] u := by
  have joined : t.joinWithin mode bound m b = .ok u := join_ok h
  have start : Joining.Inside { store := t } := ⟨closed, fun e he => absurd he List.not_mem_nil⟩
  have apart : Joining.Apart s { store := t } := ⟨store, fun e he => absurd he List.not_mem_nil⟩
  obtain ⟨store', closed'⟩ := (apart.enter new b).run deep (start.enter stored) joined
  refine ⟨closed', store', Store.grows_joinWithin joined, fun b' hb' => ?_⟩
  obtain rfl := List.mem_singleton.1 hb'
  exact Store.covers_joinWithin closed stored hb joined

theorem joined_joinAll (deep : mode.deepCopy = true) {m : Handle} {members : List Handle}
    (store : s.Extends t) (closed : t.Closed) (new : m ∉ s) (stored : m ∈ t)
    (inside : ∀ b ∈ members, b ∈ t) (h : joinAll mode m members bound t = .ok (r, u)) :
    Joined s t m members u := by
  induction members generalizing t with
  | nil =>
    cases h
    exact ⟨closed, store, .refl _, fun b hb => absurd hb List.not_mem_nil⟩
  | cons b rest ih =>
    obtain ⟨_, v, first, later⟩ := bind_ok h
    have one := joined_join deep store closed new stored (inside b List.mem_cons_self) first
    have others := ih one.store one.closed (one.grown.mem stored)
      (fun b' hb' => one.grown.mem (inside b' (List.mem_cons_of_mem b hb'))) later
    refine ⟨others.closed, others.store, one.grown.trans others.grown, fun b' hb' => ?_⟩
    rcases List.mem_cons.1 hb' with rfl | hb'
    · -- what the first join has brought in stays
      have now : v.Covers m t b' := one.covers b' (List.mem_singleton.2 rfl)
      exact (others.grown.covers one.closed (one.grown.mem stored)).trans now
    · have before : v.Covers b' t b' :=
        one.grown.covers closed (inside b' (List.mem_cons_of_mem b hb'))
      exact (others.covers b' hb').trans before

variable {kind : EntityKind} {label : String} {members : List Handle} {m : Handle}

theorem union_ok (h : union kind label members bound s = .ok (m, t)) :
    m = (s.alloc { kind, label }).1 ∧
      joinAll { deepCopy := true } m members bound (s.alloc { kind, label }).2 = .ok ((), t) := by
  obtain ⟨_, _, made, h⟩ := bind_ok h
  cases made
  obtain ⟨_, u, joined, h⟩ := bind_ok h
  cases h
  exact ⟨rfl, joined⟩

/-- What a union makes. -/
structure Unites (s : Store) (members : List Handle) (m : Handle) (t : Store) : Prop where
  new : m = ⟨s.size⟩
  stored : m ∈ t
  closed : t.Closed
  store : s.Extends t
  covers : ∀ b ∈ members, t.Covers m s b

theorem unites_union (closed : s.Closed) (inside : ∀ b ∈ members, b ∈ s)
    (h : union kind label members bound s = .ok (m, t)) : Unites s members m t := by
  obtain ⟨rfl, joined⟩ := union_ok h
  have begun := Store.Extends.alloc s (e := { kind, label }) rfl
  have new : (s.alloc { kind, label }).1 ∉ s := Nat.lt_irrefl s.size
  have stored := Store.mem_alloc { kind, label } s
  have closed' : (s.alloc { kind, label }).2.Closed := closed.alloc fun k hk => by cases hk
  have all := joined_joinAll rfl begun closed' new stored
    (fun b hb => begun.mem (inside b hb)) joined
  refine ⟨rfl, all.grown.mem stored, all.closed, all.store, fun b hb => ?_⟩
  exact (all.covers b hb).trans (begun.covers closed (inside b hb))

end Infer

end ScriptInference
