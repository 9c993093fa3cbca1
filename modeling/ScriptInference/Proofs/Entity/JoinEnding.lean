import Mathlib.Data.Finset.Card
import Mathlib.Data.Finset.Prod
import ScriptInference.Proofs.Entity.Growth

/-!
# A join that does not end copies without end

A join meets a pair of nodes only once. As long as all the nodes it meets lie in one finite set,
there are finitely many pairs to meet, and each of them leaves finitely many members to be brought
in. So a join that does not end needs new nodes again and again: it either finishes, or it makes the
store larger than any given size. A join that takes members over as they are makes no nodes, and
always ends.
-/

namespace ScriptInference

variable {s t : Store} {mode : JoinMode} {n : Handle} {key : EntryKey} {bound : Nat} {j : Joining}

namespace Store

theorem members_absorb (mode : JoinMode) (a b n : Handle) (s : Store) :
    ((s.absorb mode a b).node n).members = (s.node n).members := by
  simp only [absorb, node_retainAll, node_modifyNode_eq]
  split <;> rfl

theorem node_absorb_of_ne (mode : JoinMode) (b : Handle) {a : Handle} (ne : n ≠ a) :
    (s.absorb mode a b).node n = s.node n := by
  simp only [absorb, node_retainAll, node_modifyNode_eq]
  rw [if_neg fun h => ne h.1]

theorem mem_values_copyGraph {roots : List Handle} {m : Handle}
    (hm : m ∈ ((s.copyGraph roots).2.node n).members.values) :
    m ∈ (s.copyGraph roots).2 ∨ ∃ k, m ∈ (s.node k).members.values := by
  by_cases old : n ∈ s
  · rw [node_copyGraph_of_mem old] at hm
    exact .inr ⟨n, hm⟩
  by_cases hn : n ∈ (s.copyGraph roots).2
  · obtain ⟨k, hk, rfl⟩ := exists_image_eq hn old
    rw [node_copyGraph_image hk, redirect, SortedMap.values_mapValues] at hm
    obtain ⟨v, hv, rfl⟩ := List.mem_map.1 hm
    rcases @image_eq_or_mem s roots v with same | fresh
    · rw [same]
      exact .inr ⟨k, hv⟩
    · exact .inl fresh
  · rw [node_of_not_mem hn] at hm
    cases hm

theorem mem_values_insert_member {a m value : Handle}
    (hm : m ∈ ((s.modifyNode a fun e => { e with members := e.members.insert key value }).node
      n).members.values) : m = value ∨ m ∈ (s.node n).members.values := by
  rw [node_modifyNode_eq] at hm
  split at hm
  · exact SortedMap.mem_values_insert hm
  · exact .inr hm

/-- The members after one is taken over: those there were, and new nodes. -/
theorem mem_values_adopt {a : Handle} {value : Handle} {m : Handle}
    (hm : m ∈ ((s.adopt mode a key value).node n).members.values) :
    m ∈ s.adopt mode a key value ∨ m = value ∨ ∃ k, m ∈ (s.node k).members.values := by
  by_cases deep : mode.deepCopy
  · rw [adopt_eq, if_pos deep] at hm ⊢
    rw [mem_iff, size_modifyNode, ← mem_iff]
    rcases mem_values_insert_member hm with rfl | hm
    · exact (image_eq_or_mem value).symm.imp_right .inl
    · exact (mem_values_copyGraph hm).imp_right .inr
  · rw [adopt_eq, if_neg deep] at hm
    rcases mem_values_insert_member hm with rfl | hm
    · exact .inr (.inl rfl)
    · exact .inr (.inr ⟨n, hm⟩)

end Store

namespace Joining

/-- The nodes that the join may meet lie in a finite set. -/
structure Confined (nodes : Finset Handle) (j : Joining) : Prop where
  members : ∀ n, ∀ m ∈ (j.store.node n).members.values, m ∈ nodes
  pending : ∀ e ∈ j.pending, e.into ∈ nodes ∧ e.value ∈ nodes

/-- How many pairs of the nodes have not been met yet. -/
def unmet (nodes : Finset Handle) (j : Joining) : Nat :=
  ((nodes ×ˢ nodes).filter fun p => ¬ j.seen.contains p).card

section
variable {nodes : Finset Handle}

theorem Confined.opened {a b : Handle} (h : j.Confined nodes) (ha : a ∈ nodes) :
    (j.opened mode a b).Confined nodes where
  members n m hm := by
    rw [Joining.opened, Store.members_absorb] at hm
    exact h.members n m hm
  pending e he := by
    rcases List.mem_append.1 he with he | he
    · obtain ⟨entry, hentry, rfl⟩ := List.mem_map.1 he
      exact ⟨ha, h.members b _ (List.mem_map_of_mem hentry)⟩
    · exact h.pending e he

theorem Confined.adopted {e : PendingEntry} (h : j.Confined nodes) (hv : e.value ∈ nodes)
    (room : ∀ n ∈ j.store.adopt mode e.into e.key e.value, n ∈ nodes) :
    Confined nodes { j with store := j.store.adopt mode e.into e.key e.value } where
  members n m hm := by
    rcases Store.mem_values_adopt hm with new | rfl | ⟨k, old⟩
    · exact room m new
    · exact hv
    · exact h.members k m old
  pending := h.pending

theorem unmet_opened_lt {a b : Handle} (ha : a ∈ nodes) (hb : b ∈ nodes)
    (unseen : ¬ j.seen.contains (a, b)) : (j.opened mode a b).unmet nodes < j.unmet nodes := by
  refine Finset.card_lt_card (Finset.ssubset_iff_subset_ne.2 ⟨fun p hp => ?_, fun heq => ?_⟩)
  · rw [Finset.mem_filter] at hp ⊢
    refine ⟨hp.1, fun met => hp.2 ?_⟩
    exact contains_insert_iff.2 (.inr met)
  · have here : (a, b) ∈ (nodes ×ˢ nodes).filter fun p => ¬ j.seen.contains p :=
      Finset.mem_filter.2 ⟨Finset.mem_product.2 ⟨ha, hb⟩, unseen⟩
    rw [← heq, Finset.mem_filter] at here
    exact here.2 (contains_insert_iff.2 (.inl rfl))

/-- A join among finitely many nodes finishes, unless it makes more of them. -/
theorem Confined.ends_or_outgrows {limit : Nat} (enough : ∀ n : Handle, n.index < limit → n ∈ nodes)
    (h : j.Confined nodes) :
    ∃ bound, (∃ t, j.run mode bound = .ok t) ∨ ∃ t, j.run mode bound = .error t ∧
      limit < t.size := by
  induction hk : j.unmet nodes using Nat.strong_induction_on generalizing j with
  | h k fewer =>
    obtain ⟨seen, pending, store⟩ := j
    induction pending generalizing store with
    | nil => exact ⟨0, .inl ⟨store, rfl⟩⟩
    | cons e rest ih =>
      obtain ⟨hinto, hvalue⟩ := h.pending e List.mem_cons_self
      have rest_confined : Confined nodes ⟨seen, rest, store⟩ :=
        ⟨h.members, fun e' he' => h.pending e' (List.mem_cons_of_mem e he')⟩
      -- it is enough to finish, or to outgrow the limit, after the first step
      suffices later : ∃ bound, (∃ t, (bring mode e ⟨seen, rest, store⟩).run mode bound = .ok t) ∨
          ∃ t, (bring mode e ⟨seen, rest, store⟩).run mode bound = .error t ∧ limit < t.size by
        obtain ⟨bound, outcome⟩ := later
        exact ⟨bound + 1, outcome⟩
      rcases bring_cases mode e ⟨seen, rest, store⟩ with
        ⟨mine, -, -, step⟩ | ⟨mine, hmine, -, unseen, step⟩ | ⟨-, step⟩
      · rw [step]
        exact ih store rest_confined hk
      · have mine_mem : mine ∈ nodes :=
          h.members e.into mine (SortedMap.mem_values_iff.2 ⟨e.key, hmine⟩)
        have less : (Joining.opened mode mine e.value ⟨seen, rest, store⟩).unmet nodes < k :=
          hk ▸ unmet_opened_lt mine_mem hvalue unseen
        rw [step]
        exact fewer _ less (rest_confined.opened mine_mem) rfl
      · rw [step]
        by_cases room : (store.adopt mode e.into e.key e.value).size ≤ limit
        · have confined := rest_confined.adopted hvalue fun n hn =>
            enough n (Nat.lt_of_lt_of_le hn room)
          exact ih _ confined hk
        · refine ⟨0, ?_⟩
          cases rest with
          | nil => exact .inl ⟨_, rfl⟩
          | cons e' rest => exact .inr ⟨_, rfl, Nat.lt_of_not_le room⟩

end

/-- All the nodes that a join may meet as long as the store does not outgrow the limit. -/
def horizon (limit : Nat) (j : Joining) : Finset Handle :=
  (Finset.range limit).image Handle.mk ∪
    ((List.range j.store.size).flatMap fun i => (j.store.node ⟨i⟩).members.values).toFinset ∪
    (j.pending.flatMap fun e => [e.into, e.value]).toFinset

theorem confined_horizon (limit : Nat) (j : Joining) : j.Confined (j.horizon limit) where
  members n m hm := by
    by_cases hn : n ∈ j.store
    · have listed : m ∈ (List.range j.store.size).flatMap fun i =>
          (j.store.node ⟨i⟩).members.values :=
        List.mem_flatMap.2 ⟨n.index, List.mem_range.2 hn, hm⟩
      simp [horizon, List.mem_toFinset.2 listed]
    · rw [Store.node_of_not_mem hn] at hm
      cases hm
  pending e he := by
    have listed : ∀ n ∈ [e.into, e.value], n ∈ j.pending.flatMap fun e => [e.into, e.value] :=
      fun n hn => List.mem_flatMap.2 ⟨e, he, hn⟩
    constructor
    · exact Finset.mem_union_right _ (List.mem_toFinset.2 (listed e.into (by simp)))
    · exact Finset.mem_union_right _ (List.mem_toFinset.2 (listed e.value (by simp)))

theorem ends_or_outgrows (mode : JoinMode) (limit : Nat) (j : Joining) :
    ∃ bound, (∃ t, j.run mode bound = .ok t) ∨ ∃ t, j.run mode bound = .error t ∧
      limit < t.size := by
  refine (j.confined_horizon limit).ends_or_outgrows fun n hn => ?_
  refine Finset.mem_union_left _ (Finset.mem_union_left _ (Finset.mem_image.2 ?_))
  exact ⟨n.index, Finset.mem_range.2 hn, rfl⟩

/-- A join that is allowed more steps gets at least as far. -/
theorem grows_of_error_of_le {more : Nat} (h : bound ≤ more) {t' : Store}
    (ht : j.run mode bound = .error t) (ht' : j.run mode more = .error t') : t.Grows t' := by
  induction bound generalizing more j with
  | zero =>
    obtain ⟨seen, pending, store⟩ := j
    cases pending with
    | nil => cases ht
    | cons e rest =>
      obtain rfl : store = t := by simpa [run] using ht
      exact grows_run (.inr ht')
  | succ bound ih =>
    obtain ⟨seen, pending, store⟩ := j
    cases pending with
    | nil => cases ht
    | cons e rest =>
      obtain ⟨k, rfl⟩ := Nat.exists_eq_add_of_le' (Nat.le_trans (Nat.le_add_left 1 bound) h)
      exact ih (Nat.le_of_succ_le_succ h) ht ht'

variable (shallow : mode.deepCopy = false)

include shallow

theorem size_bring (e : PendingEntry) (j : Joining) :
    (j.bring mode e).store.size = j.store.size := by
  rcases bring_cases mode e j with ⟨mine, -, -, h⟩ | ⟨mine, -, -, -, h⟩ | ⟨-, h⟩
  · rw [h]
  · rw [h]
    exact Store.size_absorb mode mine e.value j.store
  · rw [h]
    simp [Store.adopt_eq, shallow]

theorem size_of_error (ht : j.run mode bound = .error t) : t.size = j.store.size := by
  obtain ⟨_, _, same, -⟩ := run_induction (P := fun k => k.store.size = j.store.size) rfl
    (fun seen e rest store h => (size_bring shallow e ⟨seen, rest, store⟩).trans h) (.inr ht)
  exact same

/-- A join that takes members over as they are always ends. -/
theorem ends_of_shallow (j : Joining) : ∃ bound t, j.run mode bound = .ok t := by
  obtain ⟨bound, ⟨t, ht⟩ | ⟨t, ht, outgrown⟩⟩ := j.ends_or_outgrows mode j.store.size
  · exact ⟨bound, t, ht⟩
  · have same := size_of_error shallow ht
    omega

end Joining

end ScriptInference
