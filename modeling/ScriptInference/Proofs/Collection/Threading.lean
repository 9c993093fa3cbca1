import Mathlib.Data.List.Nodup
import ScriptInference.Proofs.Collection.Recency

/-!
# The thread through the slots of a recency cache

The slots of a cache form a doubly linked list. It is threaded along an order of slot positions if
the two ends of the order are the newest and the oldest slot and every slot points to its two
neighbours. Taking a slot out of the list takes its position out of the order, pushing a slot puts
its position in front, and nothing else moves.

An access to a slot that does not exist is ignored by the cache. Next to each operation stands a
checked one, which fails at the first such access; along a thread it succeeds with the same result.
-/

namespace ScriptInference.RecencyCache
variable {newer older : Option Nat} {i : Nat}
variable {κ υ : Type} [BEq κ] [Hashable κ]

/-- The two links of a slot, first the one to the newer slot. -/
def links? (c : RecencyCache κ υ) (i : Nat) : Option (Option Nat × Option Nat) :=
  c.slots[i]?.map fun s => (s.newer, s.older)

/-- The slots are linked in the given order, newest first. -/
structure Threaded (c : RecencyCache κ υ) (order : List Nat) : Prop where
  once : order.Nodup
  newest : c.newest = order.head?
  oldest : c.oldest = order.getLast?
  links : ∀ before i after, order = before ++ i :: after →
    c.links? i = some (before.getLast?, after.head?)

section Links

theorem slots_of_links? {c : RecencyCache κ υ} (h : c.links? i = some (newer, older)) :
    ∃ slot, c.slots[i]? = some slot ∧ slot.newer = newer ∧ slot.older = older := by
  obtain ⟨slot, at_slot, same⟩ := Option.map_eq_some_iff.1 h
  rw [Prod.mk.injEq] at same
  exact ⟨slot, at_slot, same.1, same.2⟩

/-- The neighbours of a slot that is taken out are linked to each other. -/
theorem links?_unlink {c : RecencyCache κ υ} (h : c.links? i = some (newer, older)) (m : Nat) :
    (c.unlink i).links? m = (c.links? m).map fun l =>
      if m = i then (none, none)
      else (if older = some m then newer else l.1, if newer = some m then older else l.2) := by
  obtain ⟨slot, at_slot, rfl, rfl⟩ := slots_of_links? h
  unfold unlink links?
  simp only [at_slot]
  cases slot.newer <;> cases slot.older <;>
    simp only [Array.getElem?_modify, Option.some.injEq, reduceCtorEq, if_false,
      eq_comm (b := m)] <;>
    cases c.slots[m]? <;> simp <;> split_ifs <;> simp

theorem ends_unlink {c : RecencyCache κ υ} (h : c.links? i = some (newer, older)) :
    (c.unlink i).newest = (if newer = none then older else c.newest) ∧
      (c.unlink i).oldest = if older = none then newer else c.oldest := by
  obtain ⟨slot, at_slot, rfl, rfl⟩ := slots_of_links? h
  unfold unlink
  simp only [at_slot]
  cases slot.newer <;> cases slot.older <;> simp

variable (c : RecencyCache κ υ)

theorem links?_pushNewest (i m : Nat) :
    (c.pushNewest i).links? m = (c.links? m).map fun l =>
      (if c.newest = some m then some i else if m = i then none else l.1,
        if m = i then c.newest else l.2) := by
  unfold pushNewest links?
  cases c.newest <;>
    simp only [Array.getElem?_modify, Option.some.injEq, reduceCtorEq, if_false,
      eq_comm (b := m)] <;>
    cases c.slots[m]? <;> simp <;> split_ifs <;> simp

@[simp]
theorem size_unlink (i : Nat) : (c.unlink i).slots.size = c.slots.size := by
  unfold unlink
  cases c.slots[i]? with
  | none => rfl
  | some slot =>
    obtain ⟨key, value, newer, older⟩ := slot
    cases newer <;> cases older <;> simp

@[simp]
theorem size_pushNewest (i : Nat) : (c.pushNewest i).slots.size = c.slots.size := by
  unfold pushNewest
  cases c.newest <;> simp

@[simp]
theorem capacity_unlink (i : Nat) : (c.unlink i).capacity = c.capacity := by
  unfold unlink
  cases c.slots[i]? with
  | none => rfl
  | some slot =>
    obtain ⟨key, value, newer, older⟩ := slot
    cases newer <;> cases older <;> rfl

@[simp]
theorem capacity_pushNewest (i : Nat) : (c.pushNewest i).capacity = c.capacity := rfl

@[simp]
theorem size_touch (i : Nat) : (c.touch i).slots.size = c.slots.size := by
  unfold touch
  split <;> simp

@[simp]
theorem capacity_touch (i : Nat) : (c.touch i).capacity = c.capacity := by
  unfold touch
  split <;> simp

end Links

section Moves
variable {c : RecencyCache κ υ} {order before after : List Nat}

theorem Threaded.links_here (h : c.Threaded (before ++ i :: after)) :
    c.links? i = some (before.getLast?, after.head?) := h.links before i after rfl

theorem Threaded.inside (h : c.Threaded order) (hi : i ∈ order) : i < c.slots.size := by
  obtain ⟨before, after, rfl⟩ := List.append_of_mem hi
  obtain ⟨slot, at_slot, -⟩ := slots_of_links? h.links_here
  exact (Array.getElem?_eq_some_iff.1 at_slot).1

theorem Threaded.of_links {c' : RecencyCache κ υ} (h : c.Threaded order)
    (links : ∀ m ∈ order, c'.links? m = c.links? m) (newest : c'.newest = c.newest)
    (oldest : c'.oldest = c.oldest) : c'.Threaded order := by
  constructor
  · exact h.once
  · rw [newest, h.newest]
  · rw [oldest, h.oldest]
  · intro before i after split
    rw [links i (by simp [split]), h.links before i after split]

/-- The slots on both sides of the gap are neighbours afterwards. -/
theorem Threaded.unlink (h : c.Threaded (before ++ i :: after)) :
    (c.unlink i).Threaded (before ++ after) := by
  have here := h.links_here
  obtain ⟨newest, oldest⟩ := ends_unlink here
  obtain ⟨fresh, once⟩ := List.nodup_cons.1 (List.nodup_middle.1 h.once)
  have disjoint := (List.nodup_append.1 once).2.2
  constructor
  · exact once
  · rw [newest, h.newest]
    cases before <;> simp
  · rw [oldest, h.oldest]
    cases after <;> simp
  · intro b m a split
    have other : m ≠ i := by
      rintro rfl
      apply fresh
      simp [split]
    rw [links?_unlink here]
    rcases List.append_eq_append_iff.1 split with ⟨gap, rfl, rfl⟩ | ⟨gap, rfl, rest⟩
    · -- the slot stands after the gap
      have whole : before ++ i :: (gap ++ m :: a) = (before ++ i :: gap) ++ m :: a := by simp
      have newer : before.getLast? ≠ some m :=
        fun last => disjoint m (List.mem_of_getLast? last) m (by simp) rfl
      rw [h.links _ _ _ whole, Option.map_some, if_neg other, if_neg newer]
      cases gap with
      | nil => simp
      | cons g gap =>
        have apart : g ≠ m := by
          rintro rfl
          simp [List.nodup_append] at once
        simp [List.getLast?_append, List.getLast?_cons, apart]
    · cases gap with
      | nil =>
        subst rest
        have whole : b ++ [] ++ i :: m :: a = (b ++ [i]) ++ m :: a := by simp
        have newer : b.getLast? ≠ some m :=
          fun last => disjoint m (by simpa using List.mem_of_getLast? last) m (by simp) rfl
        rw [h.links _ _ _ whole, Option.map_some, if_neg other]
        simp [newer]
      | cons g gap =>
        -- the slot stands before the gap
        rw [List.cons_append, List.cons.injEq] at rest
        obtain ⟨rfl, rfl⟩ := rest
        have whole : b ++ m :: gap ++ i :: after = b ++ m :: (gap ++ i :: after) := by simp
        have older : after.head? ≠ some m :=
          fun head => disjoint m (by simp) m (List.mem_of_mem_head? head) rfl
        rw [h.links _ _ _ whole, Option.map_some, if_neg other, if_neg older]
        rcases List.eq_nil_or_concat gap with rfl | ⟨gap, last, rfl⟩
        · simp
        · have apart : last ≠ m := by
            rintro rfl
            simp [List.nodup_append] at once
          cases gap <;> simp [List.getLast?_append, List.getLast?_cons, apart]

theorem Threaded.pushNewest (h : c.Threaded order) (fresh : i ∉ order) (inside : i < c.slots.size) :
    (c.pushNewest i).Threaded (i :: order) := by
  constructor
  · exact List.nodup_cons.2 ⟨fresh, h.once⟩
  · rfl
  · change c.oldest.or (some i) = _
    rw [h.oldest]
    cases order <;> simp [List.getLast?_cons]
  · intro b m a split
    rw [links?_pushNewest, h.newest]
    cases b with
    | nil =>
      rw [List.nil_append, List.cons.injEq] at split
      obtain ⟨rfl, rfl⟩ := split
      have head_ne : order.head? ≠ some i := fun head => fresh (List.mem_of_mem_head? head)
      simp [links?, Array.getElem?_eq_getElem inside, head_ne]
    | cons first b =>
      rw [List.cons_append, List.cons.injEq] at split
      obtain ⟨rfl, rfl⟩ := split
      have other : m ≠ i := by
        rintro rfl
        simp at fresh
      rw [h.links b m a rfl, Option.map_some, if_neg other, if_neg other]
      cases b with
      | nil => simp
      | cons first b =>
        have apart : first ≠ m := by
          rintro rfl
          have once := h.once
          simp at once
        simp [List.getLast?_cons, apart]

theorem Threaded.touch (h : c.Threaded (before ++ i :: after)) :
    (c.touch i).Threaded (i :: (before ++ after)) := by
  unfold RecencyCache.touch
  split
  · rename_i newest
    -- the slot is in front already
    rw [h.newest] at newest
    cases before with
    | nil => exact h
    | cons first before =>
      obtain rfl : first = i := by simpa using newest
      have once := h.once
      simp at once
  · have inside := h.inside (List.mem_append_right _ List.mem_cons_self)
    have once := h.once
    rw [List.nodup_middle, List.nodup_cons] at once
    refine h.unlink.pushNewest once.1 ?_
    rw [size_unlink]
    exact inside

end Moves

section Checked

/-- Rewrites a slot, which has to exist. -/
def modifyChecked (c : RecencyCache κ υ) (i : Nat) (f : Slot κ υ → Slot κ υ) :
    Option (RecencyCache κ υ) :=
  if i < c.slots.size then some { c with slots := c.slots.modify i f } else none

def unlinkChecked (c : RecencyCache κ υ) (i : Nat) : Option (RecencyCache κ υ) := do
  let slot ← c.slots[i]?
  let c ← match slot.newer with
    | some j => c.modifyChecked j fun s => { s with older := slot.older }
    | none => some { c with newest := slot.older }
  let c ← match slot.older with
    | some j => c.modifyChecked j fun s => { s with newer := slot.newer }
    | none => some { c with oldest := slot.newer }
  c.modifyChecked i fun s => { s with newer := none, older := none }

def pushNewestChecked (c : RecencyCache κ υ) (i : Nat) : Option (RecencyCache κ υ) := do
  let linked ← c.modifyChecked i fun s => { s with older := c.newest, newer := none }
  let linked ← match c.newest with
    | some j => linked.modifyChecked j fun s => { s with newer := some i }
    | none => some linked
  some { linked with newest := some i, oldest := c.oldest.or (some i) }

def touchChecked (c : RecencyCache κ υ) (i : Nat) : Option (RecencyCache κ υ) :=
  if c.newest = some i then some c else (c.unlinkChecked i).bind (·.pushNewestChecked i)

/-- Keys along the `older` links. The walk has to end after at most `n` slots. -/
def keysFromChecked (c : RecencyCache κ υ) : Nat → Option Nat → Option (List κ)
  | _, none => some []
  | 0, some _ => none
  | n + 1, some i => do
    let slot ← c.slots[i]?
    let rest ← c.keysFromChecked n slot.older
    some (slot.key :: rest)

variable {c : RecencyCache κ υ} {order before after : List Nat}

theorem modifyChecked_eq (inside : i < c.slots.size) (f : Slot κ υ → Slot κ υ) :
    c.modifyChecked i f = some { c with slots := c.slots.modify i f } := if_pos inside

theorem Threaded.unlinkChecked_eq (h : c.Threaded (before ++ i :: after)) :
    c.unlinkChecked i = some (c.unlink i) := by
  have here := h.inside (List.mem_append_right _ List.mem_cons_self)
  obtain ⟨slot, at_slot, newer, older⟩ := slots_of_links? h.links_here
  have newer_inside : ∀ j, slot.newer = some j → j < c.slots.size := by
    intro j hj
    rw [newer] at hj
    exact h.inside (List.mem_append_left _ (List.mem_of_getLast? hj))
  have older_inside : ∀ j, slot.older = some j → j < c.slots.size := by
    intro j hj
    rw [older] at hj
    exact h.inside (List.mem_append_right _ (List.mem_cons_of_mem _ (List.mem_of_mem_head? hj)))
  unfold unlinkChecked RecencyCache.unlink
  simp only [at_slot, Option.bind_eq_bind, Option.bind_some]
  cases hn : slot.newer with
  | none =>
    cases ho : slot.older with
    | none => simp [modifyChecked_eq, here]
    | some o => simp [modifyChecked_eq, here, older_inside o ho]
  | some n =>
    cases ho : slot.older with
    | none => simp [modifyChecked_eq, here, newer_inside n hn]
    | some o => simp [modifyChecked_eq, here, newer_inside n hn, older_inside o ho]

theorem Threaded.pushNewestChecked_eq (h : c.Threaded order) (inside : i < c.slots.size) :
    c.pushNewestChecked i = some (c.pushNewest i) := by
  have newest_inside : ∀ j, c.newest = some j → j < c.slots.size := by
    intro j hj
    rw [h.newest] at hj
    exact h.inside (List.mem_of_mem_head? hj)
  unfold pushNewestChecked RecencyCache.pushNewest
  simp only [modifyChecked_eq inside, Option.bind_eq_bind, Option.bind_some]
  cases hn : c.newest with
  | none => simp
  | some n => simp [modifyChecked_eq, newest_inside n hn]

theorem Threaded.touchChecked_eq (h : c.Threaded (before ++ i :: after)) :
    c.touchChecked i = some (c.touch i) := by
  have inside := h.inside (List.mem_append_right _ List.mem_cons_self)
  unfold touchChecked RecencyCache.touch
  split
  · rfl
  · rw [h.unlinkChecked_eq, Option.bind_some, h.unlink.pushNewestChecked_eq (by rwa [size_unlink])]

/-- The walk along the `older` links meets the slots in order and ends with the order. -/
theorem Threaded.keysFromChecked_eq {pairs : List (κ × υ)} (h : c.Threaded (before ++ after))
    (entries : after.map c.cell? = pairs.map some) :
    c.keysFromChecked pairs.length after.head? = some (pairs.map (·.1)) := by
  induction after generalizing before pairs with
  | nil =>
    obtain rfl : pairs = [] := List.map_eq_nil_iff.1 entries.symm
    rfl
  | cons i after ih =>
    cases pairs with
    | nil => simp at entries
    | cons p pairs =>
      rw [List.map_cons, List.map_cons, List.cons.injEq] at entries
      obtain ⟨slot, at_slot, -, older⟩ := slots_of_links? h.links_here
      have key : slot.key = p.1 := by
        have entry := entries.1
        rw [cell?, at_slot, Option.map_some, Option.some.injEq] at entry
        rw [← entry]
      have onward : c.Threaded ((before ++ [i]) ++ after) := by simpa using h
      have rest := ih onward entries.2
      simp [keysFromChecked, at_slot, older, rest, key]

theorem keysFrom_of_checked {n : Nat} {start : Option Nat} {ks : List κ}
    (h : c.keysFromChecked n start = some ks) : c.keysFrom n start = ks := by
  fun_induction keysFromChecked c n start generalizing ks with
  | case1 n => cases n <;> simpa [keysFrom] using h
  | case2 => cases h
  | case3 n i ih =>
    cases at_slot : c.slots[i]? with
    | none => simp [at_slot] at h
    | some slot =>
      simp only [at_slot, Option.bind_eq_bind, Option.bind_some, Option.bind_eq_some_iff,
        Option.some.injEq] at h
      obtain ⟨rest, walked, rfl⟩ := h
      simp [keysFrom, at_slot, ih slot walked]

end Checked

end ScriptInference.RecencyCache
