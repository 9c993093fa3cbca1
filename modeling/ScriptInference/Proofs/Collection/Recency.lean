import ScriptInference.Collection.RecencyCache

/-!
# What a recency cache remembers

The links between the slots say nothing about the entries. A cache into which only the values of a
function were written gives only values of that function back, whatever was dropped in between.
-/

namespace ScriptInference.RecencyCache
variable {κ υ : Type} [BEq κ] [Hashable κ]

/-- The entry of a slot, without its links. -/
def cell? (c : RecencyCache κ υ) (i : Nat) : Option (κ × υ) :=
  c.slots[i]?.map fun s => (s.key, s.value)

section Links

omit [BEq κ] [Hashable κ] in
theorem entry_modify (slots : Array (Slot κ υ)) (f : Slot κ υ → Slot κ υ)
    (kept : ∀ s, (f s).key = s.key ∧ (f s).value = s.value) (i j : Nat) :
    (slots.modify j f)[i]?.map (fun s => (s.key, s.value)) = slots[i]?.map fun s =>
      (s.key, s.value) := by
  rw [Array.getElem?_modify]
  split
  · cases slots[i]? with
    | none => rfl
    | some s => simp [kept s]
  · rfl

variable (c : RecencyCache κ υ)

@[simp]
theorem cell?_unlink (i j : Nat) : (c.unlink j).cell? i = c.cell? i := by
  unfold unlink cell?
  cases c.slots[j]? with
  | none => rfl
  | some slot =>
    obtain ⟨key, value, newer, older⟩ := slot
    cases newer <;> cases older <;> simp [entry_modify]

@[simp]
theorem index_unlink (j : Nat) : (c.unlink j).index = c.index := by
  unfold unlink
  cases c.slots[j]? with
  | none => rfl
  | some slot =>
    obtain ⟨key, value, newer, older⟩ := slot
    cases newer <;> cases older <;> rfl

@[simp]
theorem cell?_pushNewest (i j : Nat) : (c.pushNewest j).cell? i = c.cell? i := by
  unfold pushNewest cell?
  cases c.newest <;> simp [entry_modify]

@[simp]
theorem index_pushNewest (j : Nat) : (c.pushNewest j).index = c.index := rfl

@[simp]
theorem cell?_touch (i j : Nat) : (c.touch j).cell? i = c.cell? i := by
  unfold touch
  split
  · rfl
  · simp

@[simp]
theorem index_touch (j : Nat) : (c.touch j).index = c.index := by
  unfold touch
  split
  · rfl
  · simp

end Links

/-- Every key of the index has a slot of its own, which holds the value of the function at the
key. -/
def Remembers (c : RecencyCache κ υ) (f : κ → υ) : Prop :=
  ∀ k i, c.index[k]? = some i → c.cell? i = some (k, f k)

variable {c : RecencyCache κ υ} {f : κ → υ}

theorem remembers_new [EquivBEq κ] [LawfulHashable κ] (capacity : Nat) (f : κ → υ) :
    (new capacity : RecencyCache κ υ).Remembers f := by
  intro k i found
  simp [new] at found

theorem Remembers.of_entries {c' : RecencyCache κ υ} (h : c.Remembers f)
    (index : c'.index = c.index) (entries : ∀ i, c'.cell? i = c.cell? i) : c'.Remembers f := by
  intro k i found
  rw [index] at found
  rw [entries, h k i found]

theorem Remembers.get? (h : c.Remembers f) (k : κ) :
    (c.get? k).2.Remembers f ∧ ∀ v, (c.get? k).1 = some v → v = f k := by
  unfold RecencyCache.get?
  cases found : c.index[k]? with
  | none => exact ⟨h, fun v hv => by cases hv⟩
  | some i =>
    refine ⟨h.of_entries (index_touch c i) fun j => cell?_touch c j i, fun v hv => ?_⟩
    have here : (c.touch i).cell? i = some (k, f k) := (cell?_touch c i i).trans (h k i found)
    obtain ⟨slot, at_slot, rfl⟩ := Option.map_eq_some_iff.1 hv
    simp only [cell?, at_slot, Option.map_some, Option.some.injEq, Prod.mk.injEq] at here
    exact here.2

variable [LawfulBEq κ] [LawfulHashable κ]

/-- The slot that is given to a new key belonged to no other key but the one that is dropped. -/
theorem Remembers.recycle (h : c.Remembers f) (i : Nat) (k : κ) :
    (c.recycle i k (f k)).2.Remembers f := by
  unfold RecencyCache.recycle
  cases at_slot : c.slots[i]? with
  | none => exact h
  | some slot =>
    refine Remembers.of_entries (c := { c.unlink i with
      slots := (c.unlink i).slots.modify i fun s => { s with key := k, value := f k }
      index := ((c.unlink i).index.erase slot.key).insert k i }) ?_ rfl
        fun j => cell?_pushNewest _ j i
    intro k' j found
    have kept := cell?_unlink c j i
    simp only [cell?] at kept
    simp only [index_unlink, Std.HashMap.getElem?_insert, Std.HashMap.getElem?_erase] at found
    simp only [cell?, Array.getElem?_modify]
    by_cases same : k = k'
    · subst same
      rw [if_pos BEq.rfl, Option.some.injEq] at found
      subst found
      rw [if_pos rfl]
      rw [at_slot] at kept
      obtain ⟨old, at_old, -⟩ := Option.map_eq_some_iff.1 kept
      simp [at_old]
    · rw [if_neg (mt LawfulBEq.eq_of_beq same)] at found
      by_cases dropped : slot.key = k'
      · simp [dropped] at found
      · rw [if_neg (mt LawfulBEq.eq_of_beq dropped)] at found
        have here := h k' j found
        have other : i ≠ j := by
          rintro rfl
          simp only [cell?, at_slot, Option.map_some, Option.some.injEq, Prod.mk.injEq] at here
          exact dropped here.1
        rw [if_neg other, kept]
        exact here

theorem Remembers.set (h : c.Remembers f) (k : κ) : (c.set k (f k)).2.Remembers f := by
  unfold RecencyCache.set
  cases found : c.index[k]? with
  | some i =>
    refine Remembers.of_entries (c := { c with
      slots := c.slots.modify i fun s => { s with value := f k } }) ?_ (index_touch _ i)
      fun j => cell?_touch _ j i
    intro k' j found'
    have here := h k' j found'
    simp only [cell?, Array.getElem?_modify] at here ⊢
    split
    · rename_i same
      subst same
      have key := h k i found
      simp only [cell?] at key
      rw [here, Option.some.injEq, Prod.mk.injEq] at key
      obtain ⟨slot, at_slot, hslot⟩ := Option.map_eq_some_iff.1 here
      rw [Prod.mk.injEq] at hslot
      simp [at_slot, hslot.1, key.1]
    · exact here
  | none =>
    dsimp only
    split
    · refine Remembers.of_entries (c := { c with
        slots := c.slots.push { key := k, value := f k }
        index := c.index.insert k c.slots.size }) ?_ rfl fun j => cell?_pushNewest _ j _
      intro k' j found'
      rw [Std.HashMap.getElem?_insert] at found'
      by_cases same : k = k'
      · subst same
        rw [if_pos BEq.rfl, Option.some.injEq] at found'
        subst found'
        simp [cell?]
      · rw [if_neg (mt LawfulBEq.eq_of_beq same)] at found'
        have here := h k' j found'
        obtain ⟨slot, at_slot, -⟩ := Option.map_eq_some_iff.1 here
        obtain ⟨within, -⟩ := Array.getElem?_eq_some_iff.1 at_slot
        simp only [cell?] at here ⊢
        rw [Array.getElem?_push_lt within, ← here, Array.getElem?_eq_getElem within]
    · cases c.oldest with
      | some i => exact h.recycle i k
      | none => exact h

end ScriptInference.RecencyCache
