import ScriptInference.Collection.RecencyList
import ScriptInference.Proofs.Collection.Threading

/-!
# A recency cache is a bounded list in order of recency

The entries along the thread of a cache, newest first, are the pairs of a `RecencyList`. Every
request keeps the two in step: it gets the same reply from both, and the size and the keys that can
be seen afterwards are the same. All accesses to slots on the way are to slots that exist, and the
walk along the thread that lists the keys ends.
-/

namespace ScriptInference

/-- A request to a cache. -/
inductive CacheRequest (κ υ : Type) where
  | set (key : κ) (value : υ)
  | get (key : κ)
  | peek (key : κ)
  | contains (key : κ)
  | clear
  deriving DecidableEq, Repr

inductive CacheReply (κ υ : Type) where
  | dropped (pair : Option (κ × υ))
  | value (value : Option υ)
  | present (present : Bool)
  | cleared
  deriving DecidableEq, Repr

/-- A reply, with the size and the keys that are seen after it. -/
structure CacheView (κ υ : Type) where
  reply : CacheReply κ υ
  size : Nat
  keys : List κ
  deriving DecidableEq, Repr

namespace RecencyList
variable {κ υ : Type} [DecidableEq κ]

def serve (l : RecencyList κ υ) : CacheRequest κ υ → CacheReply κ υ × RecencyList κ υ
  | .set k v => (.dropped (l.set k v).1, (l.set k v).2)
  | .get k => (.value (l.get? k).1, (l.get? k).2)
  | .peek k => (.value (l.peek? k), l)
  | .contains k => (.present (l.contains k), l)
  | .clear => (.cleared, l.clear)

/-- What is seen of a list while it serves requests. -/
def history (l : RecencyList κ υ) : List (CacheRequest κ υ) → List (CacheView κ υ)
  | [] => []
  | r :: rs =>
    let next := (l.serve r).2
    ⟨(l.serve r).1, next.size, next.keys⟩ :: next.history rs

section Lookup
variable {l : RecencyList κ υ} {newer older : List (κ × υ)} {k : κ} {v : υ}

theorem peek?_eq_some_of_split (whole : l.pairs = newer ++ (k, v) :: older)
    (apart : ∀ p ∈ newer ++ older, p.1 ≠ k) : l.peek? k = some v := by
  have newer_apart : newer.find? (fun p => p.1 = k) = none :=
    List.find?_eq_none.2 fun p hp => by simpa using apart p (List.mem_append_left _ hp)
  simp [peek?, whole, List.find?_append, newer_apart]

theorem peek?_eq_none_of_apart (apart : ∀ p ∈ l.pairs, p.1 ≠ k) : l.peek? k = none := by
  have missing : l.pairs.find? (fun p => p.1 = k) = none :=
    List.find?_eq_none.2 fun p hp => by simpa using apart p hp
  simp [peek?, missing]

theorem promote_of_split (whole : l.pairs = newer ++ (k, v) :: older)
    (apart : ∀ p ∈ newer ++ older, p.1 ≠ k) (w : υ) :
    l.promote k w = (k, w) :: (newer ++ older) := by
  have kept : (newer ++ older).filter (fun p => p.1 ≠ k) = newer ++ older :=
    List.filter_eq_self.2 fun p hp => by simpa using apart p hp
  rw [promote, whole, List.filter_append, List.filter_cons_of_neg (by simp),
    ← List.filter_append, kept]

end Lookup

end RecencyList

namespace RecencyCache
variable {κ υ : Type} [BEq κ] [Hashable κ]

def serve (c : RecencyCache κ υ) : CacheRequest κ υ → CacheReply κ υ × RecencyCache κ υ
  | .set k v => (.dropped (c.set k v).1, (c.set k v).2)
  | .get k => (.value (c.get? k).1, (c.get? k).2)
  | .peek k => (.value (c.peek? k), c)
  | .contains k => (.present (c.contains k), c)
  | .clear => (.cleared, c.clear)

/-- What is seen of a cache while it serves requests. -/
def history (c : RecencyCache κ υ) : List (CacheRequest κ υ) → List (CacheView κ υ)
  | [] => []
  | r :: rs =>
    let next := (c.serve r).2
    ⟨(c.serve r).1, next.size, next.keys⟩ :: next.history rs

section Checked

def getChecked (c : RecencyCache κ υ) (k : κ) : Option (Option υ × RecencyCache κ υ) :=
  match c.index[k]? with
  | none => some (none, c)
  | some i => do
    let c ← c.touchChecked i
    let slot ← c.slots[i]?
    some (some slot.value, c)

def peekChecked (c : RecencyCache κ υ) (k : κ) : Option (Option υ) :=
  match c.index[k]? with
  | none => some none
  | some i => c.slots[i]?.map fun slot => some slot.value

def recycleChecked (c : RecencyCache κ υ) (i : Nat) (k : κ) (v : υ) :
    Option (Option (κ × υ) × RecencyCache κ υ) := do
  let c ← c.unlinkChecked i
  let slot ← c.slots[i]?
  let c ← c.modifyChecked i fun s => { s with key := k, value := v }
  let c ← pushNewestChecked { c with index := (c.index.erase slot.key).insert k i } i
  some (some (slot.key, slot.value), c)

def setChecked (c : RecencyCache κ υ) (k : κ) (v : υ) :
    Option (Option (κ × υ) × RecencyCache κ υ) :=
  match c.index[k]? with
  | some i => do
    let c ← c.modifyChecked i fun s => { s with value := v }
    let c ← c.touchChecked i
    some (none, c)
  | none =>
    if c.slots.size < c.capacity then do
      let i := c.slots.size
      let c := { c with
        slots := c.slots.push { key := k, value := v }, index := c.index.insert k i }
      let c ← c.pushNewestChecked i
      some (none, c)
    else
      match c.oldest with
      | some i => c.recycleChecked i k v
      | none => some (none, c)

/-- Serves a request and fails at the first access to a slot that does not exist. -/
def serveChecked (c : RecencyCache κ υ) :
    CacheRequest κ υ → Option (CacheReply κ υ × RecencyCache κ υ)
  | .set k v => (c.setChecked k v).map fun r => (.dropped r.1, r.2)
  | .get k => (c.getChecked k).map fun r => (.value r.1, r.2)
  | .peek k => (c.peekChecked k).map fun r => (.value r, c)
  | .contains k => some (.present (c.contains k), c)
  | .clear => some (.cleared, c.clear)

/-- The history of a cache, if every access is to a slot that exists and every walk over the keys
ends. -/
def historyChecked (c : RecencyCache κ υ) : List (CacheRequest κ υ) → Option (List (CacheView κ υ))
  | [] => some []
  | r :: rs => do
    let next ← c.serveChecked r
    let keys ← next.2.keysFromChecked next.2.slots.size next.2.newest
    let rest ← next.2.historyChecked rs
    some (⟨next.1, next.2.size, keys⟩ :: rest)

end Checked

/-- The entries along the given order of the slots are the pairs of the list, and the index finds
each entry by its key. -/
structure Represents (c : RecencyCache κ υ) (order : List Nat) (l : RecencyList κ υ) : Prop where
  threaded : c.Threaded order
  covers : ∀ i, i ∈ order ↔ i < c.slots.size
  pairs : order.map c.cell? = l.pairs.map some
  index : ∀ k i, c.index[k]? = some i ↔ ∃ v, c.cell? i = some (k, v)
  capacity : c.capacity = l.bound
  bound : 0 < l.bound

section Represents
variable {c : RecencyCache κ υ} {order before after : List Nat} {l : RecencyList κ υ}
  {i : Nat} {k : κ}

theorem Represents.size_eq (h : c.Represents order l) : c.slots.size = l.pairs.length := by
  have positions : order.Perm (List.range c.slots.size) :=
    (List.perm_ext_iff_of_nodup h.threaded.once List.nodup_range).2 fun i => by simp [h.covers]
  have entries := congrArg List.length h.pairs
  rw [List.length_map, List.length_map] at entries
  rw [← entries, positions.length_eq, List.length_range]

theorem Represents.keysChecked (h : c.Represents order l) :
    c.keysFromChecked c.slots.size c.newest = some l.keys := by
  rw [h.size_eq, h.threaded.newest]
  have whole : c.Threaded ([] ++ order) := h.threaded
  exact whole.keysFromChecked_eq h.pairs

theorem Represents.keys_eq (h : c.Represents order l) : c.keys = l.keys :=
  keysFrom_of_checked h.keysChecked

/-- A key of the index has one slot along the thread and one pair in the list, at the same place. -/
theorem Represents.present (h : c.Represents order l) (found : c.index[k]? = some i) :
    ∃ before after newer older v, order = before ++ i :: after ∧
      l.pairs = newer ++ (k, v) :: older ∧
      before.map c.cell? = newer.map some ∧ after.map c.cell? = older.map some ∧
      c.cell? i = some (k, v) ∧ ∀ p ∈ newer ++ older, p.1 ≠ k := by
  obtain ⟨v, entry⟩ := (h.index k i).1 found
  have inside : i < c.slots.size := by
    obtain ⟨slot, at_slot, -⟩ := Option.map_eq_some_iff.1 entry
    exact (Array.getElem?_eq_some_iff.1 at_slot).1
  obtain ⟨before, after, rfl⟩ := List.append_of_mem ((h.covers i).2 inside)
  have entries := h.pairs.symm
  rw [List.map_append, List.map_cons, List.map_eq_append_iff] at entries
  obtain ⟨newer, rest, whole, newer_eq, rest_eq⟩ := entries
  obtain ⟨p, older, rfl, p_eq, older_eq⟩ := List.map_eq_cons_iff.1 rest_eq
  obtain rfl : p = (k, v) := by
    rw [entry] at p_eq
    exact Option.some.inj p_eq
  refine ⟨before, after, newer, older, v, rfl, whole, newer_eq.symm, older_eq.symm, entry, ?_⟩
  intro q hq same
  -- a second pair of the key would have the same slot
  have elsewhere : some q ∈ (before ++ after).map c.cell? := by
    rw [List.map_append, ← newer_eq, ← older_eq, ← List.map_append]
    exact List.mem_map_of_mem hq
  obtain ⟨j, hj, at_j⟩ := List.mem_map.1 elsewhere
  have again : c.index[k]? = some j := (h.index k j).2 ⟨q.2, by rw [at_j, ← same]⟩
  obtain rfl : i = j := Option.some.inj (found.symm.trans again)
  have once := h.threaded.once
  rw [List.nodup_middle, List.nodup_cons] at once
  exact once.1 hj

theorem Represents.absent (h : c.Represents order l) (missing : c.index[k]? = none) :
    ∀ p ∈ l.pairs, p.1 ≠ k := by
  intro p hp same
  have entry : some p ∈ order.map c.cell? := by
    rw [h.pairs]
    exact List.mem_map_of_mem hp
  obtain ⟨j, -, at_j⟩ := List.mem_map.1 entry
  have found : c.index[k]? = some j := (h.index k j).2 ⟨p.2, by rw [at_j, ← same]⟩
  rw [missing] at found
  cases found

/-- Marking a slot as the newest moves its pair to the front. -/
theorem Represents.touch {b : Nat} {newer older : List (κ × υ)} {p : κ × υ}
    (h : c.Represents (before ++ i :: after) ⟨b, newer ++ p :: older⟩)
    (newer_eq : before.map c.cell? = newer.map some) (older_eq : after.map c.cell? = older.map some)
    (entry : c.cell? i = some p) :
    (c.touch i).Represents (i :: (before ++ after)) ⟨b, p :: (newer ++ older)⟩ := by
  have cells : (c.touch i).cell? = c.cell? := funext fun j => cell?_touch c j i
  constructor
  · exact h.threaded.touch
  · intro j
    rw [size_touch, ← h.covers]
    exact List.perm_middle.symm.mem_iff
  · simp [cells, newer_eq, older_eq, entry]
  · intro k j
    rw [index_touch, cells]
    exact h.index k j
  · rw [capacity_touch]
    exact h.capacity
  · exact h.bound

/-- A slot that stands beside the thread is pushed with its entry. -/
theorem represents_pushNewest (threaded : c.Threaded order) (fresh : i ∉ order)
    (covers : ∀ j, j ∈ i :: order ↔ j < c.slots.size)
    (pairs : (i :: order).map c.cell? = l.pairs.map some)
    (index : ∀ k j, c.index[k]? = some j ↔ ∃ v, c.cell? j = some (k, v))
    (capacity : c.capacity = l.bound) (bound : 0 < l.bound) :
    (c.pushNewest i).Represents (i :: order) l := by
  have cells : (c.pushNewest i).cell? = c.cell? := funext fun j => cell?_pushNewest c j i
  constructor
  · exact threaded.pushNewest fresh ((covers i).1 List.mem_cons_self)
  · intro j
    rw [size_pushNewest]
    exact covers j
  · rw [cells]
    exact pairs
  · intro k j
    rw [index_pushNewest, cells]
    exact index k j
  · exact capacity
  · exact bound

end Represents

section Slots
variable (c : RecencyCache κ υ) (i j : Nat) (f : Slot κ υ → Slot κ υ)

theorem cell?_modify : cell? { c with slots := c.slots.modify i f } j =
    if i = j then c.slots[j]?.map (fun s => ((f s).key, (f s).value)) else c.cell? j := by
  simp only [cell?, Array.getElem?_modify]
  split <;> simp [Function.comp_def]

theorem links?_modify (kept : ∀ s, (f s).newer = s.newer ∧ (f s).older = s.older) :
    links? { c with slots := c.slots.modify i f } j = c.links? j := by
  simp only [links?, Array.getElem?_modify]
  split
  · cases c.slots[j]? with
    | none => rfl
    | some s => simp [kept s]
  · rfl

end Slots

/-- The cache and the list come to the same result, and the cache does so within its slots. -/
structure Agrees {ρ : Type} (checked : Option (ρ × RecencyCache κ υ))
    (plain : ρ × RecencyCache κ υ) (list : ρ × RecencyList κ υ) : Prop where
  checked : checked = some plain
  result : plain.1 = list.1
  represents : ∃ order, plain.2.Represents order list.2

section Steps
variable {c : RecencyCache κ υ} {order : List Nat} {l : RecencyList κ υ}

section
variable [LawfulBEq κ]

theorem represents_new (capacity : Nat) :
    (new capacity : RecencyCache κ υ).Represents [] (.new capacity) := by
  constructor
  · constructor <;> simp [new]
  · simp [new]
  · rfl
  · simp [new, cell?]
  · rfl
  · exact Nat.lt_of_lt_of_le Nat.one_pos (Nat.le_max_right capacity 1)

theorem Represents.clear (h : c.Represents order l) : c.clear.Represents [] l.clear := by
  constructor
  · constructor <;> simp [RecencyCache.clear]
  · simp [RecencyCache.clear]
  · rfl
  · simp [RecencyCache.clear, cell?]
  · exact h.capacity
  · exact h.bound

end

variable [DecidableEq κ]

theorem Represents.peek [LawfulBEq κ] (h : c.Represents order l) (k : κ) :
    c.peekChecked k = some (c.peek? k) ∧ c.peek? k = l.peek? k ∧ c.contains k = l.contains k := by
  have contains_eq : c.contains k = c.index[k]?.isSome := by
    rw [RecencyCache.contains, Std.HashMap.contains_eq_isSome_getElem?]
  rw [contains_eq]
  unfold peekChecked RecencyCache.peek? RecencyList.contains
  cases found : c.index[k]? with
  | none => simp [RecencyList.peek?_eq_none_of_apart (h.absent found)]
  | some i =>
    obtain ⟨before, after, newer, older, v, -, whole, -, -, entry, apart⟩ := h.present found
    obtain ⟨slot, at_slot, same⟩ := Option.map_eq_some_iff.1 entry
    rw [Prod.mk.injEq] at same
    simp [RecencyList.peek?_eq_some_of_split whole apart, at_slot, same.2]

theorem Represents.get? (h : c.Represents order l) (k : κ) :
    Agrees (c.getChecked k) (c.get? k) (l.get? k) := by
  unfold getChecked RecencyCache.get? RecencyList.get?
  cases found : c.index[k]? with
  | none =>
    rw [RecencyList.peek?_eq_none_of_apart (h.absent found)]
    exact ⟨rfl, rfl, order, h⟩
  | some i =>
    obtain ⟨before, after, newer, older, v, rfl, whole, newer_eq, older_eq, entry, apart⟩ :=
      h.present found
    have entry' : (c.touch i).cell? i = some (k, v) := (cell?_touch c i i).trans entry
    obtain ⟨slot, at_slot, same⟩ := Option.map_eq_some_iff.1 entry'
    rw [Prod.mk.injEq] at same
    rw [RecencyList.peek?_eq_some_of_split whole apart]
    constructor
    · simp [h.threaded.touchChecked_eq, at_slot]
    · simp [at_slot, same.2]
    · dsimp only
      rw [RecencyList.promote_of_split whole apart]
      have split : l = ⟨l.bound, newer ++ (k, v) :: older⟩ := by rw [← whole]
      rw [split] at h
      exact ⟨_, h.touch newer_eq older_eq entry⟩

omit [DecidableEq κ] in
/-- Writing the value of a slot writes the value of its pair. -/
theorem Represents.writeValue {before after : List Nat} {newer older : List (κ × υ)} {i : Nat}
    {k : κ} {v w : υ} (h : c.Represents (before ++ i :: after) l)
    (newer_eq : before.map c.cell? = newer.map some) (older_eq : after.map c.cell? = older.map some)
    (entry : c.cell? i = some (k, v)) :
    let written := { c with slots := c.slots.modify i fun s => { s with value := w } }
    written.Represents (before ++ i :: after) ⟨l.bound, newer ++ (k, w) :: older⟩ ∧
      before.map written.cell? = newer.map some ∧ after.map written.cell? = older.map some ∧
      written.cell? i = some (k, w) := by
  intro written
  have cells : ∀ j, written.cell? j = if i = j then some (k, w) else c.cell? j := by
    intro j
    rw [cell?_modify]
    split
    · rename_i same
      obtain ⟨slot, at_slot, eq⟩ := Option.map_eq_some_iff.1 (same ▸ entry)
      rw [Prod.mk.injEq] at eq
      simp [at_slot, eq.1]
    · rfl
  have once := h.threaded.once
  rw [List.nodup_middle, List.nodup_cons, List.mem_append, not_or] at once
  have beside : ∀ js : List Nat, i ∉ js → js.map written.cell? = js.map c.cell? := by
    intro js hi
    apply List.map_congr_left
    intro j hj
    rw [cells, if_neg (by rintro rfl; exact hi hj)]
  have newer_eq' := (beside before once.1.1).trans newer_eq
  have older_eq' := (beside after once.1.2).trans older_eq
  have here : written.cell? i = some (k, w) := by rw [cells, if_pos rfl]
  refine ⟨?_, newer_eq', older_eq', here⟩
  constructor
  · exact h.threaded.of_links (fun m _ => links?_modify c i m _ fun s => ⟨rfl, rfl⟩) rfl rfl
  · intro j
    simpa [written] using h.covers j
  · simp [newer_eq', older_eq', here]
  · intro k' j
    rw [cells]
    split
    · rename_i same
      subst same
      simp [h.index, written, entry]
    · exact h.index k' j
  · exact h.capacity
  · exact h.bound

/-- A key without a slot takes over a slot, and the key that had it loses it. -/
theorem Represents.index_takeover {c' : RecencyCache κ υ} {i : Nat} {k : κ} {v : υ}
    (h : c.Represents order l) (missing : c.index[k]? = none)
    (cells : ∀ j, c'.cell? j = if i = j then some (k, v) else c.cell? j)
    (lookups : ∀ k', c'.index[k']? =
      if k = k' then some i else if c.index[k']? = some i then none else c.index[k']?)
    (k' : κ) (j : Nat) : c'.index[k']? = some j ↔ ∃ v, c'.cell? j = some (k', v) := by
  have tied := h.index k' j
  rw [lookups, cells]
  by_cases same : k = k'
  · subst same
    rw [missing] at tied
    rw [if_pos rfl]
    by_cases here : i = j
    · simp [here]
    · rw [if_neg here, ← tied]
      simp [here]
  · rw [if_neg same]
    by_cases here : i = j
    · subst here
      simp only [↓reduceIte, Option.some.injEq, Prod.mk.injEq, same, false_and, exists_false,
        iff_false]
      split
      · simp
      · assumption
    · rw [if_neg here, ← tied]
      split
      · rename_i found
        simp [found, here]
      · rfl

variable [LawfulBEq κ]

/-- A new slot goes to a key that has none. -/
theorem Represents.push (h : c.Represents order l) {k : κ} (v : υ) (missing : c.index[k]? = none) :
    let grown := { c with
      slots := c.slots.push { key := k, value := v }
      index := c.index.insert k c.slots.size }
    grown.pushNewestChecked c.slots.size = some (grown.pushNewest c.slots.size) ∧
      (grown.pushNewest c.slots.size).Represents (c.slots.size :: order)
        { l with pairs := (k, v) :: l.pairs } := by
  intro grown
  have old : ∀ j, j < c.slots.size → grown.slots[j]? = c.slots[j]? :=
    fun j hj => by simp only [grown, Array.getElem?_push_lt hj, Array.getElem?_eq_getElem hj]
  have beyond : ∀ j, c.slots.size ≤ j → c.cell? j = none := fun j hj => by simp [cell?, hj]
  have cells : ∀ j, grown.cell? j = if c.slots.size = j then some (k, v) else c.cell? j := by
    intro j
    rcases Nat.lt_trichotomy j c.slots.size with inside | rfl | outside
    · rw [if_neg (Nat.ne_of_gt inside), cell?, old j inside, cell?]
    · simp [grown, cell?]
    · rw [if_neg (Nat.ne_of_lt outside), beyond j (Nat.le_of_lt outside)]
      simp only [grown, cell?, Option.map_eq_none_iff, Array.getElem?_eq_none_iff, Array.size_push]
      omega
  have threaded : grown.Threaded order :=
    h.threaded.of_links (fun m hm => by rw [links?, old m (h.threaded.inside hm), links?]) rfl rfl
  refine ⟨threaded.pushNewestChecked_eq (by simp [grown]), ?_⟩
  apply represents_pushNewest threaded
  · rw [h.covers]
    exact Nat.lt_irrefl _
  · intro j
    rw [List.mem_cons, h.covers]
    simp only [grown, Array.size_push]
    omega
  · have entries : order.map grown.cell? = order.map c.cell? := by
      apply List.map_congr_left
      intro j hj
      rw [cells, if_neg (Nat.ne_of_gt (h.threaded.inside hj))]
    simp [cells, entries, h.pairs]
  · refine h.index_takeover missing cells fun k' => ?_
    have unused : c.index[k']? ≠ some c.slots.size := by
      intro found
      obtain ⟨v, entry⟩ := (h.index _ _).1 found
      rw [beyond _ (Nat.le_refl _)] at entry
      cases entry
    rw [if_neg unused]
    simp [grown, Std.HashMap.getElem?_insert]
  · exact h.capacity
  · exact h.bound

/-- The oldest slot of a full cache goes to a key that has none. -/
theorem Represents.recycle {before : List Nat} {newer : List (κ × υ)} {i : Nat} {k : κ} {p : κ × υ}
    (h : c.Represents (before ++ [i]) l) (v : υ) (missing : c.index[k]? = none)
    (newer_eq : before.map c.cell? = newer.map some) (entry : c.cell? i = some p) :
    c.recycleChecked i k v = some (c.recycle i k v) ∧ (c.recycle i k v).1 = some p ∧
      (c.recycle i k v).2.Represents (i :: before) { l with pairs := (k, v) :: newer } := by
  obtain ⟨slot, at_slot, rfl⟩ := Option.map_eq_some_iff.1 entry
  obtain ⟨slot', at_slot', same⟩ := Option.map_eq_some_iff.1 ((cell?_unlink c i i).trans entry)
  rw [Prod.mk.injEq] at same
  have inside : i < (c.unlink i).slots.size := by
    rw [size_unlink]
    exact h.threaded.inside (by simp)
  have fresh : i ∉ before := by
    have once := h.threaded.once
    rw [List.nodup_middle, List.nodup_cons] at once
    simpa using once.1
  -- the slot between the two moves: out of the thread, with its new entry
  let given : RecencyCache κ υ := { c.unlink i with
    slots := (c.unlink i).slots.modify i fun s => { s with key := k, value := v }
    index := ((c.unlink i).index.erase slot.key).insert k i }
  have threaded : given.Threaded before := by
    refine Threaded.of_links (c := c.unlink i) (by simpa using h.threaded.unlink) ?_ rfl rfl
    exact fun m _ => links?_modify (c.unlink i) i m _ fun s => ⟨rfl, rfl⟩
  have cells : ∀ j, given.cell? j = if i = j then some (k, v) else c.cell? j := by
    intro j
    refine (cell?_modify (c.unlink i) i j _).trans ?_
    split
    · rename_i same
      subst same
      simp [at_slot']
    · exact cell?_unlink c j i
  have recycled : c.recycle i k v = (some (slot.key, slot.value), given.pushNewest i) := by
    simp only [RecencyCache.recycle, at_slot, given]
  have given_inside : i < given.slots.size := by simpa [given] using inside
  rw [recycled]
  refine ⟨?_, rfl, ?_⟩
  · have pushed := threaded.pushNewestChecked_eq given_inside
    simp [recycleChecked, h.threaded.unlinkChecked_eq, at_slot', modifyChecked_eq inside, same,
      given] at pushed ⊢
    simp [pushed]
  · apply represents_pushNewest threaded fresh
    · intro j
      have covers := h.covers j
      simpa [given, or_comm] using covers
    · have entries : before.map given.cell? = before.map c.cell? := by
        apply List.map_congr_left
        intro j hj
        rw [cells, if_neg (by rintro rfl; exact fresh hj)]
      simp [cells, entries, newer_eq]
    · refine h.index_takeover missing cells fun k' => ?_
      have owner : c.index[k']? = some i ↔ slot.key = k' := by
        rw [h.index, entry]
        simp
      simp [given, Std.HashMap.getElem?_insert, Std.HashMap.getElem?_erase, owner]
    · simpa [given] using h.capacity
    · exact h.bound

theorem Represents.set (h : c.Represents order l) (k : κ) (v : υ) :
    Agrees (c.setChecked k v) (c.set k v) (l.set k v) := by
  unfold setChecked RecencyCache.set RecencyList.set RecencyList.contains
  cases found : c.index[k]? with
  | some i =>
    obtain ⟨before, after, newer, older, old, rfl, whole, newer_eq, older_eq, entry, apart⟩ :=
      h.present found
    obtain ⟨written, newer_eq', older_eq', entry'⟩ := h.writeValue newer_eq older_eq entry (w := v)
    have inside : i < c.slots.size := h.threaded.inside (by simp)
    rw [RecencyList.peek?_eq_some_of_split whole apart, Option.isSome_some, if_pos rfl,
      RecencyList.promote_of_split whole apart]
    constructor
    · simp [modifyChecked_eq inside, written.threaded.touchChecked_eq]
    · rfl
    · exact ⟨_, written.touch newer_eq' older_eq' entry'⟩
  | none =>
    have room_iff : c.slots.size < c.capacity ↔ l.pairs.length < l.bound := by
      rw [h.size_eq, h.capacity]
    rw [RecencyList.peek?_eq_none_of_apart (h.absent found), Option.isSome_none]
    simp only [Bool.false_eq_true, if_false]
    by_cases room : l.pairs.length < l.bound
    · obtain ⟨pushed, represents⟩ := h.push v found
      rw [if_pos (room_iff.2 room), if_pos (room_iff.2 room), if_pos room]
      constructor
      · simp [pushed]
      · rfl
      · exact ⟨_, represents⟩
    · rw [if_neg (mt room_iff.1 room), if_neg (mt room_iff.1 room), if_neg room]
      have bound := h.bound
      rcases List.eq_nil_or_concat l.pairs with empty | ⟨newer, p, whole⟩
      · simp [empty, bound] at room
      · -- a full list is not empty, so the thread has an oldest slot
        have entries := h.pairs
        rw [whole, List.concat_eq_append, List.map_append, List.map_eq_append_iff] at entries
        obtain ⟨before, last, rfl, newer_eq, last_eq⟩ := entries
        obtain ⟨i, rfl, entry⟩ := List.map_eq_singleton_iff.1 last_eq
        have oldest : c.oldest = some i := by
          rw [h.threaded.oldest]
          simp
        obtain ⟨recycled, dropped, represents⟩ := h.recycle v found newer_eq entry
        rw [oldest, whole]
        constructor
        · exact recycled
        · simpa using dropped
        · rw [List.concat_eq_append, List.dropLast_concat]
          exact ⟨_, represents⟩

theorem Represents.serve (h : c.Represents order l) (r : CacheRequest κ υ) :
    Agrees (c.serveChecked r) (c.serve r) (l.serve r) := by
  cases r with
  | set k v =>
    obtain ⟨checked, result, represents⟩ := h.set k v
    exact ⟨by simp [serveChecked, RecencyCache.serve, checked], congrArg _ result, represents⟩
  | get k =>
    obtain ⟨checked, result, represents⟩ := h.get? k
    exact ⟨by simp [serveChecked, RecencyCache.serve, checked], congrArg _ result, represents⟩
  | peek k =>
    obtain ⟨checked, result, -⟩ := h.peek k
    exact ⟨by simp [serveChecked, RecencyCache.serve, checked], congrArg _ result, order, h⟩
  | contains k =>
    obtain ⟨-, -, present⟩ := h.peek k
    exact ⟨rfl, congrArg _ present, order, h⟩
  | clear => exact ⟨rfl, rfl, [], h.clear⟩

theorem Represents.history (h : c.Represents order l) (rs : List (CacheRequest κ υ)) :
    c.historyChecked rs = some (l.history rs) ∧ c.history rs = l.history rs := by
  induction rs generalizing c order l with
  | nil => exact ⟨rfl, rfl⟩
  | cons r rs ih =>
    obtain ⟨checked, result, order', represents⟩ := h.serve r
    obtain ⟨rest_checked, rest⟩ := ih represents
    constructor
    · have size_eq : (c.serve r).2.size = (l.serve r).2.size := represents.size_eq
      simp [historyChecked, RecencyList.history, checked, represents.keysChecked, rest_checked,
        result, size_eq]
    · simp only [RecencyCache.history, RecencyList.history, result, represents.keys_eq, rest,
        RecencyCache.size, RecencyList.size, represents.size_eq]

end Steps

section Histories
variable [LawfulBEq κ] [DecidableEq κ]

/-- A cache of any capacity shows what the list of the same bound shows, whatever it is asked. It
never looks for a slot that does not exist, and its walk over the keys ends. A cache can be made if
room for its slots can be reserved; with texts as keys and values of one word that is up to a
capacity of `2 ^ 57`. -/
theorem history_eq_list_history (capacity : Nat) (rs : List (CacheRequest κ υ)) :
    (new capacity : RecencyCache κ υ).historyChecked rs =
      some ((RecencyList.new capacity).history rs) ∧
      (new capacity : RecencyCache κ υ).history rs = (RecencyList.new capacity).history rs ∧
      (∀ slotBytes,
        (reserve capacity slotBytes : Except CapacityError (RecencyCache κ υ)).map (·.history rs) =
          if max capacity 1 * slotBytes ≤ maxReservation then
            .ok ((RecencyList.new capacity).history rs)
          else .error .overflow) ∧
      (max capacity 1 * textSlotBytes ≤ maxReservation ↔ capacity < Nat.pow 2 57) := by
  obtain ⟨checked, plain⟩ := (represents_new capacity).history rs
  refine ⟨checked, plain, fun slotBytes => ?_, textSlots_fit_iff⟩
  split
  · rename_i fits
    have made : reserve capacity slotBytes = .ok (new capacity : RecencyCache κ υ) :=
      reserve_eq_ok_iff.2 ⟨fits, rfl⟩
    rw [made, Except.map, plain]
  · rename_i large
    cases made : (reserve capacity slotBytes : Except CapacityError (RecencyCache κ υ)) with
    | ok c => exact absurd (reserve_eq_ok_iff.1 made).1 large
    | error e => cases e; rfl

/-- A cache for two entries drops the one that was not read, is emptied and starts anew. -/
theorem history_eq_list_history_two :
    (new 2 : RecencyCache String Nat).history
        [.set "a" 1, .set "b" 2, .get "a", .set "c" 3, .peek "a", .contains "b", .clear,
          .set "b" 4] =
      [⟨.dropped none, 1, ["a"]⟩, ⟨.dropped none, 2, ["b", "a"]⟩, ⟨.value (some 1), 2, ["a", "b"]⟩,
        ⟨.dropped (some ("b", 2)), 2, ["c", "a"]⟩, ⟨.value (some 1), 2, ["c", "a"]⟩,
        ⟨.present false, 2, ["c", "a"]⟩, ⟨.cleared, 0, []⟩, ⟨.dropped none, 1, ["b"]⟩] :=
  (history_eq_list_history 2 _).2.1.trans (by decide)

/-- No cache is made for half of the address space, where the list takes its first pair. -/
theorem reserve_half_address_space :
    ¬ ∀ (capacity : Nat) (rs : List (CacheRequest String Int)),
      (reserve capacity : Except CapacityError (RecencyCache String Int)).map (·.history rs) =
        .ok ((RecencyList.new capacity).history rs) := by
  intro always
  have refused : (reserve (Nat.pow 2 63) : Except CapacityError (RecencyCache String Int)) =
      .error .overflow := rfl
  have served := always (Nat.pow 2 63) [.set "a" 1]
  rw [refused] at served
  cases served

end Histories

end RecencyCache

end ScriptInference
