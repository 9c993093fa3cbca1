import Std.Data.HashMap

/-!
# A recency cache with constant-time operations

Entries live in a vector of slots. The slots are threaded into a doubly linked list by their
positions, from the newest to the oldest, and a hash table gives the slot of a key. A full cache
reuses its oldest slot for the incoming entry, so a slot is never freed before the cache is cleared.

Room for all slots is reserved when a cache is made, so a capacity beyond what can be addressed is
refused at once.

`RecencyList` is the same cache as a plain list.
-/

namespace ScriptInference

structure Slot (κ υ : Type) where
  key : κ
  value : υ
  newer : Option Nat := none
  older : Option Nat := none

inductive CapacityError where
  | overflow
  deriving DecidableEq, Repr

def CapacityError.message : CapacityError → String
  | overflow => "capacity overflow"

structure RecencyCache (κ υ : Type) [BEq κ] [Hashable κ] where
  capacity : Nat
  index : Std.HashMap κ Nat
  slots : Array (Slot κ υ)
  newest : Option Nat
  oldest : Option Nat

namespace RecencyCache
variable {κ υ : Type} [BEq κ] [Hashable κ]

def defaultCapacity : Nat := 50

/-- An empty cache; a capacity of zero is taken as one. -/
def new (capacity : Nat) : RecencyCache κ υ := ⟨max capacity 1, ∅, #[], none, none⟩

/-- The bytes of a slot whose key is a text and whose value fits a word: three words for the text,
one for the value and two for each link. -/
def textSlotBytes : Nat := 64

/-- The bytes that can be reserved together: half of the address space, less one word. -/
def maxReservation : Nat := Nat.pow 2 63 - 8

/-- An empty cache with room for all its slots, if that much can be reserved. -/
def reserve (capacity : Nat) (slotBytes : Nat := textSlotBytes) :
    Except CapacityError (RecencyCache κ υ) :=
  if max capacity 1 * slotBytes ≤ maxReservation then .ok (new capacity) else .error .overflow

theorem reserve_eq_ok_iff {capacity slotBytes : Nat} {c : RecencyCache κ υ} :
    reserve capacity slotBytes = .ok c ↔
      max capacity 1 * slotBytes ≤ maxReservation ∧ c = new capacity := by
  unfold reserve
  split
  · rw [Except.ok.injEq, eq_comm, iff_and_self]
    exact fun _ => by assumption
  · simp [*]

theorem textSlots_fit_iff {capacity : Nat} :
    max capacity 1 * textSlotBytes ≤ maxReservation ↔ capacity < Nat.pow 2 57 := by
  have slots : Nat.pow 2 63 = 64 * Nat.pow 2 57 := rfl
  have many : 2 ≤ Nat.pow 2 57 := by decide
  unfold textSlotBytes maxReservation
  omega

def size (c : RecencyCache κ υ) : Nat := c.slots.size

def isEmpty (c : RecencyCache κ υ) : Bool := c.slots.isEmpty

def contains (c : RecencyCache κ υ) (k : κ) : Bool := c.index.contains k

/-- Reads a key and leaves the order alone. -/
def peek? (c : RecencyCache κ υ) (k : κ) : Option υ :=
  (c.index[k]?.bind (c.slots[·]?)).map (·.value)

/-- Keys along the `older` links, for at most `n` slots. -/
def keysFrom (c : RecencyCache κ υ) : Nat → Option Nat → List κ
  | 0, _ => []
  | _, none => []
  | n + 1, some i =>
    match c.slots[i]? with
    | some slot => slot.key :: c.keysFrom n slot.older
    | none => []

/-- Keys from the newest to the oldest. -/
def keys (c : RecencyCache κ υ) : List κ := c.keysFrom c.slots.size c.newest

/-- Takes a slot out of the recency list. -/
def unlink (c : RecencyCache κ υ) (i : Nat) : RecencyCache κ υ :=
  match c.slots[i]? with
  | none => c
  | some slot =>
    let c := match slot.newer with
      | some j => { c with slots := c.slots.modify j fun s => { s with older := slot.older } }
      | none => { c with newest := slot.older }
    let c := match slot.older with
      | some j => { c with slots := c.slots.modify j fun s => { s with newer := slot.newer } }
      | none => { c with oldest := slot.newer }
    { c with slots := c.slots.modify i fun s => { s with newer := none, older := none } }

/-- Puts an unlinked slot at the newest end. -/
def pushNewest (c : RecencyCache κ υ) (i : Nat) : RecencyCache κ υ :=
  let slots := c.slots.modify i fun s => { s with older := c.newest, newer := none }
  let slots := match c.newest with
    | some j => slots.modify j fun s => { s with newer := some i }
    | none => slots
  { c with slots := slots, newest := some i, oldest := c.oldest.or (some i) }

/-- Marks a slot as the newest. -/
def touch (c : RecencyCache κ υ) (i : Nat) : RecencyCache κ υ :=
  if c.newest = some i then c else (c.unlink i).pushNewest i

/-- Reads a key and marks it as the newest. -/
def get? (c : RecencyCache κ υ) (k : κ) : Option υ × RecencyCache κ υ :=
  match c.index[k]? with
  | none => (none, c)
  | some i =>
    let c := c.touch i
    (c.slots[i]?.map (·.value), c)

/-- Gives slot `i` of a full cache to a new entry. -/
def recycle (c : RecencyCache κ υ) (i : Nat) (k : κ) (v : υ) : Option (κ × υ) × RecencyCache κ υ :=
  match c.slots[i]? with
  | none => (none, c)
  | some slot =>
    let c := c.unlink i
    let c := { c with
      slots := c.slots.modify i fun s => { s with key := k, value := v }
      index := (c.index.erase slot.key).insert k i }
    (some (slot.key, slot.value), c.pushNewest i)

/-- Writes an entry; the result names the entry that was dropped, if any. -/
def set (c : RecencyCache κ υ) (k : κ) (v : υ) : Option (κ × υ) × RecencyCache κ υ :=
  match c.index[k]? with
  | some i =>
    let c := { c with slots := c.slots.modify i fun s => { s with value := v } }
    (none, c.touch i)
  | none =>
    if c.slots.size < c.capacity then
      let i := c.slots.size
      let c := { c with
        slots := c.slots.push { key := k, value := v }, index := c.index.insert k i }
      (none, c.pushNewest i)
    else
      match c.oldest with
      | some i => c.recycle i k v
      | none => (none, c)

def clear (c : RecencyCache κ υ) : RecencyCache κ υ := ⟨c.capacity, ∅, #[], none, none⟩

end RecencyCache

end ScriptInference
