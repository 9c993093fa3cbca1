/-!
# Sets keyed by a content hash

A `ContentSet` holds at most one item for each content hash. Adding an item whose hash is already
present replaces the stored item and keeps its position, so enumeration follows the order in which
hashes were first seen. Distinct items with one hash are therefore the same item to the set; nothing
here assumes that the hash is injective.
-/

namespace ScriptInference

class ContentHash (α : Type) where
  contentHash : α → UInt32

export ContentHash (contentHash)

/-- Replaces the item stored under a hash, or appends it under a new one. -/
def upsert {α : Type} (hash : UInt32) (item : α) : List (UInt32 × α) → List (UInt32 × α)
  | [] => [(hash, item)]
  | e :: rest => if e.1 = hash then (hash, item) :: rest else e :: upsert hash item rest

theorem map_fst_upsert {α : Type} (hash : UInt32) (item : α) (l : List (UInt32 × α)) :
    (upsert hash item l).map (·.1) =
      if hash ∈ l.map (·.1) then l.map (·.1) else l.map (·.1) ++ [hash] := by
  induction l with
  | nil => simp [upsert]
  | cons e rest ih =>
    unfold upsert
    by_cases h : e.1 = hash
    · simp [h]
    · have h' : ¬ hash = e.1 := fun hh => h hh.symm
      simp only [h, if_false, List.map_cons, ih, List.mem_cons, h', false_or]
      split <;> simp

theorem mem_upsert {α : Type} {hash : UInt32} {item : α} {l : List (UInt32 × α)} {e : UInt32 × α}
    (h : e ∈ upsert hash item l) : e = (hash, item) ∨ e ∈ l := by
  induction l with
  | nil => simpa [upsert] using h
  | cons d rest ih =>
    unfold upsert at h
    split at h
    · rcases List.mem_cons.mp h with h | h
      · exact .inl h
      · exact .inr (List.mem_cons_of_mem _ h)
    · rcases List.mem_cons.mp h with h | h
      · exact .inr (h ▸ List.mem_cons_self)
      · exact (ih h).imp_right (List.mem_cons_of_mem _)

structure ContentSet (α : Type) [ContentHash α] where
  entries : List (UInt32 × α)
  nodup : (entries.map (·.1)).Nodup
  hash_eq : ∀ e ∈ entries, e.1 = contentHash e.2

namespace ContentSet
variable {α : Type} [ContentHash α]

instance [DecidableEq α] : DecidableEq (ContentSet α) := fun s t =>
  decidable_of_iff (s.entries = t.entries) (by cases s; cases t; simp)

def empty : ContentSet α := ⟨[], .nil, by simp⟩

instance : EmptyCollection (ContentSet α) := ⟨empty⟩
instance : Inhabited (ContentSet α) := ⟨empty⟩

def hashes (s : ContentSet α) : List UInt32 := s.entries.map (·.1)

/-- The items, in the order in which their hashes were first seen. -/
def toList (s : ContentSet α) : List α := s.entries.map (·.2)

def size (s : ContentSet α) : Nat := s.entries.length

def isEmpty (s : ContentSet α) : Bool := s.entries.isEmpty

def first? (s : ContentSet α) : Option α := s.toList.head?

def last? (s : ContentSet α) : Option α := s.toList.getLast?

def contains (s : ContentSet α) (a : α) : Bool := s.hashes.contains (contentHash a)

/-- Adds an item under its hash. -/
def insert (s : ContentSet α) (a : α) : ContentSet α where
  entries := upsert (contentHash a) a s.entries
  nodup := by
    rw [map_fst_upsert]
    split
    · exact s.nodup
    · rename_i h
      refine List.nodup_append.mpr ⟨s.nodup, by simp, ?_⟩
      intro x hx y hy hxy
      simp only [List.mem_singleton] at hy
      exact h (hy ▸ hxy ▸ hx)
  hash_eq e he := by
    rcases mem_upsert he with rfl | he
    · rfl
    · exact s.hash_eq e he

/-- Removes the item stored under the hash of `a`. -/
def erase (s : ContentSet α) (a : α) : ContentSet α where
  entries := s.entries.filter (fun e => e.1 ≠ contentHash a)
  nodup := s.nodup.sublist (List.filter_sublist.map _)
  hash_eq e he := s.hash_eq e (List.mem_filter.mp he).1

/-- Adds an item, and tells whether its hash was free. -/
def add (s : ContentSet α) (a : α) : Bool × ContentSet α := (!s.contains a, s.insert a)

/-- Removes the item stored under the hash of `a`, and tells whether there was one. -/
def delete (s : ContentSet α) (a : α) : Bool × ContentSet α := (s.contains a, s.erase a)

def clear (_ : ContentSet α) : ContentSet α := empty

def insertMany (s : ContentSet α) (l : List α) : ContentSet α := l.foldl insert s

def ofList (l : List α) : ContentSet α := empty.insertMany l

/-- Adds the items of `t`, in the order of `t`. -/
def union (s t : ContentSet α) : ContentSet α := s.insertMany t.toList

theorem hashes_insert (s : ContentSet α) (a : α) :
    (s.insert a).hashes =
      if contentHash a ∈ s.hashes then s.hashes else s.hashes ++ [contentHash a] :=
  map_fst_upsert _ _ _

end ContentSet

end ScriptInference
