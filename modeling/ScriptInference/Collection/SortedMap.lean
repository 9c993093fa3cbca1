/-!
# Maps and sets kept in key order

A `SortedMap` is a list of bindings with strictly increasing keys, and a `SortedSet` the same
without values. The order is part of the type: enumeration is always by key, two maps with the same
bindings are equal, and a lookup never depends on the history of insertions. Names are ordered by
code points.

The collections here are small (members of one entity, types of one catalog), so lookups are linear.
-/

namespace ScriptInference

/-- A strict total order on keys. -/
class StrictOrder (κ : Type) [LT κ] : Prop where
  irrefl : ∀ a : κ, ¬ a < a
  trans : ∀ {a b c : κ}, a < b → b < c → a < c
  connected : ∀ {a b : κ}, ¬ a < b → a ≠ b → b < a

instance : StrictOrder String where
  irrefl := String.lt_irrefl
  trans := String.lt_trans
  connected {a b} h ne := by
    have hle : b ≤ a := String.not_lt.mp h
    refine Decidable.byContradiction fun hn => ne ?_
    exact String.le_antisymm (String.not_lt.mp hn) hle

structure SortedMap (κ υ : Type) [LT κ] where
  entries : List (κ × υ)
  sorted : entries.Pairwise (fun a b => a.1 < b.1)

namespace SortedMap
variable {κ υ : Type} [LT κ]

instance [DecidableEq κ] [DecidableEq υ] : DecidableEq (SortedMap κ υ) := fun m n =>
  decidable_of_iff (m.entries = n.entries) (by cases m; cases n; simp)

def empty : SortedMap κ υ := ⟨[], .nil⟩

instance : EmptyCollection (SortedMap κ υ) := ⟨empty⟩
instance : Inhabited (SortedMap κ υ) := ⟨empty⟩

def toList (m : SortedMap κ υ) : List (κ × υ) := m.entries

def keys (m : SortedMap κ υ) : List κ := m.entries.map (·.1)

def values (m : SortedMap κ υ) : List υ := m.entries.map (·.2)

def isEmpty (m : SortedMap κ υ) : Bool := m.entries.isEmpty

/-- Applies `f` to every value and leaves the keys alone. -/
def mapValues {ω : Type} (f : υ → ω) (m : SortedMap κ υ) : SortedMap κ ω :=
  ⟨m.entries.map fun e => (e.1, f e.2), by
    rw [List.pairwise_map]
    exact m.sorted⟩

variable [DecidableEq κ]

def get? (m : SortedMap κ υ) (k : κ) : Option υ :=
  (m.entries.find? (fun e => e.1 = k)).map (·.2)

def contains (m : SortedMap κ υ) (k : κ) : Bool := (m.get? k).isSome

variable [DecidableLT κ]

/-- Puts a binding at its place in a sorted list; an equal key is replaced. -/
def insertEntry (k : κ) (v : υ) : List (κ × υ) → List (κ × υ)
  | [] => [(k, v)]
  | e :: rest =>
    if k < e.1 then (k, v) :: e :: rest
    else if k = e.1 then (k, v) :: rest
    else e :: insertEntry k v rest

theorem mem_insertEntry {k : κ} {v : υ} {l : List (κ × υ)} {e : κ × υ} (h : e ∈ insertEntry k v l) :
    e = (k, v) ∨ e ∈ l := by
  induction l with
  | nil => simpa [insertEntry] using h
  | cons d rest ih =>
    unfold insertEntry at h
    split at h
    · simpa using h
    · split at h
      · rcases List.mem_cons.mp h with h | h
        · exact .inl h
        · exact .inr (List.mem_cons_of_mem _ h)
      · rcases List.mem_cons.mp h with h | h
        · exact .inr (h ▸ List.mem_cons_self)
        · exact (ih h).imp_right (List.mem_cons_of_mem _)

theorem find?_insertEntry (k j : κ) (v : υ) (l : List (κ × υ)) :
    (insertEntry k v l).find? (fun e => e.1 = j) =
      if j = k then some (k, v) else l.find? (fun e => e.1 = j) := by
  induction l with
  | nil =>
    by_cases h : k = j
    · simp [insertEntry, h]
    · simp [insertEntry, h, Ne.symm h]
  | cons e rest ih =>
    unfold insertEntry
    split
    · by_cases h : k = j
      · simp [h]
      · simp [h, Ne.symm h]
    · split
      · rename_i heq
        subst heq
        by_cases h : e.1 = j
        · simp [h]
        · simp [h, Ne.symm h]
      · rename_i hne
        by_cases h : e.1 = j
        · subst h
          simp [Ne.symm hne]
        · simp [h, ih]

variable [StrictOrder κ]

theorem pairwise_insertEntry (k : κ) (v : υ) {l : List (κ × υ)}
    (h : l.Pairwise (fun a b => a.1 < b.1)) :
    (insertEntry k v l).Pairwise (fun a b => a.1 < b.1) := by
  induction l with
  | nil => simp [insertEntry]
  | cons e rest ih =>
    obtain ⟨hhead, htail⟩ := List.pairwise_cons.mp h
    unfold insertEntry
    split
    · rename_i hlt
      refine List.pairwise_cons.mpr ⟨fun d hd => ?_, h⟩
      rcases List.mem_cons.mp hd with rfl | hd
      · exact hlt
      · exact StrictOrder.trans hlt (hhead d hd)
    · split
      · rename_i heq
        subst heq
        exact List.pairwise_cons.mpr ⟨hhead, htail⟩
      · rename_i hlt hne
        refine List.pairwise_cons.mpr ⟨fun d hd => ?_, ih htail⟩
        rcases mem_insertEntry hd with rfl | hd
        · exact StrictOrder.connected hlt hne
        · exact hhead d hd

def insert (m : SortedMap κ υ) (k : κ) (v : υ) : SortedMap κ υ :=
  ⟨insertEntry k v m.entries, pairwise_insertEntry k v m.sorted⟩

@[simp] theorem get?_insert (m : SortedMap κ υ) (k j : κ) (v : υ) :
    (m.insert k v).get? j = if j = k then some v else m.get? j := by
  unfold get? insert
  rw [find?_insertEntry]
  split <;> rfl

/-- Inserts only where the key is still free. -/
def insertIfNew (m : SortedMap κ υ) (k : κ) (v : υ) : SortedMap κ υ :=
  if m.contains k then m else m.insert k v

/-- Later bindings of the list replace earlier ones. -/
def ofList (l : List (κ × υ)) : SortedMap κ υ :=
  l.foldl (fun m e => m.insert e.1 e.2) empty

end SortedMap

structure SortedSet (κ : Type) [LT κ] where
  elements : List κ
  sorted : elements.Pairwise (· < ·)

namespace SortedSet
variable {κ : Type} [LT κ]

instance [DecidableEq κ] : DecidableEq (SortedSet κ) := fun s t =>
  decidable_of_iff (s.elements = t.elements) (by cases s; cases t; simp)

def empty : SortedSet κ := ⟨[], .nil⟩

instance : EmptyCollection (SortedSet κ) := ⟨empty⟩
instance : Inhabited (SortedSet κ) := ⟨empty⟩
instance : Membership κ (SortedSet κ) := ⟨fun s a => a ∈ s.elements⟩

instance [DecidableEq κ] (a : κ) (s : SortedSet κ) : Decidable (a ∈ s) :=
  inferInstanceAs (Decidable (a ∈ s.elements))

def toList (s : SortedSet κ) : List κ := s.elements

def isEmpty (s : SortedSet κ) : Bool := s.elements.isEmpty

theorem not_mem_empty (a : κ) : a ∉ (∅ : SortedSet κ) := by
  intro h
  cases h

variable [DecidableEq κ] [DecidableLT κ]

def insertElement (a : κ) : List κ → List κ
  | [] => [a]
  | b :: rest =>
    if a < b then a :: b :: rest
    else if a = b then b :: rest
    else b :: insertElement a rest

theorem mem_insertElement {a x : κ} {l : List κ} : x ∈ insertElement a l ↔ x = a ∨ x ∈ l := by
  induction l with
  | nil => simp [insertElement]
  | cons b rest ih =>
    unfold insertElement
    split
    · simp
    · split
      · rename_i heq
        subst heq
        simp
      · simp [ih, or_left_comm]

variable [StrictOrder κ]

theorem pairwise_insertElement (a : κ) {l : List κ} (h : l.Pairwise (· < ·)) :
    (insertElement a l).Pairwise (· < ·) := by
  induction l with
  | nil => simp [insertElement]
  | cons b rest ih =>
    obtain ⟨hhead, htail⟩ := List.pairwise_cons.mp h
    unfold insertElement
    split
    · rename_i hlt
      refine List.pairwise_cons.mpr ⟨fun d hd => ?_, h⟩
      rcases List.mem_cons.mp hd with rfl | hd
      · exact hlt
      · exact StrictOrder.trans hlt (hhead d hd)
    · split
      · exact h
      · rename_i hlt hne
        refine List.pairwise_cons.mpr ⟨fun d hd => ?_, ih htail⟩
        rcases mem_insertElement.mp hd with rfl | hd
        · exact StrictOrder.connected hlt hne
        · exact hhead d hd

def insert (s : SortedSet κ) (a : κ) : SortedSet κ :=
  ⟨insertElement a s.elements, pairwise_insertElement a s.sorted⟩

@[simp] theorem mem_insert {a x : κ} {s : SortedSet κ} : x ∈ s.insert a ↔ x = a ∨ x ∈ s :=
  mem_insertElement

/-- Adds every element of a list. -/
def insertMany (s : SortedSet κ) (l : List κ) : SortedSet κ := l.foldl insert s

@[simp] theorem mem_insertMany {x : κ} {s : SortedSet κ} {l : List κ} :
    x ∈ s.insertMany l ↔ x ∈ s ∨ x ∈ l := by
  induction l generalizing s with
  | nil => simp [insertMany]
  | cons a rest ih =>
    have step : s.insertMany (a :: rest) = (s.insert a).insertMany rest := rfl
    rw [step, ih]
    simp [or_left_comm, or_assoc]

def ofList (l : List κ) : SortedSet κ := empty.insertMany l

@[simp] theorem mem_ofList {x : κ} {l : List κ} : x ∈ ofList l ↔ x ∈ l := by
  rw [ofList, mem_insertMany]
  exact or_iff_right (not_mem_empty x)

def union (s t : SortedSet κ) : SortedSet κ := s.insertMany t.elements

@[simp] theorem mem_union {x : κ} {s t : SortedSet κ} : x ∈ s.union t ↔ x ∈ s ∨ x ∈ t :=
  mem_insertMany

end SortedSet

end ScriptInference
