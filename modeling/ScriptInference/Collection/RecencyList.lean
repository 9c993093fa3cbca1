/-!
# Bounded lists in order of recency

The plain picture of a least-recently-used cache: a list of key and value pairs, newest first, never
longer than its bound. Reading a present key and writing any key move that key to the front; writing
a new key into a full list drops the last pair.
-/

namespace ScriptInference

structure RecencyList (κ υ : Type) where
  bound : Nat
  pairs : List (κ × υ)
  deriving DecidableEq, Repr

namespace RecencyList
variable {κ υ : Type} [DecidableEq κ]

/-- An empty list; a bound of zero is taken as one. -/
def new (capacity : Nat) : RecencyList κ υ := ⟨max capacity 1, []⟩

def size (l : RecencyList κ υ) : Nat := l.pairs.length

def keys (l : RecencyList κ υ) : List κ := l.pairs.map (·.1)

def peek? (l : RecencyList κ υ) (k : κ) : Option υ :=
  (l.pairs.find? (fun p => p.1 = k)).map (·.2)

def contains (l : RecencyList κ υ) (k : κ) : Bool := (l.peek? k).isSome

/-- The pairs with `k` moved to the front and carrying `v`. -/
def promote (l : RecencyList κ υ) (k : κ) (v : υ) : List (κ × υ) :=
  (k, v) :: l.pairs.filter (fun p => p.1 ≠ k)

def get? (l : RecencyList κ υ) (k : κ) : Option υ × RecencyList κ υ :=
  match l.peek? k with
  | some v => (some v, { l with pairs := l.promote k v })
  | none => (none, l)

/-- Writes a pair; the result names the pair that was dropped, if any. -/
def set (l : RecencyList κ υ) (k : κ) (v : υ) : Option (κ × υ) × RecencyList κ υ :=
  if l.contains k then (none, { l with pairs := l.promote k v })
  else if l.pairs.length < l.bound then (none, { l with pairs := (k, v) :: l.pairs })
  else (l.pairs.getLast?, { l with pairs := (k, v) :: l.pairs.dropLast })

def clear (l : RecencyList κ υ) : RecencyList κ υ := { l with pairs := [] }

end RecencyList

end ScriptInference
