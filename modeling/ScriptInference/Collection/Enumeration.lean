import Std.Data.TreeMap

/-!
# Enumerations

An `Enumeration` lists values without repetition in the order in which they were added, and knows
the rank of each: its place in that order, counted from zero. Adding a value that is already listed
changes nothing. That the two components tell the same story is part of the type.
-/

namespace ScriptInference

structure Enumeration (α : Type) [Ord α] where
  ranks : Std.TreeMap α Nat := ∅
  items : Array α := #[]
  ranks_iff : ∀ (a : α) (i : Nat), ranks[a]? = some i ↔ items[i]? = some a := by simp

namespace Enumeration

section
variable {α : Type} [Ord α]

def size (e : Enumeration α) : Nat := e.items.size

def toList (e : Enumeration α) : List α := e.items.toList

def rank? (e : Enumeration α) (a : α) : Option Nat := e.ranks[a]?

theorem rank?_eq_some_iff (e : Enumeration α) (a : α) (i : Nat) :
    e.rank? a = some i ↔ e.toList[i]? = some a := by
  rw [rank?, e.ranks_iff, toList, Array.getElem?_toList]

theorem rank?_eq_none_iff (e : Enumeration α) (a : α) : e.rank? a = none ↔ a ∉ e.toList := by
  rw [Option.eq_none_iff_forall_not_mem, List.mem_iff_getElem?, not_exists]
  exact forall_congr' fun i => not_congr (e.rank?_eq_some_iff a i)

theorem nodup (e : Enumeration α) : e.toList.Nodup := by
  rw [List.Nodup, List.pairwise_iff_getElem]
  intro i j hi hj hij heq
  have rank_i := (e.rank?_eq_some_iff _ i).2 (List.getElem?_eq_getElem hi)
  have rank_j := (e.rank?_eq_some_iff _ j).2 (List.getElem?_eq_getElem hj)
  rw [heq, rank_j, Option.some.injEq] at rank_i
  omega

end

variable {α : Type} [Ord α] [Std.TransOrd α] [Std.LawfulEqOrd α]

def empty : Enumeration α := {}

/-- Appends a value that is not yet listed. -/
def add (e : Enumeration α) (a : α) : Enumeration α :=
  if h : e.ranks[a]? = none then
    { ranks := e.ranks.insert a e.items.size
      items := e.items.push a
      ranks_iff := by
        intro b i
        have eq_iff : compare a b = .eq ↔ a = b := Std.compare_eq_iff_eq
        rw [Std.TreeMap.getElem?_insert, Array.getElem?_push]
        by_cases hab : a = b
        · subst hab
          rw [if_pos (eq_iff.2 rfl)]
          by_cases hi : i = e.items.size
          · simp [hi]
          · rw [if_neg hi, ← e.ranks_iff, h]
            simp [Ne.symm hi]
        · rw [if_neg (mt eq_iff.1 hab), e.ranks_iff]
          by_cases hi : i = e.items.size
          · simp [hi, hab]
          · rw [if_neg hi] }
  else e

@[simp] theorem toList_add [DecidableEq α] (e : Enumeration α) (a : α) :
    (e.add a).toList = if a ∈ e.toList then e.toList else e.toList ++ [a] := by
  have none_iff := e.rank?_eq_none_iff a
  unfold add
  split
  · rw [if_neg (none_iff.1 ‹_›)]
    simp [toList]
  · rw [if_pos (Decidable.not_not.1 fun hm => ‹¬ e.ranks[a]? = none› (none_iff.2 hm))]

def addAll (e : Enumeration α) (l : List α) : Enumeration α := l.foldl add e

end Enumeration

end ScriptInference
