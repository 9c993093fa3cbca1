import Mathlib.Data.List.Nodup
import Mathlib.Data.List.Perm.Subperm
import ScriptInference.Entity.Discovery

/-!
# Discovery is exact

A discovery lists exactly the nodes that can be reached from its roots, each once, as long as every
reachable node lies in the store. Three facts about the search give this: it lists only reachable
nodes, it keeps the roots, and it ends with a list that is closed under the edges. The last one is
where the bound on the search matters: the list has no repetitions, so it is never longer than the
store.
-/

namespace ScriptInference

variable {h : Handle} {s : Store} {position : Nat}

instance : Membership Handle Store := ⟨fun s h => h.index < s.size⟩

theorem Store.mem_iff : h ∈ s ↔ h.index < s.size := Iff.rfl

/-- The nodes that some path of edges leads to from a root. -/
inductive ReachedFrom (edges : Handle → List Handle) (roots : List Handle) : Handle → Prop
  | root {h : Handle} : h ∈ roots → ReachedFrom edges roots h
  | edge {h k : Handle} : ReachedFrom edges roots h → k ∈ edges h → ReachedFrom edges roots k

namespace Enumeration
variable {α : Type} [Ord α] [Std.TransOrd α] [Std.LawfulEqOrd α] [DecidableEq α]

theorem mem_addAll {e : Enumeration α} {l : List α} {a : α} :
    a ∈ (e.addAll l).toList ↔ a ∈ e.toList ∨ a ∈ l := by
  induction l generalizing e with
  | nil => simp [addAll]
  | cons b rest ih =>
    have step : e.addAll (b :: rest) = (e.add b).addAll rest := rfl
    have added : a ∈ (e.add b).toList ↔ a ∈ e.toList ∨ a = b := by
      rw [toList_add]
      split
      · rename_i hb
        exact ⟨.inl, fun h => h.elim id fun h => h ▸ hb⟩
      · simp
    rw [step, ih, added, List.mem_cons, or_assoc]

/-- What is listed keeps its place. -/
theorem prefix_addAll (e : Enumeration α) (l : List α) : e.toList <+: (e.addAll l).toList := by
  induction l generalizing e with
  | nil => exact List.prefix_rfl
  | cons b rest ih =>
    have added : e.toList <+: (e.add b).toList := by
      rw [toList_add]
      split
      · exact List.prefix_rfl
      · exact List.prefix_append _ _
    exact added.trans (ih (e.add b))

end Enumeration

/-- A list of distinct handles into a store is no longer than the store. -/
theorem Store.length_le_size {l : List Handle} (nodup : l.Nodup) (inside : ∀ h ∈ l, h ∈ s) :
    l.length ≤ s.size := by
  have injective : Function.Injective Handle.index := by
    rintro ⟨i⟩ ⟨j⟩ hij
    exact congrArg Handle.mk hij
  have distinct : (l.map Handle.index).Nodup :=
    List.Nodup.map injective nodup
  have within : l.map Handle.index ⊆ List.range s.size := by
    intro i hi
    obtain ⟨h, hl, rfl⟩ := List.mem_map.1 hi
    exact List.mem_range.2 (inside h hl)
  simpa using (List.subperm_of_subset distinct within).length_le

section
variable {edges : Handle → List Handle} {roots : List Handle}

theorem reachedFrom_of_mem_discoverFrom {bound : Nat} {known : Enumeration Handle}
    (sound : ∀ h ∈ known.toList, ReachedFrom edges roots h)
    (hh : h ∈ (discoverFrom edges bound position known).toList) : ReachedFrom edges roots h := by
  induction bound generalizing position known with
  | zero => exact sound h hh
  | succ bound ih =>
    unfold discoverFrom at hh
    split at hh
    · exact sound h hh
    · rename_i k hk
      refine ih (fun a ha => ?_) hh
      rcases Enumeration.mem_addAll.1 ha with ha | ha
      · exact sound a ha
      · have listed : k ∈ known.toList := Array.mem_toList_iff.2 (Array.mem_of_getElem? hk)
        exact .edge (sound k listed) ha

theorem prefix_discoverFrom (bound position : Nat) (known : Enumeration Handle) :
    known.toList <+: (discoverFrom edges bound position known).toList := by
  induction bound generalizing position known with
  | zero => exact List.prefix_rfl
  | succ bound ih =>
    unfold discoverFrom
    split
    · exact List.prefix_rfl
    · exact (known.prefix_addAll _).trans (ih _ _)

/-- The nodes before `position` have their neighbours in the list. -/
def ExploredTo (edges : Handle → List Handle) (position : Nat) (known : Enumeration Handle) :
    Prop :=
  ∀ i < position, ∀ h, known.toList[i]? = some h → ∀ k ∈ edges h, k ∈ known.toList

theorem ExploredTo.addAll {known : Enumeration Handle} (explored : ExploredTo edges position known)
    (hh : known.toList[position]? = some h) :
    ExploredTo edges (position + 1) (known.addAll (edges h)) := by
  intro i hi a ha k hk
  obtain ⟨rest, hrest⟩ := known.prefix_addAll (edges h)
  have bounded : position < known.toList.length := (List.getElem?_eq_some_iff.1 hh).1
  have earlier : known.toList[i]? = some a := by
    rw [← ha, ← hrest, List.getElem?_append_left (by omega)]
  rw [Enumeration.mem_addAll]
  rcases Nat.lt_succ_iff_lt_or_eq.1 hi with hlt | rfl
  · exact .inl (explored i hlt a earlier k hk)
  · rw [hh, Option.some.injEq] at earlier
    exact .inr (earlier ▸ hk)

theorem closed_of_exploredTo {known : Enumeration Handle}
    (explored : ExploredTo edges position known) (all : known.toList.length ≤ position) {k : Handle}
    (hh : h ∈ known.toList) (hk : k ∈ edges h) : k ∈ known.toList := by
  obtain ⟨i, hi⟩ := List.mem_iff_getElem?.1 hh
  have bounded : i < known.toList.length := (List.getElem?_eq_some_iff.1 hi).1
  exact explored i (by omega) h hi k hk

/-- With enough steps left for the whole store, the search ends closed under the edges. -/
theorem closed_discoverFrom {s : Store} (inside : ∀ h, ReachedFrom edges roots h → h ∈ s)
    {bound position : Nat} {known : Enumeration Handle} (enough : s.size ≤ position + bound)
    (sound : ∀ h ∈ known.toList, ReachedFrom edges roots h)
    (explored : ExploredTo edges position known) {h k : Handle}
    (hh : h ∈ (discoverFrom edges bound position known).toList) (hk : k ∈ edges h) :
    k ∈ (discoverFrom edges bound position known).toList := by
  induction bound generalizing position known with
  | zero =>
    have short := Store.length_le_size known.nodup fun a ha => inside a (sound a ha)
    exact closed_of_exploredTo explored (by omega) hh hk
  | succ bound ih =>
    unfold discoverFrom at hh ⊢
    split at hh
    · rename_i hnone
      have done : known.toList.length ≤ position := by
        simpa [Enumeration.toList] using hnone
      exact closed_of_exploredTo explored done hh hk
    · rename_i a ha
      have listed : known.toList[position]? = some a := by
        rw [Enumeration.toList, Array.getElem?_toList]
        exact ha
      refine ih (by omega) (fun b hb => ?_) (explored.addAll listed) hh
      rcases Enumeration.mem_addAll.1 hb with hb | hb
      · exact sound b hb
      · exact .edge (sound a (List.mem_of_getElem? listed)) hb

/-- A discovery lists the reachable nodes and no others. -/
theorem Store.mem_discover_iff (inside : ∀ h, ReachedFrom edges roots h → h ∈ s) :
    h ∈ (s.discover edges roots).toList ↔ ReachedFrom edges roots h := by
  have listed : ∀ a, a ∈ (Enumeration.empty.addAll roots : Enumeration Handle).toList ↔
      a ∈ roots := by
    intro a
    rw [Enumeration.mem_addAll]
    exact or_iff_right (by simp [Enumeration.empty, Enumeration.toList])
  have sound : ∀ a ∈ (Enumeration.empty.addAll roots : Enumeration Handle).toList,
      ReachedFrom edges roots a := fun a ha => .root ((listed a).1 ha)
  constructor
  · exact reachedFrom_of_mem_discoverFrom sound
  · intro hr
    induction hr with
    | root hroot => exact (prefix_discoverFrom _ _ _).subset ((listed _).2 hroot)
    | edge _ hk ih =>
      exact closed_discoverFrom inside (by omega) sound (fun i hi => by omega) ih hk

end

end ScriptInference
