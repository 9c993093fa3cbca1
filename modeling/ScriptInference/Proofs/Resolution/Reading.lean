import ScriptInference.Proofs.Resolution.Safety
import ScriptInference.Scope.Basic

/-!
# What reading can find

What is found under a name or an index is a member of a node on the chain of lookups. A reserved
name stands for an entity of the scope, and any other name that a scope knows is found in one.
-/

namespace ScriptInference

namespace Store
variable {s : Store}

theorem Closed.findName? (closed : s.Closed) {h m : Handle} {name : String}
    (hm : s.findName? h name = some m) : m ∈ s := by
  obtain ⟨n, -, member⟩ := List.exists_of_findSome?_eq_some hm
  exact closed.member? member

theorem mem_values_of_mem_indexMatches {e : Entity} {types : SortedSet String} {m : Handle}
    (hm : m ∈ e.indexMatches types) : m ∈ e.members.values := by
  unfold Entity.indexMatches at hm
  split at hm
  · obtain ⟨entry, hentry, tagged⟩ := List.mem_filterMap.1 hm
    obtain ⟨tag, -, rfl⟩ := Option.map_eq_some_iff.1 tagged
    exact List.mem_map_of_mem hentry
  · obtain ⟨tag, -, member⟩ := List.mem_filterMap.1 hm
    exact SortedMap.mem_values_iff.2 ⟨.type tag, member⟩

theorem exists_mem_indexMatches_of_mem_findIndexed {h m : Handle} {types : SortedSet String}
    (hm : m ∈ s.findIndexed h types) :
    ∃ n ∈ s.lookupChain h, m ∈ (s.node n).indexMatches types := by
  unfold Store.findIndexed at hm
  cases found : ((s.lookupChain h).map fun n => ((s.node n).indexMatches types).eraseDups).find?
      (!·.isEmpty) with
  | none =>
    rw [found] at hm
    cases hm
  | some selected =>
    rw [found, Option.getD_some] at hm
    obtain ⟨n, hn, rfl⟩ := List.mem_map.1 (List.mem_of_find?_eq_some found)
    exact ⟨n, hn, List.mem_eraseDups.1 hm⟩

theorem exists_of_mem_findIndexed {h m : Handle} {types : SortedSet String}
    (hm : m ∈ s.findIndexed h types) : ∃ n ∈ s.lookupChain h, m ∈ (s.node n).members.values := by
  obtain ⟨n, hn, selected⟩ := exists_mem_indexMatches_of_mem_findIndexed hm
  exact ⟨n, hn, mem_values_of_mem_indexMatches selected⟩

end Store

namespace Scope
variable {c : Scope}

theorem mem_holds_of_frame {f : Frame} (hf : f ∈ c.frames) {h : Handle}
    (hh : h ∈ f.locals :: f.context.toList) : h ∈ c.holds :=
  List.mem_cons_of_mem _ (List.mem_flatMap.2 ⟨f, hf, hh⟩)

theorem locals_mem_holds : c.locals ∈ c.holds :=
  mem_holds_of_frame (f := c.frame) List.mem_cons_self List.mem_cons_self

theorem outer_mem_holds : c.outer ∈ c.holds := by
  unfold outer
  split
  · exact List.mem_cons_self
  · rename_i f rest enclosing
    have listed : f ∈ c.frames := List.mem_cons_of_mem _ (enclosing ▸ List.mem_cons_self)
    exact mem_holds_of_frame listed List.mem_cons_self

/-- A reserved name stands for an entity of the scope. -/
theorem mem_holds_of_pseudo? {name : String} {h : Handle}
    (stored : c.pseudo? name = some (.stored h)) : h ∈ c.holds := by
  unfold pseudo? at stored
  split at stored
  · cases stored
    exact locals_mem_holds
  split at stored
  · cases stored
    exact outer_mem_holds
  split at stored
  · cases stored
    exact List.mem_cons_self
  split at stored
  · split at stored
    · rename_i context hcontext
      cases stored
      have listed : h ∈ c.frame.context.toList := Option.mem_toList.2 hcontext
      exact mem_holds_of_frame List.mem_cons_self (List.mem_cons_of_mem _ listed)
    · cases stored
  · cases stored

/-- The bindings of a scope are stored in entities of the scope. -/
theorem exists_mem_holds_of_find? {s : Store} {name : String} {h : Handle}
    (found : c.find? s name = some h) :
    ∃ n ∈ c.holds, s.findName? n name = some h := by
  obtain ⟨n, hn, named⟩ := List.exists_of_findSome?_eq_some found
  refine ⟨n, ?_, named⟩
  rcases List.mem_append.1 hn with hn | hn
  · obtain ⟨f, hf, rfl⟩ := List.mem_map.1 hn
    exact mem_holds_of_frame hf List.mem_cons_self
  · exact List.mem_singleton.1 hn ▸ List.mem_cons_self

end Scope

/-- The scope lies in the store. -/
def Scope.Fits (c : Scope) (s : Store) : Prop := ∀ h ∈ c.holds, h ∈ s

namespace Scope
variable {c : Scope} {s t : Store}

theorem Fits.mono (fits : c.Fits s) {base : Nat} (keeps : s.Keeps base t) : c.Fits t :=
  fun h hh => keeps.mem (fits h hh)

theorem Fits.locals (fits : c.Fits s) : c.locals ∈ s := fits c.locals locals_mem_holds

end Scope

end ScriptInference
