import ScriptInference.Collection.ContentSet
import ScriptInference.Collection.SortedMap

/-!
# Views of the collections

A sorted map is seen through its lookups and a content set through its hashes. The keys of a sorted
map are distinct, so that a binding is listed exactly if a lookup finds it.
-/

namespace ScriptInference

namespace SortedMap
variable {κ υ ω : Type} [LT κ]

theorem values_mapValues (f : υ → ω) (m : SortedMap κ υ) :
    (m.mapValues f).values = m.values.map f := by
  simp [mapValues, values]

theorem nodup_keys [StrictOrder κ] (m : SortedMap κ υ) : m.keys.Nodup := by
  refine List.pairwise_map.2 (m.sorted.imp fun {a b} lt same => ?_)
  exact StrictOrder.irrefl b.1 (same ▸ lt)

theorem eq_of_entries {m n : SortedMap κ υ} (same : m.entries = n.entries) : m = n := by
  cases m
  cases n
  simpa only [mk.injEq] using same

variable [DecidableEq κ]

theorem get?_mapValues (f : υ → ω) (m : SortedMap κ υ) (k : κ) :
    (m.mapValues f).get? k = (m.get? k).map f := by
  simp [get?, mapValues, List.find?_map, Function.comp_def]

theorem get?_eq_some_iff [StrictOrder κ] {m : SortedMap κ υ} {k : κ} {v : υ} :
    m.get? k = some v ↔ (k, v) ∈ m.toList := by
  obtain ⟨entries, sorted⟩ := m
  unfold get? toList
  induction entries with
  | nil => simp
  | cons e rest ih =>
    obtain ⟨before, tail⟩ := List.pairwise_cons.1 sorted
    by_cases h : e.1 = k
    · have absent : (k, v) ∉ rest := by
        intro hr
        exact StrictOrder.irrefl k (h ▸ before (k, v) hr)
      subst h
      simp [absent, Prod.ext_iff, eq_comm]
    · have other : (k, v) ≠ e := fun he => h (congrArg Prod.fst he).symm
      simpa [h, other] using ih tail

theorem mem_values_iff [StrictOrder κ] {m : SortedMap κ υ} {v : υ} :
    v ∈ m.values ↔ ∃ k, m.get? k = some v := by
  simp [values, get?_eq_some_iff, toList]

theorem mem_values_insert [DecidableLT κ] [StrictOrder κ] {m : SortedMap κ υ} {k : κ} {v w : υ}
    (h : w ∈ (m.insert k v).values) : w = v ∨ w ∈ m.values := by
  obtain ⟨e, he, rfl⟩ := List.mem_map.1 h
  rcases mem_insertEntry he with rfl | he
  · exact .inl rfl
  · exact .inr (List.mem_map_of_mem he)

/-- Besides the new value, an insertion changes the values by the one that it replaces. -/
theorem values_insert_perm [DecidableLT κ] [StrictOrder κ] (m : SortedMap κ υ) (k : κ) (v : υ) :
    ((m.insert k v).values ++ (m.get? k).toList).Perm (v :: m.values) := by
  obtain ⟨entries, sorted⟩ := m
  unfold insert values get?
  dsimp only
  induction entries with
  | nil => simp [insertEntry]
  | cons e rest ih =>
    obtain ⟨before, tail⟩ := List.pairwise_cons.1 sorted
    unfold insertEntry
    by_cases smaller : k < e.1
    · have absent : (e :: rest).find? (fun x => x.1 = k) = none := by
        rw [List.find?_eq_none]
        intro x hx same
        rw [decide_eq_true_eq] at same
        subst same
        rcases List.mem_cons.1 hx with rfl | hx
        · exact StrictOrder.irrefl _ smaller
        · exact StrictOrder.irrefl _ (StrictOrder.trans smaller (before x hx))
      simp [smaller, absent]
    · by_cases same : k = e.1
      · subst same
        simp only [smaller, if_false, if_true, List.map_cons, decide_true, List.find?_cons_of_pos,
          Option.map_some, Option.toList_some, List.cons_append, List.perm_cons]
        exact List.perm_append_singleton _ _
      · have other : e.1 ≠ k := Ne.symm same
        simp only [smaller, same, if_false, List.map_cons, List.cons_append]
        rw [List.find?_cons_of_neg (by simpa using other)]
        exact ((ih tail).cons e.2).trans (.swap _ _ _)

section Order
variable [DecidableLT κ] [StrictOrder κ]

theorem insertEntry_last {k : κ} {v : υ} {l : List (κ × υ)} (last : ∀ e ∈ l, e.1 < k) :
    insertEntry k v l = l ++ [(k, v)] := by
  induction l with
  | nil => rfl
  | cons e rest ih =>
    have before := last e List.mem_cons_self
    have other : k ≠ e.1 := fun same => StrictOrder.irrefl k (same ▸ before)
    have behind : ¬ k < e.1 := fun lt => StrictOrder.irrefl k (StrictOrder.trans lt before)
    rw [insertEntry, if_neg behind, if_neg other, ih fun d hd => last d (List.mem_cons_of_mem _ hd)]
    rfl

/-- Entries that are in order make the map that has them. -/
theorem ofList_toList (m : SortedMap κ υ) : ofList m.toList = m := by
  have appended : ∀ (rest : List (κ × υ)) (front : SortedMap κ υ),
      (front.entries ++ rest).Pairwise (fun a b => a.1 < b.1) →
      (rest.foldl (fun m e => m.insert e.1 e.2) front).entries = front.entries ++ rest := by
    intro rest
    induction rest with
    | nil => exact fun front _ => (List.append_nil _).symm
    | cons e rest ih =>
      intro front sorted
      have last : ∀ d ∈ front.entries, d.1 < e.1 := fun d hd =>
        (List.pairwise_append.1 sorted).2.2 d hd e List.mem_cons_self
      have inserted : (front.insert e.1 e.2).entries = front.entries ++ [e] := insertEntry_last last
      have split : front.entries ++ e :: rest = (front.insert e.1 e.2).entries ++ rest := by
        rw [inserted, List.append_assoc, List.singleton_append]
      rw [split] at sorted ⊢
      exact ih (front.insert e.1 e.2) sorted
  obtain ⟨entries, sorted⟩ := m
  exact eq_of_entries (appended entries ∅ sorted)

theorem ofList_map_toList (φ : υ → ω) (m : SortedMap κ υ) :
    ofList (m.toList.map fun e => (e.1, φ e.2)) = m.mapValues φ :=
  ofList_toList (m.mapValues φ)

end Order

end SortedMap

namespace ContentSet
variable {α : Type} [ContentHash α]

theorem mem_hashes_insertMany {s : ContentSet α} {l : List α} {x : UInt32} :
    x ∈ (s.insertMany l).hashes ↔ x ∈ s.hashes ∨ x ∈ l.map contentHash := by
  induction l generalizing s with
  | nil => simp [insertMany]
  | cons a rest ih =>
    have step : s.insertMany (a :: rest) = (s.insert a).insertMany rest := rfl
    have added : x ∈ (s.insert a).hashes ↔ x ∈ s.hashes ∨ x = contentHash a := by
      rw [hashes_insert]
      split
      · rename_i ha
        exact ⟨.inl, fun h => h.elim id fun h => h ▸ ha⟩
      · simp
    rw [step, ih, added, List.map_cons, List.mem_cons, or_assoc]

theorem map_contentHash_toList (s : ContentSet α) : s.toList.map contentHash = s.hashes := by
  rw [toList, hashes, List.map_map]
  exact List.map_congr_left fun e he => (s.hash_eq e he).symm

@[simp] theorem mem_hashes_union {s t : ContentSet α} {x : UInt32} :
    x ∈ (s.union t).hashes ↔ x ∈ s.hashes ∨ x ∈ t.hashes := by
  rw [union, mem_hashes_insertMany, map_contentHash_toList]

end ContentSet

end ScriptInference
