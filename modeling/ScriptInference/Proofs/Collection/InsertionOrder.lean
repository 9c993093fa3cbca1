import Mathlib.Data.List.Induction
import Mathlib.Data.List.Nodup
import ScriptInference.Proofs.Collection.Views

/-!
# Content sets in order of insertion

The history of a content set is the list of the items that were added and deleted, one at a time.
Three things about a hash can be told from it: whether it is present, when it entered, which is the
first time that it was added since it was last absent, and which item was added last. The set lists
its items in the order in which their hashes entered, and of each hash the item that was added last.

Union lists the hashes of the first set and then those that only the second one has, and for each
hash the item of the second set if it has one. So it is associative and idempotent, and the empty
set is its unit.
-/

namespace ScriptInference

/-- Some event was of the first kind, given those before it, and all later ones were of the
second. -/
def Since {ε : Type} (begins : List ε → ε → Prop) (lasts : ε → Prop) (events : List ε) : Prop :=
  ∃ before e after, events = before ++ e :: after ∧ begins before e ∧ ∀ x ∈ after, lasts x

section Since
variable {ε : Type} {begins : List ε → ε → Prop} {lasts : ε → Prop}

@[simp] theorem not_since_nil : ¬ Since begins lasts [] := by
  rintro ⟨before, e, after, split, -⟩
  cases before <;> cases split

@[simp] theorem since_concat {events : List ε} {e : ε} :
    Since begins lasts (events ++ [e]) ↔ begins events e ∨ Since begins lasts events ∧ lasts e := by
  constructor
  · rintro ⟨before, x, after, split, begun, lasted⟩
    rcases List.eq_nil_or_concat' after with rfl | ⟨after, last, rfl⟩
    · obtain ⟨rfl, rfl⟩ := List.append_singleton_inj.1 split
      exact .inl begun
    · rw [← List.cons_append, ← List.append_assoc] at split
      obtain ⟨rfl, rfl⟩ := List.append_singleton_inj.1 split
      exact .inr ⟨⟨before, x, after, rfl, begun,
        fun y hy => lasted y (by simp [hy])⟩, lasted e (by simp)⟩
  · rintro (begun | ⟨⟨before, x, after, rfl, begun, lasted⟩, last⟩)
    · exact ⟨events, e, [], rfl, begun, by simp⟩
    · refine ⟨before, x, after ++ [e], by simp, begun, fun y hy => ?_⟩
      rcases List.mem_append.1 hy with hy | hy
      · exact lasted y hy
      · exact List.mem_singleton.1 hy ▸ last

end Since

/-- Of a list in strict order, the head is the member that all others come after. -/
theorem head?_eq_some_iff_of_pairwise {β : Type} {R : β → β → Prop} {l : List β} {a : β}
    (asymm : ∀ x y, R x y → ¬ R y x) (ordered : l.Pairwise R) :
    l.head? = some a ↔ a ∈ l ∧ ∀ b ∈ l, b = a ∨ R a b := by
  cases l with
  | nil => simp
  | cons first rest =>
    obtain ⟨before, -⟩ := List.pairwise_cons.1 ordered
    constructor
    · intro head
      obtain rfl : first = a := by simpa using head
      refine ⟨List.mem_cons_self, fun b hb => ?_⟩
      exact (List.mem_cons.1 hb).imp id (before b)
    · rintro ⟨listed, least⟩
      rcases List.mem_cons.1 listed with rfl | later
      · rfl
      · rcases least first List.mem_cons_self with rfl | above
        · rfl
        · exact absurd above (asymm _ _ (before a later))

theorem mem_upsert_iff {α : Type} {h : UInt32} {item : α} {l : List (UInt32 × α)} {e : UInt32 × α}
    (nodup : (l.map (·.1)).Nodup) : e ∈ upsert h item l ↔ e = (h, item) ∨ e ∈ l ∧ e.1 ≠ h := by
  induction l with
  | nil => simp [upsert]
  | cons first rest ih =>
    obtain ⟨apart, nodup⟩ := List.nodup_cons.1 nodup
    unfold upsert
    by_cases hit : first.1 = h
    · subst hit
      have others : ∀ x ∈ rest, x.1 ≠ first.1 := by
        intro x hx same
        exact apart (List.mem_map.2 ⟨x, hx, same⟩)
      rw [if_pos rfl]
      grind
    · rw [if_neg hit]
      grind

namespace ContentSet
variable {α : Type} [ContentHash α] {s t u : ContentSet α} {a b : α} {h g : UInt32} {i j : Nat}

@[simp] theorem hashes_empty : (empty : ContentSet α).hashes = [] := rfl

@[simp] theorem toList_empty : (empty : ContentSet α).toList = [] := rfl

theorem mem_hashes_iff : h ∈ s.hashes ↔ ∃ a ∈ s.toList, contentHash a = h := by
  rw [← map_contentHash_toList, List.mem_map]

theorem nodup_hashes_toList (s : ContentSet α) : (s.toList.map contentHash).Nodup := by
  rw [map_contentHash_toList]
  exact s.nodup

theorem eq_of_contentHash_eq (ha : a ∈ s.toList) (hb : b ∈ s.toList)
    (same : contentHash a = contentHash b) : a = b :=
  List.inj_on_of_nodup_map s.nodup_hashes_toList ha hb same

theorem contains_iff : s.contains a = true ↔ contentHash a ∈ s.hashes := by
  simp [contains]

theorem mem_toList_iff : a ∈ s.toList ↔ (contentHash a, a) ∈ s.entries := by
  constructor
  · intro listed
    obtain ⟨e, he, rfl⟩ := List.mem_map.1 listed
    exact s.hash_eq e he ▸ he
  · exact fun he => List.mem_map_of_mem he

theorem mem_toList_insert :
    a ∈ (s.insert b).toList ↔ a = b ∨ a ∈ s.toList ∧ contentHash a ≠ contentHash b := by
  rw [mem_toList_iff, mem_toList_iff, insert, mem_upsert_iff s.nodup]
  grind

theorem mem_toList_erase :
    a ∈ (s.erase b).toList ↔ a ∈ s.toList ∧ contentHash a ≠ contentHash b := by
  rw [mem_toList_iff, mem_toList_iff, erase, List.mem_filter, decide_eq_true_iff]

theorem hashes_erase : (s.erase b).hashes = s.hashes.filter (fun h => h ≠ contentHash b) := by
  rw [hashes, erase, hashes, List.filter_map]
  rfl

/-! ## Histories -/

/-- A change by one item. -/
inductive Edit (α : Type) where
  | add (a : α)
  | delete (a : α)
  | clear
  deriving DecidableEq, Repr

namespace Edit

def Adds (e : Edit α) (h : UInt32) : Prop := ∃ a, e = .add a ∧ contentHash a = h

def Removes (e : Edit α) (h : UInt32) : Prop := e = .clear ∨ ∃ a, e = .delete a ∧ contentHash a = h

def apply (s : ContentSet α) : Edit α → ContentSet α
  | .add a => (s.add a).2
  | .delete a => (s.delete a).2
  | .clear => s.clear

end Edit

/-- A request to change a set. -/
inductive Request (α : Type) [ContentHash α] where
  | add (a : α)
  | delete (a : α)
  | union (t : ContentSet α)
  | extend (l : List α)
  | clear

namespace Request

def serve (s : ContentSet α) : Request α → ContentSet α
  | .add a => (s.add a).2
  | .delete a => (s.delete a).2
  | .union t => s.union t
  | .extend l => s.insertMany l
  | .clear => s.clear

/-- A request, one item at a time. -/
def edits : Request α → List (Edit α)
  | .add a => [.add a]
  | .delete a => [.delete a]
  | .union t => t.toList.map .add
  | .extend l => l.map .add
  | .clear => [.clear]

end Request

/-- The set that a new set becomes by requests. -/
def history (requests : List (Request α)) : ContentSet α := requests.foldl Request.serve empty

/-- The hash was added, and not removed after that. -/
def Present (edits : List (Edit α)) (h : UInt32) : Prop :=
  Since (fun _ e => e.Adds h) (fun e => ¬ e.Removes h) edits

/-- The edit number `i` was the first to add the hash since it was last absent. -/
def Entered (edits : List (Edit α)) (h : UInt32) (i : Nat) : Prop :=
  Since (fun before e => before.length = i ∧ e.Adds h ∧ ¬ Present before h)
    (fun e => ¬ e.Removes h) edits

/-- The item was the last to be added under its hash, which was not removed after that. -/
def Latest (edits : List (Edit α)) (a : α) : Prop :=
  Since (fun _ e => e = .add a) (fun e => ¬ e.Adds (contentHash a) ∧
    ¬ e.Removes (contentHash a)) edits

/-- Both hashes are present, and the first one entered earlier. -/
def Precedes (edits : List (Edit α)) (g h : UInt32) : Prop :=
  ∃ i j, Entered edits g i ∧ Entered edits h j ∧ i < j

/-- A set is what its edits make it: it lists one item for each hash that is present, the latest
one, in the order in which the hashes entered, and it answers accordingly. -/
structure Reflects (s : ContentSet α) (edits : List (Edit α)) : Prop where
  once : (s.toList.map contentHash).Nodup
  listed : ∀ a, a ∈ s.toList ↔ Latest edits a
  hashed : ∀ h, h ∈ s.toList.map contentHash ↔ Present edits h
  ordered : s.toList.Pairwise fun a b => Precedes edits (contentHash a) (contentHash b)
  first : ∀ a, s.first? = some a ↔
    Latest edits a ∧ ∀ h, Present edits h → h = contentHash a ∨ Precedes edits (contentHash a) h
  last : ∀ a, s.last? = some a ↔
    Latest edits a ∧ ∀ h, Present edits h → h = contentHash a ∨ Precedes edits h (contentHash a)
  has : ∀ a, s.contains a = true ↔ Present edits (contentHash a)
  add : ∀ a, (s.add a).1 = true ↔ ¬ Present edits (contentHash a)
  delete : ∀ a, (s.delete a).1 = true ↔ Present edits (contentHash a)

section Edits
variable {edits : List (Edit α)} {e : Edit α}

theorem present_of_entered (entered : Entered edits h i) : Present edits h := by
  obtain ⟨before, e, after, split, ⟨-, adds, -⟩, lasted⟩ := entered
  exact ⟨before, e, after, split, adds, lasted⟩

theorem lt_length_of_entered (entered : Entered edits h i) : i < edits.length := by
  obtain ⟨before, e, after, rfl, ⟨rfl, -, -⟩, -⟩ := entered
  simp

theorem entered_concat :
    Entered (edits ++ [e]) h i ↔
      (edits.length = i ∧ e.Adds h ∧ ¬ Present edits h) ∨ Entered edits h i ∧ ¬ e.Removes h :=
  since_concat

theorem present_concat : Present (edits ++ [e]) h ↔ e.Adds h ∨ Present edits h ∧ ¬ e.Removes h :=
  since_concat

theorem exists_entered (present : Present edits h) : ∃ i, Entered edits h i := by
  induction edits using List.reverseRecOn with
  | nil => exact absurd present not_since_nil
  | append_singleton edits e ih =>
    simp only [entered_concat]
    by_cases before : Present edits h
    · obtain ⟨i, entered⟩ := ih before
      rcases present_concat.1 present with ⟨a, rfl, -⟩ | ⟨-, kept⟩
      · exact ⟨i, .inr ⟨entered, by simp [Edit.Removes]⟩⟩
      · exact ⟨i, .inr ⟨entered, kept⟩⟩
    · rcases present_concat.1 present with adds | ⟨present, -⟩
      · exact ⟨edits.length, .inl ⟨rfl, adds, before⟩⟩
      · exact absurd present before

/-- A hash entered once. -/
theorem entered_unique (first : Entered edits h i) (second : Entered edits h j) : i = j := by
  induction edits using List.reverseRecOn with
  | nil => exact absurd first not_since_nil
  | append_singleton edits e ih =>
    rcases entered_concat.1 first with ⟨rfl, -, absent⟩ | ⟨first, -⟩
    · rcases entered_concat.1 second with ⟨rfl, -, -⟩ | ⟨second, -⟩
      · rfl
      · exact absurd (present_of_entered second) absent
    · rcases entered_concat.1 second with ⟨rfl, -, absent⟩ | ⟨second, -⟩
      · exact absurd (present_of_entered first) absent
      · exact ih first second

theorem precedes_asymm (before : Precedes edits g h) : ¬ Precedes edits h g := by
  rintro ⟨j', i', hj', gi', back⟩
  obtain ⟨i, j, gi, hj, forth⟩ := before
  obtain rfl := entered_unique gi gi'
  obtain rfl := entered_unique hj hj'
  exact absurd forth (Nat.lt_asymm back)

/-! ## What one edit does -/

theorem mem_hashes_apply :
    h ∈ (Edit.apply s e).hashes ↔ e.Adds h ∨ h ∈ s.hashes ∧ ¬ e.Removes h := by
  cases e with
  | add a =>
    change h ∈ (s.insert a).hashes ↔ _
    rw [hashes_insert]
    grind [Edit.Adds, Edit.Removes]
  | delete a =>
    change h ∈ (s.erase a).hashes ↔ _
    rw [hashes_erase]
    grind [Edit.Adds, Edit.Removes]
  | clear => simp [Edit.apply, clear, Edit.Adds, Edit.Removes]

theorem mem_toList_apply :
    a ∈ (Edit.apply s e).toList ↔
      e = .add a ∨ a ∈ s.toList ∧ ¬ e.Adds (contentHash a) ∧ ¬ e.Removes (contentHash a) := by
  cases e with
  | add b =>
    change a ∈ (s.insert b).toList ↔ _
    rw [mem_toList_insert]
    grind [Edit.Adds, Edit.Removes]
  | delete b =>
    change a ∈ (s.erase b).toList ↔ _
    rw [mem_toList_erase]
    grind [Edit.Adds, Edit.Removes]
  | clear => simp [Edit.apply, clear, Edit.Adds, Edit.Removes]

theorem precedes_concat (before : Precedes edits g h) (hg : ¬ e.Removes g) (hh : ¬ e.Removes h) :
    Precedes (edits ++ [e]) g h := by
  obtain ⟨i, j, gi, hj, lt⟩ := before
  exact ⟨i, j, entered_concat.2 (.inr ⟨gi, hg⟩), entered_concat.2 (.inr ⟨hj, hh⟩), lt⟩

/-- A hash that is added anew comes after all that are present. -/
theorem precedes_new (present : Present edits g) (absent : ¬ Present edits (contentHash a)) :
    Precedes (edits ++ [.add a]) g (contentHash a) := by
  obtain ⟨i, entered⟩ := exists_entered present
  refine ⟨i, edits.length, entered_concat.2 (.inr ⟨entered, by simp [Edit.Removes]⟩),
    entered_concat.2 (.inl ⟨rfl, ⟨a, rfl, rfl⟩, absent⟩), lt_length_of_entered entered⟩

theorem pairwise_hashes_apply (present : ∀ h, h ∈ s.hashes ↔ Present edits h)
    (ordered : s.hashes.Pairwise (Precedes edits)) :
    (Edit.apply s e).hashes.Pairwise (Precedes (edits ++ [e])) := by
  cases e with
  | add a =>
    have kept : s.hashes.Pairwise (Precedes (edits ++ [.add a])) :=
      ordered.imp fun before =>
        precedes_concat before (by simp [Edit.Removes]) (by simp [Edit.Removes])
    change (s.insert a).hashes.Pairwise _
    rw [hashes_insert]
    split
    · exact kept
    · rename_i absent
      rw [present] at absent
      refine List.pairwise_append.2 ⟨kept, List.pairwise_singleton _ _, fun g hg h hh => ?_⟩
      obtain rfl := List.mem_singleton.1 hh
      exact precedes_new ((present g).1 hg) absent
  | delete a =>
    change (s.erase a).hashes.Pairwise _
    rw [hashes_erase]
    refine (ordered.sublist List.filter_sublist).imp_of_mem fun hg hh before => ?_
    exact precedes_concat before (by grind [Edit.Removes]) (by grind [Edit.Removes])
  | clear => exact List.Pairwise.nil

/-! ## What all edits do -/

/-- The set that a new set becomes by edits. -/
def run (edits : List (Edit α)) : ContentSet α := edits.foldl Edit.apply empty

theorem run_concat : run (edits ++ [e]) = Edit.apply (run edits) e := by
  rw [run, List.foldl_append]
  rfl

theorem mem_hashes_run : h ∈ (run edits).hashes ↔ Present edits h := by
  induction edits using List.reverseRecOn with
  | nil => simp [run, Present]
  | append_singleton edits e ih => rw [run_concat, mem_hashes_apply, present_concat, ih]

theorem mem_toList_run : a ∈ (run edits).toList ↔ Latest edits a := by
  induction edits using List.reverseRecOn with
  | nil => simp [run, Latest]
  | append_singleton edits e ih =>
    rw [run_concat, mem_toList_apply, Latest, since_concat, ih, Latest]

theorem pairwise_hashes_run : (run edits).hashes.Pairwise (Precedes edits) := by
  induction edits using List.reverseRecOn with
  | nil => exact List.Pairwise.nil
  | append_singleton edits e ih =>
    rw [run_concat]
    exact pairwise_hashes_apply (fun h => mem_hashes_run) ih

/-- Of items in a strict order of their hashes, the first is the one that all other hashes come
after. -/
theorem head?_iff_of_pairwise {l : List α} {R : UInt32 → UInt32 → Prop}
    (asymm : ∀ g h, R g h → ¬ R h g) (nodup : (l.map contentHash).Nodup)
    (ordered : (l.map contentHash).Pairwise R) :
    l.head? = some a ↔ a ∈ l ∧ ∀ h ∈ l.map contentHash, h = contentHash a ∨
      R (contentHash a) h := by
  have items :=
    head?_eq_some_iff_of_pairwise (a := a) (fun x y => asymm (contentHash x) (contentHash y))
    (List.pairwise_map.1 ordered)
  rw [items, List.forall_mem_map]
  refine and_congr_right fun ha => forall₂_congr fun b hb => or_congr_left ?_
  exact ⟨fun same => same ▸ rfl, fun same => List.inj_on_of_nodup_map nodup hb ha same⟩

theorem reflects_run (edits : List (Edit α)) : (run edits).Reflects edits := by
  have hashed : ∀ h, h ∈ (run edits).toList.map contentHash ↔ Present edits h := fun h => by
    rw [map_contentHash_toList]
    exact mem_hashes_run
  have nodup := (run edits).nodup_hashes_toList
  have ordered : ((run edits).toList.map contentHash).Pairwise (Precedes edits) := by
    rw [map_contentHash_toList]
    exact pairwise_hashes_run
  have has : ∀ a, (run edits).contains a = true ↔ Present edits (contentHash a) := fun a =>
    contains_iff.trans mem_hashes_run
  refine ⟨nodup, fun a => mem_toList_run, hashed, List.pairwise_map.1 ordered, fun a => ?_,
    fun a => ?_, has, fun a => ?_, has⟩
  · rw [first?, head?_iff_of_pairwise (fun g h => precedes_asymm) nodup ordered, mem_toList_run]
    simp only [hashed]
  · -- the last item is the first one of the reversed list
    have backward := head?_iff_of_pairwise (a := a) (l := (run edits).toList.reverse)
      (R := fun h g => Precedes edits g h) (fun g h => precedes_asymm)
      (by simpa using nodup) (by simpa [List.pairwise_reverse] using ordered)
    rw [last?, ← List.head?_reverse, backward, List.mem_reverse, mem_toList_run]
    simp only [List.map_reverse, List.mem_reverse, hashed]
  · rw [add, Bool.not_eq_true', ← has, Bool.not_eq_true]

end Edits

theorem serve_eq_foldl (s : ContentSet α) (r : Request α) :
    Request.serve s r = r.edits.foldl Edit.apply s := by
  cases r with
  | add a => rfl
  | delete a => rfl
  | clear => rfl
  | union t | extend l =>
    rw [Request.edits, List.foldl_map]
    rfl

theorem history_eq_run (requests : List (Request α)) :
    history requests = run (requests.flatMap Request.edits) := by
  rw [history, run, List.foldl_flatMap]
  congr
  funext s r
  exact serve_eq_foldl s r

/-! ## Union -/

theorem hashes_insertMany (s : ContentSet α) {l : List α} (nodup : (l.map contentHash).Nodup) :
    (s.insertMany l).hashes = s.hashes ++ (l.map contentHash).filter (fun h => h ∉ s.hashes) := by
  induction l generalizing s with
  | nil => simp [insertMany]
  | cons a rest ih =>
    obtain ⟨apart, nodup⟩ := List.nodup_cons.1 nodup
    have step : s.insertMany (a :: rest) = (s.insert a).insertMany rest := rfl
    rw [step, ih _ nodup, hashes_insert]
    by_cases present : contentHash a ∈ s.hashes
    · simp [present]
    · have others : (rest.map contentHash).filter (fun h => h ∉ s.hashes ++ [contentHash a]) =
          (rest.map contentHash).filter (fun h => h ∉ s.hashes) := by
        refine List.filter_congr fun h hh => ?_
        have other : h ≠ contentHash a := fun same => apart (same ▸ hh)
        simp [other]
      rw [if_neg present, others, List.map_cons, List.filter_cons_of_pos (by simpa using present)]
      simp

theorem mem_toList_insertMany {l : List α} (nodup : (l.map contentHash).Nodup) :
    a ∈ (s.insertMany l).toList ↔ a ∈ l ∨ a ∈ s.toList ∧ contentHash a ∉ l.map contentHash := by
  induction l generalizing s with
  | nil => simp [insertMany]
  | cons b rest ih =>
    obtain ⟨apart, nodup⟩ := List.nodup_cons.1 nodup
    have step : s.insertMany (b :: rest) = (s.insert b).insertMany rest := rfl
    rw [step, ih nodup, mem_toList_insert]
    grind

theorem hashes_union (s t : ContentSet α) :
    (s.union t).hashes = s.hashes ++ t.hashes.filter (fun h => h ∉ s.hashes) := by
  rw [union, hashes_insertMany s t.nodup_hashes_toList, map_contentHash_toList]

theorem mem_toList_union :
    a ∈ (s.union t).toList ↔ a ∈ t.toList ∨ a ∈ s.toList ∧ contentHash a ∉ t.hashes := by
  rw [union, mem_toList_insertMany t.nodup_hashes_toList, map_contentHash_toList]

/-- A set is known by the order of its hashes and by its items. -/
theorem toList_eq_of_hashes_eq (order : s.hashes = t.hashes)
    (items : ∀ a, a ∈ s.toList ↔ a ∈ t.toList) : s.toList = t.toList := by
  have hashed : s.toList.map contentHash = t.toList.map contentHash := by
    rw [map_contentHash_toList, map_contentHash_toList, order]
  refine List.ext_getElem (by simpa using congrArg List.length hashed) fun i hi hj => ?_
  have same : contentHash s.toList[i] = contentHash t.toList[i] := by
    have at_i := congrArg (·[i]?) hashed
    simpa [hi, hj] using at_i
  exact eq_of_contentHash_eq ((items _).1 (List.getElem_mem hi)) (List.getElem_mem hj) same

theorem toList_union_assoc (s t u : ContentSet α) :
    ((s.union t).union u).toList = (s.union (t.union u)).toList := by
  refine toList_eq_of_hashes_eq ?_ fun a => ?_
  · simp only [hashes_union, List.filter_append, List.filter_filter, List.append_assoc]
    congr 2
    refine List.filter_congr fun h _ => ?_
    by_cases hs : h ∈ s.hashes <;> by_cases ht : h ∈ t.hashes <;> simp [hs, ht]
  · simp only [mem_toList_union, mem_hashes_union]
    tauto

theorem toList_empty_union (s : ContentSet α) : (empty.union s).toList = s.toList := by
  refine toList_eq_of_hashes_eq ?_ fun a => ?_
  · simp [hashes_union]
  · simp [mem_toList_union]

theorem toList_union_self (s : ContentSet α) : (s.union s).toList = s.toList := by
  refine toList_eq_of_hashes_eq ?_ fun a => ?_
  · simp [hashes_union]
  · rw [mem_toList_union, or_iff_left_iff_imp]
    rintro ⟨listed, absent⟩
    exact absurd (mem_hashes_iff.2 ⟨a, listed, rfl⟩) absent

/-- A content set is a map in order of insertion, whatever items the hash takes for the same: after
any requests it is what their edits, one item at a time, make it. On the lists of items union is
associative and idempotent, and the empty set is its unit on both sides. -/
theorem insertion_ordered_monoid :
    (∀ requests : List (Request α), (history requests).Reflects (requests.flatMap Request.edits)) ∧
    (∀ s t u : ContentSet α, ((s.union t).union u).toList = (s.union (t.union u)).toList) ∧
    (∀ s : ContentSet α, (empty.union s).toList = s.toList ∧ (s.union empty).toList = s.toList ∧
      (s.union s).toList = s.toList) := by
  refine ⟨fun requests => ?_, toList_union_assoc,
    fun s => ⟨toList_empty_union s, rfl, toList_union_self s⟩⟩
  rw [history_eq_run]
  exact reflects_run _

end ContentSet

end ScriptInference
