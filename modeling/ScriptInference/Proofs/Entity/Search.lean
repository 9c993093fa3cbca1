import ScriptInference.Proofs.Entity.Soundness

/-!
# What a deep copy meets

The search of a deep copy meets the nodes that are reachable from its roots through members and
results, each for the first time once, a node before its parts. Two facts give this: what it lists
is reachable, and whatever it has listed when it comes back from a node has its parts listed as
well. For the second one the bound on its depth must never be used up. A node that has parts lies in
the store, and each descent from it lists one more node of the store. So the size of the store is
bound enough, on every store, also on one with dangling handles.
-/

namespace ScriptInference

namespace Enumeration
variable {α : Type} [Ord α] [Std.TransOrd α] [Std.LawfulEqOrd α] [DecidableEq α]

theorem mem_add {e : Enumeration α} {a b : α} : b ∈ (e.add a).toList ↔ b = a ∨ b ∈ e.toList := by
  rw [toList_add]
  split
  · rename_i listed
    exact ⟨.inr, fun h => h.elim (fun same => same ▸ listed) id⟩
  · simp [or_comm]

theorem prefix_add (e : Enumeration α) (a : α) : e.toList <+: (e.add a).toList := by
  rw [toList_add]
  split
  · exact List.prefix_rfl
  · exact List.prefix_append _ _

theorem rank?_add {e : Enumeration α} {a : α} (new : a ∉ e.toList) (b : α) :
    (e.add a).rank? b = if a = b then some e.toList.length else e.rank? b := by
  have unlisted : e.ranks[a]? = none := (e.rank?_eq_none_iff a).2 new
  rw [rank?, add, dif_pos unlisted, Std.TreeMap.getElem?_insert]
  simp only [Std.compare_eq_iff_eq]
  rfl

end Enumeration

namespace Store

/-- The list of what has been met, after the search from one more node. -/
def visitWithin (s : Store) : Nat → Enumeration Handle → Handle → Enumeration Handle
  | 0, known, _ => known
  | bound + 1, known, h =>
    if h ∈ known.toList then known
    else (s.node h).parts.foldl (s.visitWithin bound) (known.add h)

/-- What a deep copy of the roots duplicates, in the order in which it is met. -/
def copied (s : Store) (roots : List Handle) : Enumeration Handle :=
  roots.foldl (s.visitWithin (s.size + 1)) .empty

/-- What the roots reach through members and results. -/
def span (s : Store) (roots : List Handle) : Set Handle :=
  {n | ReachedFrom (fun h => (s.node h).parts) roots n}

section Bound
variable {s : Store} {bound : Nat} {known later : Enumeration Handle} {h : Handle}

/-- The bound on the depth exceeds the number of nodes of the store that have not been met. -/
def Ample (s : Store) (bound : Nat) (known : Enumeration Handle) : Prop :=
  s.size < bound + (known.toList.filter (· ∈ s)).length

theorem ample_empty (more : Nat) : s.Ample (s.size + 1 + more) .empty := by
  rw [Ample]
  omega

theorem length_filter_mem_le (known : Enumeration Handle) :
    (known.toList.filter (· ∈ s)).length ≤ s.size :=
  length_le_size (known.nodup.filter _) fun k hk => by simpa using (List.mem_filter.1 hk).2

theorem not_ample_zero : ¬ s.Ample 0 known := by
  have short := length_filter_mem_le (s := s) known
  rw [Ample]
  omega

theorem Ample.mono (ample : s.Ample bound known) (grown : known.toList <+: later.toList) :
    s.Ample bound later := by
  have longer := (grown.sublist.filter (· ∈ s)).length_le
  rw [Ample] at ample ⊢
  omega

theorem mem_of_mem_parts {m : Handle} (hm : m ∈ (s.node h).parts) : h ∈ s := by
  by_contra outside
  rw [node_of_not_mem outside] at hm
  cases hm

/-- Descending from a node costs one of the bound and gains one node. -/
theorem Ample.descend (ample : s.Ample (bound + 1) known) (new : h ∉ known.toList) {m : Handle}
    (hm : m ∈ (s.node h).parts) : s.Ample bound (known.add h) := by
  have inside : h ∈ s := mem_of_mem_parts hm
  rw [Ample] at ample ⊢
  rw [Enumeration.toList_add, if_neg new, List.filter_append, List.length_append]
  simp only [inside, decide_true, List.filter_cons_of_pos, List.filter_nil, List.length_singleton]
  omega

end Bound

section Search
variable {s : Store} {bound : Nat} {known : Enumeration Handle} {h : Handle}

theorem prefix_foldl {f : Enumeration Handle → Handle → Enumeration Handle}
    (grows : ∀ known h, known.toList <+: (f known h).toList) (l : List Handle)
    (known : Enumeration Handle) : known.toList <+: (l.foldl f known).toList := by
  induction l generalizing known with
  | nil => exact List.prefix_rfl
  | cons h l ih => exact (grows known h).trans (ih (f known h))

theorem prefix_visitWithin (bound : Nat) (known : Enumeration Handle) (h : Handle) :
    known.toList <+: (s.visitWithin bound known h).toList := by
  induction bound generalizing known h with
  | zero => exact List.prefix_rfl
  | succ bound ih =>
    rw [visitWithin]
    split
    · exact List.prefix_rfl
    · exact (known.prefix_add h).trans (prefix_foldl ih _ _)

theorem prefix_visitAll (bound : Nat) (l : List Handle) (known : Enumeration Handle) :
    known.toList <+: (l.foldl (s.visitWithin bound) known).toList :=
  prefix_foldl (prefix_visitWithin bound) l known

theorem mem_visitWithin (ample : s.Ample bound known) :
    h ∈ (s.visitWithin bound known h).toList := by
  cases bound with
  | zero => exact absurd ample not_ample_zero
  | succ bound =>
    rw [visitWithin]
    split
    · assumption
    · exact (prefix_visitAll bound _ _).subset (Enumeration.mem_add.2 (.inl rfl))

theorem mem_visitAll {l : List Handle} (ample : s.Ample bound known) (hl : h ∈ l) :
    h ∈ (l.foldl (s.visitWithin bound) known).toList := by
  induction l generalizing known with
  | nil => cases hl
  | cons k l ih =>
    rw [List.foldl_cons]
    rcases List.mem_cons.1 hl with rfl | later
    · exact (prefix_visitAll bound l _).subset (mem_visitWithin ample)
    · exact ih (ample.mono (prefix_visitWithin bound known k)) later

/-- The parts of what is listed are listed, apart from what was listed before. -/
def PartsListed (s : Store) (known later : Enumeration Handle) : Prop :=
  ∀ n ∈ later.toList, n ∉ known.toList → ∀ m ∈ (s.node n).parts, m ∈ later.toList

theorem PartsListed.trans {known between later : Enumeration Handle}
    (first : s.PartsListed known between) (second : s.PartsListed between later)
    (grown : between.toList <+: later.toList) : s.PartsListed known later := by
  intro n hn new m hm
  by_cases met : n ∈ between.toList
  · exact grown.subset (first n met new m hm)
  · exact second n hn met m hm

theorem partsListed_visitAll
    (each : ∀ {known h}, s.Ample bound known → s.PartsListed known (s.visitWithin bound known h))
    (l : List Handle) (ample : ∀ h ∈ l, s.Ample bound known) :
    s.PartsListed known (l.foldl (s.visitWithin bound) known) := by
  induction l generalizing known with
  | nil => exact fun n hn new => absurd hn new
  | cons k l ih =>
    have first := ample k List.mem_cons_self
    have grown := prefix_visitWithin (s := s) bound known k
    have rest := ih fun _ _ => first.mono grown
    exact (each first).trans rest (prefix_visitAll bound l _)

theorem partsListed_visitWithin (ample : s.Ample bound known) :
    s.PartsListed known (s.visitWithin bound known h) := by
  induction bound generalizing known h with
  | zero => exact absurd ample not_ample_zero
  | succ bound ih =>
    rw [visitWithin]
    split
    · exact fun n hn new => absurd hn new
    · rename_i new
      have descend : ∀ m ∈ (s.node h).parts, s.Ample bound (known.add h) :=
        fun _ => ample.descend new
      intro n hn unknown m hm
      by_cases root : n = h
      · subst root
        exact mem_visitAll (descend m hm) hm
      · have met : n ∉ (known.add h).toList := fun added =>
          (Enumeration.mem_add.1 added).elim root unknown
        exact partsListed_visitAll ih _ descend n hn met m hm

theorem forall_mem_foldl {f : Enumeration Handle → Handle → Enumeration Handle} {p : Handle → Prop}
    (each : ∀ {known h}, (∀ n ∈ known.toList, p n) → p h → ∀ n ∈ (f known h).toList, p n)
    (l : List Handle) (before : ∀ n ∈ known.toList, p n) (start : ∀ h ∈ l, p h) :
    ∀ n ∈ (l.foldl f known).toList, p n := by
  induction l generalizing known with
  | nil => exact before
  | cons k l ih =>
    have first := each before (start k List.mem_cons_self)
    exact ih first fun h hl => start h (List.mem_cons_of_mem _ hl)

/-- What the search lists has every property that passes from a node to its parts. -/
theorem forall_mem_visitWithin {p : Handle → Prop} (passes : ∀ n, p n → ∀ m ∈ (s.node n).parts, p m)
    (before : ∀ n ∈ known.toList, p n) (start : p h) :
    ∀ n ∈ (s.visitWithin bound known h).toList, p n := by
  induction bound generalizing known h with
  | zero => exact before
  | succ bound ih =>
    rw [visitWithin]
    split
    · exact before
    · refine forall_mem_foldl ih _ (fun n hn => ?_) (passes h start)
      rcases Enumeration.mem_add.1 hn with rfl | old
      · exact start
      · exact before n old

theorem visitAll_add {more : Nat}
    (each : ∀ {known h}, s.Ample bound known →
      s.visitWithin (bound + more) known h = s.visitWithin bound known h)
    (l : List Handle) (ample : ∀ h ∈ l, s.Ample bound known) :
    l.foldl (s.visitWithin (bound + more)) known = l.foldl (s.visitWithin bound) known := by
  induction l generalizing known with
  | nil => rfl
  | cons k l ih =>
    have first := ample k List.mem_cons_self
    rw [List.foldl_cons, List.foldl_cons, each first]
    exact ih fun _ _ => first.mono (prefix_visitWithin bound known k)

/-- The bound makes no difference while it is ample. -/
theorem visitWithin_add (ample : s.Ample bound known) (more : Nat) :
    s.visitWithin (bound + more) known h = s.visitWithin bound known h := by
  induction bound generalizing known h with
  | zero => exact absurd ample not_ample_zero
  | succ bound ih =>
    rw [Nat.succ_add, visitWithin, visitWithin]
    split
    · rfl
    · rename_i new
      exact visitAll_add ih _ fun _ => ample.descend new

end Search

section Domain
variable {s t : Store} {roots : List Handle}

theorem visitWithin_congr (parts : ∀ h, (t.node h).parts = (s.node h).parts) (bound : Nat) :
    t.visitWithin bound = s.visitWithin bound := by
  induction bound with
  | zero => rfl
  | succ bound ih =>
    funext known h
    rw [visitWithin, visitWithin, parts, ih]

theorem copied_congr (size : t.size = s.size) (parts : ∀ h, (t.node h).parts = (s.node h).parts)
    (roots : List Handle) : t.copied roots = s.copied roots := by
  rw [copied, copied, size, visitWithin_congr parts]

theorem mem_copied_iff {n : Handle} : n ∈ (s.copied roots).toList ↔ n ∈ s.span roots := by
  have ample : s.Ample (s.size + 1) .empty := ample_empty 0
  constructor
  · have each : ∀ {known : Enumeration Handle} {h}, (∀ n ∈ known.toList, n ∈ s.span roots) →
        h ∈ s.span roots → ∀ n ∈ (s.visitWithin (s.size + 1) known h).toList, n ∈ s.span roots :=
      forall_mem_visitWithin fun _ hn _ hm => .edge hn hm
    exact forall_mem_foldl each roots (fun _ none => by cases none) (fun _ hr => .root hr) n
  · intro hn
    induction hn with
    | root hr => exact mem_visitAll ample hr
    | edge _ hk ih =>
      have listed := partsListed_visitAll partsListed_visitWithin roots fun _ _ => ample
      exact listed _ ih (fun none => by cases none) _ hk

end Domain

end Store

end ScriptInference
