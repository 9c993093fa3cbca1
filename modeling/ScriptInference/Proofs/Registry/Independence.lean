import ScriptInference.Scope.Basic
import ScriptInference.Proofs.Entity.Isolation

/-!
# How independent copied scopes and merged registries are

A scope is copied as a whole, and a registry takes over the custom types of another one by copying
each of them by itself. In both cases what is left in common is decided by the escapes of what was
copied. For a scope these are the escapes of everything that it holds. For a merge they are the
escapes of each type that was taken over, one at a time: a prototype that is itself a custom type
escapes from the types that inherit from it.

The merge goes through the names in order. A name that is taken stays as it is, and the copy made
for it is given up. The other names stand for copies, and since no later step changes anything that
was there before, what these copies have in common with the old store can be read off when they are
made.
-/

namespace ScriptInference

variable {s t : Store} {h : Handle} {right : TypeRegistry}

namespace Scope

/-- The same chain with every entity replaced. -/
def mapFrames (f : Handle → Handle) (c : Scope) : Scope :=
  let frame := fun (x : Frame) => { locals := f x.locals, context := x.context.map f : Frame }
  { frame := frame c.frame, enclosing := c.enclosing.map frame, globals := f c.globals }

theorem holds_mapFrames (f : Handle → Handle) (c : Scope) :
    (c.mapFrames f).holds = c.holds.map f := by
  simp [holds, frameEntities, frames, mapFrames, List.flatMap_map, List.map_flatMap,
    Option.toList_map]

theorem readBack_flatMap (f : Handle → Handle) (l : List Frame) :
    readBack l ((l.flatMap fun x => x.locals :: x.context.toList).map f) =
      l.map fun x => { locals := f x.locals, context := x.context.map f } := by
  induction l with
  | nil => rfl
  | cons x rest ih =>
    obtain ⟨locals, _ | context⟩ := x <;> simpa [readBack] using ih

/-- What is read back from the copies of all entities is the chain with each replaced by its
copy. -/
theorem copy_eq (c : Scope) (s : Store) :
    c.copy s = (c.mapFrames (s.image (s.copied c.holds)), (s.copyGraph c.holds).2) := by
  have copies := s.copyGraph_fst c.holds
  set φ := s.image (s.copied c.holds)
  have frames : readBack c.frames (c.frameEntities.map φ) =
      (c.mapFrames φ).frame :: (c.mapFrames φ).enclosing := readBack_flatMap φ c.frames
  unfold copy
  generalize s.copyGraph c.holds = made at copies ⊢
  obtain ⟨list, t⟩ := made
  obtain rfl : list = φ c.globals :: c.frameEntities.map φ := copies
  simp only [frames]
  rfl

theorem holds_copy (c : Scope) (s : Store) : (c.copy s).1.holds = (s.copyGraph c.holds).1 := by
  rw [copy_eq, Store.copyGraph_fst]
  exact holds_mapFrames _ c

theorem copy_snd (c : Scope) (s : Store) : (c.copy s).2 = (s.copyGraph c.holds).2 := by
  rw [copy_eq]

end Scope

namespace Store

/-- In `t` the node `c` is a copy of the node `a` of `s`: it is alive, and what it has in common
with `s` is what lies beyond `a`. -/
structure CopyOf (s : Store) (a : Handle) (t : Store) (c : Handle) : Prop where
  alive : t.live c
  shared : ∀ h ∈ s, (h ∈ t.reach [c] ↔ h ∈ s.beyond [a])

section
variable {u : Store} {a c : Handle}

theorem forall_mem_singleton {p : Handle → Prop} (ha : p a) : ∀ r ∈ [a], p r := fun _ hr =>
  List.mem_singleton.1 hr ▸ ha

theorem copyOf_deepCopy (closed : s.Closed) (kept : s.PreservedIn t) (sound : t.Sound)
    (alive : s.live a) : s.CopyOf a (t.deepCopy a {}).2 (t.deepCopy a {}).1 := by
  have stored : a ∈ s := mem_of_live alive
  have living : ∀ r ∈ [a], t.live r := forall_mem_singleton ((kept.live a stored).trans alive)
  have made := (Ledger.start sound True).deepCopy (living a List.mem_cons_self)
  refine ⟨made.live_of_mem (Multiset.mem_cons_self _ _), fun h hh => ?_⟩
  rw [← kept.beyond closed (forall_mem_singleton stored),
    ← mem_reach_copies_iff_of_mem sound living (kept.mem hh), deepCopy_eq, copyGraph_fst]
  rfl

theorem CopyOf.later (copy : s.CopyOf a t c) (closed : t.Closed) (kept : t.PreservedIn u) :
    s.CopyOf a u c := by
  have stored : c ∈ t := mem_of_live copy.alive
  refine ⟨(kept.live c stored).trans copy.alive, fun h hh => ?_⟩
  rw [kept.reach closed (forall_mem_singleton stored)]
  exact copy.shared h hh

end

end Store

namespace TypeRegistry

theorem mem_holds_iff {r : TypeRegistry} :
    h ∈ r.holds ↔ h ∈ r.primitives.values ∨ ∃ name, r.type? name = some h := by
  rw [holds, List.mem_append, SortedMap.mem_values_iff (m := r.types)]
  rfl

/-- Takes over one name of another registry. -/
def mergeName (other : TypeRegistry) : TypeRegistry × Store → String → TypeRegistry × Store :=
  fun (r, s) name =>
    match other.type? name with
    | none => (r, s)
    | some h =>
      let (copy, s) := s.deepCopy h {}
      (r.setCustom name copy s).2

theorem merge_eq (r other : TypeRegistry) (s : Store) :
    r.merge other s = other.customs.toList.foldl (mergeName other) (r, s) := rfl

/-- The state of a merge of `right` into `left` after some names: every name stands for what it
stood for, or was free and stands for a copy. -/
structure Merging (left right : TypeRegistry) (s : Store) (done : List String)
    (now : TypeRegistry × Store) : Prop where
  sound : now.2.Sound
  kept : s.PreservedIn now.2
  primitives : now.1.primitives = left.primitives
  old : ∀ name a, left.type? name = some a → now.1.type? name = some a
  new : ∀ name c, now.1.type? name = some c → left.type? name = none →
    name ∈ done ∧ ∃ a, right.type? name = some a ∧ s.CopyOf a now.2 c
  all : ∀ name ∈ done, ∀ a, right.type? name = some a → ∃ c, now.1.type? name = some c

namespace Merging
variable {left : TypeRegistry} {done : List String} {now : TypeRegistry × Store}

theorem start (sound : s.Sound) : Merging left right s [] (left, s) where
  sound := sound
  kept := .refl s
  primitives := rfl
  old _ _ h := h
  new name c found free := by
    rw [free] at found
    cases found
  all _ h := nomatch h

variable (m : Merging left right s done now)

include m

/-- A name for which there is nothing to do. -/
theorem skip {name : String} (sound : t.Sound)
    (kept : now.2.PreservedIn t)
    (settled : ∀ a, right.type? name = some a → ∃ c, now.1.type? name = some c) :
    Merging left right s (done ++ [name]) (now.1, t) where
  sound := sound
  kept := m.kept.trans kept
  primitives := m.primitives
  old := m.old
  new other c found free := by
    obtain ⟨listed, a, ha, copy⟩ := m.new other c found free
    exact ⟨List.mem_append_left _ listed, a, ha, copy.later m.sound.closed kept⟩
  all other listed a ha := by
    rcases List.mem_append.1 listed with listed | listed
    · exact m.all other listed a ha
    · rw [List.mem_singleton.1 listed] at ha ⊢
      exact settled a ha

/-- A free name gets a copy. -/
theorem take {name : String} {a c : Handle} (sound : t.Sound)
    (kept : now.2.PreservedIn t) (found : right.type? name = some a)
    (free : now.1.type? name = none) (copy : s.CopyOf a t c) :
    Merging left right s (done ++ [name])
      ({ now.1 with types := now.1.types.insert name c, customs := now.1.customs.insert name },
        t) where
  sound := sound
  kept := m.kept.trans kept
  primitives := m.primitives
  old other b hb := by
    have before := m.old other b hb
    have different : other ≠ name := by
      rintro rfl
      rw [free] at before
      cases before
    rw [type?, SortedMap.get?_insert, if_neg different]
    exact before
  new other d hd unnamed := by
    rw [type?, SortedMap.get?_insert] at hd
    split at hd
    · rename_i same
      obtain rfl := Option.some.inj hd
      subst same
      exact ⟨List.mem_append_right _ List.mem_cons_self, a, found, copy⟩
    · obtain ⟨listed, b, hb, copied⟩ := m.new other d hd unnamed
      exact ⟨List.mem_append_left _ listed, b, hb, copied.later m.sound.closed kept⟩
  all other listed b hb := by
    by_cases same : other = name
    · exact ⟨c, by rw [type?, SortedMap.get?_insert, if_pos same]⟩
    · rw [type?, SortedMap.get?_insert, if_neg same]
      rcases List.mem_append.1 listed with listed | listed
      · exact m.all other listed b hb
      · exact absurd (List.mem_singleton.1 listed) same

theorem step (closed : s.Closed) (alive : ∀ name a, right.type? name = some a → s.live a)
    (name : String) : Merging left right s (done ++ [name]) (mergeName right now name) := by
  obtain ⟨r, t⟩ := now
  unfold mergeName
  cases found : right.type? name with
  | none => exact m.skip m.sound (.refl t) fun a ha => by rw [found] at ha; cases ha
  | some a =>
    have living : t.live a :=
      (m.kept.live a (Store.mem_of_live (alive name a found))).trans (alive name a found)
    have made := (Store.Ledger.start m.sound True).deepCopy living
    dsimp only
    unfold setCustom
    split
    · -- the name is taken
      rename_i taken
      refine m.skip made.release.sound made.release.preservedIn fun _ _ => ?_
      exact Option.isSome_iff_exists.1 taken
    · rename_i free
      refine m.take made.sound made.preservedIn found ?_
        (Store.copyOf_deepCopy closed m.kept m.sound (alive name a found))
      exact Option.not_isSome_iff_eq_none.1 free

theorem run (closed : s.Closed) (alive : ∀ name a, right.type? name = some a → s.live a)
    (names : List String) :
    Merging left right s (done ++ names) (names.foldl (mergeName right) now) := by
  induction names generalizing done now with
  | nil =>
    rw [List.append_nil]
    exact m
  | cons name rest ih =>
    have later := ih (m.step closed alive name)
    rw [List.append_assoc] at later
    exact later

end Merging

/-- What lies beyond the custom types that one registry takes over from another: those of them whose
names are free. -/
def beyondTaken (left right : TypeRegistry) (s : Store) : Set Handle :=
  {h | ∃ name ∈ right.customs, left.type? name = none ∧
    ∃ a, right.type? name = some a ∧ h ∈ s.beyond [a]}

theorem beyondTaken_eq_empty_iff {left : TypeRegistry} :
    beyondTaken left right s = ∅ ↔
      ∀ name ∈ right.customs, left.type? name = none → ∀ a, right.type? name = some a →
        s.escapes [a] = ∅ := by
  constructor
  · intro none name listed free a ha
    rw [← Store.beyond_eq_empty_iff, Set.eq_empty_iff_forall_notMem]
    intro h hh
    exact Set.eq_empty_iff_forall_notMem.1 none h ⟨name, listed, free, a, ha, hh⟩
  · intro none
    rw [Set.eq_empty_iff_forall_notMem]
    rintro h ⟨name, listed, free, a, ha, k, hk, -⟩
    rw [none name listed free a ha] at hk
    exact hk

section
variable {left : TypeRegistry}

theorem merging_merge (sound : s.Sound) (left : TypeRegistry)
    (alive : ∀ h ∈ right.holds, s.live h) :
    Merging left right s right.customs.toList (left.merge right s) := by
  have living : ∀ name a, right.type? name = some a → s.live a := fun name a ha =>
    alive a (mem_holds_iff.2 (.inr ⟨name, ha⟩))
  have begun : Merging left right s [] (left, s) := .start sound
  have merged := begun.run sound.closed living right.customs.toList
  rw [List.nil_append] at merged
  rw [merge_eq]
  exact merged

/-- What a registry holds after a merge: what it held before, and a copy of each type taken over. -/
theorem mem_holds_merge (sound : s.Sound) (alive : ∀ h ∈ right.holds, s.live h)
    (hh : h ∈ (left.merge right s).1.holds) :
    h ∈ left.holds ∨ ∃ name ∈ right.customs, left.type? name = none ∧
      ∃ a, right.type? name = some a ∧ s.CopyOf a (left.merge right s).2 h := by
  have merged := merging_merge sound left alive
  rcases mem_holds_iff.1 hh with primitive | ⟨name, found⟩
  · rw [merged.primitives] at primitive
    exact .inl (mem_holds_iff.2 (.inl primitive))
  · cases before : left.type? name with
    | none =>
      obtain ⟨listed, copied⟩ := merged.new name h found before
      exact .inr ⟨name, listed, before, copied⟩
    | some b =>
      have same := merged.old name b before
      rw [found] at same
      obtain rfl := Option.some.inj same
      exact .inl (mem_holds_iff.2 (.inr ⟨name, before⟩))

theorem reach_merge_inter (sound : s.Sound) (living : ∀ h ∈ left.holds, s.live h)
    (alive : ∀ h ∈ right.holds, s.live h)
    (apart : Disjoint (s.reach left.holds) (s.reach right.holds)) :
    (left.merge right s).2.reach (left.merge right s).1.holds ∩
      (left.merge right s).2.reach right.holds = beyondTaken left right s := by
  have merged := merging_merge sound left alive
  have inside : ∀ h ∈ right.holds, h ∈ s := fun h hh => Store.mem_of_live (alive h hh)
  rw [merged.kept.reach sound.closed inside]
  ext h
  constructor
  · rintro ⟨reached, original⟩
    obtain ⟨r, hr, path⟩ := Store.mem_reach_iff.1 reached
    rcases mem_holds_merge sound alive hr with old | ⟨name, listed, free, a, ha, copy⟩
    · -- what was there before the merge has nothing in common with the other registry
      have stored : r ∈ s := Store.mem_of_live (living r old)
      rw [merged.kept.reach sound.closed (Store.forall_mem_singleton stored)] at path
      exact (Set.disjoint_left.1 apart (Store.mem_reach_iff.2 ⟨r, old, path⟩) original).elim
    · have known := Store.mem_of_mem_reach sound.closed inside original
      exact ⟨name, listed, free, a, ha, (copy.shared h known).1 path⟩
  · rintro ⟨name, listed, free, a, ha, shared⟩
    have held : a ∈ right.holds := mem_holds_iff.2 (.inr ⟨name, ha⟩)
    have original : h ∈ s.reach right.holds :=
      Store.mem_reach_iff.2 ⟨a, held, Store.beyond_subset_reach shared⟩
    obtain ⟨c, found⟩ := merged.all name listed a ha
    obtain ⟨-, b, hb, copy⟩ := merged.new name c found free
    obtain rfl : a = b := Option.some.inj (ha.symm.trans hb)
    have known := Store.mem_of_mem_reach sound.closed inside original
    refine ⟨Store.mem_reach_iff.2 ⟨c, ?_, (copy.shared h known).2 shared⟩, original⟩
    exact mem_holds_iff.2 (.inr ⟨name, found⟩)

end

end TypeRegistry

/-- Two lists of roots have exactly the nodes of `common` in common. If there are none, no write to
what one of them reaches shows from the other. -/
structure Store.Shares (s : Store) (roots others : List Handle) (common : Set Handle) : Prop where
  inter : s.reach roots ∩ s.reach others = common
  isolates : common = ∅ → s.Isolates roots others ∧ s.Isolates others roots

theorem Store.shares_of_inter {roots others : List Handle} {common : Set Handle} (sound : s.Sound)
    (alive : ∀ r ∈ roots, s.live r) (living : ∀ r ∈ others, s.live r)
    (inter : s.reach roots ∩ s.reach others = common) : s.Shares roots others common := by
  refine ⟨inter, fun none => ?_⟩
  have apart : Disjoint (s.reach roots) (s.reach others) := by
    rw [Set.disjoint_iff_inter_eq_empty, inter, none]
  exact ⟨isolates_of_disjoint sound alive apart, isolates_of_disjoint sound living apart.symm⟩

theorem Scope.shares_copy (sound : s.Sound) {c : Scope} (alive : ∀ h ∈ c.holds, s.live h) :
    (c.copy s).2.Shares (c.copy s).1.holds c.holds (s.beyond c.holds) := by
  have made := (Store.Ledger.start sound True).copyGraph alive
  have kept := Store.preservedIn_copyGraph sound alive
  rw [holds_copy, copy_snd]
  refine Store.shares_of_inter made.sound (fun r hr => ?_) (fun r hr => ?_)
    (Store.reach_copies_inter sound alive)
  · exact made.live_of_mem (Multiset.mem_add.2 (.inl hr))
  · exact (kept.live r (Store.mem_of_live (alive r hr))).trans (alive r hr)

theorem TypeRegistry.shares_merge (sound : s.Sound) {left : TypeRegistry}
    (living : ∀ h ∈ left.holds, s.live h) (alive : ∀ h ∈ right.holds, s.live h)
    (apart : Disjoint (s.reach left.holds) (s.reach right.holds)) :
    (left.merge right s).2.Shares (left.merge right s).1.holds right.holds
      (beyondTaken left right s) := by
  have merged := merging_merge sound left alive
  have still : ∀ h, s.live h → (left.merge right s).2.live h := fun h hh =>
    (merged.kept.live h (Store.mem_of_live hh)).trans hh
  refine Store.shares_of_inter merged.sound (fun r hr => ?_) (fun r hr => still r (alive r hr))
    (reach_merge_inter sound living alive apart)
  rcases mem_holds_merge sound alive hr with old | ⟨_, _, _, _, _, copy⟩
  · exact still r (living r old)
  · exact copy.alive

/-- Copies share with their originals exactly what can be reached from an escape: a copied scope
what is reached from the escapes of its entities, and a registry with another one that it merges
what is reached from the escapes of a custom type that it takes over. They are independent if there
is no escape, and then writes on either side do not show on the other. -/
theorem copies_share_exactly_escapes {s : Store} (sound : s.Sound) (c : Scope)
    (alive : ∀ h ∈ c.holds, s.live h) (left right : TypeRegistry)
    (living : ∀ h ∈ left.holds ++ right.holds, s.live h)
    (apart : Disjoint (s.reach left.holds) (s.reach right.holds)) :
    ((c.copy s).2.Shares (c.copy s).1.holds c.holds (s.beyond c.holds) ∧
      (s.beyond c.holds = ∅ ↔ s.escapes c.holds = ∅)) ∧
    (left.merge right s).2.Shares (left.merge right s).1.holds right.holds
      (TypeRegistry.beyondTaken left right s) ∧
    (TypeRegistry.beyondTaken left right s = ∅ ↔
      ∀ name ∈ right.customs, left.type? name = none → ∀ a, right.type? name = some a →
        s.escapes [a] = ∅) := by
  refine ⟨⟨Scope.shares_copy sound alive, Store.beyond_eq_empty_iff⟩, ?_,
    TypeRegistry.beyondTaken_eq_empty_iff⟩
  exact TypeRegistry.shares_merge sound (fun h hh => living h (List.mem_append_left _ hh))
    (fun h hh => living h (List.mem_append_right _ hh)) apart

/-- Global bindings with one map, which holds its prototype, and a map apart. -/
def heirloom : Store where
  nodes := #[
    { Scope.newGlobals with members := .ofList [(.identifier "x", ⟨1⟩)] },
    { Entity.ofType .map Tag.map with isa := some ⟨⟨2⟩, true⟩ },
    Entity.ofType .map Tag.map,
    Entity.ofType .map Tag.map]
  holders := #[2, 2, 2, 1]

def heirloomScope : Scope := { frame := { locals := ⟨0⟩ }, enclosing := [], globals := ⟨0⟩ }

/-- A registry in which the map and its prototype are custom types. -/
def heirloomTypes : TypeRegistry where
  catalog := {}
  types := .ofList [("a", ⟨1⟩), ("b", ⟨2⟩)]
  customs := .ofList ["a", "b"]

/-- A registry that has taken one of the names for the map apart. -/
def rivalTypes : TypeRegistry where
  catalog := {}
  types := .ofList [("b", ⟨3⟩)]
  customs := .ofList ["b"]

theorem copies_share_exactly_escapes_heirloom :
    ((heirloomScope.copy heirloom).2.Shares (heirloomScope.copy heirloom).1.holds
      heirloomScope.holds
        (heirloom.beyond heirloomScope.holds) ∧
      (heirloom.beyond heirloomScope.holds = ∅ ↔ heirloom.escapes heirloomScope.holds = ∅)) ∧
    (rivalTypes.merge heirloomTypes heirloom).2.Shares
      (rivalTypes.merge heirloomTypes heirloom).1.holds
      heirloomTypes.holds (TypeRegistry.beyondTaken rivalTypes heirloomTypes heirloom) ∧
    (TypeRegistry.beyondTaken rivalTypes heirloomTypes heirloom = ∅ ↔
      ∀ name ∈ heirloomTypes.customs, rivalTypes.type? name = none →
        ∀ a, heirloomTypes.type? name = some a → heirloom.escapes [a] = ∅) := by
  have sound : heirloom.Sound := by decide
  refine copies_share_exactly_escapes sound heirloomScope (by decide) rivalTypes heirloomTypes
    (by decide) (Set.disjoint_left.2 fun h => ?_)
  rw [Store.mem_reach_iff_mem_discover sound.closed (by decide),
    Store.mem_reach_iff_mem_discover sound.closed (by decide)]
  revert h
  decide

/-- The prototype is shared by the copied scope and the original, and by a registry that merges the
custom types and theirs. A member that is stored in it through the copy is then found on the
original. -/
theorem copies_share_heirloom :
    heirloom.Sound ∧ (∀ h ∈ heirloomScope.holds, heirloom.live h) ∧
    (∀ h ∈ rivalTypes.holds ++ heirloomTypes.holds, heirloom.live h) ∧
    (∃ copy t, heirloomScope.copy heirloom = (copy, t) ∧
      ⟨2⟩ ∈ t.reach copy.holds ∧ ⟨2⟩ ∈ t.reach heirloomScope.holds ∧
      t.findName? ⟨1⟩ "n" = none ∧
      (t.setProperty ⟨2⟩ (.identifier "n") ⟨3⟩).2.findName? ⟨1⟩ "n" = some ⟨3⟩) ∧
    ∃ merged t, rivalTypes.merge heirloomTypes heirloom = (merged, t) ∧
      ⟨2⟩ ∈ t.reach merged.holds ∧ ⟨2⟩ ∈ t.reach heirloomTypes.holds := by
  refine ⟨by decide, by decide, by decide, ⟨_, _, rfl, ?_, ?_, by decide, by decide⟩, _, _,
    rfl, ?_, ?_⟩
  all_goals
    rw [Store.mem_reach_iff_mem_discover (by decide) (by decide)]
    decide

end ScriptInference
