import Mathlib.Logic.Relation
import ScriptInference.Catalog.Reader
import ScriptInference.Proofs.Document.Workspace

/-!
# The first registration wins

Several registries live in one store. Each begins with the types of its catalog, and from then on
types are registered and taken over from other registries, in any order and direction. A registry
keeps two tables, of the entities by their names and of the names that are custom. They stay in
step: a name is custom if it is registered and does not come from the catalog. No registration
replaces an earlier one, so a name that stands for an entity stands for it ever after.
-/

namespace ScriptInference

variable {h : Handle} {catalog : Catalog}

/-! ## Catalogs -/

namespace Catalog
variable {c : Catalog}

/-- A catalog as it is put together, from single types and from texts. -/
inductive Built : Catalog → Prop
  | empty : Built .empty
  | inserted {c : Catalog} (s : Signature) : Built c → Built (c.insert s)
  | extended {c : Catalog} (text : String) : Built c → Built (c.extend text).1

/-- Every signature is stored under the name of its type. -/
def Labelled (m : SortedMap String Signature) : Prop :=
  ∀ name s, m.get? name = some s → s.typeName = name

theorem Labelled.insert {m : SortedMap String Signature} (labelled : Labelled m) (s : Signature) :
    Labelled (m.insert s.typeName s) := by
  intro name found stored
  rw [SortedMap.get?_insert] at stored
  split at stored
  · rename_i same
    rw [← Option.some.inj stored, same]
  · exact labelled name found stored

theorem Labelled.mem_keys_iff {m : SortedMap String Signature} (labelled : Labelled m)
    {name : String} : name ∈ m.keys ↔ ∃ s ∈ m.values, s.typeName = name := by
  constructor
  · intro listed
    obtain ⟨e, he, rfl⟩ := List.mem_map.1 listed
    exact ⟨e.2, List.mem_map_of_mem he, labelled _ _ (SortedMap.get?_eq_some_iff.2 he)⟩
  · rintro ⟨s, hs, rfl⟩
    obtain ⟨e, he, rfl⟩ := List.mem_map.1 hs
    rw [labelled _ _ (SortedMap.get?_eq_some_iff.2 he)]
    exact List.mem_map_of_mem he

structure Keyed (c : Catalog) : Prop where
  primitives : Labelled c.primitives
  types : Labelled c.types

theorem Keyed.insert (keyed : c.Keyed) (s : Signature) : (c.insert s).Keyed := by
  unfold Catalog.insert
  split
  · exact ⟨keyed.primitives.insert s, keyed.types⟩
  · exact ⟨keyed.primitives, keyed.types.insert s⟩

theorem Keyed.insertChecked (keyed : c.Keyed) (raw : List (String × RawSignature)) :
    (c.insertChecked raw).1.Keyed := by
  fun_induction Catalog.insertChecked c raw with
  | case1 => exact keyed
  | case2 => exact keyed
  | case3 c name raw rest s checked ih => exact ih (keyed.insert s)

theorem Built.keyed (built : c.Built) : c.Keyed := by
  induction built with
  | empty =>
    constructor
    · intro name s stored
      cases stored
    · intro name s stored
      cases stored
  | inserted s _ keyed => exact keyed.insert s
  | extended text _ keyed =>
    unfold Catalog.extend
    split
    · exact keyed
    · exact keyed.insertChecked _

/-- The names of a catalog are those of the types that a registry is seeded with. -/
theorem Keyed.mem_typeNames_iff (keyed : c.Keyed) {name : String} :
    name ∈ c.typeNames ↔ ∃ s ∈ c.primitives.values ++ c.types.values, s.typeName = name := by
  rw [typeNames, List.mem_append, keyed.primitives.mem_keys_iff, keyed.types.mem_keys_iff]
  simp only [List.mem_append, or_and_right, exists_or]

end Catalog

/-! ## One registry -/

namespace TypeRegistry
variable {r r' other : TypeRegistry} {name : String} {s : Store}

theorem mem_typeNames_iff : name ∈ r.typeNames ↔ ∃ h, r.type? name = some h := by
  unfold typeNames type? SortedMap.keys
  simp only [SortedMap.get?_eq_some_iff, SortedMap.toList, List.mem_map, Prod.exists,
    exists_and_right, exists_eq_right]

theorem not_mem_typeNames_iff : name ∉ r.typeNames ↔ r.type? name = none := by
  rw [mem_typeNames_iff, ← Option.isSome_iff_exists, Option.not_isSome_iff_eq_none]

/-- A registration under a taken name fails, under a free name it takes the name. -/
theorem setCustom_cases (r : TypeRegistry) (name : String) (h : Handle) (s : Store) :
    name ∈ r.typeNames ∧ r.setCustom name h s = (false, r, s.release h) ∨
      name ∉ r.typeNames ∧ r.setCustom name h s =
        (true, { r with types := r.types.insert name h, customs := r.customs.insert name }, s) := by
  unfold setCustom
  split
  · rename_i taken
    exact .inl ⟨mem_typeNames_iff.2 (Option.isSome_iff_exists.1 taken), rfl⟩
  · rename_i free
    exact .inr ⟨not_mem_typeNames_iff.2 (Option.not_isSome_iff_eq_none.1 free), rfl⟩

theorem setCustom_eq_true_iff : (r.setCustom name h s).1 = true ↔ name ∉ r.typeNames := by
  rcases r.setCustom_cases name h s with ⟨taken, result⟩ | ⟨free, result⟩
  · simp [result, taken]
  · simp [result, free]

/-- A registration fills in a name that stood for nothing. -/
theorem type?_setCustom (r : TypeRegistry) (name : String) (h : Handle) (s : Store) (x : String) :
    (r.setCustom name h s).2.1.type? x = (r.type? x).or (if x = name then some h else none) := by
  rcases r.setCustom_cases name h s with ⟨taken, result⟩ | ⟨free, result⟩
  · rw [result]
    obtain ⟨old, found⟩ := mem_typeNames_iff.1 taken
    by_cases same : x = name
    · rw [same, found]
      rfl
    · rw [if_neg same, Option.or_none]
  · rw [result, type?, SortedMap.get?_insert]
    by_cases same : x = name
    · rw [if_pos same, if_pos same, same, not_mem_typeNames_iff.1 free]
      rfl
    · rw [if_neg same, if_neg same, Option.or_none]
      rfl

/-- What only registrations have changed. -/
structure Grows (r r' : TypeRegistry) : Prop where
  catalog : r'.catalog = r.catalog
  types : ∀ name h, r.type? name = some h → r'.type? name = some h

theorem Grows.refl (r : TypeRegistry) : r.Grows r := ⟨rfl, fun _ _ found => found⟩

theorem Grows.trans {r'' : TypeRegistry} (first : r.Grows r') (second : r'.Grows r'') :
    r.Grows r'' :=
  ⟨second.catalog.trans first.catalog,
    fun name h found => second.types name h (first.types name h found)⟩

theorem grows_setCustom (r : TypeRegistry) (name : String) (h : Handle) (s : Store) :
    r.Grows (r.setCustom name h s).2.1 where
  catalog := by
    rcases r.setCustom_cases name h s with ⟨-, result⟩ | ⟨-, result⟩ <;> rw [result]
  types x old found := by
    rw [type?_setCustom, found]
    rfl

/-- The two tables of a registry are in step. -/
structure Lawful (r : TypeRegistry) : Prop where
  seeded : ∀ name ∈ r.catalog.typeNames, name ∈ r.typeNames
  customs : ∀ name, name ∈ r.customs ↔ name ∈ r.typeNames ∧ name ∉ r.catalog.typeNames

theorem Lawful.setCustom (lawful : r.Lawful) (name : String) (h : Handle) (s : Store) :
    (r.setCustom name h s).2.1.Lawful := by
  rcases r.setCustom_cases name h s with ⟨-, result⟩ | ⟨free, result⟩
  · rw [result]
    exact lawful
  · have names : ∀ x, x ∈ (r.setCustom name h s).2.1.typeNames ↔ x = name ∨ x ∈ r.typeNames := by
      intro x
      rw [mem_typeNames_iff, mem_typeNames_iff, type?_setCustom]
      by_cases same : x = name
      · simp [same, not_mem_typeNames_iff.1 free]
      · simp [same]
    rw [result] at names ⊢
    refine ⟨fun x listed => (names x).2 (.inr (lawful.seeded x listed)), fun x => ?_⟩
    rw [names, SortedSet.mem_insert, lawful.customs]
    constructor
    · rintro (rfl | ⟨registered, foreign⟩)
      · exact ⟨.inl rfl, fun listed => free (lawful.seeded x listed)⟩
      · exact ⟨.inr registered, foreign⟩
    · rintro ⟨rfl | registered, foreign⟩
      · exact .inl rfl
      · exact .inr ⟨registered, foreign⟩

/-- A merge registers one type after the other, so it has what every registration has. -/
theorem merge_induction {P : TypeRegistry → Prop}
    (step : ∀ r name h s, P r → P (TypeRegistry.setCustom r name h s).2.1) (start : P r)
    (other : TypeRegistry) (s : Store) : P (r.merge other s).1 := by
  have run : ∀ (names : List String) (now : TypeRegistry × Store), P now.1 →
      P (names.foldl (mergeName other) now).1 := by
    intro names
    induction names with
    | nil => exact fun _ holds => holds
    | cons name rest ih =>
      intro now holds
      refine ih _ ?_
      unfold mergeName
      dsimp only
      split
      · exact holds
      · exact step _ _ _ _ holds
  rw [merge_eq]
  exact run _ (r, s) start

theorem grows_merge (r other : TypeRegistry) (s : Store) : r.Grows (r.merge other s).1 :=
  merge_induction (fun _ _ _ _ grows => grows.trans (grows_setCustom _ _ _ _)) (.refl r) other s

theorem Lawful.merge (lawful : r.Lawful) (other : TypeRegistry) (s : Store) :
    (r.merge other s).1.Lawful :=
  merge_induction (fun _ name h s lawful => lawful.setCustom name h s) lawful other s

/-- After a merge the names are those of before and the custom names of the other registry. -/
theorem mem_typeNames_merge (sound : s.Sound) (alive : ∀ h ∈ other.holds, s.live h)
    (lawful : other.Lawful) :
    name ∈ (r.merge other s).1.typeNames ↔ name ∈ r.typeNames ∨ name ∈ other.customs := by
  have merged := merging_merge sound r alive
  constructor
  · intro registered
    by_cases old : name ∈ r.typeNames
    · exact .inl old
    · obtain ⟨h, found⟩ := mem_typeNames_iff.1 registered
      exact .inr (merged.new name h found (not_mem_typeNames_iff.1 old)).1
  · rintro (old | custom)
    · obtain ⟨h, found⟩ := mem_typeNames_iff.1 old
      exact mem_typeNames_iff.2 ⟨h, merged.old name h found⟩
    · obtain ⟨a, found⟩ := mem_typeNames_iff.1 ((lawful.customs name).1 custom).1
      exact mem_typeNames_iff.2 (merged.all name custom a found)

/-- Nothing is taken over under names that are all taken. -/
theorem merge_eq_self (taken : ∀ name ∈ other.customs, name ∈ r.typeNames) (s : Store) :
    (r.merge other s).1 = r := by
  have run : ∀ (names : List String), (∀ name ∈ names, name ∈ r.typeNames) → ∀ s,
      (names.foldl (mergeName other) (r, s)).1 = r := by
    intro names
    induction names with
    | nil => exact fun _ _ => rfl
    | cons name rest ih =>
      intro taken s
      have refused : (mergeName other (r, s) name).1 = r := by
        unfold mergeName
        dsimp only
        split
        · rfl
        · rename_i h found
          rcases r.setCustom_cases name (s.deepCopy h {}).1 (s.deepCopy h {}).2 with
            ⟨-, result⟩ | ⟨free, -⟩
          · rw [result]
          · exact absurd (taken name List.mem_cons_self) free
      have unchanged : mergeName other (r, s) name = (r, (mergeName other (r, s) name).2) :=
        Prod.ext refused rfl
      rw [List.foldl_cons, unchanged]
      exact ih (fun x hx => taken x (List.mem_cons_of_mem _ hx)) _
  rw [merge_eq]
  exact run _ taken s

/-! ## A new registry -/

/-- A registry that knows the types of some signatures and no others. -/
structure Stocked (catalog : Catalog) (signatures : List Signature) (r : TypeRegistry) : Prop where
  catalog : r.catalog = catalog
  customs : r.customs = ∅
  names : ∀ name, name ∈ r.typeNames ↔ ∃ s ∈ signatures, s.typeName = name

section
variable {done : List Signature}

theorem Stocked.add (stocked : Stocked catalog done r) (signature : Signature) (h : Handle)
    {primitives : SortedMap String Handle} :
    Stocked catalog (done ++ [signature])
      { r with primitives, types := r.types.insert signature.typeName h } where
  catalog := stocked.catalog
  customs := stocked.customs
  names name := by
    rw [mem_typeNames_iff, type?, SortedMap.get?_insert]
    by_cases same : name = signature.typeName
    · simp [same]
    · rw [if_neg same]
      have before := stocked.names name
      rw [mem_typeNames_iff] at before
      rw [show r.types.get? name = r.type? name from rfl, before]
      simp [Ne.symm same]

theorem Stocked.run (seed : TypeRegistry → Signature → Store → TypeRegistry × Store)
    (step : ∀ {r done} signature s, Stocked catalog done r →
      Stocked catalog (done ++ [signature]) (seed r signature s).1)
    (signatures : List Signature) (now : TypeRegistry × Store)
    (stocked : Stocked catalog done now.1) :
    Stocked catalog (done ++ signatures)
      (signatures.foldl (fun now signature => seed now.1 signature now.2) now).1 := by
  induction signatures generalizing done now with
  | nil =>
    rw [List.append_nil]
    exact stocked
  | cons signature rest ih =>
    have later := ih _ (step signature now.2 stocked)
    rw [List.append_assoc] at later
    exact later

theorem stocked_new (catalog : Catalog) (s : Store) :
    Stocked catalog (catalog.primitives.values ++ catalog.types.values) (new catalog s).1 := by
  have begun : Stocked catalog [] ({ catalog } : TypeRegistry) := by
    refine ⟨rfl, rfl, fun name => ?_⟩
    rw [mem_typeNames_iff]
    constructor
    · rintro ⟨_, found⟩
      cases found
    · rintro ⟨_, listed, -⟩
      cases listed
  have add : ∀ {r done} (signature : Signature) (s : Store), Stocked catalog done r → ∀ primitives,
      Stocked catalog (done ++ [signature]) { r with
        primitives, types := r.types.insert signature.typeName (s.ofSignature signature).1 } :=
    fun signature s stocked _ => stocked.add signature (s.ofSignature signature).1
  have primitives :=
    Stocked.run seedPrimitive (fun signature s stocked => add signature s stocked _)
    catalog.primitives.values ({ catalog }, s) begun
  exact Stocked.run seedType (fun signature s stocked => add signature s stocked _)
    catalog.types.values _ primitives

end

theorem lawful_new (built : catalog.Built) (s : Store) : (new catalog s).1.Lawful := by
  have stocked := stocked_new catalog s
  have names : ∀ name, name ∈ (new catalog s).1.typeNames ↔ name ∈ catalog.typeNames := fun name =>
    (stocked.names name).trans built.keyed.mem_typeNames_iff.symm
  constructor
  · intro name listed
    rw [stocked.catalog] at listed
    exact (names name).2 listed
  · intro name
    rw [stocked.customs, stocked.catalog, names]
    exact ⟨fun listed => absurd listed (SortedSet.not_mem_empty name),
      fun absurd => (absurd.2 absurd.1).elim⟩

end TypeRegistry

/-! ## Several registries -/

/-- Registries in one store, next to entities that their user holds. A registry is known by its
position. -/
structure Family where
  registries : List TypeRegistry
  held : Multiset Handle
  store : Store

namespace Family
variable {f g : Family} {rs : List TypeRegistry} {r : TypeRegistry} {held : Multiset Handle}
  {i j : Nat}

def empty : Family := ⟨[], 0, .empty⟩

/-- Everything that the registries and their user hold. -/
def holds (rs : List TypeRegistry) (held : Multiset Handle) : Multiset Handle :=
  holding (rs.flatMap TypeRegistry.holds) held

/-- Opens a registry with the types of a catalog. -/
def add (f : Family) (catalog : Catalog) : Family where
  registries := f.registries ++ [(TypeRegistry.new catalog f.store).1]
  held := f.held
  store := (TypeRegistry.new catalog f.store).2

/-- Registers an entity, and passes the hold on it. -/
def register (f : Family) (i : Nat) (name : String) (h : Handle) : Family :=
  match f.registries[i]? with
  | none => f
  | some r =>
    { registries := f.registries.set i (r.setCustom name h f.store).2.1
      held := f.held.erase h
      store := (r.setCustom name h f.store).2.2 }

/-- Merges the custom types of the registry at `j` into the one at `i`. -/
def merge (f : Family) (i j : Nat) : Family :=
  match f.registries[i]?, f.registries[j]? with
  | some left, some right =>
    { f with
      registries := f.registries.set i (TypeRegistry.mergeKeyed (i, left) (j, right) f.store).1
      store := (TypeRegistry.mergeKeyed (i, left) (j, right) f.store).2 }
  | _, _ => f

/-- What can happen next. Besides the calls of registries, entities are made, changed and dropped in
whatever way leaves the store in order. -/
inductive Step (f : Family) : Family → Prop
  | opened {catalog : Catalog} : catalog.Built → Step f (f.add catalog)
  | registered {h : Handle} (i : Nat) (name : String) : h ∈ f.held → Step f (f.register i name h)
  | merged (i j : Nat) : Step f (f.merge i j)
  | worked {held : Multiset Handle} {s : Store} : s.Accounts (holds f.registries held) →
      Step f ⟨f.registries, held, s⟩

def Leads : Family → Family → Prop := Relation.ReflTransGen Step

def Reached (f : Family) : Prop := Leads .empty f

theorem holds_split (listed : rs[i]? = some r) :
    holds rs held = holding r.holds (holds (rs.eraseIdx i) held) := by
  obtain ⟨bound, rfl⟩ := List.getElem?_eq_some_iff.1 listed
  have perm := (List.getElem_cons_eraseIdx_perm bound).flatMap_right TypeRegistry.holds
  rw [holds, ← holding_perm perm, List.flatMap_cons, holding_append]
  rfl

theorem holds_set (listed : rs[i]? = some r) (r' : TypeRegistry) :
    holds (rs.set i r') held = holding r'.holds (holds (rs.eraseIdx i) held) := by
  obtain ⟨bound, -⟩ := List.getElem?_eq_some_iff.1 listed
  have here : (rs.set i r')[i]? = some r' := List.getElem?_set_self bound
  rw [holds_split here, List.eraseIdx_set_eq]

theorem holds_cons (h : Handle) : holds rs (h ::ₘ held) = h ::ₘ holds rs held :=
  (cons_holding h _ held).symm

/-- The registry at another position is among those that stay. -/
theorem mem_holds_eraseIdx (listed : rs[j]? = some r) (other : i ≠ j) (hh : h ∈ r.holds) :
    h ∈ holds (rs.eraseIdx i) held := by
  have stays : r ∈ rs.eraseIdx i := List.mem_eraseIdx_iff_getElem?.2 ⟨j, other.symm, listed⟩
  exact mem_holding.2 (.inl (List.mem_flatMap.2 ⟨r, stays, hh⟩))

/-- The store accounts for everything that is held, and the tables of every registry are in step. -/
structure Orderly (f : Family) : Prop where
  accounts : f.store.Accounts (holds f.registries f.held)
  lawful : ∀ r ∈ f.registries, r.Lawful

namespace Orderly

section
variable (orderly : f.Orderly)

include orderly

theorem lawful_at (listed : f.registries[i]? = some r) : r.Lawful :=
  orderly.lawful r (List.mem_of_getElem? listed)

theorem live_of_mem_holds (listed : f.registries[i]? = some r) (hh : h ∈ r.holds) :
    f.store.live h := by
  refine orderly.accounts.live_of_mem ?_
  rw [holds_split listed]
  exact mem_holding.2 (.inl hh)

theorem add (built : catalog.Built) : (f.add catalog).Orderly where
  accounts := by
    have made := TypeRegistry.accounts_new catalog orderly.accounts
    have perm : ((f.add catalog).registries.flatMap TypeRegistry.holds).Perm
        ((TypeRegistry.new catalog f.store).1.holds ++
          f.registries.flatMap TypeRegistry.holds) := by
      rw [Family.add, List.flatMap_append, List.flatMap_singleton]
      exact List.perm_append_comm
    rw [holds, holding_perm perm, holding_append]
    exact made
  lawful r listed := by
    rcases List.mem_append.1 listed with old | new
    · exact orderly.lawful r old
    · rw [List.mem_singleton.1 new]
      exact TypeRegistry.lawful_new built f.store

/-- One registry is replaced by another, with the store that accounts for it. -/
theorem replace (listed : f.registries[i]? = some r) {r' : TypeRegistry} {s : Store}
    (accounts : s.Accounts (holding r'.holds (holds (f.registries.eraseIdx i) held)))
      (lawful : r'.Lawful) :
    Orderly ⟨f.registries.set i r', held, s⟩ where
  accounts := by
    rw [holds_set listed]
    exact accounts
  lawful x hx := by
    rcases List.mem_or_eq_of_mem_set hx with old | rfl
    · exact orderly.lawful x old
    · exact lawful

theorem register (hh : h ∈ f.held) (i : Nat) (name : String) : (f.register i name h).Orderly := by
  unfold Family.register
  split
  · exact orderly
  · rename_i r listed
    have before := orderly.accounts
    rw [← Multiset.cons_erase hh, holds_cons, holds_split listed] at before
    exact orderly.replace listed (TypeRegistry.accounts_setCustom before name)
      ((orderly.lawful_at listed).setCustom name h f.store)

end

theorem merge (orderly : f.Orderly) (i j : Nat) : (f.merge i j).Orderly := by
  unfold Family.merge
  split
  · rename_i left right listed source
    have before := orderly.accounts
    rw [holds_split listed] at before
    unfold TypeRegistry.mergeKeyed
    dsimp only
    split
    · exact orderly.replace listed before (orderly.lawful_at listed)
    · rename_i other
      have stays : ∀ h ∈ right.holds, h ∈ holds (f.registries.eraseIdx i) f.held := fun h hh =>
        mem_holds_eraseIdx source other hh
      exact orderly.replace listed (TypeRegistry.accounts_merge stays before)
        ((orderly.lawful_at listed).merge right f.store)
  · exact orderly

theorem step (orderly : f.Orderly) (next : f.Step g) : g.Orderly := by
  cases next with
  | opened built => exact orderly.add built
  | registered i name hh => exact orderly.register hh i name
  | merged i j => exact orderly.merge i j
  | worked accounts => exact ⟨accounts, orderly.lawful⟩

end Orderly

theorem Leads.orderly (leads : f.Leads g) (orderly : f.Orderly) : g.Orderly := by
  induction leads with
  | refl => exact orderly
  | tail _ next ih => exact ih.step next

theorem Reached.orderly (reached : f.Reached) : f.Orderly :=
  Leads.orderly reached ⟨.start (by decide) False, fun _ listed => by cases listed⟩

/-! ## What a family keeps -/

theorem exists_grows_set {k : Nat} {x x' : TypeRegistry} (listed : rs[i]? = some r)
    (replaced : rs[k]? = some x) (grows : x.Grows x') :
    ∃ r', (rs.set k x')[i]? = some r' ∧ r.Grows r' := by
  by_cases same : k = i
  · subst same
    obtain rfl := Option.some.inj (listed.symm.trans replaced)
    obtain ⟨bound, -⟩ := List.getElem?_eq_some_iff.1 listed
    exact ⟨x', List.getElem?_set_self bound, grows⟩
  · rw [List.getElem?_set_ne same]
    exact ⟨r, listed, .refl r⟩

theorem Step.exists_grows (next : f.Step g) (listed : f.registries[i]? = some r) :
    ∃ r', g.registries[i]? = some r' ∧ r.Grows r' := by
  have unchanged : ∃ r', f.registries[i]? = some r' ∧ r.Grows r' := ⟨r, listed, .refl r⟩
  cases next with
  | @opened catalog built =>
    obtain ⟨bound, -⟩ := List.getElem?_eq_some_iff.1 listed
    exact ⟨r, (List.getElem?_append_left bound).trans listed, .refl r⟩
  | registered k name hh =>
    unfold register
    split
    · exact unchanged
    · rename_i x replaced
      exact exists_grows_set listed replaced (TypeRegistry.grows_setCustom x name _ f.store)
  | merged k j =>
    unfold merge
    split
    · rename_i x other replaced _
      refine exists_grows_set listed replaced ?_
      unfold TypeRegistry.mergeKeyed
      split
      · exact .refl x
      · exact TypeRegistry.grows_merge x other f.store
    · exact unchanged
  | worked accounts => exact unchanged

theorem Leads.exists_grows (leads : f.Leads g) (listed : f.registries[i]? = some r) :
    ∃ r', g.registries[i]? = some r' ∧ r.Grows r' := by
  induction leads with
  | refl => exact ⟨r, listed, .refl r⟩
  | tail _ next ih =>
    obtain ⟨r', listed', grows⟩ := ih
    obtain ⟨r'', listed'', grows'⟩ := next.exists_grows listed'
    exact ⟨r'', listed'', grows.trans grows'⟩

/-! ## Merging -/

/-- What merging the registry at `j` into the one at `i` comes to: the custom names of the one are
added to the names of the other, the one is as before, and so is every entity. Merging once more
does nothing. -/
structure Joins (f : Family) (i j : Nat) (left right : TypeRegistry) : Prop where
  names : ∃ left', (f.merge i j).registries[i]? = some left' ∧
    ∀ name, name ∈ left'.typeNames ↔ name ∈ left.typeNames ∨ name ∈ right.customTypes
  source : (f.merge i j).registries[j]? = some right
  kept : f.store.PreservedIn (f.merge i j).store
  again : ((f.merge i j).merge i j).registries = (f.merge i j).registries
  still : (f.merge i j).store.PreservedIn ((f.merge i j).merge i j).store

section
variable {left right : TypeRegistry}

theorem registries_merge (target : f.registries[i]? = some left)
    (source : f.registries[j]? = some right) :
    (f.merge i j).registries =
      f.registries.set i (TypeRegistry.mergeKeyed (i, left) (j, right) f.store).1 := by
  rw [merge, target, source]

theorem Orderly.preservedIn_merge (orderly : f.Orderly) (i j : Nat) :
    f.store.PreservedIn (f.merge i j).store := by
  unfold Family.merge
  split
  · rename_i left right _ source
    unfold TypeRegistry.mergeKeyed
    dsimp only
    split
    · exact .refl f.store
    · exact (TypeRegistry.merging_merge orderly.accounts.sound left fun h hh =>
        orderly.live_of_mem_holds source hh).kept
  · exact .refl f.store

theorem Orderly.joins_self (orderly : f.Orderly) (target : f.registries[i]? = some r) :
    f.Joins i i r r := by
  have unchanged : ∀ {g : Family}, g.registries[i]? = some r →
      (g.merge i i).registries = g.registries := by
    intro g listed
    obtain ⟨bound, rfl⟩ := List.getElem?_eq_some_iff.1 listed
    rw [registries_merge listed listed, TypeRegistry.mergeKeyed, if_pos rfl, List.set_getElem_self]
  have merged : (f.merge i i).registries[i]? = some r := by rw [unchanged target, target]
  refine ⟨⟨r, merged, fun name => ?_⟩, merged, orderly.preservedIn_merge i i, unchanged merged,
    (orderly.merge i i).preservedIn_merge i i⟩
  exact ⟨.inl,
    fun known => known.elim id fun custom => (((orderly.lawful_at target).customs name).1 custom).1⟩

theorem Orderly.joins (orderly : f.Orderly) (target : f.registries[i]? = some left)
    (source : f.registries[j]? = some right) : f.Joins i j left right := by
  by_cases same : i = j
  · subst same
    obtain rfl := Option.some.inj (target.symm.trans source)
    exact orderly.joins_self target
  · have keyed : ∀ (x : TypeRegistry) (s : Store),
        TypeRegistry.mergeKeyed (i, x) (j, right) s = x.merge right s := fun _ _ => if_neg same
    have names : ∀ name, name ∈ (left.merge right f.store).1.typeNames ↔
        name ∈ left.typeNames ∨ name ∈ right.customs := fun name =>
      TypeRegistry.mem_typeNames_merge orderly.accounts.sound
      (fun h hh => orderly.live_of_mem_holds source hh)
        (orderly.lawful_at source)
    obtain ⟨bound, -⟩ := List.getElem?_eq_some_iff.1 target
    have registries :
        (f.merge i j).registries = f.registries.set i (left.merge right f.store).1 := by
      rw [registries_merge target source, keyed]
    have target' : (f.merge i j).registries[i]? = some (left.merge right f.store).1 := by
      rw [registries, List.getElem?_set_self bound]
    have source' : (f.merge i j).registries[j]? = some right := by
      rw [registries, List.getElem?_set_ne same, source]
    refine ⟨⟨_, target', names⟩, source', orderly.preservedIn_merge i j, ?_,
      (orderly.merge i j).preservedIn_merge i j⟩
    rw [registries_merge target' source', keyed, TypeRegistry.merge_eq_self fun name custom =>
      (names name).2 (.inr custom), registries, List.set_set]

end

/-- The first registration wins. In every state of several registries: a name that stands for an
entity stands for it in every later state, and the entity is alive there; the custom names of a
registry are those that are registered and not in its catalog; a registration succeeds if the name
is free, and fills in this name only; and a merge adds the custom names of one registry to another
and changes nothing else. -/
theorem first_registration_wins (reached : f.Reached) (listed : f.registries[i]? = some r) :
    (∀ g, f.Leads g → ∃ r', g.registries[i]? = some r' ∧ r'.catalog = r.catalog ∧
      ∀ name h, r.type? name = some h → r'.type? name = some h ∧ g.store.live h) ∧
    (∀ name, r.isCustom name = true ↔ name ∈ r.typeNames ∧ name ∉ r.catalog.typeNames) ∧
    (∀ name h, ((r.setCustom name h f.store).1 = true ↔ name ∉ r.typeNames) ∧
      ∀ x, (r.setCustom name h f.store).2.1.type? x =
        (r.type? x).or (if x = name then some h else none)) ∧
    ∀ j right, f.registries[j]? = some right → f.Joins i j r right := by
  have orderly := reached.orderly
  refine ⟨fun g leads => ?_, fun name => ?_, fun name h => ?_,
    fun j right source => orderly.joins listed source⟩
  · obtain ⟨r', listed', grows⟩ := leads.exists_grows listed
    refine ⟨r', listed', grows.catalog, fun name h found => ?_⟩
    have found' := grows.types name h found
    have held : h ∈ r'.holds := TypeRegistry.mem_holds_iff.2 (.inr ⟨name, found'⟩)
    exact ⟨found', (leads.orderly orderly).live_of_mem_holds listed' held⟩
  · rw [TypeRegistry.isCustom, decide_eq_true_iff]
    exact (orderly.lawful_at listed).customs name
  · exact ⟨TypeRegistry.setCustom_eq_true_iff, r.type?_setCustom name h f.store⟩

end Family

/-- A registry whose catalog has the type `Point`, and one with an empty catalog, next to two
entities. -/
def Rivals.opened : Family :=
  (Family.empty.add (Catalog.empty.insert { typeName := "Point" })).add .empty

def Rivals.made : Family where
  registries := Rivals.opened.registries
  held := {⟨2⟩, ⟨1⟩}
  store := ((Rivals.opened.store.alloc .any).2.alloc .any).2

/-- The second registry has registered the two entities, one of them as `Point` too. -/
def Rivals.family : Family := (Rivals.made.register 1 "Point" ⟨1⟩).register 1 "Line" ⟨2⟩

namespace Family

theorem first_registration_wins_rivals :
    ∃ left right, Rivals.family.registries[0]? = some left ∧
      Rivals.family.registries[1]? = some right ∧
      left.type? "Point" = some ⟨0⟩ ∧ right.type? "Point" = some ⟨1⟩ ∧
        right.isCustom "Point" = true ∧
      Rivals.family.Joins 0 1 left right ∧
      ∃ left', (Rivals.family.merge 0 1).registries[0]? = some left' ∧
        left'.type? "Point" = some ⟨0⟩ := by
  have opened : Rivals.opened.Reached :=
    .tail (.tail .refl (.opened (.inserted _ .empty))) (.opened .empty)
  have made : Rivals.made.Reached := by
    refine opened.tail (.worked ?_)
    have first := opened.orderly.accounts.alloc (e := .any) (fun k hk => by cases hk) fun k hk => by
      cases hk
    have second := first.alloc (e := .any) (fun k hk => by cases hk) fun k hk => by cases hk
    rw [Multiset.insert_eq_cons, holds_cons, ← Multiset.cons_zero, holds_cons]
    exact second
  have reached : Rivals.family.Reached :=
    (made.tail (.registered 1 "Point" (by decide))).tail (.registered 1 "Line" (by decide +kernel))
  have ours : (Rivals.family.registries[0]?.bind fun r => r.type? "Point") = some ⟨0⟩ := by
    decide +kernel
  have theirs : (Rivals.family.registries[1]?.bind fun r => r.type? "Point") = some ⟨1⟩ := by
    decide +kernel
  have foreign : (Rivals.family.registries[1]?.any fun r => r.isCustom "Point") = true := by
    decide +kernel
  obtain ⟨left, target, found⟩ := Option.bind_eq_some_iff.1 ours
  obtain ⟨right, source, rival⟩ := Option.bind_eq_some_iff.1 theirs
  rw [source] at foreign
  obtain ⟨stays, -, -, joins⟩ := first_registration_wins reached target
  obtain ⟨left', target', -, same⟩ := stays _ (.single (.merged 0 1))
  exact ⟨left, right, target, source, found, rival, foreign, joins 1 right source, left', target',
    (same "Point" ⟨0⟩ found).1⟩

end Family

end ScriptInference
