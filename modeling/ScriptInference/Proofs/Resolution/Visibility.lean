import ScriptInference.Proofs.Registry.Completions
import ScriptInference.Proofs.Resolution.ReadBack

/-!
# The names that are visible in a scope

The names of a scope are listed frame by frame from the innermost outwards, then those of the
globals, the reserved ones, and those of the general type. Reading a name searches in the same
order. Where locals and globals inherit from nothing, both see the same bindings, so that a name is
listed exactly if it is bound, and described by the binding that is read.
-/

namespace ScriptInference

/-! ## What is listed -/

namespace TypeRegistry

/-- The member of the general type itself. -/
def generalMember? (r : TypeRegistry) (s : Store) (name : String) : Option Handle :=
  (r.type? Tag.general).bind fun h => s.member? h (.identifier name)

theorem exists_generalMember?_iff {r : TypeRegistry} {s : Store} {name : String} :
    (∃ m, r.generalMember? s name = some m) ↔
      ∃ h m, r.type? Tag.general = some h ∧ s.member? h (.identifier name) = some m := by
  simp only [generalMember?, Option.bind_eq_some_iff]
  exact exists_comm

theorem candidates_general (r : TypeRegistry) :
    r.candidates (.ofList [Tag.general]) = (r.type? Tag.general).toList.map fun h =>
      (Tag.general, h) := by
  have plain : Tag.any ∉ SortedSet.ofList [Tag.general] := by decide
  have single : (SortedSet.ofList [Tag.general]).toList = [Tag.general] := rfl
  rw [candidates, if_neg plain, single, List.filterMap_cons]
  cases r.type? Tag.general <;> rfl

theorem get?_generalIdentifiers (r : TypeRegistry) (s : Store) (name : String) :
    (r.generalIdentifiers s).get? name = (r.generalMember? s name).map
      fun m => .ofEntity (s.node m) := by
  rw [generalIdentifiers, identifiers, Store.get?_foldl_addNames, candidates_general,
    generalMember?]
  cases r.type? Tag.general with
  | none => rfl
  | some h =>
    rw [Option.toList_some, List.map_singleton, List.map_singleton, List.findSome?_singleton]
    rfl

end TypeRegistry

namespace Scope
variable {c : Scope} {r : TypeRegistry} {s : Store} {name : String} {m : Handle}

/-- The tables of bindings from the innermost outwards. In the root frame the globals come twice. -/
def tables (c : Scope) : List Handle := c.frames.map Frame.locals ++ [c.globals]

/-- The binding of a name in the innermost table that has one. -/
def Binds (c : Scope) (s : Store) (name : String) (m : Handle) : Prop :=
  ∃ inner h outer, c.tables = inner ++ h :: outer ∧ s.member? h (.identifier name) = some m ∧
    ∀ k ∈ inner, s.member? k (.identifier name) = none

variable (plain : ∀ h ∈ c.tables, s.Plain h)

include plain

theorem find?_eq (name : String) :
    c.find? s name = c.tables.findSome? fun h => s.member? h (.identifier name) :=
  findSome?_congr fun h hh => (plain h hh).findName?_eq name

theorem binds_iff_find? : c.Binds s name m ↔ c.find? s name = some m := by
  rw [find?_eq plain]
  exact List.findSome?_eq_some_iff.symm

theorem exists_find?_iff :
    (∃ m, c.find? s name = some m) ↔
      (∃ f ∈ c.frames, ∃ m, s.member? f.locals (.identifier name) = some m) ∨
      ∃ m, s.member? c.globals (.identifier name) = some m := by
  rw [find?_eq plain, ← Option.isSome_iff_exists, List.findSome?_isSome_iff, tables]
  simp only [Option.isSome_iff_exists, List.mem_append, List.mem_map, List.mem_singleton,
    or_and_right, exists_or, exists_eq_left, exists_exists_and_eq_and]

/-- The reserved names have no say in the item of another name. -/
theorem get?_completions (free : isReserved name = false) (r : TypeRegistry) :
    (c.completions r s).get? name =
      ((c.find? s name).or (r.generalMember? s name)).map fun m => .ofEntity (s.node m) := by
  unfold completions
  dsimp only
  rw [Completions.get?_addMissing, TypeRegistry.get?_generalIdentifiers, Option.map_or,
    find?_eq plain]
  refine congrArg (Option.or · _) ?_
  -- the step for a reserved name leaves the items of all other names
  refine List.foldlRecOn (motive := fun items => SortedMap.get? items name = _) _ _ ?_
    fun items same other listed => ?_
  · exact (s.get?_foldl_addNames c.tables ∅ name).trans Option.none_or
  · split
    · have ne : other ≠ name := by
        rintro rfl
        rw [isReserved, List.contains_iff_mem.2 listed] at free
        cases free
      rw [SortedMap.get?_insertIfNew, if_neg ne, Option.or_none, same]
    · exact same

end Scope

/-! ## What is read -/

namespace Infer
variable {c : Scope} {r : TypeRegistry} {s : Store} {name : String} {m : Handle}

section
variable (free : Scope.isReserved name = false)

include free

variable (missing : c.find? s name = none)

include missing

/-- Of a name that is not bound, the general type is asked. -/
theorem resolveName_of_general {suppress : Bool} {bound : Nat} {d : Handle} {t : Store}
    (defined : generalDefinition r name suppress bound s = .ok (some d, t)) :
    resolveName r c name suppress bound s = .ok (d, t) := by
  have looked := lookupName_eq c name bound s
  rw [missing] at looked
  rw [resolveName, bind_of_ok (resolveReserved_of_free free bound s)]
  simp only []
  rw [bind_of_ok looked]
  exact bind_of_ok defined _

theorem resolveName_of_unknown (unknown : r.general? s name = none) (suppress : Bool)
    (bound : Nat) : resolveName r c name suppress bound s = .ok (s.alloc (.anyNamed name)) := by
  have looked := lookupName_eq c name bound s
  rw [missing] at looked
  rw [resolveName, bind_of_ok (resolveReserved_of_free free bound s)]
  simp only []
  rw [bind_of_ok looked]
  exact bind_of_ok (generalDefinition_of_none unknown suppress bound) _

/-- What the general type itself has under a name is read as it is stored. -/
theorem resolveName_of_generalMember?
    (shaped : ∀ h, r.type? Tag.general = some h → (s.node h).isMapShaped = true)
    (found : r.generalMember? s name = some m) :
    ∃ d t, (∀ bound, resolveName r c name true bound s = .ok (d, t)) ∧ t.node d = s.node m := by
  obtain ⟨h, registered, stored⟩ := Option.bind_eq_some_iff.1 found
  have general : r.general? s name = some m := by
    rw [TypeRegistry.general?, registered]
    exact Store.findName?_of_member? (shaped h registered) stored
  obtain ⟨d, t, defined, -, contents⟩ := makes_generalDefinition general true
  exact ⟨d, t, fun bound => resolveName_of_general free missing (defined bound), contents⟩

end

/-- The item of a name describes what reading the name gives. -/
theorem exists_resolveName_of_listed (plain : ∀ h ∈ c.tables, s.Plain h)
    (shaped : ∀ h, r.type? Tag.general = some h → (s.node h).isMapShaped = true)
    (free : Scope.isReserved name = false) {item : Completion}
    (listed : (c.completions r s).get? name = some item) :
    ∃ d t, (∀ bound, resolveName r c name true bound s = .ok (d, t)) ∧
      item = .ofEntity (t.node d) := by
  rw [Scope.get?_completions plain free r] at listed
  cases found : c.find? s name with
  | some m =>
    rw [found] at listed
    cases listed
    exact ⟨m, s.retain m, fun bound => resolveName_of_find? r free found, rfl⟩
  | none =>
    rw [found, Option.none_or] at listed
    obtain ⟨m, general, rfl⟩ := Option.map_eq_some_iff.1 listed
    obtain ⟨d, t, read, contents⟩ := resolveName_of_generalMember? free found shaped general
    exact ⟨d, t, read, by rw [contents]⟩

theorem resolveName_of_unlisted (plain : ∀ h ∈ c.tables, s.Plain h)
    (general : ∀ h, r.type? Tag.general = some h → s.Plain h) (free : Scope.isReserved name = false)
    (unlisted : (c.completions r s).contains name = false) (bound : Nat) :
    resolveName r c name true bound s = .ok (s.alloc (.anyNamed name)) := by
  have nothing : (c.find? s name).or (r.generalMember? s name) = none := by
    rw [SortedMap.contains, Scope.get?_completions plain free r, Option.isSome_map] at unlisted
    exact Option.isNone_iff_eq_none.1 (Option.isSome_eq_false_iff.1 unlisted)
  obtain ⟨missing, unstored⟩ := Option.or_eq_none_iff.1 nothing
  refine resolveName_of_unknown free missing ?_ true bound
  unfold TypeRegistry.generalMember? at unstored
  unfold TypeRegistry.general?
  cases registered : r.type? Tag.general with
  | none => rfl
  | some h =>
    rw [registered] at unstored
    exact ((general h registered).findName?_eq name).trans unstored

/-- A general type with one function. -/
def printCatalog : Catalog :=
  Catalog.empty.insert
    ((Signature.new Tag.general).withDefinition "print" (.function [] [Tag.null]))

def printTypes : TypeRegistry := (TypeRegistry.new printCatalog .empty).1

def printSeeds : Store := (TypeRegistry.new printCatalog .empty).2

/-- A function in a program. Both have a binding of `x`, and the globals have also one of `y`. -/
def nestedStore : Store :=
  ((((printSeeds.alloc
    { Scope.newGlobals with
      members := .ofList [(.identifier "x", ⟨4⟩), (.identifier "y", ⟨4⟩)] }).2.alloc
    { Scope.newLocals with members := .ofList [(.identifier "x", ⟨5⟩)] }).2.alloc
    (Entity.literal "number" "1" 1)).2.alloc
    (Entity.literal "string" "a" 2)).2

def nestedScope : Scope where
  frame := { locals := ⟨3⟩ }
  enclosing := [{ locals := ⟨2⟩ }]
  globals := ⟨2⟩

end Infer

end ScriptInference
