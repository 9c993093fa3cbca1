import ScriptInference.Proofs.Document.Nesting
import ScriptInference.Proofs.Entity.Settling

/-!
# What running one block does to a document

A run creates the scope of the block and those of the blocks around it, as far as they are missing,
makes the bindings, records their targets, adds to the table of functions and marks the block as
analyzed. It touches nothing else of the document. A scope that exists is never replaced, and a new
one stands where its block stands: it lies in the scope of the block around it and shares the
globals of the document.
-/

namespace ScriptInference.Document

open Infer

/-- The scope stands where the block with this id stands. -/
structure Placed (d : Document) (id : String) (c : Scope) : Prop where
  globals : c.globals = d.globals
  root : ∀ b, (b, none) ∈ d.chunk.blocks → b.id = id → c.locals = d.globals ∧ c.parent? = none
  nested : ∀ b around, (b, some around) ∈ d.chunk.blocks → b.id = id →
    ∃ outer, d.scopes.get? around = some outer ∧ c.parent? = some outer

/-- Every scope of the document stands where its block stands. -/
def WellPlaced (d : Document) : Prop := ∀ id c, d.scopes.get? id = some c → d.Placed id c

section Scopes
variable {d d' : Document} {id : String} {c : Scope} {bound : Nat} {s t : Store}

/-- All that asking for a scope can do: find it, make the root scope, or make a scope inside that of
the block around it. -/
theorem scopeFor_steps {around : List String}
    (h : scopeFor (id :: around) d bound s = .ok ((c, d'), t)) :
    (d.scopes.get? id = some c ∧ d' = d ∧ t = s) ∨
    (d.scopes.get? id = none ∧ around = [] ∧ c = ⟨⟨d.globals, none⟩, [], d.globals⟩ ∧
      d' = { d with scopes := d.scopes.insert id c } ∧ t.nodes = s.nodes) ∨
    (d.scopes.get? id = none ∧ around ≠ [] ∧ ∃ outer d₁ t₁ context,
      scopeFor around d bound s = .ok ((outer, d₁), t₁) ∧
      context = (d₁.functions.get? id).bind t₁.context? ∧
      outer.child context (t₁.retainAll context.toList) = (c, t) ∧
      d' = { d₁ with scopes := d₁.scopes.insert id c }) := by
  cases around with
  | nil =>
    rw [scopeFor] at h
    cases found : d.scopes.get? id with
    | some c' =>
      rw [found] at h
      cases h
      exact .inl ⟨rfl, rfl, rfl⟩
    | none =>
      rw [found] at h
      obtain ⟨g, t₁, retained, h⟩ := bind_ok h
      obtain ⟨root, t₂, made, h⟩ := bind_ok h
      cases retained
      cases made
      cases h
      exact .inr (.inl ⟨rfl, rfl, rfl, rfl, rfl⟩)
  | cons around rest =>
    have nonempty : around :: rest ≠ [] := List.cons_ne_nil _ _
    rw [scopeFor.eq_3 _ _ _ nonempty] at h
    cases found : d.scopes.get? id with
    | some c' =>
      rw [found] at h
      cases h
      exact .inl ⟨rfl, rfl, rfl⟩
    | none =>
      rw [found] at h
      obtain ⟨⟨outer, d₁⟩, t₁, first, h⟩ := bind_ok h
      obtain ⟨u, t₂, read, h⟩ := bind_ok h
      obtain ⟨_, t₃, held, h⟩ := bind_ok h
      obtain ⟨child, t₄, made, h⟩ := bind_ok h
      cases read
      cases held
      cases made
      cases h
      exact .inr (.inr ⟨rfl, nonempty, outer, d₁, t₁, _, first, rfl, rfl, rfl⟩)

/-- What a document is after it was asked for the scope of the first block of a chain. -/
structure ScopeMade (d : Document) (chain : List String) (c : Scope) (d' : Document) : Prop where
  only_scopes : d' = { d with scopes := d'.scopes }
  made : d'.scopes.get? (chain.headD "") = some c
  kept : ∀ id c, d.scopes.get? id = some c → d'.scopes.get? id = some c
  others : ∀ id, id ∉ chain → d'.scopes.get? id = d.scopes.get? id
  placed : d'.WellPlaced

/-- A new scope leaves those that exist where they are. -/
theorem WellPlaced.insert (placed : d.WellPlaced) (missing : d.scopes.get? id = none)
    (here : Placed { d with scopes := d.scopes.insert id c } id c) :
    WellPlaced { d with scopes := d.scopes.insert id c } := by
  intro id' c' found
  by_cases same : id' = id
  · subst same
    simp only [SortedMap.get?_insert, if_pos, Option.some.injEq] at found
    exact found ▸ here
  · simp only [SortedMap.get?_insert, if_neg same] at found
    have old := placed id' c' found
    refine ⟨old.globals, old.root, fun b around listed hid => ?_⟩
    obtain ⟨outer, houter, parent⟩ := old.nested b around listed hid
    have other : around ≠ id := by
      rintro rfl
      rw [missing] at houter
      cases houter
    exact ⟨outer, by simp only [SortedMap.get?_insert, if_neg other]; exact houter, parent⟩

theorem scopeMade_scopeFor (distinct : d.blockIds.Nodup) {chain : List String}
    (outward : d.chunk.Outward id chain) (placed : d.WellPlaced)
    (h : scopeFor chain d bound s = .ok ((c, d'), t)) : d.ScopeMade chain c d' := by
  induction outward generalizing c d' t with
  | @root b listed =>
    rcases scopeFor_steps h with ⟨found, rfl, -⟩ | ⟨missing, -, rfl, rfl, -⟩ | ⟨-, nonempty, -⟩
    · exact ⟨rfl, found, fun _ _ h => h, fun _ _ => rfl, placed⟩
    · refine ⟨rfl, by simp, fun id c hc => ?_, fun id hid => ?_, placed.insert missing ?_⟩
      · have other : id ≠ b.id := by
          rintro rfl
          rw [missing] at hc
          cases hc
        simpa [other] using hc
      · have other : id ≠ b.id := fun same => hid (same ▸ List.mem_singleton.2 rfl)
        simp [other]
      · refine ⟨rfl, fun _ _ _ => ⟨rfl, rfl⟩, fun b' around listed' same => ?_⟩
        cases List.inj_on_of_nodup_map distinct listed' listed same
    · exact absurd rfl nonempty
  | @nested b around chain listed tail ih =>
    have fresh : b.id ∉ chain := not_mem_of_outward distinct (.nested listed tail)
    rcases scopeFor_steps h with ⟨found, rfl, -⟩ | ⟨-, empty, -⟩ |
      ⟨missing, -, outer, d₁, t₁, context, first, -, made, rfl⟩
    · exact ⟨rfl, found, fun _ _ h => h, fun _ _ => rfl, placed⟩
    · obtain ⟨rest, rfl⟩ := tail.cons_eq
      cases empty
    · obtain ⟨rfl, -⟩ := Prod.mk.inj made
      have before := ih first
      obtain ⟨scopes, rfl⟩ : ∃ scopes, d₁ = { d with scopes } := ⟨_, before.only_scopes⟩
      have missing₁ : scopes.get? b.id = none := (before.others b.id fresh).trans missing
      have outer_made : scopes.get? around = some outer := by
        obtain ⟨rest, rfl⟩ := tail.cons_eq
        exact before.made
      have other : around ≠ b.id := by
        rintro rfl
        rw [missing₁] at outer_made
        cases outer_made
      refine ⟨rfl, by simp, fun id c hc => ?_, fun id hid => ?_, before.placed.insert missing₁ ?_⟩
      · have kept : scopes.get? id = some c := before.kept id c hc
        have other : id ≠ b.id := by
          rintro rfl
          rw [missing₁] at kept
          cases kept
        simpa [other] using kept
      · obtain ⟨ne, outside⟩ := not_or.1 (mt List.mem_cons.2 hid)
        have same : scopes.get? id = d.scopes.get? id := before.others id outside
        simpa [ne] using same
      · have globals : outer.globals = d.globals := (before.placed around outer outer_made).globals
        refine ⟨globals, fun b' listed' same => ?_, fun b' around' listed' same => ?_⟩
        · cases List.inj_on_of_nodup_map distinct listed' listed same
        · cases List.inj_on_of_nodup_map distinct listed' listed same
          exact ⟨outer, by simpa [other] using outer_made, rfl⟩

end Scopes

section Tables
variable {d d' : Document} {bound : Nat} {s t : Store}

theorem addFunctions_ok {functions : List (String × Handle)}
    (h : d.addFunctions functions bound s = .ok (d', t)) :
    ∃ table, d' = { d with functions := table } := by
  induction functions generalizing d s with
  | nil =>
    cases h
    exact ⟨_, rfl⟩
  | cons f rest ih =>
    obtain ⟨_, _, _, h⟩ := bind_ok h
    obtain ⟨table, rfl⟩ := ih h
    exact ⟨table, rfl⟩

/-- The document with the targets recorded, in order. -/
def recordAll (d : Document) (block : String) (targets : List Expr) : Document :=
  targets.foldl (fun d t => d.record block t) d

/-- Recording reads the hasher, and writes the hasher and the definitions. -/
theorem recordAll_with (d : Document) (block : String) (targets : List Expr)
    (scopes : SortedMap String Scope) :
    recordAll { d with scopes } block targets =
      { d with
        scopes
        hasher := (d.recordAll block targets).hasher
        definitions := (d.recordAll block targets).definitions } := by
  induction targets generalizing d with
  | nil => rfl
  | cons target rest ih => exact ih (d.record block target)

/-- What a document is after a block has been run. -/
structure Ran (d : Document) (block : Block) (chain : List String) (d' : Document) : Prop where
  chunk : d'.chunk = d.chunk
  registry : d'.registry = d.registry
  options : d'.options = d.options
  globals : d'.globals = d.globals
  analyzed : d'.analyzed = d.analyzed.insert block.id
  hasher : d'.hasher = (d.recordAll block.id (block.bindings.map Binding.target)).hasher
  definitions : d'.definitions =
    (d.recordAll block.id (block.bindings.map Binding.target)).definitions
  made : (d'.scopes.get? (chain.headD "")).isSome
  kept : ∀ id c, d.scopes.get? id = some c → d'.scopes.get? id = some c
  placed : d'.WellPlaced

theorem WellPlaced.of_scopes_eq (placed : d.WellPlaced) (scopes : d'.scopes = d.scopes)
    (chunk : d'.chunk = d.chunk) (globals : d'.globals = d.globals) : d'.WellPlaced := by
  intro id c found
  rw [scopes] at found
  have old := placed id c found
  refine ⟨?_, ?_, ?_⟩
  · rw [globals]
    exact old.globals
  · rw [chunk, globals]
    exact old.root
  · rw [chunk, scopes]
    exact old.nested

theorem ran_runBlock (distinct : d.blockIds.Nodup) {id : String} {chain : List String}
    (outward : d.chunk.Outward id chain) (placed : d.WellPlaced) {block : Block}
    (h : d.runBlock block chain bound s = .ok (d', t)) : d.Ran block chain d' := by
  obtain ⟨⟨c, d₁⟩, t₁, first, h⟩ := bind_ok h
  obtain ⟨⟨_, functions⟩, t₂, bound_all, h⟩ := bind_ok h
  obtain ⟨d₂, t₃, added, h⟩ := bind_ok h
  cases h
  have made := scopeMade_scopeFor distinct outward placed first
  obtain ⟨scopes, rfl⟩ : ∃ scopes, d₁ = { d with scopes } := ⟨_, made.only_scopes⟩
  have recorded := recordAll_with d block.id (block.bindings.map Binding.target) scopes
  rw [recordAll] at recorded
  rw [recorded] at added
  obtain ⟨table, rfl⟩ := addFunctions_ok added
  have present : scopes.get? (chain.headD "") = some c := made.made
  refine ⟨rfl, rfl, rfl, rfl, rfl, rfl, rfl, ?_, made.kept, ?_⟩
  · exact Option.isSome_iff_exists.2 ⟨c, present⟩
  · exact made.placed.of_scopes_eq rfl rfl rfl

end Tables

end ScriptInference.Document
