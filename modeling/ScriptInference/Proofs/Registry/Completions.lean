import ScriptInference.Proofs.Entity.Grounding
import ScriptInference.Proofs.Registry.Disambiguation
import ScriptInference.Proofs.Registry.Seeding

/-!
# The names that complete an entity

A list of completions is filled in the order in which a lookup searches, and a name keeps the item
that it got first; so the item of a name describes what the lookup finds. After the members come the
names of the types that a registry knows. A catalog type has no prototype, so that it lists all that
is found on it, and its members lead nowhere, so that a query about several types always ends. Hence
a name is listed exactly if reading it does not come down to a new `any`.
-/

namespace ScriptInference

/-! ## Filling a list -/

theorem SortedMap.get?_insertIfNew {κ υ : Type} [LT κ] [DecidableEq κ] [DecidableLT κ]
    [StrictOrder κ] (m : SortedMap κ υ) (k j : κ) (v : υ) :
    (m.insertIfNew k v).get? j = (m.get? j).or (if k = j then some v else none) := by
  unfold insertIfNew contains
  by_cases same : k = j
  · subst same
    cases found : m.get? k <;> simp [found]
  · cases m.get? k <;> simp [same, Ne.symm same]

theorem Completions.get?_addMissing (items more : Completions) (name : String) :
    (items.addMissing more).get? name = (items.get? name).or (more.get? name) := by
  have filled : ∀ (entries : List (String × Completion)) (items : Completions),
      (entries.foldl (fun items e => items.insertIfNew e.1 e.2) items).get? name =
        (items.get? name).or ((entries.find? fun e => e.1 = name).map (·.2)) := by
    intro entries
    induction entries with
    | nil => exact fun items => (Option.or_none).symm
    | cons e rest ih =>
      intro items
      rw [List.foldl_cons, ih, SortedMap.get?_insertIfNew, Option.or_assoc, List.find?_cons]
      by_cases same : e.1 = name <;> simp [same]
  exact filled more.entries items

namespace Store
variable {s t : Store} {h : Handle}

theorem get?_addNames (s : Store) (items : Completions) (h : Handle) (name : String) :
    (s.addNames items h).get? name =
      (items.get? name).or ((s.member? h (.identifier name)).map
        fun m => .ofEntity (s.node m)) := by
  rw [addNames, member?, Entity.member?]
  obtain ⟨entries, sorted⟩ := (s.node h).members
  change SortedMap.get? (entries.foldl _ items) name = (items.get? name).or
    (((entries.find? fun e => e.1 = .identifier name).map (·.2)).map fun m => .ofEntity (s.node m))
  clear sorted
  induction entries generalizing items with
  | nil => exact (Option.or_none).symm
  | cons e rest ih =>
    obtain ⟨key, m⟩ := e
    rw [List.foldl_cons, ih, List.find?_cons]
    cases key with
    | identifier other =>
      rw [SortedMap.get?_insertIfNew, Option.or_assoc]
      by_cases same : other = name <;> simp [same]
    | type tag => simp

/-- A name is described by the first node that has it. -/
theorem get?_foldl_addNames (s : Store) (hs : List Handle) (items : Completions) (name : String) :
    (hs.foldl s.addNames items).get? name = (items.get? name).or
      ((hs.findSome? fun h => s.member? h (.identifier name)).map
        fun m => .ofEntity (s.node m)) := by
  induction hs generalizing items with
  | nil => exact (Option.or_none).symm
  | cons h rest ih =>
    rw [List.foldl_cons, ih, get?_addNames, Option.or_assoc, List.findSome?_cons]
    cases s.member? h (.identifier name) <;> rfl

theorem get?_memberNames (s : Store) (h : Handle) (name : String) :
    (s.memberNames h).get? name = (s.findName? h name).map fun m => .ofEntity (s.node m) :=
  s.get?_foldl_addNames (s.lookupChain h) ∅ name

/-- A node that answers lookups with its own members only. -/
structure Plain (s : Store) (h : Handle) : Prop where
  shaped : (s.node h).isMapShaped = true
  alone : s.isa? h = none

instance (s : Store) (h : Handle) : Decidable (s.Plain h) :=
  decidable_of_iff ((s.node h).isMapShaped = true ∧ s.isa? h = none)
    ⟨fun both => ⟨both.1, both.2⟩, fun plain => ⟨plain.shaped, plain.alone⟩⟩

theorem Plain.findName?_eq (plain : s.Plain h) (name : String) :
    s.findName? h name = s.member? h (.identifier name) := by
  have chain : s.isaChain h = [h] := by
    rw [isaChain]
    cases s.size with
    | zero => rfl
    | succ bound => rw [isaFrom, plain.alone]
  have answering : s.lookupChain h = [h] := by
    rw [lookupChain, chain]
    exact if_pos plain.shaped
  rw [findName?, answering, List.findSome?_singleton]

/-! ## Catalog types -/

/-- The members of the node stand for definitions. -/
def Defines (s : Store) (h : Handle) : Prop :=
  ∀ key m, s.member? h key = some m → ∃ name d, s.node m = Definition.entity name d

/-- The entity of a catalog type: it answers with its own members, and these stand for
definitions. -/
structure CatalogType (s : Store) (h : Handle) : Prop where
  shaped : (s.node h).isMapShaped = true
  isa : (s.node h).isa = none
  defines : s.Defines h

theorem CatalogType.plain (type : s.CatalogType h) : s.Plain h where
  shaped := type.shaped
  alone := by
    rw [isa?, type.isa]
    rfl

theorem CatalogType.exists_entity (type : s.CatalogType h) {name : String} {m : Handle}
    (found : s.findName? h name = some m) : ∃ name d, s.node m = Definition.entity name d := by
  rw [type.plain.findName?_eq] at found
  exact type.defines _ m found

theorem CatalogType.of_same (type : s.CatalogType h) (same : t.node h = s.node h)
    (members : ∀ {key m}, s.member? h key = some m → t.node m = s.node m) : t.CatalogType h := by
  constructor
  · rw [same]
    exact type.shaped
  · rw [same]
    exact type.isa
  · intro key m hm
    rw [member?, same] at hm
    rw [members hm]
    exact type.defines key m hm

theorem Filling.defines_put (filling : s.Filling t h) (defines : t.Defines h) (name : String)
    (d : Definition) :
    ((t.alloc (d.entity name)).2.putMember h (.identifier name)
      (t.alloc (d.entity name)).1).Defines h := by
  intro key m hm
  have ne := (filling.put rfl (hasType_entity name d) name).seeded.ne_of_member? hm
  have stored : h ∈ (t.alloc (d.entity name)).2 :=
    (Later.alloc (Nat.le_refl t.size) (d.entity name)).mem filling.seeded.below
  have nodes : ∀ n, ((t.alloc (d.entity name)).2.putMember h (.identifier name)
      (t.alloc (d.entity name)).1).node n = _ := fun n => node_eq (nodes_releaseAll _ _) n
  rw [nodes, node_modifyNode_eq, if_neg fun here => ne here.1]
  rw [member?, nodes, node_modifyNode_eq, if_pos ⟨rfl, stored⟩, Entity.member?,
    SortedMap.get?_insert] at hm
  split at hm
  · cases hm
    exact ⟨name, d, node_alloc _ t⟩
  · rw [node_alloc_lt _ t h filling.seeded.below] at hm
    rw [node_alloc_lt _ t m (filling.seeded.member hm).1]
    exact defines key m hm

theorem Filling.defines_putDefinitions (filling : s.Filling t h) (defines : t.Defines h)
    (entries : List (String × Definition)) : (t.putDefinitions h entries).Defines h := by
  induction entries generalizing t with
  | nil => exact defines
  | cons entry rest ih =>
    exact ih (filling.put rfl (hasType_entity entry.1 entry.2) entry.1)
      (filling.defines_put defines entry.1 entry.2)

theorem Filling.catalogType (filling : s.Filling t h) (defines : t.Defines h) :
    (t.modifyNode h fun e => { e with shaped := true }).CatalogType h := by
  have here : (t.modifyNode h fun e => { e with shaped := true }).node h =
      { t.node h with shaped := true } := by
    rw [node_modifyNode_eq, if_pos ⟨rfl, filling.seeded.below⟩]
  constructor
  · rw [here]
    rfl
  · rw [here]
    exact filling.seeded.isa
  · intro key m hm
    rw [member?, here] at hm
    rw [node_modifyNode_eq, if_neg fun same => filling.seeded.ne_of_member? hm same.1]
    exact defines key m hm

theorem catalogType_ofSignature (closed : s.Closed) (signature : Signature) :
    (s.ofSignature signature).2.CatalogType (s.ofSignature signature).1 := by
  let e : Entity := { Entity.ofType .internal signature.typeName with label := signature.typeName }
  have begun : s.Filling (s.alloc e).2 (s.alloc e).1 := .begin closed rfl
  have empty : (s.alloc e).2.Defines (s.alloc e).1 := by
    intro key m hm
    rw [member?, node_alloc] at hm
    cases hm
  have filled := begun.putDefinitions signature.definitions.toList
  exact filled.catalogType (begun.defines_putDefinitions empty signature.definitions.toList)

end Store

namespace TypeRegistry
variable {catalog : Catalog} {r : TypeRegistry} {s : Store} {name : String} {h : Handle}

theorem catalogType_new (catalog : Catalog) (closed : s.Closed) :
    ∀ h ∈ (new catalog s).1.holds, (new catalog s).2.CatalogType h := by
  have all := @new_induction s (fun r s => r.Founded s ∧
    ∀ h ∈ r.holds, s.CatalogType h) catalog ?_ ?_ ?_
  · exact all.2
  · exact ⟨⟨closed, fun h hh => by cases hh⟩, fun h hh => by cases hh⟩
  · rintro r s signature r' ⟨founded, types⟩ holds
    refine ⟨founded.add signature holds, fun h hh => ?_⟩
    rcases holds h hh with rfl | old
    · exact Store.catalogType_ofSignature founded.closed signature
    · have kept := (Store.filling_ofSignature founded.closed signature).kept
      have seeded := founded.seeded h old
      exact (types h old).of_same (kept h seeded.below) fun hm => kept _ (seeded.member hm).1
  · rintro r s t ⟨founded, types⟩ nodes
    refine ⟨founded.of_nodes_eq nodes, fun h hh => ?_⟩
    exact (types h hh).of_same (Store.node_eq nodes h) fun _ => Store.node_eq nodes _

/-- The types of the registry, custom ones apart, are those of a registry that was seeded from the
catalog in some store, and the seeds still have the contents that they were made with. -/
def SeededFrom (catalog : Catalog) (r : TypeRegistry) (s : Store) : Prop :=
  ∃ s₀ : Store, s₀.Closed ∧
    (∀ name, name ∉ r.customs → r.type? name = (new catalog s₀).1.type? name) ∧
    ∀ n ∈ (new catalog s₀).1.seeds (new catalog s₀).2, s.node n = (new catalog s₀).2.node n

theorem seededFrom_new (catalog : Catalog) {s₀ : Store} (closed : s₀.Closed)
    (kept : ∀ n ∈ (new catalog s₀).2, s.node n = (new catalog s₀).2.node n) :
    (new catalog s₀).1.SeededFrom catalog s :=
  ⟨s₀, closed, fun _ _ => rfl,
    fun n hn => kept n ((founded_new catalog closed).mem_of_mem_seeds hn)⟩

theorem SeededFrom.catalogType (seeded : r.SeededFrom catalog s) (own : name ∉ r.customs)
    (registered : r.type? name = some h) : s.CatalogType h := by
  obtain ⟨s₀, closed, types, kept⟩ := seeded
  rw [types name own] at registered
  have held := mem_holds_of_type? registered
  exact (catalogType_new catalog closed h held).of_same (kept h (.inl held))
    fun hm => kept _ (.inr ⟨h, held, _, hm⟩)

/-- All types that the registry knows are catalog types. -/
def OfCatalog (r : TypeRegistry) (s : Store) : Prop :=
  ∀ name h, r.type? name = some h → s.CatalogType h

/-! ## Listed names -/

section
variable {tags : SortedSet String} {property : String} {m : Handle}

theorem get?_completions (r : TypeRegistry) (s : Store) (h : Handle) (name : String) :
    (r.completions s h).get? name = ((s.findName? h name).map fun m => .ofEntity (s.node m)).or
      ((r.identifiers s (s.node h).types).get? name) := by
  rw [completions, Completions.get?_addMissing, Store.get?_memberNames]

/-- The types among some have a name listed exactly if a query about them has a match. -/
theorem isSome_get?_identifiers_iff (types : r.OfCatalog s) :
    ((r.identifiers s tags).get? property).isSome = true ↔ r.found s tags property ≠ [] := by
  rw [identifiers, Store.get?_foldl_addNames, show (∅ : Completions).get? property = none from rfl,
    Option.none_or, Option.isSome_map, List.findSome?_isSome_iff]
  constructor
  · rintro ⟨h, listed, stored⟩
    obtain ⟨⟨name, h⟩, candidate, rfl⟩ := List.mem_map.1 listed
    obtain ⟨m, stored⟩ := Option.isSome_iff_exists.1 stored
    rw [← (types _ h (mem_candidates_iff.1 candidate).1).plain.findName?_eq] at stored
    exact List.ne_nil_of_mem (mem_matchesAmong_iff.2 ⟨h, candidate, stored⟩)
  · intro occupied
    obtain ⟨⟨name, m⟩, found⟩ := List.exists_mem_of_ne_nil _ occupied
    obtain ⟨h, listed, stored⟩ := mem_matchesAmong_iff.1 found
    rw [(types _ h (mem_candidates_iff.1 listed).1).plain.findName?_eq] at stored
    exact ⟨h, List.mem_map_of_mem listed, Option.isSome_iff_exists.2 ⟨m, stored⟩⟩

theorem contains_completions_iff (types : r.OfCatalog s) (h : Handle) (name : String) :
    (r.completions s h).contains name = true ↔
      (∃ m, s.findName? h name = some m) ∨ r.found s (s.node h).types name ≠ [] := by
  rw [SortedMap.contains, get?_completions, Option.isSome_or, Bool.or_eq_true, Option.isSome_map,
    Option.isSome_iff_exists, isSome_get?_identifiers_iff types]

theorem exists_entity_of_mem_found (types : r.OfCatalog s)
    (found : (name, m) ∈ r.found s tags property) :
    ∃ name d, s.node m = Definition.entity name d := by
  obtain ⟨h, listed, stored⟩ := mem_matchesAmong_iff.1 found
  exact (types _ h (mem_candidates_iff.1 listed).1).exists_entity stored

end

end TypeRegistry

/-- Reading what stands for a definition gives something known, without members. -/
theorem Store.reading_of_definition {s : Store} {m : Handle}
    (made : ∃ name d, s.node m = Definition.entity name d) (suppress : Bool) :
    (s.reading m suppress).kind ≠ .unknown ∧ (s.reading m suppress).members = ∅ := by
  obtain ⟨name, d, made⟩ := made
  unfold Store.reading Store.returned
  rw [made]
  split
  · have known : EntityKind.expression ≠ .unknown := by decide
    exact ⟨known, rfl⟩
  · have known : (if d.isFunction then EntityKind.function else .property) ≠ .unknown := by
      cases d.isFunction <;> decide
    exact ⟨known, rfl⟩

namespace Infer
variable {r : TypeRegistry} {s t : Store} {tags : SortedSet String} {name : String} {h m : Handle}

theorem exists_entity_of_settles (types : r.OfCatalog s)
    (decided : Settles (r.candidates tags) (r.found s tags name) (r.general? s name) m) :
    ∃ name d, s.node m = Definition.entity name d := by
  cases decided with
  | candidate _ found | any _ found => exact TypeRegistry.exists_entity_of_mem_found types found
  | general _ _ _ found =>
    obtain ⟨h, registered, stored⟩ := Option.bind_eq_some_iff.1 found
    exact (types _ h registered).exists_entity stored
  | only _ single =>
    exact TypeRegistry.exists_entity_of_mem_found types (single ▸ List.mem_cons_self)

/-- A query about catalog types has an answer if there is a match, and the answer is something
known. -/
theorem definition_of_match (sound : s.Sound) (alive : ∀ h ∈ r.holds, s.live h)
    (types : r.OfCatalog s) (occupied : r.found s tags name ≠ []) (suppress : Bool) :
    ∃ bound d t, definition r tags name suppress bound s = .ok (some d, t) ∧
      (t.node d).kind ≠ .unknown := by
  rcases settles_cases (r.candidates tags) (r.found s tags name) (r.general? s name) with
    missing | ⟨m, decided⟩ | divided
  · exact absurd missing occupied
  · obtain ⟨d, t, ran, -, contents⟩ := makes_definition sound alive decided suppress
    refine ⟨0, d, t, ran 0, ?_⟩
    rw [contents]
    exact (Store.reading_of_definition (exists_entity_of_settles types decided) suppress).1
  · obtain ⟨first, head⟩ := Option.ne_none_iff_exists'.1 (mt List.head?_eq_none_iff.1 occupied)
    obtain ⟨copies, u, -, sound', inside, copied, ends, merges⟩ :=
      definition_of_divided sound alive divided suppress head
    -- the copies have no members, so that their union follows nothing
    have grounded : ∀ b ∈ copies, u.Grounded b := by
      intro b hb
      obtain ⟨found, hf, contents⟩ := exists_of_mem_right copied hb
      have made := TypeRegistry.exists_entity_of_mem_found types hf
      refine Acc.intro b fun k hk => ?_
      rw [contents, (Store.reading_of_definition made suppress).2] at hk
      cases hk
    obtain ⟨bound, ⟨answer, t⟩, ran⟩ := ends.2 (union_ends_of_grounded sound'.closed _ name inside
      fun b hb => grounded b (List.mem_of_mem_tail hb))
    obtain ⟨merged, rfl, -, -, kind, -⟩ := merges bound answer t ran
    refine ⟨bound, merged, t, ran, ?_⟩
    rw [kind]
    have found : first ∈ r.found s tags name := List.mem_of_mem_head? head
    exact (Store.reading_of_definition (TypeRegistry.exists_entity_of_mem_found types found)
      suppress).1

theorem exists_definition_iff (sound : s.Sound) (alive : ∀ h ∈ r.holds, s.live h)
    (types : r.OfCatalog s) {suppress : Bool} :
    (∃ bound d t, definition r tags name suppress bound s = .ok (some d, t)) ↔
      r.found s tags name ≠ [] := by
  constructor
  · rintro ⟨bound, d, t, ran⟩ unmatched
    have answer := (definition_answers sound alive ran).1.2 unmatched
    cases answer
  · intro matched
    obtain ⟨bound, d, t, ran, -⟩ := definition_of_match sound alive types matched suppress
    exact ⟨bound, d, t, ran⟩

/-! ## Reading a name -/

/-- What was stored, or is of a known kind, is not the new `any`. -/
theorem ne_fallback {d : Handle} (known : d ∈ s ∨ (t.node d).kind ≠ .unknown) (name : String) :
    (d, t) ≠ s.alloc (.anyNamed name) := by
  rintro same
  rcases known with old | known
  · have fresh : d = (s.alloc (.anyNamed name)).1 := congrArg Prod.fst same
    rw [fresh] at old
    exact Nat.lt_irrefl s.size old
  · have new : (t.node d).kind =
        ((s.alloc (.anyNamed name)).2.node (s.alloc (.anyNamed name)).1).kind :=
      congrArg (fun answer => (answer.2.node answer.1).kind) same
    rw [Store.node_alloc] at new
    exact known new

/-- A member that is found is read as it is stored, or called. -/
theorem resolveProperty_of_found (closed : s.Closed) (found : s.findName? h name = some m)
    (r : TypeRegistry) (suppress : Bool) (bound : Nat) :
    ∃ d t, resolveProperty r h (.identifier name) suppress bound s = .ok (d, t) ∧
      (d ∈ s ∨ (t.node d).kind ≠ .unknown) := by
  have resolved : ∀ {d t}, readMember m suppress bound (s.retain m) = .ok (d, t) →
      resolveProperty r h (.identifier name) suppress bound s = .ok (d, t) := by
    intro d t read
    rw [resolveProperty, bind_of_ok (resolveMember_of_read found read)]
    rfl
  have read := readMember_eq m suppress bound (s.retain m)
  split at read
  · refine ⟨_, _, resolved read, .inr ?_⟩
    rw [Store.node_eq (Store.nodes_release m _), Store.node_alloc, Store.kind_returned]
    decide
  · exact ⟨_, _, resolved read, .inl (closed.findName? found)⟩

theorem resolveProperty_of_definition (missing : s.findName? h name = none) {suppress : Bool}
    {bound : Nat} {d : Handle}
    (defined : definition r (s.node h).types name suppress bound s = .ok (some d, t)) :
    resolveProperty r h (.identifier name) suppress bound s = .ok (d, t) := by
  have read : node h bound s = .ok (s.node h, s) := rfl
  rw [resolveProperty, bind_of_ok (resolveMember_of_none missing suppress bound)]
  simp only []
  rw [bind_of_ok read, bind_of_ok defined]
  rfl

theorem resolveProperty_of_no_match (missing : s.findName? h name = none)
    (unmatched : r.found s (s.node h).types name = []) (suppress : Bool) (bound : Nat) :
    resolveProperty r h (.identifier name) suppress bound s = .ok (s.alloc (.anyNamed name)) := by
  have read : node h bound s = .ok (s.node h, s) := rfl
  rw [resolveProperty, bind_of_ok (resolveMember_of_none missing suppress bound)]
  simp only []
  rw [bind_of_ok read, bind_of_ok (definition_of_no_match unmatched suppress bound)]
  rfl

section Listed
variable (types : r.OfCatalog s)
include types

/-- A name that is not listed is neither a member nor defined by a type. -/
theorem resolveProperty_of_unlisted (unlisted : (r.completions s h).contains name = false)
    (suppress : Bool) (bound : Nat) :
    resolveProperty r h (.identifier name) suppress bound s = .ok (s.alloc (.anyNamed name)) := by
  have absent :=
    mt (TypeRegistry.contains_completions_iff types h name).2 (Bool.eq_false_iff.1 unlisted)
  obtain ⟨missing, unmatched⟩ := not_or.1 absent
  refine resolveProperty_of_no_match ?_ (not_not.1 unmatched) suppress bound
  exact Option.eq_none_iff_forall_ne_some.2 fun m found => missing ⟨m, found⟩

/-- Reading a name that is listed ends with something other than a new `any`. -/
theorem exists_resolveProperty_of_listed (sound : s.Sound) (alive : ∀ k ∈ r.holds, s.live k)
    (listed : (r.completions s h).contains name = true) (suppress : Bool) :
    ∃ bound answer, resolveProperty r h (.identifier name) suppress bound s = .ok answer ∧
      answer ≠ s.alloc (.anyNamed name) := by
  cases found : s.findName? h name with
  | some m =>
    obtain ⟨d, t, read, known⟩ := resolveProperty_of_found sound.closed found r suppress 0
    exact ⟨0, (d, t), read, ne_fallback known name⟩
  | none =>
    have matched : r.found s (s.node h).types name ≠ [] := by
      refine ((TypeRegistry.contains_completions_iff types h name).1 listed).resolve_left ?_
      rintro ⟨m, named⟩
      rw [found] at named
      cases named
    obtain ⟨bound, d, t, defined, known⟩ := definition_of_match sound alive types matched suppress
    exact ⟨bound, (d, t), resolveProperty_of_definition found defined,
      ne_fallback (.inr known) name⟩

end Listed

/-- The item of a member describes the member that the lookup finds. -/
theorem get?_completions_of_lookup {bound : Nat}
    (looked : lookup h (.identifier name) bound s = .ok (some m, t)) (r : TypeRegistry) :
    (r.completions s h).get? name = some (.ofEntity (t.node m)) := by
  have found := exists_lookup_identifier_iff.1 ⟨bound, t, looked⟩
  have one : s.hits h (.identifier name) = [m] := by rw [← Store.toList_findName?, found]; rfl
  rw [lookup_of_hits_one one bound] at looked
  cases looked
  rw [TypeRegistry.get?_completions, found]
  rfl

/-- Two types with a member of one name. -/
def deviceCatalog : Catalog :=
  (Catalog.empty.insert ((Signature.new "Device").withDefinition "host" (.value "string"))).insert
    ((Signature.new "Router").withDefinition "host" (.value "number"))

def deviceTypes : TypeRegistry := (TypeRegistry.new deviceCatalog .empty).1

def deviceSeeds : Store := (TypeRegistry.new deviceCatalog .empty).2

/-- An entity of both types and its prototype, which has it for a prototype in turn. -/
def devices : Store :=
  (((deviceSeeds.alloc
    { kind := .map, types := .ofList ["Device", "Router", Tag.map],
      members := .ofList [(.identifier "owner", ⟨6⟩)],
      isa := some ⟨⟨5⟩, false⟩ }).2.alloc
    { Entity.ofType .map Tag.map with
      members := .ofList [(.identifier "name", ⟨6⟩), (.identifier "owner", ⟨4⟩)], isa :=
        some ⟨⟨4⟩, false⟩ }).2.alloc
    (Entity.ofType .literal "string")).2

end Infer

end ScriptInference
