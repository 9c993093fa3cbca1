import ScriptInference.Proofs.Document.Mirrors

/-!
# What seeding makes

Seeding a registry makes an entity for each type of the catalog, and for each definition of the type
a member that names nothing. Everything that was in the store before stays as it was. A document
that is opened over the registry begins a zone: the registry lies below its base, and its globals
are the first node above it.
-/

namespace ScriptInference

namespace Store
variable {s t : Store} {h : Handle}

/-- A store whose nodes name only nodes of the store begins a zone at its end. -/
theorem Closed.twin (closed : s.Closed) : s.Twin ⟨s.size, ∅⟩ s := by
  have outside : ∀ {h : Handle}, s.size ≤ h.index → s.node h = default := fun hh =>
    node_of_not_mem (Nat.not_lt.2 hh)
  constructor
  · rfl
  · exact Nat.le_refl _
  · exact fun _ => rfl
  · exact fun _ _ _ => rfl
  · intro h hh k hk
    rw [outside hh] at hk
    cases hk
  · exact fun h hh k hk => closed h hh k hk
  · intro h hh
    rw [outside hh]
    exact default_formed
  · exact fun h hh => hh.elim
  · exact fun h hh => hh.elim
  · exact fun h hh => hh.elim

theorem Seeded.grow (seeded : s.Seeded s.size h) (later : s.Later s.size t) :
    t.Seeded t.size h := by
  have still := seeded.mono later
  constructor
  · exact Nat.lt_of_lt_of_le still.below later.size_le
  · exact still.isa
  · exact still.named
  · intro key m hm
    obtain ⟨below, bare⟩ := still.member hm
    exact ⟨Nat.lt_of_lt_of_le below later.size_le, bare⟩

/-- No member of a type is the type itself. -/
theorem Seeded.ne_of_member? {base : Nat} {key : EntryKey} {m : Handle} (seeded : s.Seeded base h)
    (hm : s.member? h key = some m) : m ≠ h := by
  rintro rfl
  have named : m ∈ (s.node m).links := Entity.mem_links_of_member? hm
  rw [(seeded.member hm).2.1] at named
  cases named

/-- A type that is new in the store is being given its members. -/
structure Filling (s t : Store) (h : Handle) : Prop where
  closed : t.Closed
  size_le : s.size ≤ t.size
  kept : ∀ n ∈ s, t.node n = s.node n
  new : h ∉ s
  seeded : t.Seeded t.size h

namespace Filling

theorem begin (closed : s.Closed) {e : Entity} (bare : e.links = []) :
    s.Filling (s.alloc e).2 (s.alloc e).1 := by
  have content : (s.alloc e).2.node (s.alloc e).1 = e := node_alloc e s
  have none : ∀ k, k ∉ e.links := by simp [bare]
  have memberless : ∀ {key m}, (s.alloc e).2.member? (s.alloc e).1 key ≠ some m := by
    intro key m hm
    rw [member?, content] at hm
    exact none m (Entity.mem_links_of_member? hm)
  constructor
  · exact closed.alloc fun k hk => (none k hk).elim
  · rw [size_alloc]
    omega
  · exact node_alloc_lt e s
  · exact Nat.lt_irrefl s.size
  · constructor
    · exact mem_alloc e s
    · rw [content]
      cases isa : e.isa with
      | none => rfl
      | some p => exact (none p.target
        (Entity.mem_links_iff.2 (.inr (.inr (.inl ⟨p, isa, rfl⟩))))).elim
    · exact fun hm => (memberless hm).elim
    · exact fun hm => (memberless hm).elim

theorem of_nodes_eq {u : Store} (filling : s.Filling t h) (nodes : u.nodes = t.nodes) :
    s.Filling u h where
  closed := filling.closed.of_nodes_eq nodes
  size_le := (size_eq nodes).symm ▸ filling.size_le
  kept n hn := (node_eq nodes n).trans (filling.kept n hn)
  new := filling.new
  seeded := filling.seeded.grow (.of_nodes_eq nodes)

/-- The type gets new contents, and the rest of the store stays as it is. -/
theorem rewrite (filling : s.Filling t h) {f : Entity → Entity} (closed : (t.modifyNode h f).Closed)
    (isa : (f (t.node h)).isa = none)
    (members : ∀ {key m}, (f (t.node h)).member? key = some m → (∃ name, key = .identifier name) ∧
      m ≠ h ∧ m ∈ t ∧ (t.node m).links = [] ∧ (t.node m).HasType) :
    s.Filling (t.modifyNode h f) h := by
  have size : (t.modifyNode h f).size = t.size := size_modifyNode h f t
  have others : ∀ n, n ≠ h → (t.modifyNode h f).node n = t.node n := fun n ne => by
    rw [node_modifyNode_eq, if_neg fun here => ne here.1]
  have here : (t.modifyNode h f).node h = f (t.node h) := by
    rw [node_modifyNode_eq, if_pos ⟨rfl, filling.seeded.below⟩]
  constructor
  · exact closed
  · exact size.symm ▸ filling.size_le
  · intro n hn
    rw [others n fun same => filling.new (same ▸ hn)]
    exact filling.kept n hn
  · exact filling.new
  · constructor
    · exact size.symm ▸ filling.seeded.below
    · rw [here]
      exact isa
    · intro key m hm
      rw [member?, here] at hm
      exact (members hm).1
    · intro key m hm
      rw [member?, here] at hm
      obtain ⟨-, ne, stored, contents⟩ := members hm
      rw [size, others m ne]
      exact ⟨stored, contents⟩

/-- A member is made and stored under its name. -/
theorem put (filling : s.Filling t h) {e : Entity} (bare : e.links = []) (typed : e.HasType)
    (name : String) : s.Filling ((t.alloc e).2.putMember h (.identifier name) (t.alloc e).1) h := by
  have later : t.Later t.size (t.alloc e).2 := .alloc (Nat.le_refl _) e
  have closed : (t.alloc e).2.Closed := filling.closed.alloc fun k hk => by
    rw [bare] at hk
    cases hk
  have grown : s.Filling (t.alloc e).2 h := by
    refine ⟨closed, Nat.le_trans filling.size_le later.size_le,
      fun n hn => ?_, filling.new, filling.seeded.grow later⟩
    rw [node_alloc_lt e t n (Nat.lt_of_lt_of_le hn filling.size_le), filling.kept n hn]
  have stored := mem_alloc e t
  have fresh : (t.alloc e).1 ≠ h := by
    rintro rfl
    exact Nat.lt_irrefl t.size filling.seeded.below
  refine of_nodes_eq
    (grown.rewrite (closed.insert_member stored h (.identifier name)) grown.seeded.isa ?_)
    (nodes_releaseAll _ _)
  · intro key m hm
    rw [Entity.member?, SortedMap.get?_insert] at hm
    split at hm
    · rename_i same
      cases hm
      rw [node_alloc]
      exact ⟨⟨name, same⟩, fresh, stored, bare, typed⟩
    · exact ⟨grown.seeded.named hm, grown.seeded.ne_of_member? hm, grown.seeded.member hm⟩

theorem shape (filling : s.Filling t h) :
    s.Filling (t.modifyNode h fun e => { e with shaped := true }) h := by
  have closed : (t.modifyNode h fun e => { e with shaped := true }).Closed :=
    filling.closed.modifyNode fun k hk => filling.closed.links h hk
  apply filling.rewrite closed filling.seeded.isa
  intro key m hm
  exact ⟨filling.seeded.named hm, filling.seeded.ne_of_member? hm, filling.seeded.member hm⟩

end Filling

theorem hasType_entity (name : String) (d : Definition) : (d.entity name).HasType :=
  ⟨d.type, SortedSet.mem_ofList.2 List.mem_cons_self⟩

/-- The definitions are stored as members of the node, one after the other. -/
def putDefinitions (s : Store) (h : Handle) (entries : List (String × Definition)) : Store :=
  entries.foldl
    (fun s entry => (s.alloc (entry.2.entity entry.1)).2.putMember h (.identifier entry.1)
      (s.alloc (entry.2.entity entry.1)).1) s

theorem insertSignature_eq (h : Handle) (signature : Signature) (s : Store) :
    s.insertSignature h signature =
    (s.putDefinitions h signature.definitions.toList).modifyNode h fun e =>
      { e with shaped := true } := rfl

theorem Filling.putDefinitions (filling : s.Filling t h) (entries : List (String × Definition)) :
    s.Filling (t.putDefinitions h entries) h := by
  induction entries generalizing t with
  | nil => exact filling
  | cons entry rest ih => exact ih (filling.put rfl (hasType_entity entry.1 entry.2) entry.1)

theorem filling_insertSignature (filling : s.Filling t h) (signature : Signature) :
    s.Filling (t.insertSignature h signature) h := by
  rw [insertSignature_eq]
  exact (filling.putDefinitions signature.definitions.toList).shape

theorem filling_ofSignature (closed : s.Closed) (signature : Signature) :
    s.Filling (s.ofSignature signature).2 (s.ofSignature signature).1 := by
  have made := Filling.begin closed
    (e := { Entity.ofType .internal signature.typeName with label := signature.typeName }) rfl
  exact filling_insertSignature made signature

end Store

namespace TypeRegistry
variable {r : TypeRegistry} {s : Store}

/-- The types of a registry, in a store that names only what is stored. -/
structure Founded (r : TypeRegistry) (s : Store) : Prop where
  closed : s.Closed
  seeded : r.Seeded s.size s

theorem Founded.add (founded : r.Founded s) (signature : Signature) {r' : TypeRegistry}
    (holds : ∀ h ∈ r'.holds, h = (s.ofSignature signature).1 ∨ h ∈ r.holds) :
    r'.Founded (s.ofSignature signature).2 := by
  have filling := Store.filling_ofSignature founded.closed signature
  have later : s.Later s.size (s.ofSignature signature).2 :=
    .of_kept (Nat.le_refl _) filling.size_le filling.kept
  refine ⟨filling.closed, fun h hh => ?_⟩
  rcases holds h hh with rfl | old
  · exact filling.seeded
  · exact (founded.seeded h old).grow later

theorem Founded.of_nodes_eq {t : Store} (founded : r.Founded s) (nodes : t.nodes = s.nodes) :
    r.Founded t :=
  ⟨founded.closed.of_nodes_eq nodes, fun h hh => (founded.seeded h hh).grow (.of_nodes_eq nodes)⟩

theorem mem_holds_seedType {signature : Signature} {h : Handle}
    (hh : h ∈ (r.seedType signature s).1.holds) :
    h = (s.ofSignature signature).1 ∨ h ∈ r.holds := by
  rcases List.mem_append.1 hh with hh | hh
  · exact .inr (List.mem_append_left _ hh)
  · exact (SortedMap.mem_values_insert hh).imp_right (List.mem_append_right _)

theorem mem_holds_seedPrimitive {signature : Signature} {h : Handle}
    (hh : h ∈ (r.seedPrimitive signature s).1.holds) :
    h = (s.ofSignature signature).1 ∨ h ∈ r.holds := by
  rcases List.mem_append.1 hh with hh | hh
  · exact (SortedMap.mem_values_insert hh).imp_right (List.mem_append_left _)
  · exact (SortedMap.mem_values_insert hh).imp_right (List.mem_append_right _)

/-- Seeding makes the entity of one signature after the other, and puts it into one table or into
both. -/
theorem new_induction {P : TypeRegistry → Store → Prop} (catalog : Catalog)
    (blank : P { catalog } s)
    (add : ∀ {r s} (signature : Signature) {r' : TypeRegistry}, P r s →
      (∀ h ∈ r'.holds, h = (s.ofSignature signature).1 ∨ h ∈ r.holds) →
        P r' (s.ofSignature signature).2)
    (nodes : ∀ {r s t}, P r s → t.nodes = s.nodes → P r t) :
    P (new catalog s).1 (new catalog s).2 := by
  have seeded : ∀ (f : TypeRegistry → Signature → Store → TypeRegistry × Store),
      (∀ {r s} signature, P r s → P (f r signature s).1 (f r signature s).2) →
      ∀ (signatures : List Signature) (now : TypeRegistry × Store), P now.1 now.2 →
        P (signatures.foldl (fun now signature => f now.1 signature now.2) now).1
          (signatures.foldl (fun now signature => f now.1 signature now.2) now).2 := by
    intro f step signatures
    induction signatures with
    | nil => exact fun _ begun => begun
    | cons signature others ih => exact fun now begun => ih _ (step signature begun)
  have primitive : ∀ {r s} signature, P r s →
      P (r.seedPrimitive signature s).1 (r.seedPrimitive signature s).2 :=
    fun signature begun => nodes (add signature begun fun _ => mem_holds_seedPrimitive)
      (Store.nodes_retainAll [_] _)
  have type : ∀ {r s} signature, P r s → P (r.seedType signature s).1 (r.seedType signature s).2 :=
    fun signature begun => add signature begun fun _ => mem_holds_seedType
  exact seeded _ type catalog.types.values _
    (seeded _ primitive catalog.primitives.values ({ catalog }, s) blank)

/-- A new registry is founded. -/
theorem founded_new (catalog : Catalog) (closed : s.Closed) :
    (new catalog s).1.Founded (new catalog s).2 := by
  exact new_induction catalog ⟨closed,
    fun h hh => by cases hh⟩ (fun signature _ founded => founded.add signature) Founded.of_nodes_eq

/-- The entities of the types, and their members. -/
def seeds (r : TypeRegistry) (s : Store) : Set Handle :=
  {h | h ∈ r.holds ∨ ∃ n ∈ r.holds, ∃ key, s.member? n key = some h}

theorem Founded.mem_of_mem_seeds {h : Handle} (founded : r.Founded s) (hh : h ∈ r.seeds s) :
    h ∈ s := by
  rcases hh with type | ⟨n, type, key, member⟩
  · exact (founded.seeded h type).below
  · exact ((founded.seeded n type).member member).1

end TypeRegistry

namespace Document
variable {r : TypeRegistry} {s : Store}

/-- Documents of two programs that have just been opened over a registry. -/
theorem mirrors_new (founded : r.Founded s) (N : Naming) (c c' : Chunk) (options : Options)
    {hasher : Hasher} (faithful : hasher.Faithful) :
    Mirrors N c c' ⟨s.size, ∅⟩ (new c r options hasher s).2 (new c' r options hasher s).2
      (new c r options hasher s).1 (new c' r options hasher s).1 := by
  have twin := founded.closed.twin
  have typed : Scope.newGlobals.HasType := Infer.hasType_ofType .map Tag.map
  have made := twin.alloc (e := Scope.newGlobals) rfl (fun k hk => nomatch hk) (typed.formed rfl)
  have later : s.Later s.size (s.alloc Scope.newGlobals).2 :=
    .alloc (Nat.le_refl _) Scope.newGlobals
  have shaped : ((s.alloc Scope.newGlobals).2.node (s.alloc Scope.newGlobals).1).isMapShaped =
      true := by
    rw [Store.node_alloc]
    decide
  exact {
    stores := made
    grounded := {
      registry := founded.seeded.mono later
      globals := twin.linkable_new (Store.mem_alloc Scope.newGlobals s) (Nat.lt_irrefl s.size)
      shaped
      scopes := fun found => nomatch found }
    chunk := rfl
    chunk' := rfl
    registry := rfl
    options := rfl
    globals := rfl
    faithful
    faithful' := faithful
    scopes := fun _ => rfl
    functions := .empty N _
    analyzed := fun _ => iff_of_false (SortedSet.not_mem_empty _) (SortedSet.not_mem_empty _)
    definitions := .nil }

end Document

end ScriptInference
