import ScriptInference.Proofs.Entity.Growth

/-!
# No handle dangles

A closed store stays closed under every change that a computation makes, provided that the handles
it is given lie in the store. The lemmas are stated for the primitive changes first: contents may be
replaced by contents whose links lie in the store, and new nodes may be added whose links lie in the
larger store.
-/

namespace ScriptInference

variable {k : Handle} {e : Entity} {key : EntryKey}

/-- What an entity names, component by component. -/
theorem Entity.mem_links_iff :
    k ∈ e.links ↔ k ∈ e.members.values ∨ e.result = some k ∨ (∃ p, e.isa = some p ∧ p.target = k) ∨
      e.context = some k := by
  simp only [links, parts, List.mem_append, Option.mem_toList, Option.map_eq_some_iff, or_assoc]

section Links

theorem Entity.mem_links_insert {value : Handle}
    (hk : k ∈ ({ e with members := e.members.insert key value } : Entity).links) :
    k = value ∨ k ∈ e.links := by
  rcases mem_links_iff.1 hk with member | other
  · exact (SortedMap.mem_values_insert member).imp id fun old => mem_links_iff.2 (.inl old)
  · exact .inr (mem_links_iff.2 (.inr other))

theorem Entity.mem_links_isa {isa : Option Prototype} (hk : k ∈ ({ e with isa } : Entity).links) :
    (∃ p, isa = some p ∧ p.target = k) ∨ k ∈ e.links := by
  rcases mem_links_iff.1 hk with member | result | isa | context
  · exact .inr (mem_links_iff.2 (.inl member))
  · exact .inr (mem_links_iff.2 (.inr (.inl result)))
  · exact .inl isa
  · exact .inr (mem_links_iff.2 (.inr (.inr (.inr context))))

theorem Entity.mem_links_context {context : Option Handle}
    (hk : k ∈ ({ e with context } : Entity).links) : context = some k ∨ k ∈ e.links := by
  rcases mem_links_iff.1 hk with member | result | isa | context
  · exact .inr (mem_links_iff.2 (.inl member))
  · exact .inr (mem_links_iff.2 (.inr (.inl result)))
  · exact .inr (mem_links_iff.2 (.inr (.inr (.inl isa))))
  · exact .inl context

end Links

namespace Store
variable {s t : Store}

/-- No handle leads out of a closed store. -/
theorem Closed.links (closed : s.Closed) (h : Handle) (hk : k ∈ (s.node h).links) : k ∈ s := by
  by_cases hh : h ∈ s
  · exact closed h hh k hk
  · rw [node_of_not_mem hh] at hk
    cases hk

section
variable (closed : s.Closed)

include closed

theorem Closed.member? {h m : Handle} (hm : s.member? h key = some m) : m ∈ s :=
  closed.links h (Entity.mem_links_of_member? hm)

theorem Closed.of_nodes_eq (nodes : t.nodes = s.nodes) : t.Closed := by
  intro h hh k hk
  rw [node_eq nodes] at hk
  rw [mem_iff, size_eq nodes] at hh ⊢
  exact closed h hh k hk

theorem Closed.retainAll (hs : List Handle) : (s.retainAll hs).Closed :=
  closed.of_nodes_eq (nodes_retainAll hs s)

theorem Closed.modifyNode {a : Handle} {f : Entity → Entity}
    (new : ∀ k ∈ (f (s.node a)).links, k ∈ s) : (s.modifyNode a f).Closed := by
  intro h hh k hk
  rw [mem_iff, size_modifyNode, ← mem_iff] at hh ⊢
  rw [node_modifyNode_eq] at hk
  split at hk
  · rename_i here
    rw [here.1] at hk
    exact new k hk
  · exact closed h hh k hk

/-- Members may be replaced by any nodes of the store. -/
theorem Closed.insert_member {value : Handle} (hv : value ∈ s) (a : Handle) (key : EntryKey) :
    (s.modifyNode a fun e => { e with members := e.members.insert key value }).Closed := by
  refine closed.modifyNode fun k hk => ?_
  rcases Entity.mem_links_insert hk with rfl | old
  · exact hv
  · exact closed.links a old

end

theorem size_alloc (e : Entity) (s : Store) : (s.alloc e).2.size = s.size + 1 := by
  simp [alloc, size, push]

theorem mem_alloc (e : Entity) (s : Store) : (s.alloc e).1 ∈ (s.alloc e).2 := by
  rw [mem_iff, size_alloc]
  exact Nat.lt_succ_self s.size

theorem node_alloc_eq (e : Entity) (s : Store) (n : Handle) :
    (s.alloc e).2.node n = if n = (s.alloc e).1 then e else s.node n := by
  split
  · rename_i here
    rw [here, node_alloc]
  · rename_i other
    by_cases old : n ∈ s
    · exact node_alloc_lt e s n old
    · have outside : n ∉ (s.alloc e).2 := by
        rw [mem_iff, size_alloc]
        exact fun stored => other (congrArg Handle.mk (Nat.eq_of_lt_succ_of_not_lt stored old))
      rw [node_of_not_mem old, node_of_not_mem outside]

theorem Closed.alloc (closed : s.Closed) (links : ∀ k ∈ e.links, k ∈ s) : (s.alloc e).2.Closed := by
  intro h _ k hk
  rw [mem_iff, size_alloc]
  rw [node_alloc_eq] at hk
  split at hk
  · exact Nat.lt_succ_of_lt (links k hk)
  · exact Nat.lt_succ_of_lt (closed.links h hk)

/-- What a copy names is a copy, or was named by the original. -/
theorem mem_links_redirect {domain : Enumeration Handle} (hk : k ∈ (s.redirect domain e).links) :
    ∃ m ∈ e.links, k = m ∨ k = s.image domain m := by
  rcases Entity.mem_links_iff.1 hk with member | result | ⟨p, isa, rfl⟩ | context
  · rw [redirect, SortedMap.values_mapValues] at member
    obtain ⟨m, hm, rfl⟩ := List.mem_map.1 member
    exact ⟨m, Entity.mem_links_iff.2 (.inl hm), .inr rfl⟩
  · obtain ⟨m, hm, rfl⟩ := Option.map_eq_some_iff.1 result
    exact ⟨m, Entity.mem_links_iff.2 (.inr (.inl hm)), .inr rfl⟩
  · obtain ⟨q, hq, rfl⟩ := Option.map_eq_some_iff.1 isa
    refine ⟨q.target, Entity.mem_links_iff.2 (.inr (.inr (.inl ⟨q, hq, rfl⟩))), ?_⟩
    split
    · exact .inr rfl
    · exact .inl rfl
  · obtain ⟨c, hc, rfl⟩ := Option.map_eq_some_iff.1 context
    refine ⟨c, Entity.mem_links_iff.2 (.inr (.inr (.inr hc))), ?_⟩
    split
    · exact .inr rfl
    · exact .inl rfl

theorem Closed.copyGraph (closed : s.Closed) (roots : List Handle) :
    (s.copyGraph roots).2.Closed := by
  have larger := grows_copyGraph roots s
  -- an edge leads to a copy, or to where it led before
  have redirected : ∀ m ∈ s, s.image (s.copied roots) m ∈ (s.copyGraph roots).2 := by
    intro m hm
    rcases @image_eq_or_mem s roots m with same | fresh
    · rw [same]
      exact larger.mem hm
    · exact fresh
  intro h hh k hk
  by_cases old : h ∈ s
  · rw [node_copyGraph_of_mem old] at hk
    exact larger.mem (closed h old k hk)
  obtain ⟨n, hn, rfl⟩ := exists_image_eq hh old
  rw [node_copyGraph_image hn] at hk
  obtain ⟨m, hm, rfl | rfl⟩ := mem_links_redirect hk
  · exact larger.mem (closed.links n hm)
  · exact redirected m (closed.links n hm)

/-- What a node names that absorbs another was named by one of them. -/
theorem mem_links_absorb {mode : JoinMode} {a b n : Handle}
    (hk : k ∈ ((s.absorb mode a b).node n).links) :
    k ∈ (s.node n).links ∨ k ∈ (s.node b).links := by
  rw [absorb, node_retainAll, node_modifyNode_eq] at hk
  split at hk
  · rcases Entity.mem_links_iff.1 hk with member | result | ⟨p, isa, rfl⟩ | context
    · exact .inl (Entity.mem_links_iff.2 (.inl member))
    · exact .inl (Entity.mem_links_iff.2 (.inr (.inl result)))
    · rcases Option.or_eq_some_iff.1 isa with taken | ⟨-, own⟩
      · split at taken
        · exact .inr (Entity.mem_links_iff.2 (.inr (.inr (.inl ⟨p, taken, rfl⟩))))
        · cases taken
      · exact .inl (Entity.mem_links_iff.2 (.inr (.inr (.inl ⟨p, own, rfl⟩))))
    · rcases Option.or_eq_some_iff.1 context with taken | ⟨-, own⟩
      · split at taken
        · exact .inr
            (Entity.mem_links_iff.2 (.inr (.inr (.inr (Option.filter_eq_some_iff.1 taken).1))))
        · cases taken
      · exact .inl (Entity.mem_links_iff.2 (.inr (.inr (.inr own))))
  · exact .inl hk

theorem Closed.absorb (closed : s.Closed) (mode : JoinMode) (a b : Handle) :
    (s.absorb mode a b).Closed := by
  intro n _ k hk
  rw [mem_iff, size_absorb]
  rcases mem_links_absorb hk with own | taken
  · exact closed.links n own
  · exact closed.links b taken

theorem Closed.adopt (closed : s.Closed) (mode : JoinMode) (a : Handle) (key : EntryKey)
    {value : Handle} (hv : value ∈ s) : (s.adopt mode a key value).Closed := by
  rw [adopt_eq]
  split
  · refine (closed.copyGraph [value]).insert_member ?_ a key
    rcases @image_eq_or_mem s [value] value with same | fresh
    · rw [same]
      exact (grows_copyGraph [value] s).mem hv
    · exact fresh
  · exact Closed.insert_member (closed.retainAll [value]) hv a key

end Store

end ScriptInference
