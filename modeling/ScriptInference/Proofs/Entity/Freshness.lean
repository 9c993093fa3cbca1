import ScriptInference.Proofs.Entity.Booking
import ScriptInference.Proofs.Entity.Escapes

/-!
# Unions are fresh and exact at the top

While entities are joined into a new node, no other node comes to have it as a part: what is taken
over are copies, and the parts of copies are copies. So the pairs that are joined further down never
write to the node at the top. It gets the types, signatures and links of each entity once, when the
pair is begun, and a member for each of its keys, at the latest when nothing is pending any more.
-/

namespace ScriptInference

variable {kind : EntityKind} {label : String} {n : Handle} {rest : List PendingEntry}

namespace Store

/-- The parts of all nodes beside `s` are beside `s` as well, and none of them is `m`. -/
structure Tops (s : Store) (m : Handle) (t : Store) : Prop extends Store.Extends s t where
  stored : m ∈ t
  parts : ∀ n, n ∉ s → ∀ k ∈ (t.node n).parts, k ∉ s ∧ k ≠ m

section
variable {s t : Store} {mode : JoinMode}

theorem parts_absorb (mode : JoinMode) (a b n : Handle) (s : Store) :
    ((s.absorb mode a b).node n).parts = (s.node n).parts := by
  simp only [absorb, node_retainAll, node_modifyNode_eq]
  split <;> rfl

theorem node_absorb (mode : JoinMode) (b : Handle) {a : Handle} (ha : a ∈ s) :
    (s.absorb mode a b).node a =
      { s.node a with
        types := (s.node a).types.union (s.node b).types
        signatures := if mode.signatures then (s.node a).signatures.union (s.node b).signatures
          else (s.node a).signatures
        shaped := (s.node a).shaped || (s.node b).shaped
        isa := (if (s.isa? a).isNone && (s.isa? b).isSome then (s.node b).isa else none).or
          (s.node a).isa
        context := (if (s.context? a).isNone then s.context? b else none).or
          (s.node a).context } := by
  simp only [absorb, node_retainAll, node_modifyNode_eq]
  rw [if_pos ⟨trivial, ha⟩]

/-- Taking a member over changes one member of one node that was there. -/
theorem node_adopt_of_mem (mode : JoinMode) (a : Handle) (key : EntryKey) (value : Handle)
    (hn : n ∈ s) : ∃ w, (s.adopt mode a key value).node n =
      if n = a then { s.node n with members := (s.node n).members.insert key w } else s.node n := by
  rw [adopt_eq]
  split
  · refine ⟨s.image (s.copied [value]) value, ?_⟩
    rw [node_modifyNode_eq, node_copyGraph_of_mem hn]
    simp only [(grows_copyGraph [value] s).mem hn, and_true]
  · have kept : n ∈ s.retain value := hn
    refine ⟨value, ?_⟩
    rw [node_modifyNode_eq]
    simp only [kept, and_true]
    rfl

theorem PreservedIn.filter_eq_self (kept : s.PreservedIn t) {o : Option Handle}
    (alive : ∀ k, o = some k → s.live k) : o.filter t.live = o := by
  cases o with
  | none => rfl
  | some k =>
    have here := alive k rfl
    rw [Option.filter_some, kept.live k (mem_of_live here), if_pos here]

end

namespace Tops
variable {s t : Store} {m : Handle} {mode : JoinMode}

theorem alloc (s : Store) {e : Entity} (bare : e.links = []) :
    s.Tops (s.alloc e).1 (s.alloc e).2 where
  toExtends := Extends.alloc s bare
  stored := mem_alloc e s
  parts n hn k hk := by
    have listed := Entity.mem_links_of_mem_parts hk
    rw [node_alloc_eq, node_of_not_mem hn] at listed
    split at listed
    · rw [bare] at listed
      cases listed
    · cases listed

theorem absorb (h : s.Tops m t) {a : Handle} (ha : a ∉ s) (b : Handle) :
    s.Tops m (t.absorb mode a b) where
  toExtends := h.toExtends.absorb ha b
  stored := by
    rw [mem_iff, size_absorb]
    exact h.stored
  parts n hn k hk := by
    rw [parts_absorb] at hk
    exact h.parts n hn k hk

theorem copyGraph (h : s.Tops m t) (roots : List Handle) : s.Tops m (t.copyGraph roots).2 where
  toExtends := h.toExtends.copyGraph roots
  stored := (grows_copyGraph roots t).mem h.stored
  parts n hn k hk := by
    by_cases old : n ∈ t
    · rw [node_copyGraph_of_mem old] at hk
      exact h.parts n hn k hk
    by_cases new : n ∈ (t.copyGraph roots).2
    · -- the parts of a copy are copies, and `m` was there before
      obtain ⟨original, ho, rfl⟩ := exists_image_eq new old
      rw [node_copyGraph_image ho, parts_redirect] at hk
      obtain ⟨w, hw, rfl⟩ := List.mem_map.1 hk
      have spanned : w ∈ t.span roots := .edge (mem_copied_iff.1 ho) hw
      have fresh : t.image (t.copied roots) w ∉ t := image_not_mem (mem_copied_iff.2 spanned)
      exact ⟨fun hs => fresh (h.mem hs), fun same => fresh (same ▸ h.stored)⟩
    · rw [node_of_not_mem new] at hk
      cases hk

theorem insert_member (h : s.Tops m t) {a value : Handle} (ha : a ∉ s) (hv : value ∉ s)
    (ne : value ≠ m) (key : EntryKey) :
    s.Tops m (t.modifyNode a fun e => { e with members := e.members.insert key value }) where
  toExtends := h.toExtends.insert_member ha hv key
  stored := by
    rw [mem_iff, size_modifyNode]
    exact h.stored
  parts n hn k hk := by
    rcases List.mem_append.1 hk with member | result
    · rcases mem_values_insert_member member with rfl | old
      · exact ⟨hv, ne⟩
      · exact h.parts n hn k (List.mem_append_left _ old)
    · refine h.parts n hn k (List.mem_append_right _ ?_)
      rw [node_modifyNode_eq] at result
      split at result
      · exact result
      · exact result

theorem adopt (deep : mode.deepCopy = true) (h : s.Tops m t) {a : Handle} (ha : a ∉ s)
    (key : EntryKey) (value : Handle) : s.Tops m (t.adopt mode a key value) := by
  have copied : value ∈ (t.copied [value]).toList :=
    mem_copied_iff.2 (.root (List.mem_singleton.2 rfl))
  rw [adopt_eq, if_pos deep]
  refine (h.copyGraph [value]).insert_member ha ?_ ?_ key
  · exact fun hs => image_not_mem copied (h.mem hs)
  · exact fun same => image_not_mem copied (same ▸ h.stored)

/-- Nothing of `s` can be reached from the top by members and results. -/
theorem not_mem_of_mem_span (h : s.Tops m t) (new : m ∉ s) (hn : n ∈ t.span [m]) : n ∉ s := by
  induction hn with
  | root hr => exact List.mem_singleton.1 hr ▸ new
  | edge _ hk ih => exact (h.parts _ ih _ hk).1

end Tops

end Store

namespace Joining

/-- A join into `m` beside `s`: apart from its members the node has the given contents, and its
keys, together with those that are pending for it, are the given ones. -/
structure Crowned (s : Store) (m : Handle) (e : Entity) (keys : EntryKey → Prop) (j : Joining) :
    Prop where
  tops : s.Tops m j.store
  contents : j.store.node m = { e with members := (j.store.node m).members }
  keys : ∀ key,
    ((j.store.member? m key).isSome = true ∨ ∃ p ∈ j.pending, p.into = m ∧ p.key = key) ↔ keys key

namespace Crowned
variable {s : Store} {m : Handle} {e : Entity} {keys : EntryKey →
  Prop} {mode : JoinMode} {j : Joining}

/-- A pair further down is begun. -/
theorem opened (h : j.Crowned s m e keys) {a : Handle} (ha : a ∉ s) (ne : a ≠ m) (b : Handle) :
    (j.opened mode a b).Crowned s m e keys where
  tops := h.tops.absorb ha b
  contents := by
    rw [Joining.opened, Store.node_absorb_of_ne mode b ne.symm]
    exact h.contents
  keys key := by
    have below :
        ∀ p ∈ (j.store.node b).members.toList.map (fun e => (⟨a, e.1, e.2⟩ : PendingEntry)),
        p.into ≠ m := by
      intro p hp
      obtain ⟨entry, -, rfl⟩ := List.mem_map.1 hp
      exact ne
    rw [← h.keys key, Store.member?, Joining.opened, Store.node_absorb_of_ne mode b ne.symm]
    refine or_congr_right ⟨?_, ?_⟩
    · rintro ⟨p, hp, into, rfl⟩
      rcases List.mem_append.1 hp with hp | hp
      · exact absurd into (below p hp)
      · exact ⟨p, hp, into, rfl⟩
    · rintro ⟨p, hp, into, rfl⟩
      exact ⟨p, List.mem_append_right _ hp, into, rfl⟩

/-- A member may be forgotten once it is there. -/
theorem passed {seen : Std.TreeSet (Handle × Handle) pairOrder} {p : PendingEntry} {store : Store}
    (h : Crowned s m e keys ⟨seen, p :: rest, store⟩)
    (present : p.into = m → (store.member? m p.key).isSome = true) :
    Crowned s m e keys ⟨seen, rest, store⟩ where
  tops := h.tops
  contents := h.contents
  keys key := by
    rw [← h.keys key]
    constructor
    · rintro (found | ⟨q, hq, into, rfl⟩)
      · exact .inl found
      · exact .inr ⟨q, List.mem_cons_of_mem p hq, into, rfl⟩
    · rintro (found | ⟨q, hq, into, rfl⟩)
      · exact .inl found
      · rcases List.mem_cons.1 hq with rfl | hq
        · exact .inl (present into)
        · exact .inr ⟨q, hq, into, rfl⟩

variable (deep : mode.deepCopy = true)

include deep

/-- The first of the pending members is taken over. -/
theorem adopted {seen : Std.TreeSet (Handle × Handle) pairOrder} {p : PendingEntry} {store : Store}
    (h : Crowned s m e keys ⟨seen, p :: rest, store⟩) (into_new : p.into ∉ s) :
    Crowned s m e keys ⟨seen, rest, store.adopt mode p.into p.key p.value⟩ := by
  obtain ⟨w, node⟩ := Store.node_adopt_of_mem mode p.into p.key p.value h.tops.stored
  have contents : (store.adopt mode p.into p.key p.value).node m =
      { e with members := ((store.adopt mode p.into p.key p.value).node m).members } := by
    rw [node]
    split
    · rw [h.contents]
    · exact h.contents
  have grown : ∀ key, ((store.adopt mode p.into p.key p.value).member? m key).isSome = true ↔
      (store.member? m key).isSome = true ∨ p.into = m ∧ p.key = key := by
    intro key
    rw [Store.member?, node]
    by_cases into : m = p.into
    · rw [if_pos into, Entity.member?, SortedMap.get?_insert]
      by_cases same : key = p.key
      · simp [same, into]
      · have other : p.key ≠ key := Ne.symm same
        rw [if_neg same]
        simp only [other, and_false, or_false]
        rfl
    · have other : p.into ≠ m := Ne.symm into
      rw [if_neg into]
      simp only [other, false_and, or_false]
      rfl
  refine ⟨h.tops.adopt deep into_new p.key p.value, contents, fun key => ?_⟩
  rw [← h.keys key, grown]
  simp only [List.exists_mem_cons_iff]
  rw [or_assoc]

theorem step {seen : Std.TreeSet (Handle × Handle) pairOrder} {p : PendingEntry}
    {rest : List PendingEntry} {store : Store} (h : Crowned s m e keys ⟨seen, p :: rest, store⟩)
    (apart : Apart s ⟨seen, p :: rest, store⟩) :
    (Joining.bring mode p ⟨seen, rest, store⟩).Crowned s m e keys := by
  have into_new := apart.receivers p List.mem_cons_self
  rcases bring_cases mode p ⟨seen, rest, store⟩ with
    ⟨mine, found, -, step⟩ | ⟨mine, found, -, -, step⟩ | ⟨-, step⟩
  · rw [step]
    exact h.passed fun into => by rw [← into, found]; rfl
  · rw [step]
    obtain ⟨mine_new, ne⟩ := h.tops.parts p.into into_new mine
      (List.mem_append_left _ (SortedMap.mem_values_iff.2 ⟨p.key, found⟩))
    exact (h.passed fun into => by rw [← into, found]; rfl).opened mine_new ne p.value
  · rw [step]
    exact h.adopted deep into_new

theorem run {bound : Nat} {t : Store} (h : j.Crowned s m e keys) (apart : j.Apart s)
    (hr : j.run mode bound = .ok t) : Crowned s m e keys { store := t } := by
  obtain ⟨_, done, -⟩ :=
    run_ok_induction (P := fun k => k.Crowned s m e keys ∧ k.Apart s) ⟨h, apart⟩
    (fun _ _ _ _ h => ⟨h.1.step deep h.2, h.2.step deep⟩) hr
  exact ⟨done.tops, done.contents, done.keys⟩

end Crowned

end Joining

namespace Infer
variable {s t u : Store} {m b : Handle} {mode : JoinMode} {bound : Nat} {done members : List Handle}
  {r : Unit}

/-- One join adds to the node at the top what it absorbs, and the keys of the other entity. -/
theorem crowned_join (deep : mode.deepCopy = true) (tops : s.Tops m t) (new : m ∉ s) (hb : b ∈ s)
    (h : join mode m b bound t = .ok (r, u)) :
    Joining.Crowned s m ((t.absorb mode m b).node m)
      (fun key => (t.member? m key).isSome = true ∨
        (s.member? b key).isSome = true) { store := u } := by
  have apart : Joining.Apart s { store := t } :=
    ⟨tops.toExtends, fun e he => absurd he List.not_mem_nil⟩
  have begun : Joining.enter mode m b { store := t } = Joining.opened mode m b { store := t } := by
    rcases Joining.enter_cases mode m b { store := t } with ⟨rfl | met, -⟩ | ⟨-, -, step⟩
    · exact absurd hb new
    · simp at met
    · exact step
  have crowned : (Joining.opened mode m b { store := t }).Crowned s m ((t.absorb mode m b).node m)
      fun key => (t.member? m key).isSome = true ∨ (s.member? b key).isSome = true := by
    refine ⟨tops.absorb new b, rfl, fun key => or_congr ?_ ?_⟩
    · rw [Store.member?, Entity.member?, Joining.opened, Store.members_absorb]
      rfl
    · rw [Store.member?, ← tops.kept b hb, Entity.member?, Option.isSome_iff_exists]
      simp only [Joining.opened, List.append_nil, SortedMap.get?_eq_some_iff, List.mem_map]
      constructor
      · rintro ⟨p, ⟨entry, listed, rfl⟩, -, rfl⟩
        exact ⟨entry.2, listed⟩
      · rintro ⟨w, listed⟩
        exact ⟨_, ⟨(key, w), listed, rfl⟩, rfl, rfl⟩
  rw [← begun] at crowned
  exact crowned.run deep (apart.enter new b) (join_ok h)

/-- The node at the top has the types, keys and signatures of the entities joined into it. -/
structure Gathers (s : Store) (done : List Handle) (m : Handle) (t : Store) : Prop where
  types : ∀ tag, tag ∈ (t.node m).types ↔ ∃ b ∈ done, tag ∈ (s.node b).types
  keys : ∀ key, (t.member? m key).isSome = true ↔ ∃ b ∈ done, (s.member? b key).isSome = true
  signatures : ∀ hash, hash ∈ (t.node m).signatures.hashes ↔
    ∃ b ∈ done, hash ∈ (s.node b).signatures.hashes

theorem Gathers.join (deep : mode.deepCopy = true) (all : mode.signatures = true)
    (tops : s.Tops m t) (new : m ∉ s) (hb : b ∈ s) (gathers : Gathers s done m t)
    (h : Infer.join mode m b bound t = .ok (r, u)) : Gathers s (done ++ [b]) m u := by
  have crowned := crowned_join deep tops new hb h
  have contents : u.node m = { (t.absorb mode m b).node m with members := (u.node m).members } :=
    crowned.contents
  have absorbed := Store.node_absorb mode b tops.stored
  refine ⟨fun tag => ?_, fun key => ?_, fun hash => ?_⟩
  · rw [contents, absorbed, SortedSet.mem_union, gathers.types, tops.kept b hb]
    simp only [List.mem_append, List.mem_singleton, or_and_right, exists_or, exists_eq_left]
  · have keys := crowned.keys key
    simp only [List.not_mem_nil, false_and, exists_false, or_false] at keys
    rw [keys, gathers.keys]
    simp only [List.mem_append, List.mem_singleton, or_and_right, exists_or, exists_eq_left]
  · rw [contents, absorbed, if_pos all, ContentSet.mem_hashes_union, gathers.signatures,
      tops.kept b hb]
    simp only [List.mem_append, List.mem_singleton, or_and_right, exists_or, exists_eq_left]

/-- What every single join keeps, all of them keep. -/
theorem joinAll_induction {P : List Handle → Store → Prop} {Q : Handle → Prop}
    (step : ∀ done b t u, Q b → P done t → join mode m b bound t = .ok ((), u) → P (done ++ [b]) u)
    (each : ∀ b ∈ members, Q b) (start : P done t)
    (h : joinAll mode m members bound t = .ok (r, u)) : P (done ++ members) u := by
  induction members generalizing t done with
  | nil =>
    cases h
    rw [List.append_nil]
    exact start
  | cons b rest ih =>
    obtain ⟨_, v, first, later⟩ := bind_ok h
    have next := step done b t v (each b List.mem_cons_self) start first
    rw [List.append_cons]
    exact ih (fun b' hb' => each b' (List.mem_cons_of_mem b hb')) next later

theorem gathers_union (inside : ∀ b ∈ members, b ∈ s)
    (h : union kind label members bound s = .ok (m, t)) : s.Tops m t ∧ Gathers s members m t := by
  obtain ⟨rfl, joined⟩ := union_ok h
  have new : (s.alloc { kind, label }).1 ∉ s := Nat.lt_irrefl s.size
  have bare : Gathers s [] (s.alloc { kind, label }).1 (s.alloc { kind, label }).2 := by
    refine ⟨fun tag => iff_of_false ?_ (by simp), fun key => iff_of_false ?_ (by simp),
      fun hash => iff_of_false ?_ (by simp)⟩
    · rw [Store.node_alloc]
      exact SortedSet.not_mem_empty tag
    · rw [Store.member?, Store.node_alloc]
      exact Bool.false_ne_true
    · rw [Store.node_alloc]
      exact List.not_mem_nil
  refine joinAll_induction (Q := (· ∈ s))
    (P := fun done t => s.Tops (s.alloc { kind, label }).1 t ∧
      Gathers s done (s.alloc { kind, label }).1 t) ?_ inside ⟨.alloc s rfl, bare⟩ joined
  rintro done b t u hb ⟨tops, gathers⟩ first
  exact ⟨(crowned_join rfl tops new hb first).tops, gathers.join rfl rfl tops new hb first⟩

/-- The links of the node at the top are those of the first entity that has a live one. -/
structure Linked (s : Store) (done : List Handle) (m : Handle) (t : Store) : Prop where
  isa : (t.node m).isa.map Prototype.target = done.findSome? s.isa?
  context : (t.node m).context = done.findSome? s.context?

namespace Linked

theorem isa? (linked : Linked s done m t) (kept : s.PreservedIn t) :
    t.isa? m = done.findSome? s.isa? := by
  rw [Store.isa?, linked.isa]
  refine kept.filter_eq_self fun k hk => ?_
  obtain ⟨b, -, found⟩ := List.exists_of_findSome?_eq_some hk
  exact (Store.isa?_eq_some_iff.1 found).2

theorem context? (linked : Linked s done m t) (kept : s.PreservedIn t) :
    t.context? m = done.findSome? s.context? := by
  rw [Store.context?, linked.context]
  refine kept.filter_eq_self fun k hk => ?_
  obtain ⟨b, -, found⟩ := List.exists_of_findSome?_eq_some hk
  exact (Store.context?_eq_some_iff.1 found).2

theorem join (deep : mode.deepCopy = true) (closed : s.Closed) (tops : s.Tops m t)
    (kept : s.PreservedIn t) (new : m ∉ s) (hb : b ∈ s) (linked : Linked s done m t)
    (h : Infer.join mode m b bound t = .ok (r, u)) : Linked s (done ++ [b]) m u := by
  have contents : u.node m = { (t.absorb mode m b).node m with members := (u.node m).members } :=
    (crowned_join deep tops new hb h).contents
  have absorbed := Store.node_absorb mode b tops.stored
  refine ⟨?_, ?_⟩
  · rw [contents, absorbed, linked.isa? kept, kept.isa? closed hb, kept.node b hb,
      List.findSome?_append]
    have top := linked.isa
    cases found : done.findSome? s.isa? with
    | some k =>
      rw [found] at top
      simpa using top
    | none =>
      rw [found, Option.map_eq_none_iff] at top
      rw [top]
      cases here : s.isa? b with
      | none => simp [here]
      | some k =>
        obtain ⟨⟨p, hp, rfl⟩, -⟩ := Store.isa?_eq_some_iff.1 here
        simp [here, hp]
  · rw [contents, absorbed, linked.context? kept, kept.context? closed hb, linked.context,
      List.findSome?_append]
    cases done.findSome? s.context? with
    | some k => rfl
    | none => simp

end Linked

theorem linked_union (sound : s.Sound) (alive : ∀ b ∈ members, s.live b)
    (h : union kind label members bound s = .ok (m, t)) : Linked s members m t := by
  obtain ⟨rfl, joined⟩ := union_ok h
  have new : (s.alloc { kind, label }).1 ∉ s := Nat.lt_irrefl s.size
  have ledger :=
    (Store.Ledger.start sound True).alloc (e := { kind, label }) (fun k hk => by cases hk)
    fun k hk => by cases hk
  have bare : Linked s [] (s.alloc { kind, label }).1 (s.alloc { kind, label }).2 := by
    refine ⟨?_, ?_⟩
    · rw [Store.node_alloc]
      rfl
    · rw [Store.node_alloc]
      rfl
  -- while the ledger is in order, the links of what was there are as they were
  have all := joinAll_induction (Q := fun b => s.live b = true)
    (P := fun done t => s.Tops (s.alloc { kind, label }).1 t ∧
      s.Ledger True {(s.alloc { kind, label }).1} t ∧
      Linked s done (s.alloc { kind, label }).1 t) ?_ alive ⟨.alloc s rfl, ledger, bare⟩ joined
  · exact all.2.2
  · rintro done b t u hb ⟨tops, ledger, linked⟩ first
    have stored := Store.mem_of_live hb
    have single : joinAll { deepCopy := true } (s.alloc { kind, label }).1 [b] bound t =
        .ok ((), u) :=
      bind_of_ok first fun _ => joinAll { deepCopy := true } (s.alloc { kind, label }).1 []
    have ledger' : s.Ledger True {(s.alloc { kind, label }).1} u := by
      refine ledger_joinAll rfl (Nat.le_refl _) tops.toExtends new ledger
        (ledger.live_of_mem (Multiset.mem_singleton_self _)) (fun b' hb' => ?_) single
      rw [List.mem_singleton.1 hb']
      exact ledger.live_ground hb
    exact ⟨(crowned_join rfl tops new stored first).tops, ledger',
      linked.join rfl sound.closed tops ledger.preservedIn new stored first⟩

/-- A union leaves every entity there was as it is, and nothing that is reached from it by members
and results was there before. Its types, its keys and the hashes of its signatures are those of its
members taken together, and each of its links is that of the first member that has a live one. -/
theorem union_fresh_exact {kind : EntityKind} {label : String} (sound : s.Sound)
    (alive : ∀ b ∈ members, s.live b) (h : union kind label members bound s = .ok (m, t)) :
    s.PreservedIn t ∧
    (∀ n ∈ t.span [m], n ∉ s ∧ t.live n) ∧
    (∀ tag, tag ∈ (t.node m).types ↔ ∃ b ∈ members, tag ∈ (s.node b).types) ∧
    (∀ key, (t.member? m key).isSome ↔ ∃ b ∈ members, (s.member? b key).isSome) ∧
    (∀ hash, hash ∈ (t.node m).signatures.hashes ↔
      ∃ b ∈ members, hash ∈ (s.node b).signatures.hashes) ∧
    t.isa? m = members.findSome? s.isa? ∧ t.context? m = members.findSome? s.context? := by
  have inside : ∀ b ∈ members, b ∈ s := fun b hb => Store.mem_of_live (alive b hb)
  have ledger := ledger_union (.start sound True) alive h
  have kept := ledger.preservedIn
  obtain ⟨tops, gathers⟩ := gathers_union inside h
  have linked := linked_union sound alive h
  have new : m ∉ s := by
    rw [(union_ok h).1]
    exact Nat.lt_irrefl s.size
  refine ⟨kept, fun n hn => ⟨tops.not_mem_of_mem_span new hn, ?_⟩, gathers.types, gathers.keys,
    gathers.signatures, linked.isa? kept, linked.context? kept⟩
  refine Store.live_of_mem_span ledger.sound (fun r hr => ?_) hn
  rw [List.mem_singleton.1 hr]
  exact ledger.live_of_mem (Multiset.mem_cons_self _ _)

/-- A map that is its own member, a map with a live prototype, and a function with a context. -/
def relatives : Store where
  nodes := #[
    { Entity.ofType .map Tag.map with members := .ofList [(.identifier "self", ⟨0⟩)] },
    Entity.ofType .map Tag.map,
    { Entity.ofType .map Tag.map with
      members := .ofList [(.identifier "self", ⟨3⟩), (.type "number", ⟨3⟩)], isa :=
        some ⟨⟨1⟩, false⟩ },
    { Entity.ofType .function "function" with context := some ⟨1⟩ }]
  holders := #[2, 1, 1, 3]

theorem union_fresh_exact_relatives :
    relatives.Sound ∧ (∀ b ∈ [⟨0⟩, ⟨2⟩, ⟨3⟩], relatives.live b) ∧
    ∃ m t, union .variable "u" [⟨0⟩, ⟨2⟩, ⟨3⟩] 9 relatives = .ok (m, t) ∧ relatives.PreservedIn t ∧
      (∀ n ∈ t.span [m], n ∉ relatives ∧ t.live n) ∧
      "function" ∈ (t.node m).types ∧ "string" ∉ (t.node m).types ∧
      (t.member? m (.type "number")).isSome ∧ ¬ (t.member? m (.type "string")).isSome ∧
      t.isa? m = some ⟨1⟩ ∧ t.context? m = some ⟨1⟩ := by
  have sound : relatives.Sound := by decide
  have alive : ∀ b ∈ [⟨0⟩, ⟨2⟩, ⟨3⟩], relatives.live b := by decide
  obtain ⟨m, t, made⟩ : ∃ m t, union .variable "u" [⟨0⟩, ⟨2⟩, ⟨3⟩] 9 relatives = .ok (m, t) :=
    ⟨_, _, rfl⟩
  obtain ⟨kept, fresh, types, keys, -, isa, context⟩ := union_fresh_exact sound alive made
  refine ⟨sound, alive, m, t, made, kept, fresh, ?_, ?_, ?_, ?_, isa, context⟩
  · exact (types "function").2 (by decide)
  · rw [types]
    decide
  · exact (keys (.type "number")).2 (by decide)
  · rw [keys]
    decide

end Infer

end ScriptInference
