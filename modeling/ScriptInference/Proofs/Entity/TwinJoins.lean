import ScriptInference.Proofs.Entity.Booking
import ScriptInference.Proofs.Entity.Twins

/-!
# Twins copy and join in step

Deep copies of twins discover the same nodes in the same order, and joins of twins meet the same
pairs. So both take the same steps, they end together, and twins result. A union begins as a new
entity without types; it takes those of its first member at once, and from then on everything made
has a type.
-/

namespace ScriptInference

variable {s t s' : Store} {z : Zone} {e : PendingEntry}

/-- What takes over the types and the shape of a map has the shape of a map. -/
theorem Entity.isMapShaped_mono {e f : Entity} (types : ∀ tag ∈ e.types, tag ∈ f.types)
    (shaped : e.shaped → f.shaped) (shape : e.isMapShaped = true) : f.isMapShaped = true := by
  simp only [isMapShaped, holdsMembers, Bool.or_eq_true, decide_eq_true_eq] at shape ⊢
  rcases shape with flag | (map | list) | any
  · exact .inl (shaped flag)
  · exact .inr (.inl (.inl (types _ map)))
  · exact .inr (.inl (.inr (types _ list)))
  · exact .inr (.inr (types _ any))

namespace Store

theorem Grows.isMapShaped (grows : s.Grows t) {h : Handle} (hh : h ∈ s)
    (shape : (s.node h).isMapShaped = true) : (t.node h).isMapShaped = true :=
  Entity.isMapShaped_mono (grows.contents h hh).types (grows.contents h hh).shaped shape

theorem isMapShaped_absorb {a b : Handle} (ha : a ∈ s) (mode : JoinMode)
    (shape : (s.node b).isMapShaped = true) : ((s.absorb mode a b).node a).isMapShaped = true := by
  refine Entity.isMapShaped_mono (fun tag ht => mem_types_absorb ha ht) (fun shaped => ?_) shape
  simp only [Store.absorb, node_retainAll, node_modifyNode_eq]
  rw [if_pos ⟨trivial, ha⟩]
  exact Bool.or_eq_true_iff.2 (.inr shaped)

namespace Twin
variable {a b h : Handle}

section Copies
variable {roots : List Handle}

variable (twin : s.Twin z s')

include twin

theorem copied_eq (roots : List Handle) : s'.copied roots = s.copied roots :=
  copied_congr twin.size_eq (fun h => twin.congr h Entity.parts fun _ => rfl) roots

theorem image_eq (domain : Enumeration Handle) : s'.image domain = s.image domain := by
  funext h
  rw [image, image, twin.size_eq]

theorem redirect_eq (domain : Enumeration Handle) (h : Handle) :
    (s'.redirect domain (s'.node h)).unplaced = (s.redirect domain (s.node h)).unplaced := by
  have live : ∀ k ∈ (s'.node h).links, s'.live k = s.live k := fun k hk => by
    rw [twin.links_eq] at hk
    exact twin.live_eq (twin.free_of_mem_links hk)
  have redirected : s'.redirect domain (s'.node h) = s.redirect domain (s'.node h) := by
    rw [redirect, redirect, twin.image_eq]
    congr 1
    · refine Option.map_congr fun p hp => ?_
      rw [live p.target (Entity.mem_links_iff.2 (.inr (.inr (.inl ⟨p, hp, rfl⟩))))]
    · refine Option.map_congr fun c hc => ?_
      rw [live c (Entity.mem_links_iff.2 (.inr (.inr (.inr hc))))]
  rw [redirected]
  exact twin.congr h (fun e => (s.redirect domain e).unplaced) fun _ => rfl

theorem made_of_mem_copied (made : ∀ r ∈ roots, s.Made z r) (hh : h ∈ (s.copied roots).toList) :
    s.Made z h := by
  have spanned := mem_copied_iff.1 hh
  clear hh
  induction spanned with
  | root hr => exact made _ hr
  | edge _ hk ih =>
    exact (twin.links _ ih.base_le _ (Entity.mem_links_of_mem_parts hk)).toMade

theorem copyGraph (made : ∀ r ∈ roots, s.Made z r) :
    (s.copyGraph roots).2.Twin z (s'.copyGraph roots).2 := by
  have domain := twin.copied_eq roots
  have larger := (grows_copyGraph roots s).size_le
  have contents : ∀ n ∈ (s.copied roots).toList, n ∈ (s'.copied roots).toList :=
    fun n hn => domain ▸ hn
  have copies : ∀ n ∈ (s.copyGraph roots).2, n ∉ s → ∃ m ∈ (s.copied roots).toList,
      (s.copyGraph roots).2.node n = s.redirect (s.copied roots) (s.node m) ∧
      (s'.copyGraph roots).2.node n = s'.redirect (s.copied roots) (s'.node m) := by
    intro n hn new
    obtain ⟨m, hm, rfl⟩ := exists_image_eq hn new
    refine ⟨m, hm, node_copyGraph_image hm, ?_⟩
    rw [← twin.image_eq, ← domain]
    exact node_copyGraph_image (contents m hm)
  have size_eq : (s'.copyGraph roots).2.size = (s.copyGraph roots).2.size := by
    rw [size_copyGraph, size_copyGraph, domain, twin.size_eq]
  refine twin.grow larger size_eq (fun n hn => node_copyGraph_of_mem hn)
    (fun n hn => node_copyGraph_of_mem hn)
    (fun n hn free => ?_) (fun n hn new => ?_) (fun n hn new k hk => ?_) fun n hn new => ?_
  · have holds : ∀ m, (s'.redirect (s.copied roots) (s'.node m)).holds =
        (s.redirect (s.copied roots) (s.node m)).holds := fun m =>
      Entity.congr_unplaced (twin.redirect_eq _ m) Entity.holds fun _ => rfl
    have hn' : n ∈ (s'.copyGraph roots).2 := by rwa [Store.mem_iff, size_eq]
    rw [Store.mem_iff, copyGraph_eq, size_retainAll] at hn hn'
    rw [copyGraph_eq, copyGraph_eq, count_retainAll hn', count_retainAll hn, count_pushAll,
      count_pushAll, twin.count_eq free, domain, twin.image_eq, copiedContents, copiedContents,
      domain, List.flatMap_map, List.flatMap_map]
    simp only [holds]
  · obtain ⟨m, -, node, node'⟩ := copies n hn new
    rw [node, node']
    exact twin.redirect_eq _ m
  · obtain ⟨m, hm, node, -⟩ := copies n hn new
    rw [node] at hk
    obtain ⟨j, hj, named⟩ := mem_links_redirect hk
    have original := twin.links m (twin.made_of_mem_copied made hm).base_le j hj
    rcases named with rfl | rfl
    · exact original.later larger
    · by_cases listed : j ∈ (s.copied roots).toList
      · exact twin.linkable_new (image_mem_copyGraph listed) (image_not_mem listed)
      · rw [image_eq_self listed]
        exact original.later larger
  · obtain ⟨m, hm, node, -⟩ := copies n hn new
    have original := twin.formed m (twin.made_of_mem_copied made hm).base_le
    rw [node]
    refine ⟨original.1, fun k hk => ?_⟩
    rw [redirect, SortedMap.values_mapValues] at hk
    obtain ⟨j, hj, -⟩ := List.mem_map.1 hk
    exact original.2 j hj

end Copies

section Joins
variable {mode : JoinMode}

theorem absorb (twin : s.Twin z s') (linkable : s.Linkable z a) (made : s.Made z b) :
    (s.absorb mode a b).Twin z (s'.absorb mode a b) := by
  have isa_eq : (s'.node b).isa = (s.node b).isa := twin.congr b Entity.isa fun _ => rfl
  have signatures_eq : (s'.node b).signatures = (s.node b).signatures :=
    twin.congr b Entity.signatures fun _ => rfl
  have shaped_eq : (s'.node b).shaped = (s.node b).shaped := twin.congr b Entity.shaped fun _ => rfl
  unfold Store.absorb
  simp only [twin.isa?_eq, twin.context?_eq, twin.types_eq b, isa_eq, signatures_eq, shaped_eq]
  refine Twin.retainAll (twin.modifyNode linkable.toMade ?_ (fun k hk => ?_) ?_
    fun recorded => absurd recorded linkable.free) _
  · exact twin.congr a (fun e => Entity.unplaced { e with
      types := e.types.union (s.node b).types
      signatures :=
        if mode.signatures then e.signatures.union (s.node b).signatures else e.signatures
      shaped := e.shaped || (s.node b).shaped
      isa := (if (s.isa? a).isNone && (s.isa? b).isSome then (s.node b).isa else none).or e.isa
      context := (if (s.context? a).isNone then s.context? b else none).or e.context }) fun _ => rfl
  · have named : k ∈ ((s.absorb mode a b).node a).links := by
      rw [Store.absorb, node_retainAll, node_modifyNode a a _ s linkable.mem, if_pos rfl]
      exact hk
    rcases mem_links_absorb named with own | taken
    · exact twin.links a linkable.base_le k own
    · exact twin.links b made.base_le k taken
  · obtain ⟨⟨tag, listed⟩, shaped⟩ := twin.formed a linkable.base_le
    refine ⟨⟨tag, SortedSet.mem_union.2 (.inl listed)⟩, fun m hm => ?_⟩
    exact Entity.isMapShaped_mono (fun _ ht => SortedSet.mem_union.2 (.inl ht))
      (fun flag => Bool.or_eq_true_iff.2 (.inl flag)) (shaped m hm)

theorem adopt (deep : mode.deepCopy = true) (twin : s.Twin z s') (linkable : s.Linkable z a)
    (shaped : (s.node a).isMapShaped = true) (made : s.Made z b) (key : EntryKey) :
    (s.adopt mode a key b).Twin z (s'.adopt mode a key b) := by
  have listed : ∀ r ∈ [b], s.Made z r := fun r hr => List.mem_singleton.1 hr ▸ made
  have copied : b ∈ (s.copied [b]).toList :=
    mem_copied_iff.2 (.root List.mem_cons_self)
  have value := twin.linkable_new (image_mem_copyGraph copied) (image_not_mem copied)
  rw [adopt_eq, adopt_eq, if_pos deep, if_pos deep, twin.image_eq, twin.copied_eq]
  have grows := grows_copyGraph [b] s
  exact (twin.copyGraph listed).insert_member (linkable.later grows.size_le)
    (grows.isMapShaped linkable.mem shaped) value key

end Joins

end Twin

section Opening
variable {b : Handle}

theorem modifyNode_push (e : Entity) (f : Entity → Entity) (s : Store) :
    (s.push e).modifyNode ⟨s.size⟩ f = s.push (f e) := by
  have nodes : (s.nodes.push e).modify s.nodes.size f = s.nodes.push (f e) := by
    ext i hi₁ hi₂
    · simp
    · have bound : i < s.nodes.size + 1 := by simpa using hi₂
      by_cases last : s.nodes.size = i
      · simp [Array.getElem_modify, Array.getElem_push, last]
      · have inside : i < s.nodes.size := by omega
        simp [Array.getElem_modify, Array.getElem_push, last, inside]
  simp [modifyNode, push, size, nodes]

theorem retainAll_append (hs ks : List Handle) (s : Store) :
    s.retainAll (hs ++ ks) = (s.retainAll hs).retainAll ks := List.foldl_append

/-- What a union knows after it has met its first member. -/
def opening (mode : JoinMode) (kind : EntityKind) (label : String) (s : Store) (b : Handle) :
    Entity :=
  { kind, label
    types := (∅ : SortedSet String).union (s.node b).types
    signatures :=
    if mode.signatures then (∅ : ContentSet Definition).union (s.node b).signatures else ∅
    isa := if (s.isa? b).isSome then (s.node b).isa else none
    context := s.context? b
    shaped := (s.node b).shaped }

/-- Making an entity and joining the first member into it amounts to making an entity of that
kind. -/
theorem absorb_alloc (closed : s.Closed) (hb : b ∈ s) (mode : JoinMode) (kind : EntityKind)
    (label : String) :
    (s.alloc { kind, label }).2.absorb mode ⟨s.size⟩ b =
      (s.alloc (s.opening mode kind label b)).2 := by
  have kept : s.PreservedIn (s.alloc { kind, label }).2 := by
    refine ⟨by rw [size_alloc]; omega, node_alloc_lt _ s, fun n hn => ?_⟩
    have other : (⟨s.size⟩ : Handle) ≠ n := by
      rintro rfl
      exact Nat.lt_irrefl _ hn
    have pushed : n ∈ s.push { kind, label } := mem_push hn _
    have holds : Entity.holds { kind, label } = [] := rfl
    rw [live, live, Store.alloc, count_retainAll pushed, count_push, holds,
      List.count_eq_zero_of_not_mem (by simp [other.symm]), Nat.add_zero]
  have here : (s.alloc { kind, label }).2.node ⟨s.size⟩ = { kind, label } := node_alloc _ s
  have isa : (s.alloc { kind, label }).2.isa? ⟨s.size⟩ = none := by
    rw [isa?, here]
    rfl
  have context : (s.alloc { kind, label }).2.context? ⟨s.size⟩ = none := by
    rw [context?, here]
    rfl
  unfold absorb
  simp only [isa, context, kept.isa? closed hb, kept.context? closed hb, node_alloc_lt _ s b hb,
    Option.isNone_none, Bool.true_and, if_true]
  rw [Store.alloc, ← Ledger.retainAll_modifyNode, modifyNode_push, ← retainAll_append]
  have holds : (s.opening mode kind label b).holds =
      ((s.opening mode kind label b).isa.filter Prototype.owned).toList.map Prototype.target := rfl
  have content : s.opening mode kind label b =
      { kind, label
        types := (∅ : SortedSet String).union (s.node b).types
        signatures :=
        if mode.signatures then (∅ : ContentSet Definition).union (s.node b).signatures else ∅
        isa := (if (s.isa? b).isSome then (s.node b).isa else none).or none
        context := (s.context? b).or none
        shaped := false || (s.node b).shaped } := by
    rw [opening, Option.or_none, Option.or_none, Bool.false_or]
  rw [← content, Store.alloc, holds]
  rfl

theorem Twin.opening_eq (twin : s.Twin z s') (mode : JoinMode) (kind : EntityKind) (label : String)
    (b : Handle) : s'.opening mode kind label b = s.opening mode kind label b := by
  have signatures_eq : (s'.node b).signatures = (s.node b).signatures :=
    twin.congr b Entity.signatures fun _ => rfl
  have shaped_eq : (s'.node b).shaped = (s.node b).shaped := twin.congr b Entity.shaped fun _ => rfl
  have isa_eq : (s'.node b).isa = (s.node b).isa := twin.congr b Entity.isa fun _ => rfl
  rw [opening, opening, twin.types_eq, signatures_eq, shaped_eq, isa_eq, twin.isa?_eq,
    twin.context?_eq]

/-- The first member gives a union its first types. -/
theorem Twin.open_union (twin : s.Twin z s') (made : s.Made z b) (mode : JoinMode)
    (kind : EntityKind) (label : String) :
    ((s.alloc { kind, label }).2.absorb mode ⟨s.size⟩ b).Twin z
      ((s'.alloc { kind, label }).2.absorb mode ⟨s.size⟩ b) := by
  have right := absorb_alloc twin.closed_right (twin.mem_iff.2 made.mem) mode kind label
  rw [twin.size_eq, twin.opening_eq] at right
  rw [absorb_alloc twin.closed made.mem, right]
  refine twin.alloc rfl (fun k hk => ?_) ?_
  · rcases Entity.mem_links_iff.1 hk with member | result | ⟨p, isa, rfl⟩ | context
    · cases member
    · cases result
    · rw [opening] at isa
      dsimp only at isa
      split at isa
      · exact twin.links b made.base_le _
          (Entity.mem_links_iff.2 (.inr (.inr (.inl ⟨p, isa, rfl⟩))))
      · cases isa
    · exact twin.linkable_context? made.base_le context
  · obtain ⟨tag, listed⟩ := twin.typed made.base_le
    exact ⟨⟨tag, SortedSet.mem_union.2 (.inr listed)⟩, fun m hm => nomatch hm⟩

end Opening

end Store

namespace Joining

/-- A member of the zone that can be brought into a node of the zone. -/
structure Ready (z : Zone) (s : Store) (e : PendingEntry) : Prop where
  into : s.Linkable z e.into
  shaped : (s.node e.into).isMapShaped = true
  value : s.Made z e.value

theorem Ready.mono (ready : Ready z s e) (grows : s.Grows t) : Ready z t e :=
  ⟨ready.into.later grows.size_le, grows.isMapShaped ready.into.mem ready.shaped,
    ready.value.later grows.size_le⟩

/-- Joins of twins that have met the same pairs and have the same members left to bring in. -/
structure Twin (z : Zone) (j j' : Joining) : Prop where
  seen_eq : j'.seen = j.seen
  pending_eq : j'.pending = j.pending
  store : j.store.Twin z j'.store
  ready : ∀ e ∈ j.pending, Ready z j.store e

namespace Twin
variable {mode : JoinMode} {j j' : Joining} {a b : Handle}

/-- What the pair that is begun leaves to do comes in front. -/
theorem of_opened (seen_eq : j'.seen = j.seen) (pending_eq : j'.pending = j.pending)
    (members_eq : (j'.store.node b).members = (j.store.node b).members)
    (store : (j.store.absorb mode a b).Twin z (j'.store.absorb mode a b))
    (members : ∀ key, ∀ m ∈ (j.store.node b).members.values, Ready z (j.store.absorb mode a b) ⟨a,
      key, m⟩)
    (ready : ∀ e ∈ j.pending, Ready z j.store e) :
    (j.opened mode a b).Twin z (j'.opened mode a b) := by
  constructor
  · exact congrArg (·.insert (a, b)) seen_eq
  · simp only [Joining.opened, members_eq, pending_eq]
  · exact store
  · intro e he
    rcases List.mem_append.1 he with he | he
    · obtain ⟨entry, hentry, rfl⟩ := List.mem_map.1 he
      exact members entry.1 entry.2 (List.mem_map_of_mem hentry)
    · exact (ready e he).mono (Store.grows_absorb mode a b j.store)

theorem opened (twin : j.Twin z j') (linkable : j.store.Linkable z a) (made : j.store.Made z b) :
    (j.opened mode a b).Twin z (j'.opened mode a b) := by
  have size_le : j.store.size ≤ (j.store.absorb mode a b).size :=
    Nat.le_of_eq (Store.size_absorb mode a b j.store).symm
  refine of_opened twin.seen_eq twin.pending_eq (twin.store.members_eq b)
    (twin.store.absorb linkable made) (fun key m hm => ?_) twin.ready
  have named := twin.store.links b made.base_le m (Entity.mem_links_iff.2 (.inl hm))
  have shaped := (twin.store.formed b made.base_le).2 m hm
  exact ⟨linkable.later size_le, Store.isMapShaped_absorb linkable.mem mode shaped,
    named.toMade.later size_le⟩

/-- A union begins with its first member. -/
theorem open_union (twin : s.Twin z s') (made : s.Made z b) (kind : EntityKind) (label : String) :
    (Joining.enter mode ⟨s.size⟩ b { store := (s.alloc { kind, label }).2 }).Twin z
      (Joining.enter mode ⟨s.size⟩ b { store := (s'.alloc { kind, label }).2 }) := by
  have ne : (⟨s.size⟩ : Handle) ≠ b := by
    rintro rfl
    exact Nat.lt_irrefl _ made.mem
  have begun : ∀ t : Store, Joining.enter mode ⟨s.size⟩ b { store := t } =
      Joining.opened mode ⟨s.size⟩ b { store := t } := by
    intro t
    rcases enter_cases mode ⟨s.size⟩ b { store := t } with ⟨met, -⟩ | ⟨-, -, step⟩
    · rcases met with same | seen
      · exact absurd same ne
      · simp at seen
    · exact step
  have size : ((s.alloc { kind, label }).2.absorb mode ⟨s.size⟩ b).size = s.size + 1 := by
    rw [Store.size_absorb, Store.size_alloc]
  have node : (s.alloc { kind, label }).2.node b = s.node b := Store.node_alloc_lt _ s b made.mem
  have node' : (s'.alloc { kind, label }).2.node b = s'.node b :=
    Store.node_alloc_lt _ s' b (twin.mem_iff.2 made.mem)
  rw [begun, begun]
  refine of_opened rfl rfl ?_ (twin.open_union made mode kind label) (fun key m hm => ?_)
    fun e he => absurd he List.not_mem_nil
  · rw [node, node', twin.members_eq]
  · have new : (⟨s.size⟩ : Handle) ∈ (s.alloc { kind, label }).2 := Store.mem_alloc _ s
    rw [node] at hm
    have named := twin.links b made.base_le m (Entity.mem_links_iff.2 (.inl hm))
    have shaped := (twin.formed b made.base_le).2 m hm
    constructor
    · refine twin.linkable_new ?_ (Nat.lt_irrefl s.size)
      rw [Store.mem_iff, size]
      exact Nat.lt_succ_self _
    · refine Store.isMapShaped_absorb new mode ?_
      rw [node]
      exact shaped
    · exact named.toMade.later (size ▸ Nat.le_succ s.size)

theorem enter (twin : j.Twin z j') (linkable : j.store.Linkable z a) (made : j.store.Made z b) :
    (j.enter mode a b).Twin z (j'.enter mode a b) := by
  unfold Joining.enter
  rw [twin.seen_eq]
  split
  · exact twin
  · have opened : (j.opened mode a b).Twin z (j'.opened mode a b) := twin.opened linkable made
    rw [Joining.opened, Joining.opened, twin.seen_eq] at opened
    exact opened

theorem bring (deep : mode.deepCopy = true) (twin : j.Twin z j') (ready : Ready z j.store e) :
    (j.bring mode e).Twin z (j'.bring mode e) := by
  unfold Joining.bring
  rw [twin.store.member?_eq]
  split
  · rename_i mine found
    exact twin.enter (twin.store.linkable_member ready.into.toMade found) ready.value
  · rename_i free
    constructor
    · exact twin.seen_eq
    · exact twin.pending_eq
    · exact twin.store.adopt deep ready.into ready.shaped ready.value e.key
    · exact fun e' he' => (twin.ready e' he').mono (Store.grows_adopt mode e.value free)

/-- The joins run in step, until both run out of steps or both are done. -/
theorem run (deep : mode.deepCopy = true) (twin : j.Twin z j') (bound : Nat) :
    (∃ t t', j.run mode bound = .error t ∧ j'.run mode bound = .error t') ∨
      ∃ t t', j.run mode bound = .ok t ∧ j'.run mode bound = .ok t' ∧ t.Twin z t' := by
  induction bound generalizing j j' with
  | zero =>
    obtain ⟨seen, pending, store⟩ := j
    obtain ⟨seen', pending', store'⟩ := j'
    obtain rfl : pending' = pending := twin.pending_eq
    cases pending' with
    | nil => exact .inr ⟨store, store', rfl, rfl, twin.store⟩
    | cons e rest => exact .inl ⟨store, store', rfl, rfl⟩
  | succ bound ih =>
    obtain ⟨seen, pending, store⟩ := j
    obtain ⟨seen', pending', store'⟩ := j'
    obtain rfl : pending' = pending := twin.pending_eq
    cases pending' with
    | nil => exact .inr ⟨store, store', rfl, rfl, twin.store⟩
    | cons e rest =>
      obtain ⟨here, later⟩ := List.forall_mem_cons.1 twin.ready
      have left : Twin z ⟨seen, rest, store⟩ ⟨seen', rest, store'⟩ :=
        ⟨twin.seen_eq, rfl, twin.store, later⟩
      exact ih (left.bring deep here)

end Twin

end Joining

end ScriptInference
