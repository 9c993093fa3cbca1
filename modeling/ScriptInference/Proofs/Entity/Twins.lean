import ScriptInference.Proofs.Entity.Escapes

/-!
# Twin stores

Two stores are twins if they have the same nodes up to lines and sources, which tell where in a text
an entity comes from. Every operation keeps twins twins, so that runs which differ only in such
places go in step: nothing else in a store depends on them.

The nodes below the base of a zone were there before the zone was begun. What is made in the zone
has a type, has the shape of a map if it has members, and names only what was made in the zone. What
lies below the base names only what lies below it. Some nodes of the zone are recorded: they are the
entities of functions as declared, of which only copies are stored anywhere. No node names a
recorded one and a recorded one holds nothing. The number of its holders is therefore never asked
for, and twins may disagree on it.

A store is its own twin if it obeys these rules.
-/

namespace ScriptInference

/-- The contents without their place in the text. -/
def Entity.unplaced (e : Entity) : Entity := { e with source := none, line := none }

/-- Whatever does not look at the place of an entity is the same for entities that differ in it
only. -/
theorem Entity.congr_unplaced {α : Type} {e e' : Entity} (same : e'.unplaced = e.unplaced)
    (f : Entity → α) (blind : ∀ e, f e.unplaced = f e) : f e' = f e := by
  rw [← blind, same, blind]

def Entity.HasType (e : Entity) : Prop := ∃ tag, tag ∈ e.types

/-- An entity that has a type, and the shape of a map if it has members. -/
def Entity.Formed (e : Entity) : Prop := e.HasType ∧ ∀ m ∈ e.members.values, e.isMapShaped = true

theorem Entity.HasType.formed {e : Entity} (typed : e.HasType) (bare : e.links = []) : e.Formed :=
  ⟨typed, fun _ hm => absurd (mem_links_iff.2 (.inl hm)) (bare ▸ List.not_mem_nil)⟩

structure Zone where
  base : Nat
  recorded : Set Handle

/-- The zone with one more node recorded. -/
def Zone.record (z : Zone) (h : Handle) : Zone := { z with recorded := insert h z.recorded }

namespace Store

/-- A node of the zone. -/
structure Made (z : Zone) (s : Store) (h : Handle) : Prop where
  base_le : z.base ≤ h.index
  mem : h ∈ s

/-- A node of the zone that other nodes may name. -/
structure Linkable (z : Zone) (s : Store) (h : Handle) : Prop extends s.Made z h where
  free : h ∉ z.recorded

structure Twin (z : Zone) (s s' : Store) : Prop where
  size_eq : s'.size = s.size
  base_le : z.base ≤ s.size
  same : ∀ h, (s'.node h).unplaced = (s.node h).unplaced
  counts : ∀ h ∈ s, h ∉ z.recorded → s'.count h = s.count h
  links : ∀ h, z.base ≤ h.index → ∀ k ∈ (s.node h).links, s.Linkable z k
  below : ∀ h, h.index < z.base → ∀ k ∈ (s.node h).links, k.index < z.base
  formed : ∀ h, z.base ≤ h.index → (s.node h).Formed
  recorded : ∀ h ∈ z.recorded, s.Made z h
  bare : ∀ h ∈ z.recorded, (s.node h).holds = []
  simple : ∀ h ∈ z.recorded, (s.node h).isReferenceShaped = false

variable {z : Zone} {s s' t t' : Store} {h k : Handle}

theorem Made.later (made : s.Made z h) (size_le : s.size ≤ t.size) : t.Made z h :=
  ⟨made.base_le, Nat.lt_of_lt_of_le made.mem size_le⟩

theorem Linkable.later (linkable : s.Linkable z h) (size_le : s.size ≤ t.size) : t.Linkable z h :=
  ⟨linkable.toMade.later size_le, linkable.free⟩

theorem not_mem_recorded_of_lt (twin : s.Twin z s') (hh : h.index < z.base) : h ∉ z.recorded :=
  fun recorded => Nat.not_lt.2 (twin.recorded h recorded).base_le hh

theorem size_putMember (h : Handle) (key : EntryKey) (value : Handle) (s : Store) :
    (s.putMember h key value).size = s.size :=
  (size_eq (nodes_releaseAll _ _)).trans (size_modifyNode h _ s)

theorem isMapShaped_putMember (h : Handle) (key : EntryKey) (value : Handle) (s : Store)
    (n : Handle) : ((s.putMember h key value).node n).isMapShaped = (s.node n).isMapShaped := by
  rw [putMember, node_eq (nodes_releaseAll _ _), node_modifyNode_eq]
  split <;> rfl

theorem default_formed : (default : Entity).Formed := Entity.HasType.formed ⟨Tag.any, by decide⟩ rfl

namespace Twin

section Reading

theorem mem_iff (twin : s.Twin z s') : h ∈ s' ↔ h ∈ s := by
  rw [Store.mem_iff, Store.mem_iff, twin.size_eq]

theorem congr {α : Type} (twin : s.Twin z s') (h : Handle) (f : Entity → α)
    (blind : ∀ e, f e.unplaced = f e) : f (s'.node h) = f (s.node h) :=
  Entity.congr_unplaced (twin.same h) f blind

section
variable (twin : s.Twin z s')

include twin

section
variable (h : Handle)

theorem links_eq : (s'.node h).links = (s.node h).links :=
  twin.congr h Entity.links fun _ => rfl

theorem holds_eq : (s'.node h).holds = (s.node h).holds :=
  twin.congr h Entity.holds fun _ => rfl

theorem types_eq : (s'.node h).types = (s.node h).types :=
  twin.congr h Entity.types fun _ => rfl

theorem members_eq : (s'.node h).members = (s.node h).members :=
  twin.congr h Entity.members fun _ => rfl

theorem member?_eq (key : EntryKey) : s'.member? h key = s.member? h key :=
  twin.congr h (Entity.member? · key) fun _ => rfl

end

/-- What a node names is never recorded. -/
theorem free_of_mem_links (hk : k ∈ (s.node h).links) : k ∉ z.recorded := by
  by_cases made : z.base ≤ h.index
  · exact (twin.links h made k hk).free
  · exact not_mem_recorded_of_lt twin (twin.below h (Nat.lt_of_not_le made) k hk)

theorem closed : s.Closed := by
  intro h hh k hk
  by_cases made : z.base ≤ h.index
  · exact (twin.links h made k hk).mem
  · exact Nat.lt_of_lt_of_le (twin.below h (Nat.lt_of_not_le made) k hk) twin.base_le

theorem closed_right : s'.Closed := by
  intro h hh k hk
  rw [twin.links_eq] at hk
  exact twin.mem_iff.2 (twin.closed h (twin.mem_iff.1 hh) k hk)

theorem linkable_member (made : s.Made z h) {key : EntryKey} (hk : s.member? h key = some k) :
    s.Linkable z k :=
  twin.links h made.base_le k (Entity.mem_links_of_member? hk)

end

theorem typed (twin : s.Twin z s') (base_le : z.base ≤ h.index) : (s.node h).HasType :=
  (twin.formed h base_le).1

variable (twin : s.Twin z s')

include twin

/-- What does not have the shape of a map has no members. -/
theorem member?_eq_none (base_le : z.base ≤ h.index) (shape : (s.node h).isMapShaped = false)
    (key : EntryKey) : s.member? h key = none := by
  rw [Option.eq_none_iff_forall_ne_some]
  intro k hk
  have shaped := (twin.formed h base_le).2 k (SortedMap.mem_values_iff.2 ⟨key, hk⟩)
  rw [shape] at shaped
  cases shaped

theorem count_eq (free : h ∉ z.recorded) : s'.count h = s.count h := by
  by_cases hh : h ∈ s
  · exact twin.counts h hh free
  · rw [count_of_not_mem hh, count_of_not_mem (mt twin.mem_iff.1 hh)]

theorem live_eq (free : h ∉ z.recorded) : s'.live h = s.live h := by
  rw [live, live, twin.count_eq free]

theorem filter_live_eq {o : Option Handle} (free : ∀ k ∈ o, k ∉ z.recorded) :
    o.filter s'.live = o.filter s.live := by
  cases o with
  | none => rfl
  | some k =>
    rw [Option.filter_some, Option.filter_some, twin.live_eq (free k rfl)]

theorem isa?_eq (h : Handle) : s'.isa? h = s.isa? h := by
  have same : (s'.node h).isa = (s.node h).isa := twin.congr h Entity.isa fun _ => rfl
  rw [isa?, isa?, same]
  refine twin.filter_live_eq fun k hk => twin.free_of_mem_links (h := h) ?_
  obtain ⟨p, isa, target⟩ := Option.map_eq_some_iff.1 hk
  exact Entity.mem_links_iff.2 (.inr (.inr (.inl ⟨p, isa, target⟩)))

theorem context?_eq (h : Handle) : s'.context? h = s.context? h := by
  have same : (s'.node h).context = (s.node h).context := twin.congr h Entity.context fun _ => rfl
  rw [context?, context?, same]
  refine twin.filter_live_eq fun k hk => twin.free_of_mem_links (h := h) ?_
  exact Entity.mem_links_iff.2 (.inr (.inr (.inr hk)))

theorem linkable_isa? (base_le : z.base ≤ h.index) (hk : s.isa? h = some k) : s.Linkable z k := by
  obtain ⟨p, isa, target⟩ := Option.map_eq_some_iff.1 (Option.filter_eq_some_iff.1 hk).1
  exact twin.links h base_le k (Entity.mem_links_iff.2 (.inr (.inr (.inl ⟨p, isa, target⟩))))

theorem linkable_context? (base_le : z.base ≤ h.index) (hk : s.context? h = some k) :
    s.Linkable z k :=
  twin.links h base_le k
    (Entity.mem_links_iff.2 (.inr (.inr (.inr (Option.filter_eq_some_iff.1 hk).1))))

end Reading

section Counting

/-- Only the number of holders has changed. -/
theorem recount (twin : s.Twin z s') (nodes : t.nodes = s.nodes) (nodes' : t'.nodes = s'.nodes)
    (counts : ∀ h ∈ s, h ∉ z.recorded → t'.count h = t.count h) : t.Twin z t' where
  size_eq := by rw [Store.size_eq nodes, Store.size_eq nodes', twin.size_eq]
  base_le := by
    rw [Store.size_eq nodes]
    exact twin.base_le
  same h := by
    rw [node_eq nodes, node_eq nodes']
    exact twin.same h
  counts h hh := counts h (by rwa [Store.mem_iff, Store.size_eq nodes] at hh)
  links h hh k hk := by
    rw [node_eq nodes] at hk
    exact (twin.links h hh k hk).later (Nat.le_of_eq (Store.size_eq nodes).symm)
  below h hh k hk := by
    rw [node_eq nodes] at hk
    exact twin.below h hh k hk
  formed h hh := by
    rw [node_eq nodes]
    exact twin.formed h hh
  recorded h hh := (twin.recorded h hh).later (Nat.le_of_eq (Store.size_eq nodes).symm)
  bare h hh := by
    rw [node_eq nodes]
    exact twin.bare h hh
  simple h hh := by
    rw [node_eq nodes]
    exact twin.simple h hh

theorem retainAll (twin : s.Twin z s') (hs : List Handle) :
    (s.retainAll hs).Twin z (s'.retainAll hs) := by
  refine twin.recount (nodes_retainAll hs s) (nodes_retainAll hs s') fun h hh free => ?_
  rw [count_retainAll hh, count_retainAll (twin.mem_iff.2 hh), twin.counts h hh free]

theorem setCount (twin : s.Twin z s') (k : Handle) (n : Nat) :
    (s.setCount k n).Twin z (s'.setCount k n) := by
  refine twin.recount rfl rfl fun h hh free => ?_
  rw [Ledger.count_setCount hh, Ledger.count_setCount (twin.mem_iff.2 hh), twin.counts h hh free]

theorem releaseWithin (twin : s.Twin z s') (bound : Nat) (free : k ∉ z.recorded) :
    (releaseWithin bound k s).Twin z (Store.releaseWithin bound k s') := by
  induction bound generalizing s s' k with
  | zero => exact twin
  | succ bound ih =>
    rw [Store.releaseWithin, Store.releaseWithin, twin.count_eq free, twin.holds_eq]
    split
    · exact twin
    · -- the nodes that die in turn are named by the one that died
      have held : ∀ j ∈ (s.node k).holds, j ∉ z.recorded := fun j hj =>
        twin.free_of_mem_links (Entity.mem_links_of_mem_holds hj)
      have buried := twin.setCount k 0
      generalize (s.node k).holds = ks at held
      generalize s.setCount k 0 = t at buried
      generalize s'.setCount k 0 = t' at buried
      induction ks generalizing t t' with
      | nil => exact buried
      | cons j rest next =>
        rw [List.foldl_cons, List.foldl_cons]
        obtain ⟨here, later⟩ := List.forall_mem_cons.1 held
        exact next later _ _ (ih buried here)
    · exact twin.setCount k _

/-- Giving up a hold on a node that holds nothing has no effect beyond it. -/
theorem count_releaseWithin_of_bare {bound : Nat} (bare : (s.node k).holds = []) (other : h ≠ k)
    (hh : h ∈ s) : (Store.releaseWithin bound k s).count h = s.count h := by
  cases bound with
  | zero => rfl
  | succ bound =>
    rw [Store.releaseWithin, bare]
    split
    · rfl
    · rw [List.foldl_nil, Ledger.count_setCount hh, if_neg other]
    · rw [Ledger.count_setCount hh, if_neg other]

variable (twin : s.Twin z s')

include twin

theorem release_recorded_left (hk : k ∈ z.recorded) : (s.release k).Twin z s' := by
  refine twin.recount (nodes_release k s) rfl fun h hh free => ?_
  have other : h ≠ k := fun same => free (same ▸ hk)
  rw [twin.counts h hh free, release, count_releaseWithin_of_bare (twin.bare k hk) other hh]

theorem release_recorded_right (hk : k ∈ z.recorded) : s.Twin z (s'.release k) := by
  refine twin.recount rfl (nodes_release k s') fun h hh free => ?_
  have other : h ≠ k := fun same => free (same ▸ hk)
  have bare : (s'.node k).holds = [] := (twin.holds_eq k).trans (twin.bare k hk)
  rw [release, count_releaseWithin_of_bare bare other (twin.mem_iff.2 hh), twin.counts h hh free]

/-- Twins may give up different holds on recorded nodes. -/
theorem releaseAll_recorded {ks ks' : List Handle} (left : ∀ k ∈ ks, k ∈ z.recorded)
    (right : ∀ k ∈ ks', k ∈ z.recorded) : (s.releaseAll ks).Twin z (s'.releaseAll ks') := by
  have first : (s.releaseAll ks).Twin z s' := by
    induction ks generalizing s with
    | nil => exact twin
    | cons k rest ih =>
      obtain ⟨here, later⟩ := List.forall_mem_cons.1 left
      exact ih (twin.release_recorded_left here) later
  induction ks' generalizing s' with
  | nil => exact first
  | cons k rest ih =>
    obtain ⟨here, later⟩ := List.forall_mem_cons.1 right
    exact ih (twin.release_recorded_right here) later (first.release_recorded_right here)

theorem release (k : Handle) : (s.release k).Twin z (s'.release k) := by
  by_cases recorded : k ∈ z.recorded
  · exact (twin.release_recorded_left recorded).release_recorded_right recorded
  · rw [Store.release, Store.release, twin.size_eq]
    exact twin.releaseWithin _ recorded

theorem releaseAll (ks : List Handle) : (s.releaseAll ks).Twin z (s'.releaseAll ks) := by
  induction ks generalizing s s' with
  | nil => exact twin
  | cons k rest ih => exact ih (twin.release k)

end Counting

section Writing

section
variable (twin : s.Twin z s')

include twin

/-- A node of the zone may be given new contents, the same in both up to their place. -/
theorem modifyNode {a : Handle} (made : s.Made z a) {f f' : Entity → Entity}
    (same : (f' (s'.node a)).unplaced = (f (s.node a)).unplaced)
    (links : ∀ k ∈ (f (s.node a)).links, s.Linkable z k) (formed : (f (s.node a)).Formed)
    (recorded : a ∈ z.recorded → (f (s.node a)).holds = (s.node a).holds ∧
      (f (s.node a)).types = (s.node a).types) :
    (s.modifyNode a f).Twin z (s'.modifyNode a f') := by
  have here : ∀ n, (s.modifyNode a f).node n = if n = a then f (s.node a) else s.node n := by
    intro n
    rw [node_modifyNode_eq]
    by_cases eq : n = a
    · simp [eq, made.mem]
    · simp [eq]
  have here' : ∀ n, (s'.modifyNode a f').node n = if n = a then f' (s'.node a) else s'.node n := by
    intro n
    rw [node_modifyNode_eq]
    by_cases eq : n = a
    · simp [eq, twin.mem_iff.2 made.mem]
    · simp [eq]
  have size : (s.modifyNode a f).size = s.size := size_modifyNode a f s
  constructor
  · rw [size, size_modifyNode, twin.size_eq]
  · exact size.symm ▸ twin.base_le
  · intro n
    rw [here, here']
    split
    · exact same
    · exact twin.same n
  · intro n hn free
    exact twin.counts n (by rwa [Store.mem_iff, size] at hn) free
  · intro n hn k hk
    rw [here] at hk
    refine Linkable.later ?_ (Nat.le_of_eq size.symm)
    split at hk
    · exact links k hk
    · exact twin.links n hn k hk
  · intro n hn k hk
    have ne : n ≠ a := by
      rintro rfl
      exact Nat.not_lt.2 made.base_le hn
    rw [here, if_neg ne] at hk
    exact twin.below n hn k hk
  · intro n hn
    rw [here]
    split
    · exact formed
    · exact twin.formed n hn
  · exact fun n hn => (twin.recorded n hn).later (Nat.le_of_eq size.symm)
  · intro n hn
    rw [here]
    split
    · rename_i eq
      subst eq
      exact (recorded hn).1.trans (twin.bare n hn)
    · exact twin.bare n hn
  · intro n hn
    rw [here]
    split
    · rename_i eq
      subst eq
      rw [Entity.isReferenceShaped, (recorded hn).2]
      exact twin.simple n hn
    · exact twin.simple n hn

theorem setContext (made : s.Made z h) (owner : s.Linkable z k) :
    (s.setContext h k).Twin z (s'.setContext h k) := by
  refine twin.modifyNode made ?_ (fun j hj => ?_) (twin.formed h made.base_le) fun _ => ⟨rfl, rfl⟩
  · exact twin.congr h (fun e => { e with context := some k : Entity }.unplaced) fun _ => rfl
  · rcases Entity.mem_links_context hj with same | old
    · exact Option.some.inj same ▸ owner
    · exact twin.links h made.base_le j old

theorem setLabel (made : s.Made z h) (label : String) :
    (s.modifyNode h ({ · with label })).Twin z (s'.modifyNode h ({ · with label })) := by
  refine twin.modifyNode made ?_ (twin.links h made.base_le) (twin.formed h made.base_le)
    fun _ => ⟨rfl, rfl⟩
  exact twin.congr h (fun e => { e with label : Entity }.unplaced) fun _ => rfl

theorem insert_member (linkable : s.Linkable z h) (shaped : (s.node h).isMapShaped = true)
    (value : s.Linkable z k) (key : EntryKey) :
    (s.modifyNode h fun e => { e with members := e.members.insert key k }).Twin z
      (s'.modifyNode h fun e => { e with members := e.members.insert key k }) := by
  refine twin.modifyNode linkable.toMade ?_ (fun j hj => ?_)
    ⟨(twin.formed h linkable.base_le).1, fun _ _ => shaped⟩
    fun recorded => absurd recorded linkable.free
  · exact twin.congr h (fun e => { e with members := e.members.insert key k : Entity }.unplaced)
      fun _ => rfl
  · rcases Entity.mem_links_insert hj with rfl | old
    · exact value
    · exact twin.links h linkable.base_le j old

theorem putMember (linkable : s.Linkable z h) (shaped : (s.node h).isMapShaped = true)
    (value : s.Linkable z k) (key : EntryKey) :
    (s.putMember h key k).Twin z (s'.putMember h key k) := by
  rw [Store.putMember, Store.putMember, twin.member?_eq]
  exact (twin.insert_member linkable shaped value key).releaseAll _

theorem setPrototype (linkable : s.Linkable z h) {isa : Option Prototype}
    (target : ∀ p ∈ isa, s.Linkable z p.target) :
    (s.setPrototype h isa).Twin z (s'.setPrototype h isa) := by
  have same : (s'.node h).isa = (s.node h).isa := twin.congr h Entity.isa fun _ => rfl
  rw [Store.setPrototype, Store.setPrototype, same]
  refine Twin.releaseAll (twin.modifyNode linkable.toMade ?_ (fun j hj => ?_)
    (twin.formed h linkable.base_le) fun recorded => absurd recorded linkable.free) _
  · exact twin.congr h (fun e => { e with isa : Entity }.unplaced) fun _ => rfl
  · rcases Entity.mem_links_isa hj with ⟨p, hp, rfl⟩ | old
    · exact target p hp
    · exact twin.links h linkable.base_le j old

end

theorem inherit (twin : s.Twin z s') (linkable : s.Linkable z h) (prototype : s.Linkable z k) :
    (s.inherit h k).Twin z (s'.inherit h k) := by
  have target : ∀ {t : Store} {owned : Bool}, t.nodes = s.nodes →
      ∀ p ∈ some (Prototype.mk k owned), t.Linkable z p.target := by
    intro t owned nodes p hp
    cases hp
    exact prototype.later (Nat.le_of_eq (Store.size_eq nodes).symm)
  rw [Store.inherit, Store.inherit, twin.count_eq prototype.free]
  by_cases owned : s.count k = 1
  · simp only [owned, decide_true, if_true]
    exact twin.setPrototype linkable (target rfl)
  · simp only [owned, decide_false, if_false]
    have nodes := nodes_release k s
    exact (twin.release k).setPrototype (linkable.later (Nat.le_of_eq (Store.size_eq nodes).symm))
      (target nodes)

theorem putMembers (twin : s.Twin z s') (linkable : s.Linkable z h)
    (shaped : (s.node h).isMapShaped = true) (value : s.Linkable z k) (tags : List String) :
    (tags.foldl (fun s tag => (s.retain k).putMember h (.type tag) k) s).Twin z
      (tags.foldl (fun s tag => (s.retain k).putMember h (.type tag) k) s') := by
  induction tags generalizing s s' with
  | nil => exact twin
  | cons tag rest ih =>
    have size : ((s.retain k).putMember h (.type tag) k).size = s.size := size_putMember h _ k _
    have retained : (s.retain k).Twin z (s'.retain k) := twin.retainAll [k]
    have next := retained.putMember (linkable.later (Nat.le_refl _)) shaped
      (value.later (Nat.le_refl _)) (.type tag)
    exact ih next (linkable.later (Nat.le_of_eq size.symm))
      ((isMapShaped_putMember h _ k _ h).trans shaped) (value.later (Nat.le_of_eq size.symm))

theorem setProperty (twin : s.Twin z s') (linkable : s.Linkable z h) (value : s.Linkable z k)
    (key : Property) :
    (s'.setProperty h key k).1 = (s.setProperty h key k).1 ∧
      (s.setProperty h key k).2.Twin z (s'.setProperty h key k).2 := by
  have same : (s'.node h).isMapShaped = (s.node h).isMapShaped :=
    twin.congr h Entity.isMapShaped fun _ => rfl
  unfold Store.setProperty
  rw [same]
  cases shaped : (s.node h).isMapShaped with
  | false => exact ⟨rfl, twin.release k⟩
  | true =>
    cases key with
    | identifier name => exact ⟨rfl, twin.putMember linkable shaped value _⟩
    | value n =>
      simp only [Bool.not_true, Bool.false_eq_true, if_false, twin.types_eq n]
      split
      · exact ⟨rfl, twin.release k⟩
      · exact ⟨rfl, (twin.putMembers linkable shaped value _).release k⟩

end Writing

section Growing

/-- New nodes may be added that name nodes of the zone. -/
theorem grow (twin : s.Twin z s') (size_le : s.size ≤ t.size) (size_eq : t'.size = t.size)
    (old : ∀ n ∈ s, t.node n = s.node n) (old' : ∀ n ∈ s', t'.node n = s'.node n)
    (counts : ∀ n ∈ t, n ∉ z.recorded → t'.count n = t.count n)
    (same : ∀ n ∈ t, n ∉ s → (t'.node n).unplaced = (t.node n).unplaced)
    (links : ∀ n ∈ t, n ∉ s → ∀ k ∈ (t.node n).links, t.Linkable z k)
    (formed : ∀ n ∈ t, n ∉ s → (t.node n).Formed) : t.Twin z t' := by
  have below : ∀ n, n.index < z.base → n ∈ s := fun n hn => Nat.lt_of_lt_of_le hn twin.base_le
  constructor
  · exact size_eq
  · exact Nat.le_trans twin.base_le size_le
  · intro n
    by_cases stored : n ∈ t
    · by_cases hn : n ∈ s
      · rw [old n hn, old' n (twin.mem_iff.2 hn)]
        exact twin.same n
      · exact same n stored hn
    · have outside : n ∉ t' := by rwa [Store.mem_iff, size_eq]
      rw [node_of_not_mem stored, node_of_not_mem outside]
  · exact counts
  · intro n hn k hk
    by_cases inside : n ∈ s
    · rw [old n inside] at hk
      exact (twin.links n hn k hk).later size_le
    · by_cases stored : n ∈ t
      · exact links n stored inside k hk
      · rw [node_of_not_mem stored] at hk
        cases hk
  · intro n hn k hk
    rw [old n (below n hn)] at hk
    exact twin.below n hn k hk
  · intro n hn
    by_cases inside : n ∈ s
    · rw [old n inside]
      exact twin.formed n hn
    · by_cases stored : n ∈ t
      · exact formed n stored inside
      · rw [node_of_not_mem stored]
        exact default_formed
  · exact fun n hn => (twin.recorded n hn).later size_le
  · intro n hn
    rw [old n (twin.recorded n hn).mem]
    exact twin.bare n hn
  · intro n hn
    rw [old n (twin.recorded n hn).mem]
    exact twin.simple n hn

/-- What is new in the store may be named. -/
theorem linkable_new (twin : s.Twin z s') (stored : h ∈ t) (new : h ∉ s) : t.Linkable z h where
  base_le := Nat.le_trans twin.base_le (Nat.le_of_not_lt new)
  mem := stored
  free recorded := new (twin.recorded h recorded).mem

theorem alloc (twin : s.Twin z s') {e e' : Entity} (same : e'.unplaced = e.unplaced)
    (links : ∀ k ∈ e.links, s.Linkable z k) (formed : e.Formed) :
    (s.alloc e).2.Twin z (s'.alloc e').2 := by
  have size := size_alloc e s
  have here : ∀ n ∈ (s.alloc e).2, n ∉ s → n = ⟨s.size⟩ := fun n hn new =>
    congrArg Handle.mk (Nat.eq_of_lt_succ_of_not_lt (size ▸ hn) new)
  have content : (s.alloc e).2.node ⟨s.size⟩ = e := node_alloc e s
  have content' : (s'.alloc e').2.node ⟨s.size⟩ = e' := by
    rw [← twin.size_eq]
    exact node_alloc e' s'
  refine twin.grow (by omega) ?_ (node_alloc_lt e s) (node_alloc_lt e' s') ?_ ?_ ?_ ?_
  · rw [size_alloc, size_alloc, twin.size_eq]
  · intro n hn free
    rw [Store.mem_iff, size] at hn
    have pushed : n ∈ s.push e := by rwa [Store.mem_iff, size_push]
    have pushed' : n ∈ s'.push e' := by rwa [Store.mem_iff, size_push, twin.size_eq]
    have holds : e'.holds = e.holds := Entity.congr_unplaced same Entity.holds fun _ => rfl
    rw [Store.alloc, Store.alloc, count_retainAll pushed', count_retainAll pushed, count_push,
      count_push, twin.count_eq free, holds, twin.size_eq]
  · intro n hn new
    rw [here n hn new, content, content', same]
  · intro n hn new k hk
    rw [here n hn new, content] at hk
    exact (links k hk).later (by omega)
  · intro n hn new
    rw [here n hn new, content]
    exact formed

/-- A node that no node names may be recorded, if it holds nothing. -/
theorem record (twin : s.Twin z s') (made : s.Made z h) (bare : (s.node h).holds = [])
    (simple : (s.node h).isReferenceShaped = false) (unnamed : ∀ n, h ∉ (s.node n).links) :
    s.Twin (z.record h) s' := by
  have linkable : ∀ {n k}, k ∈ (s.node n).links → s.Linkable z k → s.Linkable (z.record h) k := by
    intro n k hk old
    refine ⟨⟨old.base_le, old.mem⟩, fun recorded => ?_⟩
    rcases recorded with rfl | recorded
    · exact unnamed n hk
    · exact old.free recorded
  constructor
  · exact twin.size_eq
  · exact twin.base_le
  · exact twin.same
  · exact fun n hn free => twin.counts n hn fun recorded => free (.inr recorded)
  · exact fun n hn k hk => linkable hk (twin.links n hn k hk)
  · exact twin.below
  · exact twin.formed
  · rintro n (rfl | hn)
    · exact ⟨made.base_le, made.mem⟩
    · exact ⟨(twin.recorded n hn).base_le, (twin.recorded n hn).mem⟩
  · rintro n (rfl | hn)
    · exact bare
    · exact twin.bare n hn
  · rintro n (rfl | hn)
    · exact simple
    · exact twin.simple n hn

/-- A new node that names nothing may be recorded at once. -/
theorem alloc_recorded (twin : s.Twin z s') {e e' : Entity} (same : e'.unplaced = e.unplaced)
    (links : e.links = []) (typed : e.HasType) (simple : e.isReferenceShaped = false) :
    (s.alloc e).2.Twin (z.record ⟨s.size⟩) (s'.alloc e').2 := by
  have none : ∀ k, k ∉ e.links := by simp [links]
  have made := twin.alloc same (fun k hk => (none k hk).elim) (typed.formed links)
  have content : (s.alloc e).2.node ⟨s.size⟩ = e := node_alloc e s
  refine made.record ⟨twin.base_le, mem_alloc e s⟩ ?_ ?_ fun n named => ?_
  · rw [content, List.eq_nil_iff_forall_not_mem]
    exact fun k hk => none k (Entity.mem_links_of_mem_holds hk)
  · rw [content]
    exact simple
  · -- the older nodes name only each other
    rw [node_alloc_eq] at named
    split at named
    · exact none _ named
    · exact Nat.lt_irrefl _ (twin.closed.links n named)

end Growing

end Twin

end Store

end ScriptInference
