import ScriptInference.Entity.Lookup
import ScriptInference.Proofs.Entity.Ledger
import ScriptInference.Proofs.Entity.Union

/-!
# Writes and joins keep the ledger in order

Whoever stores a handle hands over a hold on it, and what is replaced is released. A join holds what
it takes over, and the links that it copies. So every one of these operations changes the ledger in
a way that depends on its arguments only.
-/

namespace ScriptInference

/-- Besides the new member, an entity holds what it held before, but for the member that is
replaced. -/
theorem Entity.holds_insert (e : Entity) (key : EntryKey) (value : Handle) :
    (↑({ e with members := e.members.insert key value } : Entity).holds : Multiset Handle) +
      ↑(e.member? key).toList = value ::ₘ ↑e.holds := by
  have values := Multiset.coe_eq_coe.2 (e.members.values_insert_perm key value)
  rw [← Multiset.coe_add, ← Multiset.cons_coe] at values
  simp only [Entity.holds, Entity.parts, ← Multiset.coe_add]
  rw [add_right_comm, add_right_comm _ (↑e.result.toList : Multiset Handle), Entity.member?, values,
    Multiset.cons_add, Multiset.cons_add]

namespace Store

theorem live_copyGraph {s : Store} {n : Handle} (hn : s.live n) (roots : List Handle) :
    (s.copyGraph roots).2.live n := by
  rw [copyGraph_eq]
  exact Ledger.live_extended hn (s.copiedContents roots) _

namespace Ledger
variable {g s t : Store} {strict : Prop} {own own' : Multiset Handle}

section Writing

theorem putMember {a value : Handle} (l : Ledger g strict (value ::ₘ own) s) (new : a ∉ g)
    (ha : a ∈ own) (key : EntryKey) : Ledger g strict own (s.putMember a key value) := by
  have alive : s.live a := l.live_of_mem (Multiset.mem_cons_of_mem ha)
  have stored : value ∈ s := mem_of_live (l.live_of_mem (Multiset.mem_cons_self _ _))
  refine releaseAll (?_ : Ledger g strict (↑(s.member? a key).toList + own) _)
  refine l.modify new alive (l.closed.insert_member stored a key) (le_of_eq ?_)
  rw [add_comm _ own, add_assoc, add_comm (↑(s.member? a key).toList : Multiset Handle),
    Store.member?, (s.node a).holds_insert, Multiset.add_cons, Multiset.cons_add]

theorem putMembers {a value : Handle} (l : Ledger g strict (value ::ₘ own) s) (new : a ∉ g)
    (ha : a ∈ own) (tags : List String) :
    Ledger g strict (value ::ₘ own)
      (tags.foldl (fun s tag => (s.retain value).putMember a (.type tag) value) s) := by
  induction tags generalizing s with
  | nil => exact l
  | cons tag rest ih =>
    have again := l.retain (l.live_of_mem (Multiset.mem_cons_self _ _))
    exact ih (again.putMember new (Multiset.mem_cons_of_mem ha) _)

theorem setProperty {a value : Handle} (l : Ledger g strict (value ::ₘ own) s) (new : a ∉ g)
    (ha : a ∈ own) (key : Property) : Ledger g strict own (s.setProperty a key value).2 := by
  unfold Store.setProperty
  split
  · exact l.release
  · cases key with
    | identifier name => exact l.putMember new ha _
    | value k =>
      dsimp only
      split
      · exact l.release
      · exact (l.putMembers new ha _).release

/-- Replacing the prototype link gives up a prototype that was held. -/
theorem setPrototype {a : Handle} {isa : Option Prototype}
    (l : Ledger g strict (↑((isa.filter Prototype.owned).toList.map Prototype.target) + own) s)
    (new : a ∉ g) (ha : a ∈ own) (linked : ∀ p ∈ isa, p.target ∈ s) :
    Ledger g strict own (s.setPrototype a isa) := by
  have alive : s.live a := l.live_of_mem (Multiset.mem_add.2 (.inr ha))
  have closed : (s.modifyNode a fun e => { e with isa }).Closed := by
    refine l.closed.modifyNode fun k hk => ?_
    rcases Entity.mem_links_isa hk with ⟨p, hp, rfl⟩ | old
    · exact linked p hp
    · exact l.closed.links a old
  unfold Store.setPrototype
  refine releaseAll (l.modify new alive closed (le_of_eq ?_))
  have old : (((s.node a).isa.filter Prototype.owned).map Prototype.target).toList =
      ((s.node a).isa.filter Prototype.owned).toList.map Prototype.target := by
    cases (s.node a).isa.filter Prototype.owned <;> rfl
  have holds : ({ s.node a with isa } : Entity).holds =
      (s.node a).parts ++ (isa.filter Prototype.owned).toList.map Prototype.target := rfl
  rw [old, holds, Entity.holds, ← Multiset.coe_add, ← Multiset.coe_add]
  ac_rfl

theorem inherit {a prototype : Handle} (l : Ledger g strict (prototype ::ₘ own) s) (new : a ∉ g)
    (ha : a ∈ own) : Ledger g strict own (s.inherit a prototype) := by
  have stored : prototype ∈ s := mem_of_live (l.live_of_mem (Multiset.mem_cons_self _ _))
  unfold Store.inherit
  by_cases owned : s.count prototype = 1
  · simp only [owned, if_true, decide_true]
    refine setPrototype ?_ new ha fun p hp => ?_
    · exact l
    · obtain rfl := Option.some.inj hp
      exact stored
  · simp only [owned, if_false, decide_false]
    refine setPrototype ?_ new ha fun p hp => ?_
    · simpa [Option.filter] using l.release
    · obtain rfl := Option.some.inj hp
      rw [mem_iff, size_eq (nodes_release _ _)]
      exact stored

end Writing

section Joins
variable {mode : JoinMode}

theorem retainAll_modifyNode (hs : List Handle) (a : Handle) (f : Entity → Entity) (s : Store) :
    (s.modifyNode a f).retainAll hs = (s.retainAll hs).modifyNode a f := by
  induction hs generalizing s with
  | nil => rfl
  | cons h rest ih => exact ih (s.retain h)

variable (l : Ledger g strict own s)

include l

/-- A living node without a live prototype holds no prototype. -/
theorem isa_not_owned {a : Handle} (alive : s.live a) (none_live : s.isa? a = none) :
    (s.node a).isa.filter Prototype.owned = none := by
  rw [Option.filter_eq_none_iff]
  intro p hp owned
  have holds : p.target ∈ (s.node a).holds := by
    refine List.mem_append_right _ (List.mem_map_of_mem ?_)
    exact Option.mem_toList.2 (Option.filter_eq_some_iff.2 ⟨hp, owned⟩)
  have target_live := l.held alive holds
  rw [isa?, hp] at none_live
  simp [Option.filter, target_live] at none_live

theorem absorb {a : Handle} (new : a ∉ g) (ha : s.live a) (b : Handle) :
    Ledger g strict own (s.absorb mode a b) := by
  have closed := l.closed.absorb mode a b
  unfold Store.absorb at closed ⊢
  dsimp only at closed ⊢
  rw [retainAll_modifyNode] at closed ⊢
  by_cases taken : (s.isa? a).isNone && (s.isa? b).isSome
  · rw [if_pos taken] at closed ⊢
    rw [Bool.and_eq_true, Option.isNone_iff_eq_none, Option.isSome_iff_exists] at taken
    obtain ⟨none_live, q, hq⟩ := taken
    obtain ⟨linked, target_live⟩ := Option.filter_eq_some_iff.1 hq
    obtain ⟨p, hp, rfl⟩ := Option.map_eq_some_iff.1 linked
    have targets_live : ∀ k ∈ ((s.node b).isa.filter Prototype.owned).toList.map Prototype.target,
        s.live k := by
      intro k hk
      obtain ⟨p', hp', rfl⟩ := List.mem_map.1 hk
      have here := (Option.filter_eq_some_iff.1 (Option.mem_toList.1 hp')).1
      rw [hp, Option.some.injEq] at here
      exact here ▸ target_live
    have held := l.retainAll targets_live
    refine held.modify new (live_retainAll ha _) closed (le_of_eq ?_)
    rw [node_retainAll, Entity.holds, Entity.holds, l.isa_not_owned ha none_live]
    simp only [hp, Option.some_or, Entity.parts, ← Multiset.coe_add, Option.toList_none,
      List.map_nil, Multiset.coe_nil, add_zero]
    ac_rfl
  · rw [if_neg taken] at closed ⊢
    refine (l.retainAll fun k hk => by cases hk).modify new (live_retainAll ha _) closed
      (le_of_eq ?_)
    rw [node_retainAll]
    simp only [Option.none_or, Entity.holds, Entity.parts, Option.filter_none, Option.toList_none,
      List.map_nil, Multiset.coe_nil, zero_add]

theorem adopt {a value : Handle} (new : a ∉ g) (ha : s.live a) (hv : s.live value)
    (key : EntryKey) : Ledger g strict own (s.adopt mode a key value) := by
  have closed := l.closed.adopt mode a key (mem_of_live hv)
  -- the value that is taken over was held for it
  have insert : ∀ {t : Store} {value : Handle}, Ledger g strict (value ::ₘ own) t → t.live a →
      (t.modifyNode a fun e => { e with members := e.members.insert key value }).Closed →
      Ledger g strict own
        (t.modifyNode a fun e => { e with members := e.members.insert key value }) := by
    intro t value l alive closed
    refine l.modify new alive closed ?_
    have balance := (t.node a).holds_insert key value
    rw [Multiset.cons_add, ← Multiset.add_cons, ← balance]
    exact add_le_add_right (Multiset.le_add_right _ _) own
  rw [adopt_eq] at closed ⊢
  split at closed
  · rw [if_pos (by assumption)]
    have value_live : ∀ r ∈ [value], s.live r := fun r hr => List.mem_singleton.1 hr ▸ hv
    have made := l.copyGraph value_live
    rw [copyGraph_fst] at made
    exact insert made (live_copyGraph ha _) closed
  · rw [if_neg (by assumption)]
    exact insert (l.retain hv) (live_retainAll ha [value]) closed

end Joins

end Ledger

section Liveness
variable {s : Store} {mode : JoinMode} {n : Handle}

theorem live_absorb (hn : s.live n) (a b : Handle) : (s.absorb mode a b).live n :=
  live_retainAll (s := s.modifyNode a _) hn _

theorem live_adopt (hn : s.live n) (a : Handle) (key : EntryKey) (value : Handle) :
    (s.adopt mode a key value).live n := by
  rw [adopt_eq]
  split
  · exact live_copyGraph hn [value]
  · exact live_retainAll hn [value]

end Liveness

end Store

namespace Joining
variable {g s : Store} {strict : Prop} {own : Multiset Handle} {mode : JoinMode} {j : Joining}

/-- The ledger is in order, what was alive in `s` is alive, and so is everything that the join still
has to do with. -/
structure Booked (g : Store) (strict : Prop) (own : Multiset Handle) (s : Store) (j : Joining) :
    Prop where
  ledger : g.Ledger strict own j.store
  alive : ∀ n, s.live n → j.store.live n
  pending : ∀ e ∈ j.pending, j.store.live e.into ∧ j.store.live e.value

namespace Booked

theorem opened (h : j.Booked g strict own s) {a b : Handle} (new : a ∉ g) (ha : j.store.live a)
    (hb : j.store.live b) : (j.opened mode a b).Booked g strict own s where
  ledger := h.ledger.absorb new ha b
  alive n hn := Store.live_absorb (h.alive n hn) a b
  pending e he := by
    rcases List.mem_append.1 he with he | he
    · obtain ⟨entry, hentry, rfl⟩ := List.mem_map.1 he
      have member : entry.2 ∈ (j.store.node b).holds :=
        List.mem_append_left _ (List.mem_append_left _ (List.mem_map_of_mem hentry))
      exact ⟨Store.live_absorb ha a b, Store.live_absorb (h.ledger.held hb member) a b⟩
    · obtain ⟨into, value⟩ := h.pending e he
      exact ⟨Store.live_absorb into a b, Store.live_absorb value a b⟩

theorem enter (h : j.Booked g strict own s) {a b : Handle} (new : a ∉ g) (ha : j.store.live a)
    (hb : j.store.live b) : (j.enter mode a b).Booked g strict own s := by
  rcases enter_cases mode a b j with ⟨-, step⟩ | ⟨-, -, step⟩
  · rw [step]
    exact h
  · rw [step]
    exact h.opened new ha hb

theorem bring (h : j.Booked g strict own s) {e : PendingEntry} (new : e.into ∉ g)
    (members : ∀ m ∈ (j.store.node e.into).members.values, m ∉ g) (into : j.store.live e.into)
    (value : j.store.live e.value) : (j.bring mode e).Booked g strict own s := by
  rcases bring_cases mode e j with ⟨mine, -, -, step⟩ | ⟨mine, hmine, -, -, step⟩ | ⟨-, step⟩
  · rw [step]
    exact h
  · rw [step]
    have listed : mine ∈ (j.store.node e.into).members.values :=
      SortedMap.mem_values_iff.2 ⟨e.key, hmine⟩
    have alive := h.ledger.held into (List.mem_append_left _ (List.mem_append_left _ listed))
    exact h.opened (members mine listed) alive value
  · rw [step]
    refine ⟨h.ledger.adopt new into value e.key, fun n hn => ?_, fun e' he' => ?_⟩
    · exact Store.live_adopt (h.alive n hn) _ _ _
    · obtain ⟨into', value'⟩ := h.pending e' he'
      exact ⟨Store.live_adopt into' _ _ _, Store.live_adopt value' _ _ _⟩

theorem step {u : Store} (below : g.size ≤ u.size) {seen : Std.TreeSet (Handle × Handle) pairOrder}
    {e : PendingEntry} {rest : List PendingEntry} {store : Store}
    (h : Booked g strict own s ⟨seen, e :: rest, store⟩)
    (apart : Apart u ⟨seen, e :: rest, store⟩) :
    (Joining.bring mode e ⟨seen, rest, store⟩).Booked g strict own s := by
  have outside : ∀ {n : Handle}, n ∉ u → n ∉ g := fun hn hg => hn (Nat.lt_of_lt_of_le hg below)
  have into_new := apart.receivers e List.mem_cons_self
  obtain ⟨into, value⟩ := h.pending e List.mem_cons_self
  have rest_booked : Booked g strict own s ⟨seen, rest, store⟩ :=
    ⟨h.ledger, h.alive, fun e' he' => h.pending e' (List.mem_cons_of_mem e he')⟩
  refine rest_booked.bring (outside into_new) (fun m hm => ?_) into value
  exact outside (apart.store.members e.into into_new m hm)

/-- A join that writes beside a store `u` which contains the ground. -/
theorem run (deep : mode.deepCopy = true) {bound : Nat} {u t : Store} (below : g.size ≤ u.size)
    (h : j.Booked g strict own s) (apart : j.Apart u) (hr : j.run mode bound = .ok t) :
    g.Ledger strict own t ∧ ∀ n, s.live n → t.live n := by
  obtain ⟨_, done, -⟩ :=
    run_ok_induction (P := fun k => k.Booked g strict own s ∧ k.Apart u) ⟨h, apart⟩
    (fun _ _ _ _ h => ⟨h.1.step below h.2, h.2.step deep⟩) hr
  exact ⟨done.ledger, done.alive⟩

end Booked

end Joining

namespace Infer
variable {g s t u : Store} {strict : Prop} {own : Multiset Handle}

theorem ledger_joinAll {mode : JoinMode} (deep : mode.deepCopy = true) {m : Handle} {bound : Nat}
    {members : List Handle} {r : Unit} (below : g.size ≤ s.size) (store : s.Extends t) (new : m ∉ s)
    (l : g.Ledger strict own t) (hm : t.live m) (alive : ∀ b ∈ members, t.live b)
    (h : joinAll mode m members bound t = .ok (r, u)) : g.Ledger strict own u := by
  induction members generalizing t with
  | nil =>
    cases h
    exact l
  | cons b rest ih =>
    obtain ⟨_, v, first, later⟩ := bind_ok h
    have hb := alive b List.mem_cons_self
    have stored := Store.mem_of_live hm
    have joined := joined_join deep store l.closed new stored (Store.mem_of_live hb) first
    have apart : Joining.Apart s { store := t } := ⟨store, fun e he => absurd he List.not_mem_nil⟩
    have booked : Joining.Booked g strict own t { store := t } :=
      ⟨l, fun _ hn => hn, fun e he => absurd he List.not_mem_nil⟩
    have outside : m ∉ g := fun hg => new (Nat.lt_of_lt_of_le hg below)
    obtain ⟨l', alive'⟩ := (booked.enter outside hm hb).run deep below (apart.enter new b)
      (join_ok first)
    exact ih joined.store l' (alive' m hm)
      (fun b' hb' => alive' b' (alive b' (List.mem_cons_of_mem b hb'))) later

/-- A union is held by the caller, and the ledger is otherwise as before. -/
theorem ledger_union {kind : EntityKind} {label : String} {members : List Handle} {bound : Nat}
    {m : Handle} (l : g.Ledger strict own s) (alive : ∀ b ∈ members, s.live b)
    (h : union kind label members bound s = .ok (m, t)) : g.Ledger strict (m ::ₘ own) t := by
  obtain ⟨rfl, joined⟩ := union_ok h
  have begun := Store.Extends.alloc s (e := { kind, label }) rfl
  have new : (s.alloc { kind, label }).1 ∉ s := Nat.lt_irrefl s.size
  have ledger := l.alloc (e := { kind, label }) (fun k hk => by cases hk) fun k hk => by cases hk
  refine ledger_joinAll rfl l.size_le begun new ledger ?_ (fun b hb => ?_) joined
  · exact ledger.live_of_mem (Multiset.mem_cons_self _ _)
  · exact Store.Ledger.live_extended (alive b hb) [{ kind, label }] _

end Infer

end ScriptInference
