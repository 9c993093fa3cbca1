import ScriptInference.Proofs.Entity.Booking
import ScriptInference.Proofs.Resolution.Reading
import ScriptInference.Resolution.Resolve

/-!
# Disciplines

A discipline says when a store is in order, given the holds that a computation has at its disposal,
and it allows the elementary steps: making an entity, holding and giving up, uniting, writing to
what is new. A computation is balanced from a store if it settles there and if, whenever it has a
result, the store is in order with the holds that belong to the result. What is balanced under every
discipline need be shown once for each function.

The first discipline is the ledger: every hold is counted, so that nothing that is held is ever
lost.
-/

namespace ScriptInference

variable {h n : Handle} {hs : List Handle}

/-- The ledger with holds on some handles added. -/
def holding (hs : List Handle) (own : Multiset Handle) : Multiset Handle :=
  hs.foldr Multiset.cons own

section Holding
variable {own : Multiset Handle}

theorem holding_eq (hs : List Handle) (own : Multiset Handle) : holding hs own = ↑hs + own := by
  induction hs with
  | nil => exact (zero_add own).symm
  | cons h rest ih =>
    rw [← Multiset.cons_coe, Multiset.cons_add, ← ih]
    rfl

theorem holding_append (hs ks : List Handle) (own : Multiset Handle) :
    holding (hs ++ ks) own = holding hs (holding ks own) := List.foldr_append

theorem holding_add (hs : List Handle) (own more : Multiset Handle) :
    holding hs own + more = holding hs (own + more) := by
  rw [holding_eq, holding_eq, add_assoc]

theorem holding_perm {ks : List Handle} (perm : hs.Perm ks) : holding hs own = holding ks own := by
  rw [holding_eq, holding_eq, Multiset.coe_eq_coe.2 perm]

theorem cons_holding (h : Handle) (hs : List Handle) (own : Multiset Handle) :
    h ::ₘ holding hs own = holding hs (h ::ₘ own) := by
  rw [holding_eq, holding_eq, Multiset.add_cons]

theorem le_holding (hs : List Handle) (own : Multiset Handle) : own ≤ holding hs own := by
  rw [holding_eq]
  exact Multiset.le_add_left _ _

theorem mem_holding : h ∈ holding hs own ↔ h ∈ hs ∨ h ∈ own := by
  rw [holding_eq, Multiset.mem_add, Multiset.mem_coe]

end Holding

structure Discipline where
  /-- The store is in order, with these holds at hand. -/
  InOrder : Multiset Handle → Store → Prop
  /-- The handle may be held. -/
  Live : Store → Handle → Prop
  /-- What the node holds may be held. -/
  Open : Store → Handle → Prop
  /-- The node may be written to. -/
  New : Handle → Prop
  /-- Only what may be written to may be given a label or a context. -/
  strict : Prop
  /-- The holds of the functions that are recorded in a table. -/
  table : FunctionTable → Multiset Handle
  open_of_live {s h} : Live s h → Open s h
  live_of_mem {own s h} : InOrder own s → h ∈ own → Live s h
  held {own s n k} : InOrder own s → Open s n → k ∈ (s.node n).holds → Live s k
  linked {own s n k} : InOrder own s → Open s n → k ∈ (s.node n).links → s.live k → Live s k
  chain {own s n k} : InOrder own s → Open s n → k ∈ s.lookupChain n → Open s k
  mono {own own' s} : InOrder own s → own' ≤ own → InOrder own' s
  new {own s} : InOrder own s → New ⟨s.size⟩
  make {own s e} : InOrder own s → e.links = [] → InOrder ((s.alloc e).1 ::ₘ own) (s.alloc e).2
  copy {own s h} : InOrder own s → Open s h → ∀ o, InOrder ((s.copy h o).1 ::ₘ own) (s.copy h o).2
  retain {own s h} : InOrder own s → Live s h → InOrder (h ::ₘ own) (s.retain h)
  release {own s h} : InOrder (h ::ₘ own) s → InOrder own (s.release h)
  union {own s kind label members bound h t} : InOrder own s → (∀ b ∈ members, Live s b) →
    Infer.union kind label members bound s = .ok (h, t) → InOrder (h ::ₘ own) t ∧ New h
  setProperty {own s h value} : InOrder (value ::ₘ own) s → New h → h ∈ own → ∀ key,
    InOrder own (s.setProperty h key value).2
  inherit {own s h prototype} : InOrder (prototype ::ₘ own) s → New h → h ∈ own →
    InOrder own (s.inherit h prototype)
  setContext {own s h owner} : InOrder own s → h ∈ own → Live s owner →
    (s.node h).kind = .function → (strict → New h) → InOrder own (s.setContext h owner)
  setLabel {own s h} : InOrder own s → h ∈ own → (s.node h).isReferenceShaped →
    (s.node h).label = "" →
    (strict → New h) → ∀ label, InOrder own (s.modifyNode h ({ · with label }))
  record {own s h t} : InOrder (h ::ₘ (own + table t)) s → ∀ id,
    InOrder (h ::ₘ own + table (t.insert id h)) ((s.retain h).releaseAll (t.get? id).toList)

namespace Discipline
variable {D : Discipline} {own own' : Multiset Handle} {s : Store}

/-- The handle may be held for as long as the store is in order with these holds. -/
def Anchored (D : Discipline) (own : Multiset Handle) (h : Handle) : Prop :=
  ∀ own' s, own ≤ own' → D.InOrder own' s → D.Live s h

/-- What the node holds may be held for as long as the store is in order with these holds. -/
def Known (D : Discipline) (own : Multiset Handle) (h : Handle) : Prop :=
  ∀ own' s, own ≤ own' → D.InOrder own' s → D.Open s h

theorem Anchored.of_mem (hh : h ∈ own) : D.Anchored own h := fun _ _ le l =>
  D.live_of_mem l (Multiset.mem_of_le le hh)

theorem Anchored.mono (anchored : D.Anchored own h) (le : own ≤ own') : D.Anchored own' h :=
  fun _ _ le' l => anchored _ _ (le.trans le') l

theorem Anchored.live (anchored : D.Anchored own h) (l : D.InOrder own s) : D.Live s h :=
  anchored own s (le_refl own) l

theorem Anchored.known (anchored : D.Anchored own h) : D.Known own h := fun own' s le l =>
  D.open_of_live (anchored own' s le l)

theorem Known.mono (known : D.Known own h) (le : own ≤ own') : D.Known own' h :=
  fun _ _ le' l => known _ _ (le.trans le') l

theorem Known.isOpen (known : D.Known own h) (l : D.InOrder own s) : D.Open s h :=
  known own s (le_refl own) l

theorem live_head (l : D.InOrder (h ::ₘ own) s) : D.Live s h :=
  D.live_of_mem l (Multiset.mem_cons_self h own)

theorem releaseAll (l : D.InOrder (holding hs own) s) : D.InOrder own (s.releaseAll hs) := by
  induction hs generalizing s with
  | nil => exact l
  | cons h rest ih => exact ih (D.release l)

theorem retainAll (l : D.InOrder own s) (held : ∀ h ∈ hs, h ∈ own) :
    D.InOrder (holding hs own) (s.retainAll hs) := by
  induction hs generalizing own s with
  | nil => exact l
  | cons h rest ih =>
    rw [List.forall_mem_cons] at held
    have kept :=
      ih (D.retain l (D.live_of_mem l held.1)) fun k hk => Multiset.mem_cons_of_mem (held.2 k hk)
    rwa [← cons_holding] at kept

end Discipline

namespace Infer
variable {α β : Type} {D : Discipline} {s : Store} {own : Multiset Handle}

structure Balanced (D : Discipline) (s : Store) (x : Infer α) (give : α → Multiset Handle)
    (post : α → Prop) : Prop where
  settles : x.SettlesAt s
  runs : ∀ bound a t, x bound s = .ok (a, t) → D.InOrder (give a) t ∧ post a

namespace Balanced
variable {x : Infer α} {f : α → Infer β} {give : α → Multiset Handle} {give' : β → Multiset Handle}
  {post : α → Prop} {post' : β → Prop}

theorem of_step {a : α} {t : Store} (step : ∀ bound, x bound s = .ok (a, t))
    (l : D.InOrder (give a) t) (result : post a) : Balanced D s x give post where
  settles := .of_total step
  runs bound b u h := by
    rw [step bound] at h
    cases h
    exact ⟨l, result⟩

theorem pure {a : α} (l : D.InOrder (give a) s) (result : post a) :
    Balanced D s (pure a) give post :=
  .of_step (fun _ => rfl) l result

theorem bind (hx : Balanced D s x give post)
    (hf : ∀ t a, D.InOrder (give a) t → post a → Balanced D t (f a) give' post') :
    Balanced D s (x >>= f) give' post' where
  settles := hx.settles.bind fun bound a t h =>
    (hf t a (hx.runs bound a t h).1 (hx.runs bound a t h).2).settles
  runs bound b u h := by
    obtain ⟨a, t, first, second⟩ := bind_ok h
    obtain ⟨l, result⟩ := hx.runs bound a t first
    exact (hf t a l result).runs bound b u second

theorem weaken {other : α → Prop} (hx : Balanced D s x give post)
    (implies : ∀ a, post a → other a) : Balanced D s x give other where
  settles := hx.settles
  runs bound a t h := (hx.runs bound a t h).imp id (implies a)

theorem forget (hx : Balanced D s x give post) : Balanced D s x give fun _ => True :=
  hx.weaken fun _ _ => trivial

theorem some {x : Infer Handle} {post : Handle → Prop} (hx : Balanced D s x (· ::ₘ own) post) :
    Balanced D s (x >>= fun h => Pure.pure (Option.some h)) (fun r => holding r.toList own)
      fun _ => True :=
  hx.bind fun _ _ l _ => .pure l trivial

theorem none (l : D.InOrder own s) :
    Balanced D s (Pure.pure Option.none) (fun r : Option Handle => holding r.toList own)
      fun _ => True :=
  .pure l trivial

/-- Only what the computation does from the given store matters. -/
theorem congr {y : Infer α} (hy : Balanced D s y give post) (same : ∀ bound, x bound s =
    y bound s) : Balanced D s x give post where
  settles := hy.settles.congr same
  runs bound a t h := hy.runs bound a t ((same bound).symm.trans h)

theorem bind_get {f : Store → Infer β} (h : Balanced D s (f s) give' post') :
    Balanced D s (get >>= f) give' post' := h.congr fun _ => rfl

theorem bind_node {f : Entity → Infer β} (h : Balanced D s (f (s.node n)) give' post') :
    Balanced D s (node n >>= f) give' post' := h.congr fun _ => rfl


/-- A step that is made under a condition only. -/
theorem guarded {c : Prop} [Decidable c] {x : Infer Unit} {f : Unit → Infer β}
    (hx : c → Balanced D s x (fun _ => own) fun _ => True)
    (hf : ∀ t, D.InOrder own t → Balanced D t (f ()) give' post') (l : D.InOrder own s) :
    Balanced D s (if c then x >>= f else f ()) give' post' := by
  split
  · rename_i hc
    exact (hx hc).bind fun t _ l' _ => hf t l'
  · exact hf s l

end Balanced

section Primitives

/-- An entity that names nothing. -/
theorem balanced_make (l : D.InOrder own s) {e : Entity} (bare : e.links = []) :
    Balanced D s (alloc e) (· ::ₘ own) D.New :=
  .of_step (fun _ => rfl) (D.make l bare) (D.new l)

theorem balanced_copy (l : D.InOrder own s) (hh : D.Open s h) (o : Overrides) :
    Balanced D s (copy h o) (· ::ₘ own) D.New :=
  .of_step (fun _ => rfl) (D.copy l hh o) (D.new l)

theorem balanced_retain (l : D.InOrder own s) (hh : D.Live s h) :
    Balanced D s (retain h) (· ::ₘ own) fun k => k = h :=
  .of_step (fun _ => rfl) (D.retain l hh) rfl

theorem balanced_release (l : D.InOrder (h ::ₘ own) s) :
    Balanced D s (release h) (fun _ => own) fun _ => True :=
  .of_step (fun _ => rfl) (D.release l) trivial

theorem balanced_releaseAll (l : D.InOrder (holding hs own) s) :
    Balanced D s (releaseAll hs) (fun _ => own) fun _ => True :=
  .of_step (fun _ => rfl) (D.releaseAll l) trivial

theorem balanced_union (l : D.InOrder own s) (kind : EntityKind) (label : String)
    {members : List Handle} (alive : ∀ b ∈ members, D.Live s b) :
    Balanced D s (union kind label members) (· ::ₘ own) D.New where
  settles := settlesAt_union kind label members s
  runs _ _ _ h := D.union l alive h

end Primitives

end Infer

/-! ### The ledger -/

namespace Store
variable {g s : Store} {strict : Prop} {own : Multiset Handle}

theorem live_of_mem_isaFrom {bound : Nat} {seen : Std.TreeSet Handle} (hh : s.live h)
    (hn : n ∈ s.isaFrom bound seen h) : s.live n := by
  induction bound generalizing seen h with
  | zero => exact List.mem_singleton.1 hn ▸ hh
  | succ bound ih =>
    rw [isaFrom] at hn
    split at hn
    · exact List.mem_singleton.1 hn ▸ hh
    · rename_i p prototype
      split at hn
      · exact List.mem_singleton.1 hn ▸ hh
      · rcases List.mem_cons.1 hn with rfl | hn
        · exact hh
        · exact ih (Option.filter_eq_some_iff.1 prototype).2 hn

theorem mem_isaChain_of_mem_lookupChain (hn : n ∈ s.lookupChain h) : n ∈ s.isaChain h := by
  unfold lookupChain at hn
  split at hn
  · cases hn
  · rename_i first rest chain
    rw [chain]
    split at hn
    · rcases List.mem_cons.1 hn with rfl | hn
      · exact List.mem_cons_self
      · exact List.mem_cons_of_mem _ ((List.takeWhile_sublist _).subset hn)
    · cases hn

/-- The nodes that answer a lookup are alive. -/
theorem live_of_mem_lookupChain (hh : s.live h) (hn : n ∈ s.lookupChain h) : s.live n :=
  live_of_mem_isaFrom hh (mem_isaChain_of_mem_lookupChain hn)


theorem Closed.setContext (closed : s.Closed) {owner : Handle} (ho : owner ∈ s) (h : Handle) :
    (s.setContext h owner).Closed := by
  refine closed.modifyNode fun k hk => ?_
  rcases Entity.mem_links_context hk with same | old
  · exact Option.some.inj same ▸ ho
  · exact closed.links h old

theorem Closed.setLabel (closed : s.Closed) (h : Handle) (label : String) :
    (s.modifyNode h ({ · with label })).Closed :=
  closed.modifyNode fun _ hk => closed.links h hk

theorem Ledger.fresh (l : g.Ledger strict own s) : (⟨s.size⟩ : Handle) ∉ g := Nat.not_lt.2 l.size_le

/-- The table of recorded functions holds what is recorded, and gives up what is replaced. -/
theorem Ledger.record {table : FunctionTable} (l : g.Ledger strict (h ::ₘ (own + ↑table.values)) s)
    (id : String) :
    g.Ledger strict (h ::ₘ own + ↑(table.insert id h).values)
      ((s.retain h).releaseAll (table.get? id).toList) := by
  have values := Multiset.coe_eq_coe.2 (table.values_insert_perm id h)
  rw [← Multiset.coe_add, ← Multiset.cons_coe] at values
  have shared : h ::ₘ h ::ₘ (own + ↑table.values) =
      ↑(table.get? id).toList + (h ::ₘ own + ↑(table.insert id h).values) := by
    rw [Multiset.cons_add, ← Multiset.add_cons, ← values]
    simp only [← Multiset.singleton_add]
    ac_rfl
  refine releaseAll ?_
  rw [← shared]
  exact l.retain (l.live_of_mem (Multiset.mem_cons_self _ _))

end Store

/-- The ledger of the ground `g` is in order. Nodes of the ground are not written to. -/
def Discipline.ledger (g : Store) (strict : Prop) : Discipline where
  InOrder own s := g.Ledger strict own s
  Live s h := s.live h
  Open s h := s.live h
  New h := h ∉ g
  strict := strict
  table t := ↑t.values
  open_of_live := id
  live_of_mem l := l.live_of_mem
  held l := l.held
  linked _ _ _ alive := alive
  chain _ := Store.live_of_mem_lookupChain
  mono l := l.mono
  new l := l.fresh
  make l bare := l.alloc (fun k hk => by simp [bare] at hk) fun k hk => by
    simpa [bare] using Entity.mem_links_of_mem_holds hk
  copy {_ s h} l alive o := l.alloc (e := (s.node h).override o) (fun _ hk => l.closed.links h hk)
    fun _ hk => l.held alive hk
  retain l := l.retain
  release l := l.release
  union l alive h := by
    refine ⟨Infer.ledger_union l alive h, ?_⟩
    rw [(Infer.unites_union l.closed (fun b hb => Store.mem_of_live (alive b hb)) h).new]
    exact l.fresh
  setProperty l := l.setProperty
  inherit l := l.inherit
  setContext l _ ho function := l.restyle (l.closed.setContext (Store.mem_of_live ho) _)
    ⟨rfl, .inl rfl, .inr function⟩
  setLabel l _ shaped unlabelled allowed label := l.restyle (l.closed.setLabel _ label)
    ⟨rfl, .inr ⟨unlabelled, shaped⟩, .inl rfl⟩ allowed
  record l := l.record

theorem Discipline.Anchored.of_live {g : Store} {strict : Prop} {own : Multiset Handle}
    (hh : g.live h) : (ledger g strict).Anchored own h := fun _ _ _ l => l.live_ground hh

end ScriptInference
