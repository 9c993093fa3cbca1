import ScriptInference.Entity.Lookup
import ScriptInference.Proofs.Entity.Ledger
import ScriptInference.Proofs.Entity.Union

/-!
# What a computation does to the store it is run on

A computation is safe from a store if it settles there and if, where it has a result, no handle
dangles afterwards and the result is as promised. Moreover the nodes below a given base keep what is
known about them: at most empty labels of maps and lists are filled and contexts of functions
replaced. The nodes from the base on are the ones that the computation itself has made. The base
stays fixed while the store grows, so that safe computations can be sequenced.
-/

namespace ScriptInference

/-- The entities differ at most in their label and their context. Only an empty label of a map or
list is filled, and only the context of a function is set or replaced. -/
structure Entity.Alike (e e' : Entity) : Prop where
  restyled : e.Restyled e'
  linked : e.context.isSome → e'.context.isSome

namespace Entity.Alike
variable {e f g : Entity}

theorem refl (e : Entity) : e.Alike e := ⟨.refl e, id⟩

theorem trans (h : e.Alike f) (k : f.Alike g) : e.Alike g :=
  ⟨h.restyled.trans k.restyled, fun linked => k.linked (h.linked linked)⟩

theorem types (h : e.Alike f) : f.types = e.types := by rw [h.restyled.1]

theorem members (h : e.Alike f) : f.members = e.members := by rw [h.restyled.1]

theorem isa (h : e.Alike f) : f.isa = e.isa := by rw [h.restyled.1]

theorem result (h : e.Alike f) : f.result = e.result := by rw [h.restyled.1]

end Entity.Alike

namespace Store

/-- No handle dangles, and the base lies in the store. -/
structure Ready (base : Nat) (s : Store) : Prop where
  closed : s.Closed
  base_le : base ≤ s.size

/-- The nodes below the base are as they were, up to their labels and contexts. -/
structure Keeps (base : Nat) (s t : Store) : Prop where
  size_le : s.size ≤ t.size
  contents : ∀ n, n.index < base → (s.node n).Alike (t.node n)

namespace Keeps
variable {base : Nat} {s t u : Store}

theorem of_size_le (size_le : s.size ≤ t.size) : s.Keeps 0 t :=
  ⟨size_le, fun _ hn => absurd hn (Nat.not_lt_zero _)⟩

theorem refl (base : Nat) (s : Store) : s.Keeps base s := ⟨Nat.le_refl _, fun _ _ => .refl _⟩

theorem trans (h : s.Keeps base t) (k : t.Keeps base u) : s.Keeps base u :=
  ⟨Nat.le_trans h.size_le k.size_le, fun n hn => (h.contents n hn).trans (k.contents n hn)⟩

theorem mem (h : s.Keeps base t) {n : Handle} (hn : n ∈ s) : n ∈ t :=
  Nat.lt_of_lt_of_le hn h.size_le

theorem of_nodes_eq (nodes : t.nodes = s.nodes) : s.Keeps base t :=
  ⟨Nat.le_of_eq (size_eq nodes).symm, fun n _ => by rw [node_eq nodes]; exact .refl _⟩

theorem of_kept (ready : s.Ready base) (size_le : s.size ≤ t.size)
    (kept : ∀ n ∈ s, t.node n = s.node n) : s.Keeps base t := by
  refine ⟨size_le, fun n hn => ?_⟩
  rw [kept n (Nat.lt_of_lt_of_le hn ready.base_le)]
  exact .refl _

/-- A node from the base on may be changed at will. -/
theorem modifyNode_new {a : Handle} (new : base ≤ a.index) (f : Entity → Entity) :
    s.Keeps base (s.modifyNode a f) := by
  refine ⟨Nat.le_of_eq (size_modifyNode a f s).symm, fun n hn => ?_⟩
  have ne : n ≠ a := by
    rintro rfl
    omega
  rw [node_modifyNode_eq, if_neg fun h => ne h.1]
  exact .refl _

/-- Any node may be given a label or a context that it may have. -/
theorem modifyNode_alike {f : Entity → Entity} {a : Handle}
    (alike : (s.node a).Alike (f (s.node a))) : s.Keeps base (s.modifyNode a f) := by
  refine ⟨Nat.le_of_eq (size_modifyNode a f s).symm, fun n _ => ?_⟩
  rw [node_modifyNode_eq]
  split
  · rename_i here
    exact here.1 ▸ alike
  · exact .refl _

end Keeps

theorem Ready.of_keeps {base : Nat} {s t : Store} (ready : s.Ready base) (keeps : s.Keeps base t)
    (closed : t.Closed) : t.Ready base :=
  ⟨closed, Nat.le_trans ready.base_le keeps.size_le⟩

end Store

namespace Infer
variable {α β : Type} {base : Nat} {s : Store}

structure Safe (base : Nat) (s : Store) (x : Infer α) (post : Store → α → Prop) : Prop where
  settles : x.SettlesAt s
  runs : ∀ bound a t, x bound s = .ok (a, t) → t.Ready base ∧ s.Keeps base t ∧ post t a

namespace Safe
variable {x : Infer α} {f : α → Infer β} {post : Store → α → Prop} {post' : Store → β → Prop}

theorem of_step {a : α} {t : Store} (step : ∀ bound, x bound s = .ok (a, t)) (ready : t.Ready base)
    (keeps : s.Keeps base t) (result : post t a) : Safe base s x post where
  settles := .of_total step
  runs bound b u h := by
    rw [step bound] at h
    cases h
    exact ⟨ready, keeps, result⟩

theorem pure (ready : s.Ready base) {a : α} (result : post s a) : Safe base s (pure a) post :=
  .of_step (fun _ => rfl) ready (.refl base s) result

theorem bind (hx : Safe base s x post)
    (hf : ∀ t a, t.Ready base → s.Keeps base t → post t a → Safe base t (f a) post') :
    Safe base s (x >>= f) post' where
  settles := hx.settles.bind fun bound a t h => by
    obtain ⟨ready, keeps, result⟩ := hx.runs bound a t h
    exact (hf t a ready keeps result).settles
  runs bound b u h := by
    obtain ⟨a, t, first, second⟩ := bind_ok h
    obtain ⟨ready, keeps, result⟩ := hx.runs bound a t first
    obtain ⟨ready', keeps', result'⟩ := (hf t a ready keeps result).runs bound b u second
    exact ⟨ready', keeps.trans keeps', result'⟩

theorem weaken {other : Store → α → Prop} (hx : Safe base s x post)
    (implies : ∀ t a, t.Ready base → s.Keeps base t → post t a → other t a) :
      Safe base s x other where
  settles := hx.settles
  runs bound a t h := by
    obtain ⟨ready, keeps, result⟩ := hx.runs bound a t h
    exact ⟨ready, keeps, implies t a ready keeps result⟩

theorem forget (hx : Safe base s x post) : Safe base s x fun _ _ => True :=
  hx.weaken fun _ _ _ _ _ => trivial

/-- Only what the computation does from the given store matters. -/
theorem congr {y : Infer α} (hy : Safe base s y post) (same : ∀ bound, x bound s = y bound s) :
    Safe base s x post where
  settles := hy.settles.congr same
  runs bound a t h := hy.runs bound a t ((same bound).symm.trans h)

theorem bind_get {f : Store → Infer β} (h : Safe base s (f s) post') :
    Safe base s (get >>= f) post' :=
  h.congr fun _ => rfl

end Safe

section Primitives

variable (ready : s.Ready base)

include ready

theorem safe_alloc {e : Entity} (links : ∀ k ∈ e.links, k ∈ s) :
    Safe base s (alloc e) fun t h => h ∈ t ∧ base ≤ h.index := by
  have keeps : s.Keeps base (s.alloc e).2 :=
    .of_kept ready (by rw [Store.size_alloc]; omega) fun n hn => Store.node_alloc_lt e s n hn
  refine .of_step (fun _ => rfl) (ready.of_keeps keeps (ready.closed.alloc links)) keeps ?_
  exact ⟨Store.mem_alloc e s, ready.base_le⟩

/-- An entity that names nothing. -/
theorem safe_alloc_bare {e : Entity} (bare : e.links = []) :
    Safe base s (alloc e) fun t h => h ∈ t ∧ base ≤ h.index :=
  safe_alloc ready fun k hk => by rw [bare] at hk; cases hk

/-- Where it does not matter that the entity is new. -/
theorem safe_make {e : Entity} (bare : e.links = []) : Safe base s (alloc e) fun t h => h ∈ t :=
  (safe_alloc_bare ready bare).weaken fun _ _ _ _ hm => hm.1

theorem safe_copy (h : Handle) (o : Overrides) :
    Safe base s (copy h o) fun t k => k ∈ t ∧ base ≤ k.index := by
  have links : ((s.node h).override o).links = (s.node h).links := rfl
  have made := safe_alloc ready (e := (s.node h).override o) fun k hk =>
    ready.closed.links h (links ▸ hk)
  exact made.congr fun _ => rfl

/-- Counting holders changes no contents. -/
theorem safe_recount {f : Store → Store} (nodes : (f s).nodes = s.nodes) :
    Safe base s (modify f) fun t _ => t.nodes = s.nodes := by
  have keeps : s.Keeps base (f s) := .of_nodes_eq nodes
  exact .of_step (fun _ => rfl) (ready.of_keeps keeps (ready.closed.of_nodes_eq nodes)) keeps nodes

theorem safe_release (h : Handle) : Safe base s (release h) fun t _ => t.nodes = s.nodes :=
  safe_recount ready (Store.nodes_release h s)

theorem safe_union (kind : EntityKind) (label : String) {members : List Handle}
    (inside : ∀ b ∈ members, b ∈ s) :
    Safe base s (union kind label members) fun t h => h ∈ t ∧ base ≤ h.index where
  settles := settlesAt_union kind label members s
  runs bound m t h := by
    have unites := unites_union ready.closed inside h
    have keeps : s.Keeps base t := .of_kept ready unites.store.size_le unites.store.kept
    refine ⟨ready.of_keeps keeps unites.closed, keeps, unites.stored, ?_⟩
    rw [unites.new]
    exact ready.base_le

end Primitives

end Infer

end ScriptInference
