import ScriptInference.Proofs.Entity.Writing
import ScriptInference.Proofs.Resolution.Construction

/-!
# Resolving expressions is safe

The second discipline counts nothing. A store is in order if no handle dangles, if the nodes below a
base are as they were up to their labels and contexts, and if what is at hand lies in the store.
Under it, resolving an expression in a scope that lies in the store writes members only to the maps
and lists that the expression itself constructs. An entity that existed before may get a label when
it is stored in one of them, and a context when it is a function, and nothing else.
-/

namespace ScriptInference

namespace Store
variable {base : Nat} {s : Store} {h value prototype : Handle}

theorem nodes_inherit (h prototype : Handle) (s : Store) :
    (s.inherit h prototype).nodes =
    (s.modifyNode h ({ · with isa := some ⟨prototype, s.count prototype = 1⟩ })).nodes := by
  unfold inherit setPrototype
  rw [nodes_releaseAll]
  refine nodes_modifyNode ?_ h _
  split
  · rfl
  · exact nodes_release prototype s

theorem Closed.inherit (closed : s.Closed) (hp : prototype ∈ s) (h : Handle) :
    (s.inherit h prototype).Closed := by
  refine Closed.of_nodes_eq (closed.modifyNode fun k hk => ?_) (nodes_inherit h prototype s)
  rcases Entity.mem_links_isa hk with ⟨p, isa, rfl⟩ | old
  · exact Option.some.inj isa ▸ hp
  · exact closed.links h old

theorem Closed.setProperty (closed : s.Closed) (hv : value ∈ s) (h : Handle) (key : Property) :
    (s.setProperty h key value).2.Closed := by
  rcases setProperty_cases h key value s with ⟨-, nodes⟩ | ⟨-, nodes⟩
  · exact (closed.write hv).of_nodes_eq nodes
  · exact closed.of_nodes_eq nodes

/-- Writing members to a node from the base on. -/
theorem Keeps.setProperty (new : base ≤ h.index) (key : Property) (value : Handle) :
    s.Keeps base (s.setProperty h key value).2 := by
  rcases setProperty_cases h key value s with ⟨-, nodes⟩ | ⟨-, nodes⟩
  · refine Keeps.trans ⟨Nat.le_of_eq size_write.symm, fun n hn => ?_⟩ (.of_nodes_eq nodes)
    have ne : n ≠ h := by
      rintro rfl
      omega
    rw [node_write_of_ne ne]
    exact .refl _
  · exact .of_nodes_eq nodes

end Store

namespace Discipline
variable {base : Nat} {g s t : Store} {own own' : Multiset Handle}

/-- No handle dangles, the nodes of `g` below the base are kept, and what is at hand lies in the
store. -/
structure Framed (base : Nat) (g : Store) (own : Multiset Handle) (s : Store) : Prop where
  ready : s.Ready base
  keeps : g.Keeps base s
  inside : ∀ h ∈ own, h ∈ s

namespace Framed

theorem start (ready : s.Ready base) (inside : ∀ h ∈ own, h ∈ s) : Framed base s own s :=
  ⟨ready, .refl base s, inside⟩

theorem step (l : Framed base g own s) (closed : t.Closed) (keeps : s.Keeps base t)
    (inside : ∀ h ∈ own', h ∈ own ∨ h ∈ t) : Framed base g own' t :=
  ⟨l.ready.of_keeps keeps closed, l.keeps.trans keeps, fun h hh =>
    (inside h hh).elim (fun held => keeps.mem (l.inside h held)) id⟩

/-- Counting holders changes no contents. -/
theorem recount (l : Framed base g own s) (nodes : t.nodes = s.nodes)
    (inside : ∀ h ∈ own', h ∈ own ∨ h ∈ s) : Framed base g own' t :=
  have keeps : s.Keeps base t := .of_nodes_eq nodes
  l.step (l.ready.closed.of_nodes_eq nodes) keeps fun h hh => (inside h hh).imp id keeps.mem

theorem alloc (l : Framed base g own s) {e : Entity} (links : ∀ k ∈ e.links, k ∈ s) :
    Framed base g ((s.alloc e).1 ::ₘ own) (s.alloc e).2 := by
  refine l.step (l.ready.closed.alloc links) ?_ fun h hh => ?_
  · exact .of_kept l.ready (by rw [Store.size_alloc]; omega)
      fun n hn => Store.node_alloc_lt e s n hn
  · rcases Multiset.mem_cons.1 hh with rfl | hh
    · exact .inr (Store.mem_alloc e s)
    · exact .inl hh

theorem give_up {h : Handle} (l : Framed base g (h ::ₘ own) s) : Framed base g own s :=
  ⟨l.ready, l.keeps, fun _ hk => l.inside _ (Multiset.mem_cons_of_mem hk)⟩

end Framed

/-- The discipline of the nodes below a base. -/
def frame (base : Nat) (g : Store) : Discipline where
  InOrder := Framed base g
  Live s h := h ∈ s
  Open _ _ := True
  New h := base ≤ h.index
  strict := False
  table _ := 0
  open_of_live _ := trivial
  live_of_mem l := l.inside _
  held l _ hk := l.ready.closed.links _ (Entity.mem_links_of_mem_holds hk)
  linked _ _ _ := Store.mem_of_live
  chain _ _ _ := trivial
  mono l le := ⟨l.ready, l.keeps, fun h hh => l.inside h (Multiset.mem_of_le le hh)⟩
  new l := l.ready.base_le
  make l bare := l.alloc fun k hk => by simp [bare] at hk
  copy {_ s h} l _ o := l.alloc (e := (s.node h).override o) fun k hk => l.ready.closed.links h hk
  retain l hh :=
    l.recount rfl fun _ hk => (Multiset.mem_cons.1 hk).elim (fun same => .inr (same ▸ hh)) .inl
  release {own s h} l := l.give_up.recount (Store.nodes_release h s) fun _ => .inl
  union {own s kind label members bound h t} l inside ran := by
    have unites := Infer.unites_union l.ready.closed inside ran
    refine ⟨l.step unites.closed (.of_kept l.ready unites.store.size_le unites.store.kept)
      fun k hk => ?_, ?_⟩
    · rcases Multiset.mem_cons.1 hk with rfl | hk
      · exact .inr unites.stored
      · exact .inl hk
    · rw [unites.new]
      exact l.ready.base_le
  setProperty l new _ key :=
    l.give_up.step (l.ready.closed.setProperty (l.inside _ (Multiset.mem_cons_self _ _)) _ key)
      (.setProperty new key _) fun _ => .inl
  inherit l new _ :=
    l.give_up.step (l.ready.closed.inherit (l.inside _ (Multiset.mem_cons_self _ _)) _)
      ((Store.Keeps.modifyNode_new new _).trans (.of_nodes_eq (Store.nodes_inherit _ _ _)))
      fun _ => .inl
  setContext l _ ho function _ := l.step (l.ready.closed.setContext ho _)
    (.modifyNode_alike ⟨⟨rfl, .inl rfl, .inr function⟩, fun _ => rfl⟩) fun _ => .inl
  setLabel l _ shaped unlabelled _ label := l.step (l.ready.closed.setLabel _ label)
    (.modifyNode_alike ⟨⟨rfl, .inr ⟨unlabelled, shaped⟩, .inl rfl⟩, id⟩) fun _ => .inl
  record {own s h t} l id := by
    refine l.recount (Store.nodes_releaseAll _ _) fun k hk => .inl ?_
    rwa [add_zero] at hk ⊢

end Discipline

open Discipline

namespace Infer
variable {α : Type} {base : Nat} {s : Store} {own : Multiset Handle}

theorem Balanced.safe {x : Infer α} {give : α → Multiset Handle} {post : α → Prop}
    (hx : Balanced (frame base s) s x give post) :
    Safe base s x fun t a => (∀ h ∈ give a, h ∈ t) ∧ post a where
  settles := hx.settles
  runs bound a t h := by
    obtain ⟨l, result⟩ := hx.runs bound a t h
    exact ⟨l.ready, l.keeps, l.inside, result⟩

theorem Balanced.safe_one {x : Infer Handle} {post : Handle → Prop}
    (hx : Balanced (frame base s) s x (· ::ₘ own) post) : Safe base s x fun t h => h ∈ t :=
  hx.safe.weaken fun _ _ _ _ made => made.1 _ (Multiset.mem_cons_self _ _)

theorem safe_setContext (ready : s.Ready base) {h owner : Handle}
    (function : (s.node h).kind = .function) (ho : owner ∈ s) :
    Safe base s (modify (Store.setContext h owner)) fun _ _ => True := by
  have hh : h ∈ s := by
    by_contra outside
    rw [Store.node_of_not_mem outside] at function
    cases function
  have start : Framed base s {h} s := .start ready fun k hk => Multiset.mem_singleton.1 hk ▸ hh
  exact (balanced_setContext start (Multiset.mem_singleton_self h) ho function
    False.elim).safe.forget

theorem safe_prepare (ready : s.Ready base) {value : Handle} (hv : value ∈ s) (name : Option String)
    (line : UInt64) : Safe base s (prepare value name line) fun t r => r ∈ t := by
  have start : Framed base s (value ::ₘ 0) s := .start ready fun h hh => by
    rwa [Multiset.mem_singleton.1 hh]
  exact (balanced_prepare start name line fun _ => False.elim).safe_one

end Infer

/-- The scope of the environment lies in the store. -/
def Env.Fits (env : Env) (s : Store) : Prop := env.scope.Fits s

/-- A resolution is safe whatever functions have been recorded before. -/
def Resolve.Safe {α : Type} (base : Nat) (s : Store) (x : Resolve α) (post : Store → α → Prop) :
    Prop :=
  ∀ table, Infer.Safe base s (x table) fun t r => post t r.1

namespace Resolve.Safe
variable {α β : Type} {base : Nat} {s : Store} {x : Resolve α} {f : α → Resolve β}
  {post : Store → α → Prop} {post' : Store → β → Prop}

theorem bind (hx : Safe base s x post)
    (hf : ∀ t a, t.Ready base → s.Keeps base t → post t a → Safe base t (f a) post') :
    Safe base s (x >>= f) post' :=
  fun table => (hx table).bind fun t r ready keeps result => hf t r.1 ready keeps result r.2

theorem lift {y : Infer α} (hy : Infer.Safe base s y post) : Safe base s (liftM y) post := by
  intro table
  have lifted : Infer.Safe base s (y >>= fun a => Pure.pure (a, table)) fun t r => post t r.1 :=
    hy.bind fun _ _ ready _ result => .pure ready result
  exact lifted

end Resolve.Safe

theorem Resolve.Balanced.safe {α : Type} {base : Nat} {s : Store} {own : Multiset Handle}
    {x : Resolve α} {give : α → Multiset Handle} {post : α → Prop}
    (hx : Balanced (frame base s) own x give post) (l : Framed base s own s)
    {other : Store → α → Prop} (implies : ∀ t a, (∀ h ∈ give a, h ∈ t) → other t a) :
    Safe base s x other := by
  intro table
  refine (hx table s ((add_zero own).symm ▸ l)).safe.weaken fun t r _ _ made => implies t r.1
    fun h hh => ?_
  exact made.1 h (Multiset.mem_of_le (Multiset.le_add_right _ _) hh)

namespace Env
variable {env : Env} {base : Nat} {s t : Store}

open Infer

theorem Fits.mono (fits : env.Fits s) (keeps : s.Keeps base t) : env.Fits t :=
  Scope.Fits.mono fits keeps

theorem Fits.framed (fits : env.Fits s) (ready : s.Ready base) : Framed base s ↑env.scope.holds s :=
  .start ready fun h hh => fits h (Multiset.mem_coe.1 hh)

theorem anchored_frame (env : Env) (base : Nat) (s : Store) :
    env.Anchored (frame base s) ↑env.scope.holds :=
  ⟨fun _ hh => .of_mem (Multiset.mem_coe.2 hh), fun _ _ _ _ _ _ => trivial⟩

theorem safe_resolveType (ready : s.Ready base) (fits : env.Fits s) (suppress : Bool) (e : Expr) :
    Safe base s (env.resolveType suppress e) fun t h => h ∈ t :=
  (balanced_resolveType (env.anchored_frame base s) (fits.framed ready) suppress e).safe_one

theorem safe_walk (ready : s.Ready base) (fits : env.Fits s) (target : Expr) (count : Nat)
    (hops : List Hop) :
    Resolve.Safe base s (env.walk (env.rootValue target) count hops) fun t r => ∀ h ∈ r, h ∈ t := by
  have anchored := env.anchored_frame base s
  refine (balanced_walk anchored (balanced_rootValue env target anchored False.elim) count
    hops).safe (fits.framed ready) fun t r inside h hh => ?_
  exact inside h (mem_holding.2 (.inl (Option.mem_toList.2 hh)))

theorem safe_resolve (env : Env) (e : Expr) (ready : s.Ready base) (fits : env.Fits s) :
    Resolve.Safe base s (env.resolve e) fun t h => h ∈ t :=
  (balanced_resolve env e (env.anchored_frame base s) False.elim).safe (fits.framed ready)
    fun _ _ inside => inside _ (Multiset.mem_cons_self _ _)

end Env

end ScriptInference
