import ScriptInference.Proofs.Entity.Escapes
import ScriptInference.Proofs.Resolution.Methods

/-!
# Links that hold nothing

An instance holds its prototype only if it took over the last hold on it, and a function never holds
its context. Such a link is made to a living entity, and it stays alive as long as the entity is
held in another way: through members, results and owned prototypes, by someone who holds the roots
of that path. A binding takes the entity away from such a path only by replacing a member that lies
on it.
-/

namespace ScriptInference

namespace Store
variable {g s t : Store} {strict : Prop} {own : Multiset Handle} {roots roots' : List Handle}
  {h k : Handle}

/-- What is held through members, results and owned prototypes by whoever holds the roots. -/
def holdings (s : Store) (roots : List Handle) : Set Handle :=
  {h | ReachedFrom (fun n => (s.node n).holds) roots h}

theorem holdings_mono (sub : ∀ r ∈ roots, r ∈ roots') (hh : h ∈ s.holdings roots) :
    h ∈ s.holdings roots' := by
  induction hh with
  | root listed => exact .root (sub _ listed)
  | edge _ step ih => exact .edge ih step

theorem mem_of_mem_holdings (closed : s.Closed) (inside : ∀ r ∈ roots, r ∈ s)
    (hh : h ∈ s.holdings roots) : h ∈ s := by
  cases hh with
  | root listed => exact inside h listed
  | edge _ step => exact closed.links _ (Entity.mem_links_of_mem_holds step)

theorem mem_holdings_of_owned {n p : Handle} (isa : (s.node n).isa = some ⟨p, true⟩)
    (hn : n ∈ s.holdings roots) : p ∈ s.holdings roots := by
  refine ReachedFrom.edge hn (List.mem_append_right _ ?_)
  rw [isa]
  exact List.mem_singleton.2 rfl

theorem Ledger.live_of_mem_holdings (l : Ledger g strict own s) (held : ∀ r ∈ roots, r ∈ own)
    (hh : h ∈ s.holdings roots) : s.live h := by
  induction hh with
  | root listed => exact l.live_of_mem (held _ listed)
  | edge _ step ih => exact l.held ih step

/-- The links to what is held are alive, and so is the link of an instance that is held and owns its
prototype. -/
structure LinksLive (s : Store) (roots : List Handle) : Prop where
  isa : ∀ n p owned, (s.node n).isa = some ⟨p, owned⟩ →
    p ∈ s.holdings roots ∨ (owned = true ∧ n ∈ s.holdings roots) → s.isa? n = some p
  context : ∀ f k, (s.node f).context = some k → k ∈ s.holdings roots → s.context? f = some k

theorem Ledger.linksLive (l : Ledger g strict own s) (held : ∀ r ∈ roots, r ∈ own) :
    s.LinksLive roots where
  isa n p owned isa reached := by
    have target : p ∈ s.holdings roots := by
      rcases reached with direct | ⟨rfl, hn⟩
      · exact direct
      · exact mem_holdings_of_owned isa hn
    exact isa?_eq_some_iff.2 ⟨⟨_, isa, rfl⟩, l.live_of_mem_holdings held target⟩
  context f k context reached :=
    context?_eq_some_iff.2 ⟨context, l.live_of_mem_holdings held reached⟩

/-- A member is replaced through which the roots held the node. -/
def Cuts (s t : Store) (roots : List Handle) (h : Handle) : Prop :=
  ∃ n ∈ s.holdings roots, ∃ key m, s.member? n key = some m ∧ t.member? n key ≠ some m ∧
    h ∈ s.holdings [m]

/-- What was held is still held, unless a member on the way to it is replaced. -/
theorem Amends.mem_holdings_or_cuts {slots : Handle → EntryKey → Prop} (amends : s.Amends slots t)
    (closed : s.Closed) (inside : ∀ r ∈ roots, r ∈ s) (sub : ∀ r ∈ roots, r ∈ roots')
    (hh : h ∈ s.holdings roots) : h ∈ t.holdings roots' ∨ s.Cuts t roots h := by
  induction hh with
  | root listed => exact .inl (.root (sub _ listed))
  | @edge n k path step ih =>
    rcases ih with still | ⟨n', reached, key, m, before, after, below⟩
    · have hn : n ∈ s := mem_of_mem_holdings closed inside path
      rcases List.mem_append.1 step with part | owned
      · rcases List.mem_append.1 part with member | result
        · obtain ⟨key, found⟩ := SortedMap.mem_values_iff.1 member
          have before : s.member? n key = some k := found
          by_cases after : t.member? n key = some k
          · have member' : k ∈ (t.node n).members.values := SortedMap.mem_values_iff.2 ⟨key, after⟩
            exact .inl (.edge still (List.mem_append_left _ (List.mem_append_left _ member')))
          · exact .inr ⟨n, path, key, k, before, after, .root List.mem_cons_self⟩
        · rw [← amends.result n hn] at result
          exact .inl (.edge still (List.mem_append_left _ (List.mem_append_right _ result)))
      · rw [← amends.isa n hn] at owned
        exact .inl (.edge still (List.mem_append_right _ owned))
    · exact .inr ⟨n', reached, key, m, before, after, .edge below step⟩

/-- Where no member is stored, everything stays held. -/
theorem Amends.mem_holdings (amends : s.Amends (fun _ _ => False) t) (closed : s.Closed)
    (inside : ∀ r ∈ roots, r ∈ s) (sub : ∀ r ∈ roots, r ∈ roots') (hh : h ∈ s.holdings roots) :
    h ∈ t.holdings roots' := by
  rcases amends.mem_holdings_or_cuts closed inside sub hh with
    still | ⟨n, hn, key, m, before, after, -⟩
  · exact still
  · rcases amends.members n (mem_of_mem_holdings closed inside hn) key with same | never
    · exact absurd (same.trans before) after
    · exact never.elim

section Heirs

/-- A new node takes holds on nothing but itself and what its contents name. -/
theorem count_alloc {e : Entity} (bare : e.holds = []) (hk : k ∈ s) :
    (s.alloc e).2.count k = s.count k := by
  have other : (⟨s.size⟩ : Handle) ≠ k := by
    rintro rfl
    exact Nat.lt_irrefl _ hk
  have once : [(⟨s.size⟩ : Handle)].count k = 0 :=
    List.count_eq_zero_of_not_mem fun same => other (List.mem_singleton.1 same).symm
  rw [alloc, bare, count_retainAll (mem_push hk e), count_push, once, Nat.add_zero]

/-- A node that is held more than once survives a release. -/
theorem live_release (several : 2 ≤ s.count h) : (s.release h).live h := by
  obtain ⟨n, count⟩ := Nat.exists_eq_add_of_le' several
  have inside : h ∈ s := mem_of_live (live_iff.2 (by omega))
  have released : s.release h = s.setCount h (n + 1) := by
    rw [release, releaseWithin, count]
  rw [released, live_iff, Ledger.count_setCount inside, if_pos rfl]
  exact Nat.succ_pos n

/-- An instance without a prototype inherits from a living node: the link is alive, and it is owned
if the hold that it came with was the only one. -/
theorem isa_inherit {m p : Handle} (hm : m ∈ s) (blank : (s.node m).isa = none) (hp : s.live p) :
    ((s.inherit m p).node m).isa = some ⟨p, decide (s.count p = 1)⟩ ∧
      (s.inherit m p).isa? m = some p := by
  -- what is left when the hold is given up, if it is not the only one
  obtain ⟨rest, nodes, alive, result⟩ : ∃ rest : Store, rest.nodes = s.nodes ∧ rest.live p = true ∧
      s.inherit m p = rest.setPrototype m (some ⟨p, decide (s.count p = 1)⟩) := by
    by_cases only : s.count p = 1
    · exact ⟨s, rfl, hp, by rw [inherit, if_pos only]⟩
    · have several : 2 ≤ s.count p := by
        have positive := live_iff.1 hp
        omega
      exact ⟨s.release p, nodes_release p s, live_release several, by rw [inherit, if_neg only]⟩
  have old : (rest.node m).isa = none := by rw [node_eq nodes, blank]
  have inside : m.index < rest.size := by
    rw [size_eq nodes]
    exact hm
  have written : s.inherit m p = rest.modifyNode m
      fun e => { e with isa := some ⟨p, decide (s.count p = 1)⟩ } := by
    rw [result, setPrototype, old]
    rfl
  have isa : ((s.inherit m p).node m).isa = some ⟨p, decide (s.count p = 1)⟩ := by
    rw [written, node_modifyNode m m _ rest inside, if_pos rfl]
  have alive' : (s.inherit m p).live p = true := by
    rw [written]
    exact alive
  exact ⟨isa, isa?_eq_some_iff.2 ⟨⟨_, isa, rfl⟩, alive'⟩⟩

end Heirs

end Store

namespace Env
variable {env : Env} {g s t : Store} {strict : Prop} {own : Multiset Handle}
  {table table' : FunctionTable} {bound : Nat}

open Infer

/-- What `new` inherits from: the value of an access expression, or what its outermost node
tells. -/
def prototype (env : Env) (a : Expr) : Resolve Handle := env.resolveAccess true (env.rootValue a) a

theorem books_prototype (anchored : env.Anchored .accounts own) (a : Expr) :
    Books .accounts own (env.prototype a) (· ::ₘ own) :=
  balanced_resolveAccess anchored (balanced_rootValue env a anchored False.elim) a

/-- The contents of a new instance. -/
def instanceContents (span : Span) : Entity :=
  { Entity.ofType .map Tag.map with line := some span.line }

theorem resolve_new_steps {a : Expr} {span : Span} {m : Handle}
    (h : env.resolve (.unary .new a span) table bound s = .ok ((m, table'), t)) :
    ∃ p u, env.prototype a table bound s = .ok ((p, table'), u) ∧
      m = (u.alloc (instanceContents span)).1 ∧
        t = (u.alloc (instanceContents span)).2.inherit m p := by
  rw [resolve] at h
  obtain ⟨p, table₁, u, found, made⟩ := Resolve.bind_ok h
  obtain ⟨answer, rfl⟩ := Prod.mk.inj (Except.ok.inj made)
  obtain ⟨rfl, rfl⟩ := Prod.mk.inj answer
  exact ⟨p, u, found, rfl, rfl⟩

/-- What `new` makes has a live prototype, and owns it if nothing else holds it. -/
theorem isa_resolve_new (anchored : env.Anchored .accounts own)
    (l : s.Accounts (own + ↑table.values)) {a : Expr} {span : Span} {m : Handle}
    (h : env.resolve (.unary .new a span) table bound s = .ok ((m, table'), t)) :
    ∃ p u, env.prototype a table bound s = .ok ((p, table'), u) ∧
      (t.node m).isa = some ⟨p, decide (u.count p = 1)⟩ ∧ t.isa? m = some p := by
  obtain ⟨p, u, found, rfl, rfl⟩ := resolve_new_steps h
  have held := ((books_prototype anchored a table s l).runs _ _ _ found).1
  have alive : u.live p := held.live_of_mem (Multiset.mem_add.2 (.inl (Multiset.mem_cons_self _ _)))
  have bare : (instanceContents span).holds = [] := rfl
  have same := Store.count_alloc bare (Store.mem_of_live alive)
  have alive' : (u.alloc (instanceContents span)).2.live p := by
    rw [Store.live_iff, same]
    exact Store.live_iff.1 alive
  have blank : ((u.alloc (instanceContents span)).2.node (u.alloc (instanceContents span)).1).isa =
      none := by
    rw [Store.node_alloc]
    rfl
  have inherited := Store.isa_inherit (Store.mem_alloc (instanceContents span) u) blank alive'
  rw [same] at inherited
  exact ⟨p, u, found, inherited⟩

/-- The links that an environment makes, whatever is held besides: an instance has a live prototype,
and a function that is stored as a member has its container as context. -/
structure MakesLinks (env : Env) (own : Multiset Handle) : Prop where
  prototype : ∀ a span table bound s m table' t, s.Accounts (own + ↑table.values) →
    env.resolve (.unary .new a span) table bound s = .ok ((m, table'), t) →
    ∃ p u, env.prototype a table bound s = .ok ((p, table'), u) ∧
      (t.node m).isa = some ⟨p, decide (u.count p = 1)⟩ ∧ t.isa? m = some p
  method : ∀ target decl span span' table bound s table' t, s.Accounts (own + ↑table.values) →
    env.run (.assignment target (.function decl span) span') table bound s =
    .ok ((true, table'), t) →
    ∃ f table₁ u, env.resolve (.function decl span) table bound s = .ok ((f, table₁), u) ∧
      table₁.get? decl.id = some f ∧
      (decl.id ∉ declaredIds target.walk → table'.get? decl.id = some f) ∧
      ∀ owner, env.Leads target table₁ bound u owner → (t.node f).context = some owner
  field : ∀ map before key decl span after table bound s table' t,
    s.Accounts (map ::ₘ own + ↑table.values) → decl.id ∉ declaredIds (walkFields after) →
    env.resolveFields map (before ++ (key, .function decl span) :: after) table bound s =
      .ok (((), table'), t) →
    ∃ f, table'.get? decl.id = some f ∧ (t.node f).context = some map

theorem makesLinks (owned : env.Owned .accounts own) : env.MakesLinks own := by
  have held : ∀ {own' more : Multiset Handle} {s : Store} {h : Handle}, s.Accounts (own' + more) →
      own ≤ own' → h ∈ own → h ∈ s := fun l le hh =>
    Store.mem_of_live (l.live_of_mem (Multiset.mem_add.2 (.inl (Multiset.mem_of_le le hh))))
  refine ⟨?_, ?_, ?_⟩
  · intro _ _ _ _ _ _ _ _ l made
    exact isa_resolve_new owned.anchored l made
  · intro _ _ _ _ _ _ _ _ _ l ran
    exact context_run l.closed (fun h hh => held l (le_refl own) (owned.scope h hh)) ran
  · intro map _ _ _ _ _ _ _ _ _ _ l unlisted filled
    have le := Multiset.le_cons_self own map
    have inside : map ∈ _ := Store.mem_of_live
      (l.live_of_mem (Multiset.mem_add.2 (.inl (Multiset.mem_cons_self map own))))
    exact context_resolveFields l.closed
      (fun h hh => held l le (owned.scope h hh)) inside unlisted filled

end Env

end ScriptInference
