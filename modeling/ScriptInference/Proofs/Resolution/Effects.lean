import ScriptInference.Proofs.Resolution.Bindings
import ScriptInference.Proofs.Resolution.Targets

/-!
# What a binding changes

A binding resolves and constructs, and then stores its value in the slots of one key of one entity.
To the entities that exist this is all that happens: their prototypes and results stay what they
are, contexts are at most replaced, and no member is lost or changed outside these slots. The entity
is the locals of the scope, which take no reserved name, or what the target leads to before its last
hop.
-/

namespace ScriptInference

variable {h k r : Handle} {taken : Bool} {n : Namespace} {key : Property} {table' : FunctionTable}
  {u : Store} {hops : List Hop}

namespace Store
variable {slots slots' : Handle → EntryKey → Prop} {s t : Store}

/-- To the nodes of `s` nothing happens on the way to `t`, except that members are stored in some
slots, and labels and contexts replaced. -/
structure Amends (slots : Handle → EntryKey → Prop) (s t : Store) : Prop where
  size_le : s.size ≤ t.size
  isa : ∀ n ∈ s, (t.node n).isa = (s.node n).isa
  result : ∀ n ∈ s, (t.node n).result = (s.node n).result
  linked : ∀ n ∈ s, (s.node n).context.isSome → (t.node n).context.isSome
  present : ∀ n ∈ s, ∀ key, (s.member? n key).isSome → (t.member? n key).isSome
  members : ∀ n ∈ s, ∀ key, t.member? n key = s.member? n key ∨ slots n key

namespace Amends

theorem mem (h : s.Amends slots t) {n : Handle} (hn : n ∈ s) : n ∈ t :=
  Nat.lt_of_lt_of_le hn h.size_le

theorem mono (h : s.Amends slots t) (wider : ∀ n key, slots n key → slots' n key) :
    s.Amends slots' t :=
  { h with members := fun n hn key => (h.members n hn key).imp id (wider n key) }

theorem trans (h : s.Amends slots t) (k : t.Amends slots u) : s.Amends slots u where
  size_le := Nat.le_trans h.size_le k.size_le
  isa n hn := (k.isa n (h.mem hn)).trans (h.isa n hn)
  result n hn := (k.result n (h.mem hn)).trans (h.result n hn)
  linked n hn linked := k.linked n (h.mem hn) (h.linked n hn linked)
  present n hn key present := k.present n (h.mem hn) key (h.present n hn key present)
  members n hn key := by
    rcases k.members n (h.mem hn) key with same | stored
    · rw [same]
      exact h.members n hn key
    · exact .inr stored

end Amends

theorem Keeps.member?_eq (keeps : s.Keeps s.size t) {n : Handle} (hn : n ∈ s) (key : EntryKey) :
    t.member? n key = s.member? n key := by
  rw [member?, member?, Entity.member?, (keeps.contents n hn).members]
  rfl

/-- A computation that keeps the nodes stores nothing in them. -/
theorem Keeps.amends (keeps : s.Keeps s.size t) : s.Amends slots t where
  size_le := keeps.size_le
  isa n hn := (keeps.contents n hn).isa
  result n hn := (keeps.contents n hn).result
  linked n hn := (keeps.contents n hn).linked
  present n hn key present := by rwa [keeps.member?_eq hn]
  members n hn key := .inl (keeps.member?_eq hn key)

/-- One computation after another. -/
theorem Keeps.onward (h : s.Keeps s.size t) (k : t.Keeps t.size u) : s.Keeps s.size u :=
  h.trans ⟨k.size_le, fun n hn => k.contents n (Nat.lt_of_lt_of_le hn h.size_le)⟩

theorem Amends.of_nodes_eq (nodes : t.nodes = s.nodes) : s.Amends slots t :=
  Keeps.amends (.of_nodes_eq nodes)

/-- Storing members changes nothing but the members. -/
theorem node_write (h value : Handle) (written : List EntryKey) (n : Handle) :
    (s.write h written value).node n =
      { s.node n with members := ((s.write h written value).node n).members } := by
  induction written generalizing s with
  | nil => rfl
  | cons slot rest ih =>
    refine (ih (s := s.modifyNode h _)).trans ?_
    rw [node_modifyNode_eq]
    split
    · rfl
    · rfl

theorem amends_write {written : List EntryKey} (listed : ∀ slot ∈ written, slots h slot)
    (value : Handle) : s.Amends slots (s.write h written value) := by
  have members : ∀ n ∈ s, ∀ key, (s.write h written value).member? n key = s.member? n key ∨
      (n = h ∧ key ∈ written ∧ (s.write h written value).member? n key = some value) := by
    intro n hn key
    by_cases here : n = h
    · subst here
      rw [member?_write hn]
      split
      · rename_i slot
        exact .inr ⟨rfl, slot, rfl⟩
      · exact .inl rfl
    · exact .inl (by rw [member?, node_write_of_ne here, member?])
  refine ⟨Nat.le_of_eq size_write.symm, fun n _ => ?_, fun n _ => ?_, fun n _ linked => ?_,
    fun n hn key present => ?_, fun n hn key => ?_⟩
  · rw [node_write]
  · rw [node_write]
  · rwa [node_write]
  · rcases members n hn key with same | ⟨-, -, stored⟩
    · rwa [same]
    · rw [stored]
      rfl
  · rcases members n hn key with same | ⟨rfl, slot, -⟩
    · exact .inl same
    · exact .inr (listed key slot)

end Store

/-- The name that a hop reads a member under. -/
def Access.memberName? : Access → Option String
  | member key => some key
  | _ => none

/-- The name under which a target with more than one hop stores its value, if it is stored under a
name. -/
def Expr.appointed? (target : Expr) : Option String :=
  match target.accessChain with
  | some (_ :: rest) => rest.getLast?.bind fun hop => hop.access.memberName?
  | _ => none

namespace Namespace

/-- A scope takes no reserved name. -/
def Accepts : Namespace → Property → Prop
  | .scope _, .identifier name => Scope.isReserved name = false
  | _, _ => True

theorem accepts_of_taken {value : Handle} {s : Store}
    (taken : (n.setProperty key value s).1 = true) : n.Accepts key := by
  unfold setProperty at taken
  split at taken
  · rename_i c name
    unfold Scope.setProperty at taken
    split at taken
    · cases taken
    · rename_i free
      exact Bool.eq_false_iff.2 free
  · rename_i other
    unfold Accepts
    split
    · exact absurd rfl (other _ _ rfl)
    · trivial

end Namespace

namespace Infer
variable {s t : Store} {bound : Nat}

variable (closed : s.Closed)

include closed

theorem node_mergeStored {value : Handle} (hv : value ∈ s)
    (h : mergeStored n key value bound s = .ok (r, t)) (hk : k ∈ s) : t.node k = s.node k := by
  obtain ⟨_, u, read, h⟩ := bind_ok h
  cases read
  cases old : stored s n key value with
  | nil =>
    simp only [old] at h
    cases h
    rfl
  | cons first rest =>
    simp only [old] at h
    obtain ⟨merged, v, united, h⟩ := bind_ok h
    obtain ⟨_, w, released, h⟩ := bind_ok h
    cases released
    cases h
    have inside : ∀ b ∈ first :: rest ++ [value], b ∈ s := by
      intro b hb
      rw [← old] at hb
      rcases List.mem_append.1 hb with hb | hb
      · exact mem_of_mem_stored closed hb
      · exact List.mem_singleton.1 hb ▸ hv
    rw [Store.node_eq (Store.nodes_release value v),
      (unites_union closed inside united).store.kept k hk]

/-- Of the entities that exist, only the value is changed when it is offered: it gets the owner as
its context if it is a function, and the name as its label if it is a map or list without one. -/
theorem node_offer {merge : Bool} (hn : n.container ∈ s) {value : Handle} (hv : value ∈ s)
    {line : UInt64} (h : offer merge n key value line bound s = .ok (r, t)) (hk : k ∈ s) :
    t.node k =
      if k = value then ((s.node value).owned n.owner?).titled key.name? else s.node k := by
  obtain ⟨_, u, own, h⟩ := bind_ok h
  obtain ⟨prepared, v, made, h⟩ := bind_ok h
  obtain ⟨ready, keeps, -⟩ := (safe_own ⟨closed, Nat.le_refl _⟩ hn value).runs _ _ _ own
  obtain ⟨ready', keeps', hp⟩ := (safe_prepare ready (keeps.mem hv) _ line).runs _ _ _ made
  have contents : v.node k =
      if k = value then ((s.node value).owned n.owner?).titled key.name? else s.node k := by
    rw [node_prepare made (keeps.mem hk)]
    cases own
    rw [Store.node_modifyNode _ _ _ s hv, Store.node_modifyNode _ _ _ s hk, if_pos rfl]
    split <;> rfl
  rw [← contents]
  cases merge with
  | false =>
    cases h
    rfl
  | true => exact node_mergeStored ready'.closed hp h (keeps'.mem (keeps.mem hk))

/-- A function that is offered to an entity gets it as its context. -/
theorem context_offer {merge : Bool} {owner : Handle} (owned : n.owner? = some owner)
    (ho : owner ∈ s) {value : Handle} (hv : value ∈ s) (function : (s.node value).kind = .function)
    {line : UInt64} (h : offer merge n key value line bound s = .ok (r, t)) :
    (t.node value).context = some owner := by
  rw [node_offer closed (n.container_of_owner? owned ▸ ho) hv h hv, if_pos rfl,
    Entity.context_titled, Entity.owned, if_pos function, owned]
  rfl

/-- Binding stores in the namespace what has been made of the value, or refuses. -/
theorem bind_cases {merge : Bool} (hn : n.container ∈ s) (hk : key.Fits s) {value : Handle}
    (hv : value ∈ s) {line : UInt64}
    (h : Infer.bind merge n key value line bound s = .ok (taken, t)) :
    ∃ u, s.Keeps s.size u ∧ u.Closed ∧
      (∀ owner, n.owner? = some owner → (s.node value).kind = .function →
        (u.node value).context = some owner) ∧
      ((taken = false ∧ t.nodes = u.nodes) ∨
        (taken = true ∧ n.Accepts key ∧ ∃ stored ∈ u,
          t.nodes = (u.write n.container (u.slots key) stored).nodes)) := by
  rw [bind_eq_offer] at h
  obtain ⟨stored, u, offered, h⟩ := bind_ok h
  obtain ⟨ready, keeps, inside, -⟩ :=
    (safe_offer ⟨closed, Nat.le_refl _⟩ merge hn hk hv line).runs bound stored u offered
  have result : n.setProperty key stored u = (taken, t) := Except.ok.inj h
  refine ⟨u, keeps, ready.closed, fun owner owned function => ?_, ?_⟩
  · exact context_offer closed owned (n.container_of_owner? owned ▸ hn) hv function offered
  rcases n.setProperty_cases key stored u with ⟨took, nodes⟩ | ⟨refused, nodes⟩
  · have accepts := Namespace.accepts_of_taken took
    rw [result] at took nodes
    exact .inr ⟨took, accepts, stored, inside, nodes⟩
  · rw [result] at refused nodes
    exact .inl ⟨refused, nodes⟩

end Infer

namespace Env
variable {env : Env} {target : Expr} {table : FunctionTable} {bound : Nat} {s t : Store}

open Infer

/-- The target has several hops, and resolving all but the last leads to the entity. -/
def Leads (env : Env) (target : Expr) (table : FunctionTable) (bound : Nat) (s : Store)
    (h : Handle) : Prop :=
  ∃ hops table' u, env.chain? target = some hops ∧ 2 ≤ hops.length ∧
    env.walk (env.rootValue target) (hops.length - 1) hops table bound s = .ok ((some h, table'), u)

/-- Where a target is bound: a lone name in the scope, a longer chain on what it leads to. -/
inductive Aims (env : Env) (target : Expr) (table : FunctionTable) (bound : Nat) (s : Store) :
    Namespace → Property → Prop
  | name {name : String} {reference : Bool} : env.chain? target = some [⟨.name name, reference⟩] →
      env.Aims target table bound s (.scope env.scope) (.identifier name)
  | member {h : Handle} {name : String} : env.Leads target table bound s h →
      target.appointed? = some name → env.Aims target table bound s (.entity h) (.identifier name)
  | index {h key : Handle} : env.Leads target table bound s h → target.appointed? = none →
      env.Aims target table bound s (.entity h) (.value key)

theorem appointed?_of_chain? (chain : env.chain? target = some hops) (long : 2 ≤ hops.length) :
    target.appointed? = (lastAccess? hops).bind Access.memberName? := by
  rw [Expr.appointed?, accessChain_of_chain? chain]
  match hops, long with
  | first :: second :: rest, _ => simp [lastAccess?, List.getLast?_cons_cons, Option.bind_map]

/-- What resolving leads to is found once. -/
theorem Leads.unique {h' : Handle} (first : env.Leads target table bound s h)
    (second : env.Leads target table bound s h') : h = h' := by
  obtain ⟨hops, table₁, u, chain, -, walked⟩ := first
  obtain ⟨hops', table₂, u', chain', -, walked'⟩ := second
  obtain rfl : hops = hops' := Option.some.inj (chain.symm.trans chain')
  cases walked.symm.trans walked'
  rfl

/-- All that defining a target can come to: nothing is stored, or what has been made of the value is
stored where the target aims at. -/
inductive Outcome (env : Env) (target : Expr) (value : Handle) (table : FunctionTable) (bound : Nat)
    (s : Store) : Bool → Store → Prop
  | refused {u t : Store} : s.Keeps s.size u → u.Closed → t.nodes = u.nodes →
      env.Outcome target value table bound s false t
  | stored {u t : Store} {n : Namespace} {key : Property} {item : Handle} : s.Keeps s.size u →
      u.Closed → (∀ owner, n.owner? = some owner → (s.node value).kind = .function →
        (u.node value).context = some owner) →
      env.Aims target table bound s n key → n.Accepts key → n.container ∈ u → item ∈ u →
      t.nodes = (u.write n.container (u.slots key) item).nodes →
      env.Outcome target value table bound s true t

theorem Outcome.of_nodes_eq {value : Handle}
    (outcome : env.Outcome target value table bound s taken t) (nodes : u.nodes = t.nodes) :
    env.Outcome target value table bound s taken u := by
  cases outcome with
  | refused keeps closed same => exact .refused keeps closed (nodes.trans same)
  | stored keeps closed context aims accepts inside hv same =>
    exact .stored keeps closed context aims accepts inside hv (nodes.trans same)

/-- Binding where the target aims at. -/
theorem Outcome.of_bind (aims : env.Aims target table bound s n key) {v : Store}
    (keeps : s.Keeps s.size u) (closed : u.Closed) (hn : n.container ∈ u) (hk : key.Fits u)
    {value : Handle} (hv : value ∈ s) {merge : Bool} {line : UInt64}
    (h : Infer.bind merge n key value line bound u = .ok (taken, v)) :
    env.Outcome target value table bound s taken v := by
  have kind : (u.node value).kind = (s.node value).kind := by
    rw [(keeps.contents value hv).restyled.1]
  obtain ⟨w, later, closed', context, outcome⟩ := bind_cases closed hn hk (keeps.mem hv) h
  rw [kind] at context
  rcases outcome with ⟨rfl, nodes⟩ | ⟨rfl, accepts, stored, inside, nodes⟩
  · exact .refused (keeps.onward later) closed' nodes
  · exact .stored (keeps.onward later) closed' context aims accepts (later.mem hn) inside nodes

theorem Arrives.leads (arrives : env.Arrives target table bound s hops h u) :
    env.Leads target table bound s h := by
  obtain ⟨table', walked⟩ := arrives.walked
  exact ⟨hops, table', u, arrives.chain, arrives.long, walked⟩

theorem outcome_define (closed : s.Closed) (fits : env.Fits s) {value : Handle} (hv : value ∈ s)
    (defined : env.define target value table bound s = .ok ((taken, table'), t)) :
    env.Outcome target value table bound s taken t := by
  cases course_define defined with
  | unresolved _ | literal _ => exact .refused (.refl _ s) closed (Store.nodes_release value s)
  | name chain ran => exact .of_bind (.name chain) (.refl _ s) closed fits.locals trivial hv ran
  | @transient hops h u access arrives _ _ =>
    obtain ⟨keeps, closed', -⟩ := arrives.keeps closed fits
    exact .refused keeps closed' ((Store.nodes_release h _).trans (Store.nodes_release value u))
  | @member hops h u name _ v arrives ends ran =>
    obtain ⟨keeps, closed', inside⟩ := arrives.keeps closed fits
    have appointed := appointed?_of_chain? arrives.chain arrives.long
    rw [ends] at appointed
    have outcome :=
      Outcome.of_bind (.member arrives.leads appointed) keeps closed' inside trivial hv ran
    exact outcome.of_nodes_eq (Store.nodes_release h v)
  | @index hops h u e key v _ w arrives ends resolved ran =>
    obtain ⟨keeps, closed', inside⟩ := arrives.keeps closed fits
    have appointed := appointed?_of_chain? arrives.chain arrives.long
    rw [ends] at appointed
    have ready : u.Ready u.size := ⟨closed', Nat.le_refl _⟩
    obtain ⟨ready', keeps', hkey⟩ :=
      (safe_resolveType ready (fits.mono keeps) false e).runs _ _ _ resolved
    have outcome :=
      Outcome.of_bind (.index arrives.leads appointed) (keeps.onward keeps') ready'.closed
      (keeps'.mem inside) hkey hv ran
    exact outcome.of_nodes_eq ((Store.nodes_release h _).trans (Store.nodes_release key w))

/-- A target that is one name leads to no entity. -/
theorem not_leads_of_name {name : String} {reference : Bool}
    (chain : env.chain? target = some [⟨.name name, reference⟩]) (h : Handle) :
    ¬ env.Leads target table bound s h := by
  rintro ⟨hops, table', u, several, long, -⟩
  obtain rfl := Option.some.inj (chain.symm.trans several)
  simp at long

/-- A function that is bound as a member of an entity has it as its context. -/
theorem Outcome.context {value h : Handle} (outcome : env.Outcome target value table bound s true t)
    (leads : env.Leads target table bound s h) (function : (s.node value).kind = .function) :
    (t.node value).context = some h := by
  cases outcome with
  | @stored u _ n key item keeps _ context aims _ _ _ nodes =>
    have owner : n.owner? = some h := by
      cases aims with
      | name chain => exact absurd leads (not_leads_of_name chain h)
      | member leads' _ | index leads' _ => exact congrArg some (leads'.unique leads)
    rw [Store.node_eq nodes, Store.node_write]
    exact context h owner function

/-- The locals take every name that is not reserved. -/
def Local (env : Env) (n : Handle) (key : EntryKey) : Prop :=
  n = env.scope.locals ∧ ∃ name, key = .identifier name ∧ Scope.isReserved name = false

/-- The slots that a target may be stored in, if it leads to the given entity. -/
def Slot (env : Env) (target : Expr) (container n : Handle) (key : EntryKey) : Prop :=
  env.Local n key ∨ (n = container ∧ ∀ name, key = .identifier name → target.appointed? = some name)

theorem slot_of_aims (aims : env.Aims target table bound s n key) (accepts : n.Accepts key)
    (u : Store) : ∀ slot ∈ u.slots key, env.Slot target n.container n.container slot := by
  intro slot listed
  cases aims with
  | @name name _ chain =>
    obtain rfl : slot = .identifier name := List.mem_singleton.1 listed
    exact .inl ⟨rfl, name, rfl, accepts⟩
  | @member h name leads appointed =>
    obtain rfl : slot = .identifier name := List.mem_singleton.1 listed
    refine .inr ⟨rfl, fun name' same => ?_⟩
    cases same
    exact appointed
  | @index h key leads appointed =>
    obtain ⟨tag, -, rfl⟩ := List.mem_map.1 listed
    exact .inr ⟨rfl, fun name same => by cases same⟩

theorem Outcome.amends {value : Handle} (outcome : env.Outcome target value table bound s taken t) :
    ∃ container, s.Amends (env.Slot target container) t := by
  cases outcome with
  | refused keeps _ nodes => exact ⟨env.scope.locals, keeps.amends.trans (.of_nodes_eq nodes)⟩
  | @stored u _ n key _ keeps _ _ aims accepts _ _ nodes =>
    have written := Store.amends_write (s := u) (slot_of_aims aims accepts u)
    exact ⟨n.container, keeps.amends.trans ((written _).trans (.of_nodes_eq nodes))⟩

theorem Outcome.keeps {value : Handle} {taken : Bool}
    (outcome : env.Outcome target value table bound s taken t) : t.Closed ∧ s.Keeps 0 t := by
  cases outcome with
  | refused keeps closed nodes =>
    exact ⟨closed.of_nodes_eq nodes, .of_size_le (Store.size_eq nodes ▸ keeps.size_le)⟩
  | stored keeps closed _ _ _ _ inside nodes =>
    refine ⟨(closed.write inside).of_nodes_eq nodes, .of_size_le ?_⟩
    rw [Store.size_eq nodes, Store.size_write]
    exact keeps.size_le

theorem amends_alloc {slots : Handle → EntryKey → Prop} {e : Entity}
    (made : alloc e bound s = .ok (h, t)) : s.Amends slots t := by
  cases made
  have keeps : s.Keeps s.size (s.alloc e).2 := by
    refine ⟨by rw [Store.size_alloc]; omega, fun n hn => ?_⟩
    rw [Store.node_alloc_lt e s n hn]
    exact .refl _
  exact keeps.amends

theorem amends_bindName (env : Env) {name : String} {value : Handle}
    (h : bindName env.scope name value bound s = .ok (taken, t)) : s.Amends env.Local t := by
  have result : (Namespace.scope env.scope).setProperty (.identifier name) value s = (taken, t) :=
    Except.ok.inj h
  rcases (Namespace.scope env.scope).setProperty_cases (.identifier name) value s with
    ⟨took, nodes⟩ | ⟨-, nodes⟩
  · have accepts := Namespace.accepts_of_taken took
    rw [result] at nodes
    refine (Store.amends_write (fun slot listed => ?_) value).trans (.of_nodes_eq nodes)
    exact ⟨rfl, name, List.mem_singleton.1 listed, accepts⟩
  · rw [result] at nodes
    exact .of_nodes_eq nodes

theorem safe_parameterValue {base : Nat} (ready : s.Ready base) (fits : env.Fits s) (p : Param) :
    Resolve.Safe base s (env.parameterValue p) fun t h => h ∈ t := by
  rw [parameterValue]
  cases p.default? with
  | some d => exact safe_resolve env d ready fits
  | none => exact .lift (safe_make ready rfl)

theorem amends_defineParameter (closed : s.Closed) (fits : env.Fits s) {p : Param}
    (h : env.defineParameter p table bound s = .ok (((), table'), t)) :
    t.Closed ∧ env.Fits t ∧ s.Amends env.Local t := by
  obtain ⟨v, table₁, t₁, made, h⟩ := Resolve.bind_ok h
  obtain ⟨ready₁, keeps₁, hv⟩ :=
    (safe_parameterValue ⟨closed, Nat.le_refl _⟩ fits p table).runs _ _ _ made
  obtain ⟨copied, table₂, t₂, copy, h⟩ := Resolve.bind_ok h
  obtain ⟨ready₂, keeps₂, hc⟩ := (safe_copy ready₁ v _).runs _ _ _ (Resolve.lift_ok copy).1
  obtain ⟨taken, table₃, t₃, stored, released⟩ := Resolve.bind_ok h
  have named := (Resolve.lift_ok stored).1
  have kept := (Namespace.scope env.scope).keeps_setProperty ready₂.closed (.identifier p.name) hc.1
  have result : (Namespace.scope env.scope).setProperty (.identifier p.name) copied t₂ =
      (taken, t₃) := Except.ok.inj named
  rw [result] at kept
  obtain ⟨closed₃, keeps₃⟩ := kept
  cases released
  have nodes := Store.nodes_release v t₃
  have keeps₄ : t₃.Keeps 0 (t₃.release v) := .of_nodes_eq nodes
  have first := (keeps₁.trans keeps₂).amends.trans (amends_bindName env named)
  exact ⟨closed₃.of_nodes_eq nodes, (((fits.mono keeps₁).mono keeps₂).mono keeps₃).mono keeps₄,
    first.trans (.of_nodes_eq nodes)⟩

theorem amends_defineParameters (closed : s.Closed) (fits : env.Fits s) {ps : List Param}
    (h : env.defineParameters ps table bound s = .ok (((), table'), t)) : s.Amends env.Local t := by
  induction ps generalizing s table with
  | nil =>
    cases h
    exact .of_nodes_eq rfl
  | cons p rest ih =>
    obtain ⟨_, table₁, u, first, h⟩ := Resolve.bind_ok h
    obtain ⟨closed₁, fits₁, amends⟩ := amends_defineParameter closed fits first
    exact amends.trans (ih closed₁ fits₁ h)

/-- What a binding assigns: a value, or an element of what it iterates. -/
def value (env : Env) : Binding → Resolve Handle
  | .assignment _ init _ => env.resolve init
  | .loop _ iterator _ => env.resolveElement iterator

theorem safe_value {base : Nat} (ready : s.Ready base) (fits : env.Fits s) (b : Binding) :
    Resolve.Safe base s (env.value b) fun t h => h ∈ t := by
  cases b with
  | assignment _ init _ => exact safe_resolve env init ready fits
  | loop _ iterator _ =>
    exact (books_resolveElement (env.anchored_frame base s) False.elim).safe (fits.framed ready)
      fun _ _ inside => inside _ (Multiset.mem_cons_self _ _)

/-- A binding makes its value and defines its target by it; a loop may also bind its index in the
locals. -/
theorem run_steps {b : Binding} (h : env.run b table bound s = .ok ((taken, table'), t)) :
    ∃ value table₁ u table₂ v, env.value b table bound s = .ok ((value, table₁), u) ∧
      env.define b.target value table₁ bound u = .ok ((taken, table₂), v) ∧
        v.Amends env.Local t := by
  cases b with
  | assignment target init span =>
    obtain ⟨value, table₁, u, made, defined⟩ := Resolve.bind_ok h
    exact ⟨value, table₁, u, table', t, made, defined, .of_nodes_eq rfl⟩
  | loop element iterator span =>
    obtain ⟨value, table₁, u, made, h⟩ := Resolve.bind_ok h
    obtain ⟨took, table₂, v, defined, h⟩ := Resolve.bind_ok h
    dsimp only at h
    split at h
    · cases named : element.identifier? with
      | none =>
        simp only [named] at h
        cases h
        exact ⟨value, table₁, u, table', t, made, defined, .of_nodes_eq rfl⟩
      | some name =>
        simp only [named] at h
        obtain ⟨index, table₃, w, alloc, h⟩ := Resolve.bind_ok h
        obtain ⟨_, table₄, x, stored, h⟩ := Resolve.bind_ok h
        obtain ⟨answer, rfl⟩ := Prod.mk.inj (Except.ok.inj h)
        obtain ⟨rfl, -⟩ := Prod.mk.inj answer
        have indexed := amends_bindName env (Resolve.lift_ok stored).1
        exact ⟨value, table₁, u, table₂, v, made, defined,
          (amends_alloc (Resolve.lift_ok alloc).1).trans indexed⟩
    · cases h
      exact ⟨value, table₁, u, table', t, made, defined, .of_nodes_eq rfl⟩

/-- To the entities that exist a binding does no more than to store its value in the slots of its
target. -/
theorem amends_run (closed : s.Closed) (fits : env.Fits s) {b : Binding}
    (h : env.run b table bound s = .ok ((taken, table'), t)) :
    ∃ container, s.Amends (env.Slot b.target container) t := by
  obtain ⟨value, table₁, u, table₂, v, made, defined, indexed⟩ := run_steps h
  obtain ⟨ready, keeps, hv⟩ := (safe_value ⟨closed, Nat.le_refl _⟩ fits b table).runs _ _ _ made
  obtain ⟨container, amends⟩ := (outcome_define ready.closed (fits.mono keeps) hv defined).amends
  exact ⟨container, (keeps.amends.trans amends).trans (indexed.mono fun n key free => .inl free)⟩

end Env

end ScriptInference
