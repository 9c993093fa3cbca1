import ScriptInference.Proofs.Resolution.Expressions
import ScriptInference.Proofs.Resolution.Targets

/-!
# Binding over a value keeps what was known

With merging, the value that is stored in a slot covers what the slot held: it is a union that the
old member was joined into. Writing it to the slot therefore loses no path, from whatever node and
along whatever aliases and cycles the slot is reached. Before the write an assignment only reads,
and makes entities of its own; so no path is lost from any entity that existed before.
-/

namespace ScriptInference

variable {s t u : Store} {key : Property} {n : Namespace} {h : Handle} {e : Entity}

namespace Store

theorem mem_of_member? {m : Handle} {key : EntryKey} (hm : s.member? h key = some m) : h ∈ s := by
  by_contra outside
  rw [member?, node_of_not_mem outside] at hm
  cases hm

theorem slots_congr (same : ∀ k, key = .value k → t.node k = s.node k) :
    t.slots key = s.slots key := by
  cases key with
  | identifier name => rfl
  | value k => rw [slots, slots, same k rfl]

/-- Replacing members by nodes that cover them loses no path. -/
theorem covers_write {value : Handle} {slots : List EntryKey}
    (better : ∀ slot ∈ slots, ∀ m, s.member? h slot = some m → s.Covers value s m) (n : Handle) :
    (s.write h slots value).Covers n s n := by
  have sim : (s.write h slots value).Simulation s fun u v => s.Covers u s v := by
    refine ⟨fun u v covers tag ht => ?_, fun u v key w covers hw => ?_⟩
    · rw [types_write]
      exact covers.types tag ht
    · obtain ⟨u', hu', covers'⟩ := covers.member hw
      by_cases replaced : u = h ∧ key ∈ slots
      · obtain ⟨rfl, slot⟩ := replaced
        refine ⟨value, ?_, (better key slot u' hu').trans covers'⟩
        rw [member?_write (mem_of_member? hu'), if_pos slot]
      · refine ⟨u', ?_, covers'⟩
        by_cases here : u = h
        · subst here
          rw [member?_write (mem_of_member? hu'), if_neg fun slot => replaced ⟨rfl, slot⟩]
          exact hu'
        · rw [member?, node_write_of_ne here]
          exact hu'
  exact sim.covers (.refl s n)

/-- An extension shows no more of the old nodes than there was. -/
theorem Extends.covered (h : s.Extends t) (closed : s.Closed) {n : Handle} (hn : n ∈ s) :
    s.Covers n t n := by
  have sim : s.Simulation t fun u v => u = v ∧ v ∈ s := by
    refine ⟨?_, ?_⟩
    · rintro u v ⟨rfl, hu⟩ tag ht
      rwa [h.kept u hu] at ht
    · rintro u v key w ⟨rfl, hu⟩ hw
      rw [member?, h.kept u hu] at hw
      exact ⟨w, hw, rfl, closed.member? hw⟩
  exact sim.covers ⟨rfl, hn⟩

theorem Covers.of_nodes_eq (nodes : t.nodes = s.nodes) (n : Handle) : t.Covers n s n := by
  have sim : t.Simulation s Eq := by
    refine ⟨?_, ?_⟩
    · rintro u v rfl tag ht
      rwa [node_eq nodes]
    · rintro u v key w rfl hw
      exact ⟨w, by rwa [member?, node_eq nodes], rfl⟩
  exact sim.covers rfl

/-- Every path from a node of `s` can still be followed in `t`, and shows at least as much. -/
def Remembers (t s : Store) : Prop := ∀ n ∈ s, t.Covers n s n

theorem Remembers.trans (later : u.Remembers t) (size_le : s.size ≤ t.size)
    (first : t.Remembers s) : u.Remembers s :=
  fun n hn => (later n (Nat.lt_of_lt_of_le hn size_le)).trans (first n hn)

theorem Remembers.refl (s : Store) : s.Remembers s := fun n _ => .refl s n

theorem Remembers.congr (known : t.Remembers s) (nodes : u.nodes = t.nodes) : u.Remembers s :=
  fun n hn => (Covers.of_nodes_eq nodes n).trans (known n hn)

theorem Keeps.remembers (keeps : s.Keeps s.size t) (closed : s.Closed) : t.Remembers s := by
  intro n hn
  refine .of_kept closed (fun k hk tag ht => ?_) (fun k hk key m hm => ?_) hn
  · rwa [(keeps.contents k hk).types]
  · rwa [member?, Entity.member?, (keeps.contents k hk).members]

end Store

namespace Namespace

variable (n : Namespace)

theorem container_of_owner? {owner : Handle} (h : n.owner? = some owner) : n.container = owner := by
  cases n with
  | entity k => exact Option.some.inj h
  | scope c => cases h

/-- All that binding a member can do: store it in every slot of the key, or refuse. -/
theorem setProperty_cases (key : Property) (value : Handle) (s : Store) :
    ((n.setProperty key value s).1 = true ∧
      (n.setProperty key value s).2.nodes = (s.write n.container (s.slots key) value).nodes) ∨
    ((n.setProperty key value s).1 = false ∧ (n.setProperty key value s).2.nodes = s.nodes) := by
  unfold setProperty
  split
  · rename_i c name
    unfold Scope.setProperty
    split
    · exact .inr ⟨rfl, Store.nodes_release value s⟩
    · exact Store.setProperty_cases c.locals (.identifier name) value s
  · exact Store.setProperty_cases n.container key value s

theorem keeps_setProperty (closed : s.Closed) (key : Property) {value : Handle} (hv : value ∈ s) :
    (n.setProperty key value s).2.Closed ∧ s.Keeps 0 (n.setProperty key value s).2 := by
  rcases n.setProperty_cases key value s with ⟨-, nodes⟩ | ⟨-, nodes⟩
  · refine ⟨(closed.write hv).of_nodes_eq nodes, .of_size_le ?_⟩
    rw [Store.size_eq nodes, Store.size_write]
  · exact ⟨closed.of_nodes_eq nodes, .of_nodes_eq nodes⟩

end Namespace

/-- The key lies in the store. -/
def Property.Fits (s : Store) : Property → Prop
  | .identifier _ => True
  | .value k => k ∈ s

theorem Property.Fits.mono {base : Nat} (fits : key.Fits s) (keeps : s.Keeps base t) :
    key.Fits t := by
  cases key with
  | identifier name => trivial
  | value k => exact keeps.mem fits

/-- The name under which a key stores, if it stores under a name. -/
def Property.name? : Property → Option String
  | .identifier name => some name
  | .value _ => none

namespace Entity

/-- What an owner makes of an entity: a function gets it as its context. -/
def owned (owner : Option Handle) (e : Entity) : Entity :=
  if e.kind = .function then { e with context := owner.or e.context } else e

/-- What a name makes of an entity: a map or list without a label is labelled. -/
def titled (name : Option String) (e : Entity) : Entity :=
  if e.isReferenceShaped && e.label.isEmpty then { e with label := name.getD e.label } else e

theorem context_titled (name : Option String) (e : Entity) :
    (e.titled name).context = e.context := by
  unfold titled
  split <;> rfl

theorem titled_none (e : Entity) : e.titled none = e := by
  unfold titled
  split <;> rfl

theorem titled_of_plain {name : Option String} (plain : ¬ e.isReferenceShaped = true) :
    e.titled name = e := if_neg (by simp [plain])


theorem owned_none (e : Entity) : e.owned none = e := by
  unfold owned
  split <;> rfl

theorem owned_of_ne (other : e.kind ≠ .function) (owner : Option Handle) : e.owned owner = e :=
  if_neg other

end Entity

namespace Store
variable {f g : Entity → Entity}

theorem modifyNode_congr (same : f (s.node h) = g (s.node h)) :
    s.modifyNode h f = s.modifyNode h g := by
  have nodes : s.nodes.modify h.index f = s.nodes.modify h.index g := by
    refine Array.ext (by simp) fun i hi _ => ?_
    rw [Array.size_modify] at hi
    rw [Array.getElem_modify, Array.getElem_modify]
    split
    · rename_i here
      subst here
      simpa [node, hi] using same
    · rfl
  simp [modifyNode, nodes]

theorem modifyNode_eq_self (same : f (s.node h) = s.node h) : s.modifyNode h f = s := by
  rw [modifyNode_congr (g := id) same]
  have nodes : s.nodes.modify h.index id = s.nodes := by
    refine Array.ext (by simp) fun i hi _ => ?_
    simp [Array.getElem_modify]
  simp [modifyNode, nodes]

theorem modifyNode_owned (function : (s.node h).kind = .function) (owner : Handle) :
    s.modifyNode h (Entity.owned (some owner)) = s.setContext h owner :=
  modifyNode_congr (if_pos function)

/-- A function gets the owner of a namespace as its context. -/
theorem own_cases (n : Namespace) (value : Handle) (s : Store) :
    s.modifyNode value (Entity.owned n.owner?) = s ∨
    ∃ owner, n.owner? = some owner ∧ (s.node value).kind = .function ∧
      s.modifyNode value (Entity.owned n.owner?) = s.setContext value owner := by
  by_cases function : (s.node value).kind = .function
  · cases owner : n.owner? with
    | none => exact .inl (modifyNode_eq_self (Entity.owned_none _))
    | some o => exact .inr ⟨o, rfl, function, modifyNode_owned function o⟩
  · exact .inl (modifyNode_eq_self (Entity.owned_of_ne function _))

end Store

namespace Infer
variable {base : Nat}

section Preparation
variable {value r k : Handle} {name : Option String} {line : UInt64} {bound : Nat}

/-- A map or list is stored as it is, with the name as its label if it has none. -/
theorem prepare_of_shaped (shaped : (s.node value).isReferenceShaped = true) :
    prepare value name line bound s = .ok (value, s.modifyNode value (Entity.titled name)) := by
  have read : node value bound s = .ok (s.node value, s) := rfl
  rw [prepare, bind_of_ok read, if_pos shaped]
  cases name with
  | none =>
    rw [Store.modifyNode_eq_self (Entity.titled_none _)]
    rfl
  | some label =>
    by_cases unlabelled : (s.node value).label.isEmpty
    · rw [Store.modifyNode_congr (g := ({ · with label }))
        (by simp [Entity.titled, shaped, unlabelled])]
      simp only [unlabelled, if_true]
      rfl
    · rw [Store.modifyNode_eq_self (by simp [Entity.titled, unlabelled])]
      simp only [unlabelled, Bool.false_eq_true, if_false]
      rfl

/-- Of any other value a copy is stored. -/
theorem prepare_of_plain (plain : ¬ (s.node value).isReferenceShaped = true) (name : Option String)
    (line : UInt64) :
    ∃ o, ∀ bound, prepare value name line bound s =
      .ok ((s.copy value o).1, (s.copy value o).2.release value) := by
  let kind := if name.isSome && (s.node value).kind != .function then some EntityKind.variable
    else none
  refine ⟨{ kind, label := name, line := some line }, fun bound => ?_⟩
  have read : node value bound s = .ok (s.node value, s) := rfl
  rw [prepare, bind_of_ok read, if_neg plain]
  rfl

theorem exists_prepare (value : Handle) (name : Option String) (line : UInt64) (s : Store) :
    ∃ r t, ∀ bound, prepare value name line bound s = .ok (r, t) := by
  by_cases shaped : (s.node value).isReferenceShaped = true
  · exact ⟨_, _, fun _ => prepare_of_shaped shaped⟩
  · obtain ⟨o, copied⟩ := prepare_of_plain shaped name line
    exact ⟨_, _, copied⟩

theorem node_prepare (h : prepare value name line bound s = .ok (r, t)) (hk : k ∈ s) :
    t.node k = if k = value then (s.node value).titled name else s.node k := by
  by_cases shaped : (s.node value).isReferenceShaped = true
  · rw [prepare_of_shaped shaped] at h
    cases h
    rw [Store.node_modifyNode value k _ s hk]
    split
    · rename_i here
      rw [here]
    · rfl
  · obtain ⟨o, copied⟩ := prepare_of_plain shaped name line
    rw [copied] at h
    cases h
    rw [Store.node_eq (Store.nodes_release value _), Store.copy, Store.node_alloc_lt _ s k hk,
      Entity.titled_of_plain shaped]
    split
    · rename_i here
      rw [here]
    · rfl

/-- What is stored has the types and the members of the value. -/
theorem contents_prepare (h : prepare value name line bound s = .ok (r, t)) (hv : value ∈ s) :
    (t.node r).types = (s.node value).types ∧ (t.node r).members = (s.node value).members ∧
      ((s.node value).isReferenceShaped = true → r = value) := by
  by_cases shaped : (s.node value).isReferenceShaped = true
  · rw [prepare_of_shaped shaped] at h
    cases h
    rw [Store.node_modifyNode value value _ s hv, if_pos rfl, Entity.titled]
    split <;> exact ⟨rfl, rfl, fun _ => rfl⟩
  · obtain ⟨o, copied⟩ := prepare_of_plain shaped name line
    rw [copied] at h
    cases h
    rw [Store.node_eq (Store.nodes_release value _), Store.copy, Store.node_alloc]
    exact ⟨rfl, rfl, fun shaped' => absurd shaped' shaped⟩

end Preparation

/-- What is bound: the value, prepared and merged with what its slots hold. -/
def offer (merge : Bool) (n : Namespace) (key : Property) (value : Handle) (line : UInt64) :
    Infer Handle := do
  modify (Store.modifyNode value (Entity.owned n.owner?))
  let bound ← prepare value key.name? line
  if merge then mergeStored n key bound else pure bound

theorem bind_eq_offer (merge : Bool) (n : Namespace) (key : Property) (value : Handle)
    (line : UInt64) :
    Infer.bind merge n key value line =
      offer merge n key value line >>= fun bound => modifyGet (n.setProperty key bound) := by
  funext bound s
  have read : node value bound s = .ok (s.node value, s) := rfl
  have own : (modify (Store.modifyNode value (Entity.owned n.owner?)) : Infer PUnit) bound s =
    .ok (⟨⟩, s.modifyNode value (Entity.owned n.owner?)) := rfl
  unfold Infer.bind offer
  rw [bind_of_ok read, bind_assoc, bind_of_ok own]
  by_cases function : (s.node value).kind = .function
  · cases owned : n.owner? with
    | none =>
      rw [Store.modifyNode_eq_self (Entity.owned_none _)]
      cases key <;> cases merge <;> simp [function, Property.name?]
    | some owner =>
      have set : (modify (Store.setContext value owner) : Infer PUnit) bound s =
        .ok (⟨⟩, s.setContext value owner) := rfl
      rw [Store.modifyNode_owned function]
      cases key <;> cases merge <;> simp [function, Property.name?, bind_of_ok set]
  · rw [Store.modifyNode_eq_self (Entity.owned_of_ne function _)]
    cases key <;> cases merge <;> simp [function, Property.name?]

/-- The value may be stored under the key: it covers what its slots hold. -/
def Offered (n : Namespace) (key : Property) (s : Store) (value : Handle) : Prop :=
  ∀ slot ∈ s.slots key, ∀ m, n.local? s slot = some m → s.Covers value s m

theorem mem_stored {value m : Handle} {slot : EntryKey} (hslot : slot ∈ s.slots key)
    (hm : n.local? s slot = some m) (ne : m ≠ value) : m ∈ stored s n key value := by
  rw [stored, List.mem_eraseDups, List.mem_filter, List.mem_filterMap]
  exact ⟨⟨slot, hslot, hm⟩, by simpa using ne⟩

theorem exists_of_mem_stored {value m : Handle} (hm : m ∈ stored s n key value) :
    ∃ slot, s.member? n.container slot = some m := by
  rw [stored, List.mem_eraseDups, List.mem_filter, List.mem_filterMap] at hm
  obtain ⟨⟨slot, -, hslot⟩, -⟩ := hm
  exact ⟨slot, hslot⟩

theorem mem_of_mem_stored (closed : s.Closed) {value m : Handle} (hm : m ∈ stored s n key value) :
    m ∈ s := by
  obtain ⟨slot, hslot⟩ := exists_of_mem_stored hm
  exact closed.member? hslot

/-- A union of a value with what its slots hold may be stored there. -/
theorem Unites.offered (closed : s.Closed) (hn : n.container ∈ s) (hk : key.Fits s)
    {value m : Handle} (unites : Unites s (Infer.stored s n key value ++ [value]) m t) :
    Offered n key t m := by
  intro slot hslot old hold
  have slots : t.slots key = s.slots key := Store.slots_congr fun k hkey => by
    subst hkey
    exact unites.store.kept k hk
  have hold' : n.local? s slot = some old := by
    rw [← hold, Namespace.local?, Namespace.local?, Store.member?, Store.member?,
      unites.store.kept n.container hn]
  have listed : old ∈ Infer.stored s n key value ++ [value] := by
    by_cases same : old = value
    · exact List.mem_append_right _ (List.mem_singleton.2 same)
    · exact List.mem_append_left _ (mem_stored (slots ▸ hslot) hold' same)
  exact (unites.covers old listed).trans (unites.store.covered closed (closed.member? hold'))

theorem Offered.of_nodes_eq {value : Handle} (offered : Offered n key s value)
    (nodes : t.nodes = s.nodes) : Offered n key t value := by
  intro slot hslot m hm
  rw [Store.slots_congr fun k _ => Store.node_eq nodes k] at hslot
  rw [Namespace.local?, Store.member?, Store.node_eq nodes] at hm
  exact ((Store.Covers.of_nodes_eq nodes value).trans (offered slot hslot m hm)).trans
    (.of_nodes_eq nodes.symm m)

theorem safe_mergeStored (ready : s.Ready base) (hn : n.container ∈ s) (hk : key.Fits s)
    {value : Handle} (hv : value ∈ s) :
    Safe base s (mergeStored n key value) fun t r => r ∈ t ∧ Offered n key t r := by
  refine .bind_get ?_
  cases old : stored s n key value with
  | nil =>
    refine .pure ready ⟨hv, fun slot hslot m hm => ?_⟩
    by_cases same : m = value
    · exact same ▸ .refl s m
    · have listed := mem_stored hslot hm same
      rw [old] at listed
      cases listed
  | cons first rest =>
    have inside : ∀ b ∈ stored s n key value ++ [value], b ∈ s := by
      intro b hb
      rcases List.mem_append.1 hb with hb | hb
      · exact mem_of_mem_stored ready.closed hb
      · exact List.mem_singleton.1 hb ▸ hv
    have united : ∀ {kind label}, Safe base s (union kind label (stored s n key value ++ [value]))
        fun t m => m ∈ t ∧ Offered n key t m := by
      intro kind label
      have safe := safe_union ready kind label inside
      refine ⟨safe.settles, fun bound m t h => ?_⟩
      obtain ⟨ready', keeps, stored, -⟩ := safe.runs bound m t h
      exact ⟨ready', keeps, stored, (unites_union ready.closed inside h).offered ready.closed hn hk⟩
    rw [old] at united
    refine united.bind fun t m ready' _ hm => ?_
    refine (safe_release ready' value).bind fun u _ done keeps nodes => ?_
    exact .pure done ⟨keeps.mem hm.1, hm.2.of_nodes_eq nodes⟩

theorem safe_own (ready : s.Ready base) (hn : n.container ∈ s) (value : Handle) :
    Safe base s (modify (Store.modifyNode value (Entity.owned n.owner?))) fun _ _ => True := by
  have step : ∀ bound,
      (modify (Store.modifyNode value (Entity.owned n.owner?)) : Infer PUnit) bound s =
    .ok (⟨⟩, s.modifyNode value (Entity.owned n.owner?)) := fun _ => rfl
  rcases s.own_cases n value with same | ⟨owner, owned, function, same⟩
  · rw [same] at step
    exact .of_step step ready (.refl base s) trivial
  · rw [same] at step
    have set := safe_setContext ready function (n.container_of_owner? owned ▸ hn)
    exact ⟨.of_total step, fun bound a t h => set.runs bound a t ((step bound).symm.trans h)⟩

theorem safe_offer (ready : s.Ready base) (merge : Bool) (hn : n.container ∈ s) (hk : key.Fits s)
    {value : Handle} (hv : value ∈ s) (line : UInt64) :
    Safe base s (offer merge n key value line) fun t r =>
      r ∈ t ∧ (merge = true → Offered n key t r) := by
  refine (safe_own ready hn value).bind fun t _ ready' keeps _ => ?_
  refine (safe_prepare ready' (keeps.mem hv) _ line).bind fun u bound ready'' keeps' hb => ?_
  cases merge with
  | false => exact .pure ready'' ⟨hb, fun h => by cases h⟩
  | true =>
    have key_fits : key.Fits u := (hk.mono keeps).mono keeps'
    have safe := safe_mergeStored ready'' (keeps'.mem (keeps.mem hn)) key_fits hb
    exact safe.weaken fun v r _ _ hr => ⟨hr.1, fun _ => hr.2⟩

/-- With merging, everything known is known after a value has been bound. -/
theorem remembers_bind {merge : Bool} (merges : merge = true) {value : Handle} {line : UInt64}
    {bound : Nat} {taken : Bool} (h : Infer.bind merge n key value line bound s = .ok (taken, t))
    (closed : s.Closed) (hn : n.container ∈ s) (hk : key.Fits s) (hv : value ∈ s) :
    t.Remembers s := by
  subst merges
  rw [bind_eq_offer] at h
  obtain ⟨stored, u, offered, h⟩ := bind_ok h
  obtain ⟨-, keeps, -, covers⟩ :=
    (safe_offer ⟨closed, Nat.le_refl _⟩ true hn hk hv line).runs _ _ _ offered
  have result : n.setProperty key stored u = (taken, t) := Except.ok.inj h
  have known := keeps.remembers closed
  rcases n.setProperty_cases key stored u with ⟨-, nodes⟩ | ⟨-, nodes⟩
  · rw [result] at nodes
    refine Store.Remembers.congr (fun k hk => ?_) nodes
    exact (Store.covers_write (covers rfl) k).trans (known k hk)
  · rw [result] at nodes
    exact known.congr nodes

end Infer

namespace Env
variable {env : Env}

open Infer

theorem Arrives.keeps {target : Expr} {table : FunctionTable} {bound : Nat} {hops : List Hop}
    {h : Handle} {u : Store} (arrives : env.Arrives target table bound s hops h u)
    (closed : s.Closed) (fits : env.Fits s) : s.Keeps s.size u ∧ u.Closed ∧ h ∈ u := by
  have ready : s.Ready s.size := ⟨closed, Nat.le_refl _⟩
  have safe := safe_walk ready fits target (hops.length - 1) hops
  obtain ⟨table', walked⟩ := arrives.walked
  obtain ⟨ready', keeps, inside⟩ := (safe table).runs _ _ _ walked
  exact ⟨keeps, ready'.closed, inside h rfl⟩

/-- With merging, whatever could be found along a path of members before a definition can be found
along it afterwards, whether the target took the value or not. -/
theorem define_preserves_paths {env : Env} (merges : env.options.mergeReassignments = true)
    {s t : Store} (closed : s.Closed) (fits : env.Fits s) {value : Handle} (hv : value ∈ s)
    {target : Expr} {table table' : FunctionTable} {bound : Nat} {taken : Bool}
    (defined : env.define target value table bound s = .ok ((taken, table'), t)) :
    ∀ n ∈ s, ∀ path e, s.follow n path = some e →
      ∃ e', t.follow n path = some e' ∧ ∀ tag ∈ (s.node e).types, tag ∈ (t.node e').types := by
  have remembers : t.Remembers s := by
    cases course_define defined with
    | unresolved _ | literal _ => exact (Store.Remembers.refl s).congr (Store.nodes_release value s)
    | name _ ran => exact remembers_bind merges ran closed fits.locals trivial hv
    | @transient hops h u access arrives _ _ =>
      have known := (arrives.keeps closed fits).1.remembers closed
      exact known.congr ((Store.nodes_release h _).trans (Store.nodes_release value u))
    | @member hops h u name _ v arrives _ ran =>
      obtain ⟨keeps, closed', inside⟩ := arrives.keeps closed fits
      have bound := remembers_bind merges ran closed' inside trivial (keeps.mem hv)
      exact (bound.trans keeps.size_le (keeps.remembers closed)).congr (Store.nodes_release h v)
    | @index hops h u e key v _ w arrives _ resolved ran =>
      obtain ⟨keeps, closed', inside⟩ := arrives.keeps closed fits
      obtain ⟨ready', keeps', hkey⟩ :=
        (safe_resolveType ⟨closed', Nat.le_refl _⟩ (fits.mono keeps) false e).runs _ _ _ resolved
      have bound := remembers_bind merges ran ready'.closed (keeps'.mem inside) hkey
        (keeps'.mem (keeps.mem hv))
      have known := (bound.trans keeps'.size_le (keeps'.remembers closed')).trans keeps.size_le
        (keeps.remembers closed)
      exact known.congr ((Store.nodes_release h _).trans (Store.nodes_release key w))
  exact remembers

end Env

/-- Globals that hold a map which is its own member `next`, and a list beside them. -/
def Rebound.store : Store where
  nodes := #[
    { Scope.newGlobals with members := .ofList [(.identifier "m", ⟨1⟩)] },
    { Entity.ofType .map Tag.map with
      label := "m", members := .ofList [(.identifier "next", ⟨1⟩)] },
    { Entity.ofType .list Tag.list with members := .ofList [(.type Tag.number, ⟨0⟩)] }]
  holders := #[3, 2, 1]

def Rebound.env : Env where
  scope := ⟨⟨⟨0⟩, none⟩, [], ⟨0⟩⟩
  registry := { catalog := {} }
  options := {}

/-- The target `m.next`. -/
def Rebound.target : Expr := .member (.identifier "m" default) "next" default

theorem Env.define_preserves_paths_loop :
    ∃ t, Rebound.env.define Rebound.target ⟨2⟩ ∅ 9 Rebound.store = .ok ((true, ∅), t) ∧
      ∀ n ∈ Rebound.store, ∀ path e, Rebound.store.follow n path = some e →
        ∃ e', t.follow n path = some e' ∧
          ∀ tag ∈ (Rebound.store.node e).types, tag ∈ (t.node e').types := by
  obtain ⟨t, defined⟩ : ∃ t, Rebound.env.define Rebound.target ⟨2⟩ ∅ 9 Rebound.store =
      .ok ((true, ∅), t) := ⟨_, rfl⟩
  refine ⟨t, defined, Env.define_preserves_paths rfl (by decide) ?_ (by decide) defined⟩
  unfold Env.Fits Scope.Fits
  decide

end ScriptInference
