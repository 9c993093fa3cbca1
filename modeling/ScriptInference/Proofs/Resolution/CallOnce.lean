import ScriptInference.Proofs.Resolution.Visibility

/-!
# Reading calls once

An access that ends in a name calls what it finds, and so does a call that is written out. The
resolver looks one hop ahead: in front of a call it reads the name without calling it, and leaves
the call to the next hop. Both ways ask the same namespace for the name, in the same state, namely
the scope or what the expression before the last hop leads to. Whenever one entity answers for the
name, both end with what one call of it returns, or with its contents if it cannot be called.
-/

namespace ScriptInference

variable {rest tail front : List Hop} {hop first : Hop} {e : Expr} {o : Option Handle} {s : Store}
  {bound : Nat} {access : Access}

namespace Store
variable {t : Store} {m d : Handle} {name : String}

/-- What reading a name gives: of a stored entity its contents or what it returns, and otherwise an
entity of which nothing is known. -/
def answer (s : Store) (name : String) (suppress : Bool) : Option Handle → Entity
  | some m => s.reading m suppress
  | none => .anyNamed name

/-- A reading depends on the contents of the entity and of its result. -/
theorem reading_congr (same : t.node d = s.node m)
    (result : ∀ k, (s.node m).result = some k → t.node k = s.node k) (suppress : Bool) :
    t.reading d suppress = s.reading m suppress := by
  have returned : t.returned d = s.returned m := by
    unfold returned
    rw [same]
    split
    · rename_i k found
      rw [result k found]
    · rfl
  rw [reading, reading, same, returned]

/-- Calling what was read without a call gives what reading with a call gives. -/
theorem reading_of_answer (kept : s.PreservedIn t) (closed : s.Closed)
    (read : t.node d = s.answer name true o) : t.reading d false = s.answer name false o := by
  cases o with
  | some m =>
    refine reading_congr read (fun k result => kept.node k ?_) false
    exact closed.links m (Entity.mem_links_iff.2 (.inr (.inl result)))
  | none =>
    have unknown : t.node d = .anyNamed name := read
    have plain : (Entity.anyNamed name).isCallable = false := rfl
    rw [reading, unknown, plain]
    rfl

end Store

/-- A name that is bound is read as its binding. -/
theorem Infer.resolveName_of_bound (r : TypeRegistry) {c : Scope} {name : String} {m : Handle}
    (free : Scope.isReserved name = false) (found : c.find? s name = some m) (suppress : Bool)
    (bound : Nat) :
    resolveName r c name suppress bound s = readMember m suppress bound (s.retain m) := by
  have looked := lookupName_eq c name bound s
  rw [found] at looked
  rw [resolveName, bind_of_ok (resolveReserved_of_free free bound s)]
  simp only []
  rw [bind_of_ok looked]
  rfl

namespace Namespace
variable {r : TypeRegistry} {t : Store} {name : String} {n : Namespace}

/-- What answers for a name that is asked of a namespace: one stored entity, or nothing. -/
inductive Answers (r : TypeRegistry) (s : Store) (name : String) : Namespace → Option Handle →
    Prop where
  | binding {c : Scope} {m : Handle} (found : c.find? s name = some m) :
      Answers r s name (.scope c) (some m)
  | general {c : Scope} {m : Handle} (missing : c.find? s name = none) (found : r.general? s name =
      some m) : Answers r s name (.scope c) (some m)
  | unbound {c : Scope} (missing : c.find? s name = none) (unknown : r.general? s name = none) :
      Answers r s name (.scope c) none
  | member {h m : Handle} (found : s.findName? h name = some m) :
      Answers r s name (.entity h) (some m)
  | definition {h m : Handle} (missing : s.findName? h name = none)
      (decided : Infer.Settles (r.candidates (s.node h).types) (r.found s (s.node h).types name)
        (r.general? s name) m) : Answers r s name (.entity h) (some m)
  | undefined {h : Handle} (missing : s.findName? h name = none)
      (unmatched : r.found s (s.node h).types name = []) : Answers r s name (.entity h) none

/-- Several types define the name and none takes precedence, so that the answer is a union. -/
def Divides (r : TypeRegistry) (s : Store) (name : String) : Namespace → Prop
  | .scope _ => False
  | .entity h => s.findName? h name = none ∧
      Infer.Divided (r.candidates (s.node h).types) (r.found s (s.node h).types name)
        (r.general? s name)

theorem answers_or_divides (r : TypeRegistry) (s : Store) (name : String) (n : Namespace) :
    (∃ o, n.Answers r s name o) ∨ n.Divides r s name := by
  cases n with
  | scope c =>
    refine .inl ?_
    cases found : c.find? s name with
    | some m => exact ⟨_, .binding found⟩
    | none =>
      cases general : r.general? s name with
      | some m => exact ⟨_, .general found general⟩
      | none => exact ⟨_, .unbound found general⟩
  | entity h =>
    cases found : s.findName? h name with
    | some m => exact .inl ⟨_, .member found⟩
    | none =>
      obtain unmatched | ⟨m, decided⟩ | divided :=
        Infer.settles_cases (r.candidates (s.node h).types)
        (r.found s (s.node h).types name) (r.general? s name)
      · exact .inl ⟨_, .undefined found unmatched⟩
      · exact .inl ⟨_, .definition found decided⟩
      · exact .inr ⟨found, divided⟩

/-- A read that is answered ends with the answer. -/
theorem Answers.read (answers : n.Answers r s name o) (sound : s.Sound)
    (alive : ∀ h ∈ r.holds, s.live h) (free : ∀ c, n = .scope c → Scope.isReserved name = false)
    (suppress : Bool) :
    ∃ d t, (∀ bound, n.resolveProperty r (.identifier name) suppress bound s = .ok (d, t)) ∧
      t.node d = s.answer name suppress o := by
  cases answers with
  | @binding c m found =>
    obtain ⟨d, t, read, -, contents⟩ := Infer.readMember_reads m suppress (s.retain m)
    refine ⟨d, t, fun bound => ?_, contents⟩
    exact (Infer.resolveName_of_bound r (free c rfl) found suppress bound).trans (read bound)
  | @general c m missing found =>
    obtain ⟨d, t, made, -, contents⟩ := Infer.makes_generalDefinition found suppress
    exact ⟨d, t,
      fun bound => Infer.resolveName_of_general (free c rfl) missing (made bound), contents⟩
  | @unbound c missing unknown =>
    exact ⟨_, _, Infer.resolveName_of_unknown (free c rfl) missing unknown suppress,
      Store.node_alloc _ s⟩
  | @member h m found =>
    obtain ⟨d, t, read, -, contents⟩ := Infer.readMember_reads m suppress (s.retain m)
    refine ⟨d, t, fun bound => ?_, contents⟩
    change Infer.resolveProperty r h (.identifier name) suppress bound s = _
    rw [Infer.resolveProperty, Infer.bind_of_ok (Infer.resolveMember_of_read found (read bound))]
    rfl
  | definition missing decided =>
    obtain ⟨d, t, made, -, contents⟩ := Infer.makes_definition sound alive decided suppress
    exact ⟨d, t, fun bound => Infer.resolveProperty_of_definition missing (made bound), contents⟩
  | undefined missing unmatched =>
    exact ⟨_, _, Infer.resolveProperty_of_no_match missing unmatched suppress, Store.node_alloc _ s⟩

/-- The entities that a namespace gives access to are alive. -/
def Alive (s : Store) : Namespace → Prop
  | .scope c => ∀ h ∈ c.holds, s.live h
  | .entity h => s.live h

/-- Reading a name changes nothing that was stored. -/
theorem preservedIn_resolveProperty (sound : s.Sound) (registered : ∀ h ∈ r.holds, s.live h)
    (alive : n.Alive s) {suppress : Bool} {d : Handle}
    (ran : n.resolveProperty r (.identifier name) suppress bound s = .ok (d, t)) :
    s.PreservedIn t := by
  have l := Store.Ledger.start sound True
  have known : r.Known (.ledger s True) 0 := fun h hh =>
    (Discipline.Anchored.of_live (registered h hh)).known
  have booked : s.Ledger True (d ::ₘ 0) t := by
    cases n with
    | scope c =>
      have anchored : c.Anchored (.ledger s True) 0 := fun h hh => .of_live (alive h hh)
      exact ((Infer.balanced_resolveName known anchored l name suppress).runs bound d t ran).1
    | entity h =>
      exact ((Infer.balanced_resolveProperty known l alive _ suppress).runs bound d t ran).1
  exact booked.preservedIn

end Namespace

theorem Resolve.bind_of_error {α β : Type} {x : Resolve α} {table : FunctionTable} {t : Store}
    (stopped : x table bound s = .error t) (f : α → Resolve β) :
    (x >>= f) table bound s = .error t :=
  Infer.bind_of_error stopped fun p => f p.1 p.2

namespace Env
variable {env : Env} {table table' : FunctionTable} {t u : Store}

open Infer

/-! ## Chains one hop longer -/

/-- The entity that a chain starts from. -/
def start (env : Env) (root : Resolve Handle) (first : Hop) (suppress : Bool) : Resolve Handle :=
  match first.access with
  | .name name => Infer.resolveName env.registry env.scope name suppress
  | _ => root

theorem resolveAccess_eq (chain : env.chain? e = some (first :: rest)) (root : Resolve Handle) :
    env.resolveAccess false root e =
      env.start root first (suppresses first rest) >>=
        fun h => liftM (env.resolveHops rest.length h rest) := by
  obtain ⟨_, _, split, begins, -⟩ := chain?_eq_some chain
  cases split
  rw [resolveAccess, resolveChain, chain, start]
  simp only [walk]
  cases access : first.access with
  | name name | value e => simp [bind_assoc]
  | _ =>
    rw [access] at begins
    cases begins

/-- Hops that are no call leave the hops before them as they are. -/
theorem suppresses_append (quiet : ∀ next ∈ tail.head?, next.access.isCall = false) (hop : Hop)
    (rest : List Hop) : suppresses hop (rest ++ tail) = suppresses hop rest := by
  cases rest with
  | nil =>
    cases tail with
    | nil => rfl
    | cons next _ => simp [suppresses, quiet next rfl]
  | cons next _ => rfl

theorem resolveHops_append (quiet : ∀ next ∈ tail.head?, next.access.isCall = false) (count : Nat)
    (current : Handle) (rest : List Hop) :
    env.resolveHops (rest.length + count) current (rest ++ tail) =
      env.resolveHops rest.length current rest >>= fun h => env.resolveHops count h tail := by
  induction rest generalizing current with
  | nil => simp [resolveHops]
  | cons hop rest ih =>
    have length : (hop :: rest).length + count = rest.length + count + 1 := by simp; omega
    rw [length, List.cons_append, List.length_cons]
    simp only [resolveHops, suppresses_append quiet, ih, bind_assoc]

theorem resolve_eq_of_chain? (chain : env.chain? e = some (first :: rest)) :
    env.resolve e =
      env.start (env.rootValue e) first (suppresses first rest) >>= fun h =>
        liftM (env.resolveHops rest.length h rest) := by
  have hops := accessChain_of_chain? chain
  -- a value that is no access is a chain of its own, and nothing follows its root
  have alone : env.resolve e = env.rootValue e → e.accessChain = some [⟨.value e, false⟩] →
      env.resolve e = env.start (env.rootValue e) first (suppresses first rest) >>= fun h =>
        liftM (env.resolveHops rest.length h rest) := by
    intro resolved single
    rw [hops] at single
    cases single
    rw [resolved]
    simp [start, resolveHops]
  cases e with
  | unary op a sp =>
    cases op with
    | reference => rw [resolve, rootValue, resolveAccess_eq chain]
    | _ => cases hops
  | member b _ _ | index b _ _ | slice b _ _ _ | call b _ _ =>
    rw [resolve, rootValue, resolveAccess_eq chain]
  | identifier name sp =>
    have root : env.rootValue (.identifier name sp) =
        liftM (env.resolveType false (.identifier name sp)) := by
      rw [rootValue]
      all_goals simp
    rw [resolve, root, resolveAccess_eq chain]
  | map _ _ | list _ _ => exact alone (by rw [resolve, rootValue]) rfl
  | nil _ | string _ _ | number _ _ | boolean _ _ =>
    refine alone ?_ rfl
    rw [resolve, rootValue]
    all_goals simp
  | binary _ _ _ _ | function _ _ | unknown _ _ => cases hops

/-- What follows a chain is resolved from where the chain leads. -/
theorem resolve_append {b : Expr} (base : b.accessChain = some front)
    (chain : env.chain? e = some (front ++ tail)) (root : env.rootValue e = env.rootValue b)
    (quiet : ∀ next ∈ tail.head?, next.access.isCall = false) :
    env.resolve e = env.resolve b >>= fun h => liftM (env.resolveHops tail.length h tail) := by
  have short := of_decide_eq_true (Option.filter_eq_some_iff.1 chain).2
  rw [List.length_append] at short
  have chain' : env.chain? b = some front :=
    Option.filter_eq_some_iff.2 ⟨base, decide_eq_true (Nat.le_of_add_right_le short)⟩
  obtain ⟨first, rest, rfl, -, -⟩ := chain?_eq_some chain'
  rw [List.cons_append] at chain
  rw [resolve_eq_of_chain? chain, resolve_eq_of_chain? chain', root, suppresses_append quiet,
    List.length_append]
  simp only [resolveHops_append quiet, bind_assoc, liftM_bind]

end Env

namespace Expr
variable {name : String} {b : Expr}

/-- The expression reads a name of what `b` leads to. -/
inductive ReadsOf (name : String) : Expr → Expr → Prop where
  | member {b : Expr} {span : Span} : ReadsOf name (.member b name span) b
  | index {b key : Expr} {span : Span} (literal : key.stringLiteral? = some name) :
      ReadsOf name (.index b key span) b

theorem ReadsOf.hopsOnto_eq (reads : e.ReadsOf name b) (acc : List Hop) :
    e.hopsOnto false acc = b.hopsOnto false (⟨.member name, false⟩ :: acc) := by
  cases reads with
  | member => rfl
  | index literal => rw [hopsOnto, indexAccess, literal]

theorem ReadsOf.accessChain_eq (reads : e.ReadsOf name b) :
    e.accessChain = b.accessChain.map (· ++ [⟨.member name, false⟩]) := by
  rw [accessChain, reads.hopsOnto_eq, ← List.nil_append [_], hopsOnto_append]
  rfl

theorem ReadsOf.rootValue_eq (reads : e.ReadsOf name b) (env : Env) :
    env.rootValue e = env.rootValue b := by
  cases reads <;> rw [Env.rootValue]

theorem access_of_hopsOnto (chain : b.hopsOnto false [hop] = some (front ++ [⟨access, false⟩])) :
    hop.access = access := by
  have split := hopsOnto_append b false [] [hop]
  rw [List.nil_append, chain] at split
  obtain ⟨hops, -, whole⟩ := Option.map_eq_some_iff.1 split.symm
  rw [List.singleton_inj.1 (List.append_inj_right' whole rfl)]

/-- An access whose last hop is an unmarked member reads it, and one whose last hop is an unmarked
name is that name. -/
theorem reads_of_accessChain (chain : e.accessChain = some (front ++ [⟨access, false⟩])) :
    (∀ name, access = .member name → ∃ b, e.ReadsOf name b) ∧
      ∀ name, access = .name name → ∃ span, e = .identifier name span := by
  have single : ∀ {hop : Hop}, some [hop] = some (front ++ [⟨access, false⟩]) →
      hop.access = access := by
    intro hop h
    have whole : [] ++ [hop] = front ++ [⟨access, false⟩] := Option.some.inj h
    rw [List.singleton_inj.1 (List.append_inj_right' whole rfl)]
  cases e with
  | identifier n sp =>
    obtain rfl := single chain
    exact ⟨by simp, fun name same => ⟨sp, by cases same; rfl⟩⟩
  | member b n sp =>
    obtain rfl := access_of_hopsOnto chain
    exact ⟨fun name same => ⟨b, by cases same; exact .member⟩, by simp⟩
  | index b key sp =>
    obtain rfl := access_of_hopsOnto chain
    unfold indexAccess
    cases literal : key.stringLiteral? with
    | some n => exact ⟨fun name same => ⟨b, by cases same; exact .index literal⟩, by simp⟩
    | none => exact ⟨by simp, by simp⟩
  | slice b l r sp | call b as sp =>
    obtain rfl := access_of_hopsOnto chain
    exact ⟨by simp, by simp⟩
  | unary op a sp =>
    cases op with
    | reference =>
      -- the mark belongs to the last hop
      obtain ⟨front', access', _, -, marked⟩ := hopsOnto_marked chain
      have same : front ++ [⟨access, false⟩] = front' ++ [⟨access', true⟩] :=
        Option.some.inj (chain.symm.trans marked)
      cases List.singleton_inj.1 (List.append_inj_right' same rfl)
    | _ => cases chain
  | binary _ _ _ _ | function _ _ | unknown _ _ => cases chain
  | _ =>
    obtain rfl := single chain
    exact ⟨by simp, by simp⟩

end Expr

namespace Env
variable {env : Env} {table table' : FunctionTable} {t u : Store} {name : String} {n : Namespace}

open Infer

/-! ## The last hop -/

/-- To read its last hop, an access asks the namespace for the name, in the state that the second
store is in: a lone name asks the scope, and any other access asks what comes before the last
hop. -/
inductive Asks (env : Env) (table : FunctionTable) (bound : Nat) (s : Store) (name : String) :
    Expr → Namespace → FunctionTable → Store → Prop where
  | name {span : Span} (free : Scope.isReserved name = false) :
      Asks env table bound s name (.identifier name span) (.scope env.scope) table s
  | member {e b : Expr} {h : Handle} {table' : FunctionTable} {u : Store} (reads : e.ReadsOf name b)
      (base : env.resolve b table bound s = .ok ((h, table'), u)) :
      Asks env table bound s name e (.entity h) table' u

theorem resolveHops_cons {current next : Handle}
    (ran : env.resolveHop current hop (suppresses hop rest) bound s = .ok (next, t)) (count : Nat) :
    env.resolveHops (count + 1) current (hop :: rest) bound s =
      env.resolveHops count next rest bound (t.release current) := by
  rw [resolveHops, Infer.bind_of_ok ran]
  rfl

/-- Calling an entity gives what reading it with a call gives. -/
theorem resolveHops_call (env : Env) (d : Handle) (arguments : List Expr) (bound : Nat)
    (t : Store) :
    ∃ d' v, env.resolveHops 1 d [⟨.call arguments, false⟩] bound t = .ok (d', v) ∧
      v.node d' = t.reading d false := by
  have read : node d bound t = .ok (t.node d, t) := rfl
  obtain ⟨d', v, called, contents⟩ : ∃ d' v,
      env.resolveHop d ⟨.call arguments, false⟩ false bound t = .ok (d', v) ∧
      v.node d' = t.reading d false := by
    rw [resolveHop]
    simp only []
    rw [Infer.bind_of_ok read, Store.reading]
    cases callable : (t.node d).isCallable with
    | true => exact ⟨_, _, invoke_eq d bound t, Store.node_alloc _ t⟩
    | false => exact ⟨d, t.retain d, rfl, rfl⟩
  refine ⟨d', v.release d, ?_, (Store.node_eq (Store.nodes_release d v) d').trans contents⟩
  rw [resolveHops_cons called]
  rfl

variable {hops : List Hop} {d : Handle}

theorem chain?_of_short (chain : e.accessChain = some hops)
    (short : hops.length < env.options.maxChainLength) (arguments : List Expr) (span : Span) :
    env.chain? e = some hops ∧
      env.chain? (.call e arguments span) = some (hops ++ [⟨.call arguments, false⟩]) := by
  have called : (Expr.call e arguments span).accessChain =
      some (hops ++ [⟨.call arguments, false⟩]) := by
    rw [Expr.accessChain, Expr.hopsOnto, ← List.nil_append [_], Expr.hopsOnto_append,
      ← Expr.accessChain, chain]
    rfl
  refine ⟨Option.filter_eq_some_iff.2 ⟨chain, decide_eq_true short.le⟩,
    Option.filter_eq_some_iff.2 ⟨called, decide_eq_true ?_⟩⟩
  simpa using short

/-- An access that reads a name and a call of it both go on from what comes before the name. -/
theorem resolve_of_reads {b : Expr} (reads : e.ReadsOf name b) (chain : e.accessChain = some hops)
    (short : hops.length < env.options.maxChainLength) (arguments : List Expr) (span : Span) :
    env.resolve e =
      (env.resolve b >>= fun h => liftM (env.resolveHops 1 h [⟨.member name, false⟩])) ∧
      env.resolve (.call e arguments span) = (env.resolve b >>= fun h =>
        liftM (env.resolveHops 2 h [⟨.member name, false⟩, ⟨.call arguments, false⟩])) := by
  obtain ⟨chain', called⟩ := chain?_of_short chain short arguments span
  rw [reads.accessChain_eq] at chain
  obtain ⟨front, found, rfl⟩ := Option.map_eq_some_iff.1 chain
  have root : env.rootValue (.call e arguments span) = env.rootValue b := by
    rw [rootValue, reads.rootValue_eq env]
  rw [List.append_assoc] at called
  exact ⟨resolve_append found chain' (reads.rootValue_eq env) (by simp [Access.isCall]),
    resolve_append found called root (by simp [Access.isCall])⟩

theorem Asks.resolve_eq (asks : env.Asks table bound s name e n table' u)
    (chain : e.accessChain = some hops) (short : hops.length < env.options.maxChainLength)
    (ran : n.resolveProperty env.registry (.identifier name) false bound u = .ok (d, t)) :
    ∃ v, env.resolve e table bound s = .ok ((d, table'), v) ∧ v.nodes = t.nodes := by
  cases asks with
  | name free =>
    cases chain
    refine ⟨t, ?_, rfl⟩
    rw [resolve_eq_of_chain? (chain?_of_short rfl short [] default).1]
    exact Resolve.bind_of_ok (Resolve.lift_of_ok ran table) _
  | @member _ b h _ _ reads base =>
    have hop : env.resolveHop h ⟨.member name,
        false⟩ (suppresses ⟨.member name, false⟩ []) bound u = .ok (d, t) := ran
    have last : env.resolveHops 1 h [⟨.member name, false⟩] bound u = .ok (d, t.release h) :=
      resolveHops_cons hop 0
    refine ⟨t.release h, ?_, Store.nodes_release h t⟩
    rw [(resolve_of_reads reads chain short [] default).1, Resolve.bind_of_ok base]
    exact Resolve.lift_of_ok last table'

theorem Asks.resolve_call (asks : env.Asks table bound s name e n table' u)
    (chain : e.accessChain = some hops) (short : hops.length < env.options.maxChainLength)
    (arguments : List Expr) (span : Span)
    (ran : n.resolveProperty env.registry (.identifier name) true bound u = .ok (d, t)) :
    ∃ d' v, env.resolve (.call e arguments span) table bound s = .ok ((d', table'), v) ∧
      v.node d' = t.reading d false := by
  cases asks with
  | name free =>
    cases chain
    obtain ⟨d', v, called, contents⟩ := env.resolveHops_call d arguments bound t
    refine ⟨d', v, ?_, contents⟩
    rw [resolve_eq_of_chain? (chain?_of_short rfl short arguments span).2]
    exact (Resolve.bind_of_ok (Resolve.lift_of_ok ran table) _).trans
      (Resolve.lift_of_ok called table)
  | @member _ b h _ _ reads base =>
    obtain ⟨d', v, called, contents⟩ := env.resolveHops_call d arguments bound (t.release h)
    have hop : env.resolveHop h ⟨.member name, false⟩
        (suppresses ⟨.member name, false⟩ [⟨.call arguments, false⟩]) bound u = .ok (d, t) := ran
    have last : env.resolveHops 2 h [⟨.member name, false⟩, ⟨.call arguments, false⟩] bound u =
        .ok (d', v) :=
      (resolveHops_cons hop 1).trans called
    have same : (t.release h).reading d false = t.reading d false :=
      Store.reading_congr (Store.node_eq (Store.nodes_release h t) d)
        (fun k _ => Store.node_eq (Store.nodes_release h t) k) false
    refine ⟨d', v, ?_, contents.trans same⟩
    rw [(resolve_of_reads reads chain short arguments span).2, Resolve.bind_of_ok base]
    exact Resolve.lift_of_ok last table'

variable {g : Store} {own : Multiset Handle}

/-- Whatever is asked is alive, and so are the types that may define it. -/
theorem Asks.alive (asks : env.Asks table bound s name e n table' u)
    (anchored : env.Anchored (.ledger g False) own)
    (ledger : g.Ledger False (own + ↑table.values) s) :
    u.Sound ∧ (∀ h ∈ env.registry.holds, u.live h) ∧ n.Alive u := by
  cases asks with
  | name free =>
    have anchored' := anchored.mono (Multiset.le_add_right own ↑table.values)
    exact ⟨ledger.sound, fun h hh => (anchored'.registry h hh).isOpen ledger,
      fun h hh => (anchored'.scope h hh).live ledger⟩
  | @member _ b h _ _ reads base =>
    have ledger' : g.Ledger False (h ::ₘ own + ↑table'.values) u :=
      ((balanced_resolve env b anchored False.elim table s ledger).runs bound _ _ base).1
    have anchored' := (anchored.cons h).mono (Multiset.le_add_right _ ↑table'.values)
    refine ⟨ledger'.sound,
      fun k hk => (anchored'.registry k hk).isOpen ledger', ledger'.live_of_mem ?_⟩
    exact Multiset.mem_add.2 (.inl (Multiset.mem_cons_self h own))

theorem Asks.free (asks : env.Asks table bound s name e n table' u) (c : Scope)
    (scope : n = .scope c) : Scope.isReserved name = false := by
  cases asks with
  | name free => exact free
  | member => cases scope

/-- Where the name that is asked for has one answer, it is called once on both ways. -/
theorem Asks.calls_once (asks : env.Asks table bound s name e n table' u)
    (anchored : env.Anchored (.ledger g False) own)
    (ledger : g.Ledger False (own + ↑table.values) s) (chain : e.accessChain = some hops)
    (short : hops.length < env.options.maxChainLength) (arguments : List Expr) (span : Span)
    (answers : n.Answers env.registry u name o) :
    ∃ d t d' t', env.resolve e table bound s = .ok ((d, table'), t) ∧
      env.resolve (.call e arguments span) table bound s = .ok ((d', table'), t') ∧
      t.node d = u.answer name false o ∧ t'.node d' = u.answer name false o := by
  obtain ⟨sound, registered, alive⟩ := asks.alive anchored ledger
  obtain ⟨d, t, read, contents⟩ := answers.read sound registered asks.free false
  obtain ⟨k, w, quiet, contents'⟩ := answers.read sound registered asks.free true
  obtain ⟨v, resolved, nodes⟩ := asks.resolve_eq chain short (read bound)
  obtain ⟨d', v', called, once⟩ := asks.resolve_call chain short arguments span (quiet bound)
  have kept := Namespace.preservedIn_resolveProperty sound registered alive (quiet bound)
  refine ⟨d, v, d', v', resolved, called, (Store.node_eq nodes d).trans contents, once.trans ?_⟩
  exact Store.reading_of_answer kept sound.closed contents'

/-- An access that ends in an unmarked name and a call of it stop alike, or both ask for the name in
one state. There the name has one answer, or several types define it with equal right. With one
answer both end with the same contents: what calling the answer once returns, if it can be called,
and else the answer itself. -/
theorem resolve_calls_once (anchored : env.Anchored (.ledger g False) own)
    (ledger : g.Ledger False (own + ↑table.values) s) {front : List Hop} {access : Access}
    (chain : e.accessChain = some (front ++ [⟨access, false⟩]))
    (short : front.length + 1 < env.options.maxChainLength)
    (last : access = .member name ∨ access = .name name ∧ Scope.isReserved name = false)
    (arguments : List Expr) (span : Span) (bound : Nat) :
    (∃ w, env.resolve e table bound s = .error w ∧
      env.resolve (.call e arguments span) table bound s = .error w) ∨
      ∃ n table' u, env.Asks table bound s name e n table' u ∧
        ((∃ o, n.Answers env.registry u name o) ∨ n.Divides env.registry u name) ∧
        ∀ o, n.Answers env.registry u name o → ∃ d t d' t',
          env.resolve e table bound s = .ok ((d, table'), t) ∧
          env.resolve (.call e arguments span) table bound s = .ok ((d', table'), t') ∧
          t.node d = u.answer name false o ∧ t'.node d' = u.answer name false o := by
  have short' : (front ++ [⟨access, false⟩] : List Hop).length < env.options.maxChainLength := by
    simpa using short
  obtain ⟨member, lone⟩ := Expr.reads_of_accessChain chain
  rcases last with last | ⟨last, free⟩
  · obtain ⟨b, reads⟩ := member name last
    cases base : env.resolve b table bound s with
    | error w =>
      obtain ⟨access_eq, call_eq⟩ := resolve_of_reads reads chain short' arguments span
      rw [access_eq, call_eq]
      exact .inl ⟨w, Resolve.bind_of_error base _, Resolve.bind_of_error base _⟩
    | ok result =>
      obtain ⟨⟨h, table'⟩, u⟩ := result
      have asks : env.Asks table bound s name e (.entity h) table' u := .member reads base
      refine .inr ⟨_, _, _, asks, Namespace.answers_or_divides .., fun o answers => ?_⟩
      exact asks.calls_once anchored ledger chain short' arguments span answers
  · obtain ⟨sp, rfl⟩ := lone name last
    have asks : env.Asks table bound s name (.identifier name sp) (.scope env.scope) table s :=
      .name free
    refine .inr ⟨_, _, _, asks, Namespace.answers_or_divides .., fun o answers => ?_⟩
    exact asks.calls_once anchored ledger chain short' arguments span answers

/-- The globals have a map `a`, and its member `f` is a function that returns a function. -/
def factory : Store where
  nodes := #[
    { kind := .map, types := .ofList [Tag.map], members := .ofList [(.identifier "a", ⟨1⟩)] },
    { kind := .map, types := .ofList [Tag.map], members := .ofList [(.identifier "f", ⟨2⟩)] },
    { kind := .function, types := .ofList [Tag.function],
      signatures := .ofList [.function [] [Tag.number]]
      result := some ⟨3⟩ },
    { kind := .function, types := .ofList [Tag.function],
      signatures := .ofList [.function [] [Tag.number]] }]
  holders := #[2, 1, 1, 1]

def factoryEnv : Env := ⟨⟨⟨⟨0⟩, none⟩, [], ⟨0⟩⟩, { catalog := .empty }, {}⟩

/-- The member `f` of `a`. -/
def factoryAccess : Expr := .member (.identifier "a" default) "f" default

theorem resolve_calls_once_factory :
    ∃ d t d' t' table', factoryEnv.resolve factoryAccess ∅ 0 factory = .ok ((d, table'), t) ∧
      factoryEnv.resolve (.call factoryAccess [] default) ∅ 0 factory = .ok ((d', table'), t') ∧
      (t.node d).types = .ofList [Tag.function] ∧ (t'.node d').types = .ofList [Tag.function] := by
  have anchored : factoryEnv.Anchored (.ledger factory False) 0 :=
    ⟨fun h hh => .of_live ((by decide : ∀ h ∈ factoryEnv.scope.holds, factory.live h) h hh),
      fun h hh => (Discipline.Anchored.of_live
        ((by decide : ∀ h ∈ factoryEnv.registry.holds, factory.live h) h hh)).known⟩
  have ledger : factory.Ledger False (0 + ↑(∅ : FunctionTable).values) factory := by
    rw [zero_add]
    exact .start (by decide) False
  have chain : factoryAccess.accessChain =
      some ([⟨.name "a", false⟩] ++ [⟨.member "f", false⟩]) := rfl
  have ends : (factoryEnv.resolve factoryAccess ∅ 0 factory).toOption.isSome = true := by
    decide +kernel
  have base : (factoryEnv.resolve (.identifier "a" default) ∅ 0 factory).toOption.map (fun r =>
      (r.2.findName? r.1.1 "f", (r.2.answer "f" false (some ⟨2⟩)).types)) =
      some (some ⟨2⟩, .ofList [Tag.function]) := by decide +kernel
  obtain ⟨w, stopped, -⟩ | ⟨n, table', u, asks, -, once⟩ :=
    resolve_calls_once anchored ledger chain (by decide) (.inl rfl) [] default 0
  · rw [stopped] at ends
    cases ends
  · cases asks with
    | member reads resolved =>
      cases reads
      rw [resolved] at base
      obtain ⟨found, types⟩ := Prod.mk.inj (Option.some.inj base)
      obtain ⟨d, t, d', t', access, call, contents, contents'⟩ := once (some ⟨2⟩) (.member found)
      exact ⟨d, t, d', t', table', access, call, (congrArg Entity.types contents).trans types,
        (congrArg Entity.types contents').trans types⟩

end Env

end ScriptInference
