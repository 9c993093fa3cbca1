import ScriptInference.Proofs.Resolution.Effects
import ScriptInference.Proofs.Resolution.Positions

/-!
# When a target is refused

Whether a namespace takes a value depends on the namespace and on the key alone. In a store in which
what was made has a type, every key that is resolved has one, so only the shape of the container
counts, and for a lone name whether it is reserved. A target is therefore refused for one of six
reasons, and for no other.

A refused value is given up. This takes no further steps than resolving the prefix of the target and
its last index, except that with merging a value may be merged with what a scope holds under a
reserved name.
-/

namespace ScriptInference

theorem Entity.Alike.isMapShaped {e f : Entity} (h : e.Alike f) :
    f.isMapShaped = e.isMapShaped := by
  rw [h.restyled.1]
  rfl

namespace Store.Keeps
variable {s t : Store}

theorem slots_eq (keeps : s.Keeps s.size t) {key : Property} (fits : key.Fits s) :
    t.slots key = s.slots key := by
  cases key with
  | identifier name => rfl
  | value k => rw [slots, slots, (keeps.contents k fits).types]

theorem accepts_eq (keeps : s.Keeps s.size t) {n : Namespace} (hn : n.container ∈ s)
    {key : Property} (fits : key.Fits s) : n.accepts key t = n.accepts key s := by
  rw [Namespace.accepts, Namespace.accepts, (keeps.contents _ hn).isMapShaped, keeps.slots_eq fits]

end Store.Keeps

namespace Infer
variable {s t : Store} {bound : Nat} {merge : Bool} {n : Namespace} {key : Property}
  {value : Handle} {line : UInt64}

theorem accepts_of_bind {taken : Bool}
    (h : Infer.bind merge n key value line bound s = .ok (taken, t)) (closed : s.Closed)
    (hn : n.container ∈ s) (fits : key.Fits s) (hv : value ∈ s) : taken = n.accepts key s := by
  rw [bind_eq_offer] at h
  obtain ⟨offered, u, ran, stored⟩ := bind_ok h
  have result : n.setProperty key offered u = (taken, t) := Except.ok.inj stored
  obtain ⟨-, keeps, -⟩ := (safe_offer ⟨closed, Nat.le_refl _⟩ merge hn fits hv line).runs _ _ _ ran
  rw [← keeps.accepts_eq hn fits, ← n.fst_setProperty key offered u, result]

theorem stored_eq_nil (free : ∀ slot ∈ s.slots key, s.member? n.container slot = none)
    (value : Handle) : stored s n key value = [] := by
  have nothing : (s.slots key).filterMap (n.local? s) = [] := List.filterMap_eq_nil_iff.2 free
  rw [stored, nothing]
  rfl

theorem mergeStored_of_free (free : ∀ slot ∈ s.slots key, s.member? n.container slot = none)
    (value : Handle) (bound : Nat) : mergeStored n key value bound s = .ok (value, s) := by
  have read : (get : Infer Store) bound s = .ok (s, s) := rfl
  rw [mergeStored, bind_of_ok read, stored_eq_nil free]
  rfl

/-- With nothing to merge with, a value is taken or refused at once. -/
theorem exists_bind (n : Namespace) (key : Property) (closed : s.Closed) (hn : n.container ∈ s)
    (fits : key.Fits s) (hv : value ∈ s)
    (free : merge = true → ∀ slot ∈ s.slots key, s.member? n.container slot = none) (line : UInt64)
    (bound : Nat) : ∃ t, Infer.bind merge n key value line bound s = .ok (n.accepts key s, t) := by
  have ready : s.Ready s.size := ⟨closed, Nat.le_refl _⟩
  have offered : ∃ r u, offer merge n key value line bound s = .ok (r, u) := by
    have own : (modify (Store.modifyNode value (Entity.owned n.owner?)) : Infer PUnit) bound s =
      .ok (⟨⟩, s.modifyNode value (Entity.owned n.owner?)) := rfl
    obtain ⟨ready', keeps, -⟩ := (safe_own ready hn value).runs _ _ _ own
    obtain ⟨r, v, prepared⟩ :=
      exists_prepare value key.name? line (s.modifyNode value (Entity.owned n.owner?))
    obtain ⟨-, keeps', -⟩ := (safe_prepare ready' (keeps.mem hv) _ line).runs _ _ _ (prepared bound)
    rw [offer, bind_of_ok own, bind_of_ok (prepared bound)]
    cases merge with
    | false => exact ⟨r, v, rfl⟩
    | true =>
      -- the container still has the members that it had
      have same := keeps.trans keeps'
      refine ⟨r, v, mergeStored_of_free (fun slot hslot => ?_) r bound⟩
      rw [same.slots_eq fits] at hslot
      rw [Store.member?, Entity.member?, (same.contents _ hn).members]
      exact free rfl slot hslot
  obtain ⟨r, u, ran⟩ := offered
  have bound_eq : Infer.bind merge n key value line bound s = .ok (n.setProperty key r u) := by
    rw [bind_eq_offer, bind_of_ok ran]
    rfl
  refine ⟨(n.setProperty key r u).2, ?_⟩
  rw [← accepts_of_bind bound_eq closed hn fits hv]
  exact bound_eq

end Infer

namespace Env
variable {env : Env} {target : Expr} {table table' : FunctionTable} {bound : Nat} {z : Zone}
  {s t : Store}

open Infer

/-- The reasons for which a value is not taken at a target. -/
inductive Refuses (env : Env) (target : Expr) (table : FunctionTable) (bound : Nat)
    (s : Store) : Prop
  | unchained : target.accessChain = none → env.Refuses target table bound s
  | tooLong {hops} : target.accessChain = some hops → env.options.maxChainLength < hops.length →
      env.Refuses target table bound s
  | literal {e reference} : target.accessChain = some [⟨.value e, reference⟩] →
      env.Refuses target table bound s
  | reserved {name reference} : target.accessChain = some [⟨.name name, reference⟩] →
      Scope.isReserved name = true → env.Refuses target table bound s
  | transient {hops access} : target.accessChain = some hops → lastAccess? hops = some access →
      access.isTransient = true → env.Refuses target table bound s
  | shapeless {hops h u} : env.Arrives target table bound s hops h u →
      (u.node h).isMapShaped = false → env.Refuses target table bound s

theorem refuses_of_chain?_eq_none (chain : env.chain? target = none) :
    env.Refuses target table bound s := by
  cases access : target.accessChain with
  | none => exact .unchained access
  | some hops =>
    have long : env.options.maxChainLength < hops.length := by simpa [chain?, access] using chain
    exact .tooLong access long

theorem length_le_of_chain? {hops : List Hop} (chain : env.chain? target = some hops) :
    hops.length ≤ env.options.maxChainLength := by
  have fits := (Option.filter_eq_some_iff.1 chain).2
  simpa using fits

theorem Arrives.ne_singleton {hops : List Hop} {h : Handle} {u : Store}
    (arrives : env.Arrives target table bound s hops h u) (hop : Hop) : hops ≠ [hop] := by
  rintro rfl
  exact Nat.not_succ_le_self 1 arrives.long

theorem refuses_name_iff {name : String} {reference : Bool}
    (chain : env.chain? target = some [⟨.name name, reference⟩]) :
    env.Refuses target table bound s ↔ Scope.isReserved name = true := by
  have access := accessChain_of_chain? chain
  constructor
  · intro refuses
    cases refuses with
    | unchained none =>
      rw [access] at none
      cases none
    | tooLong some long =>
      rw [access] at some
      cases some
      exact absurd (length_le_of_chain? chain) (Nat.not_le.2 long)
    | literal some =>
      rw [access] at some
      cases some
    | reserved some reserved =>
      rw [access] at some
      cases some
      exact reserved
    | transient some last transient =>
      rw [access] at some
      cases some
      cases last
      cases transient
    | shapeless arrives =>
      have same := arrives.chain
      rw [chain] at same
      exact absurd (Option.some.inj same).symm (arrives.ne_singleton _)
  · exact fun reserved => .reserved access reserved

theorem Arrives.unique {hops hops' : List Hop} {h h' : Handle} {u u' : Store}
    (first : env.Arrives target table bound s hops h u)
    (second : env.Arrives target table bound s hops' h' u') : h' = h ∧ u' = u := by
  have chain := first.chain
  rw [second.chain] at chain
  cases chain
  obtain ⟨table₁, walked⟩ := first.walked
  obtain ⟨table₂, walked'⟩ := second.walked
  rw [walked] at walked'
  cases walked'
  exact ⟨rfl, rfl⟩

theorem refuses_iff_of_arrives {hops : List Hop} {h : Handle} {u : Store} {access : Access}
    (arrives : env.Arrives target table bound s hops h u) (last : lastAccess? hops = some access) :
    env.Refuses target table bound s ↔ access.isTransient = true ∨
      (u.node h).isMapShaped = false := by
  have chained := accessChain_of_chain? arrives.chain
  constructor
  · intro refuses
    cases refuses with
    | unchained none =>
      rw [chained] at none
      cases none
    | tooLong some long =>
      rw [chained] at some
      cases some
      exact absurd (length_le_of_chain? arrives.chain) (Nat.not_le.2 long)
    | literal some | reserved some =>
      rw [chained] at some
      exact absurd (Option.some.inj some) (arrives.ne_singleton _)
    | transient some ends transient =>
      rw [chained] at some
      cases some
      rw [last] at ends
      cases ends
      exact .inl transient
    | shapeless other shape =>
      obtain ⟨rfl, rfl⟩ := arrives.unique other
      exact .inr shape
  · intro reason
    rcases reason with transient | shape
    · exact .transient chained last transient
    · exact .shapeless arrives shape

/-- Resolving the prefix of a target leads to an entity of the zone. -/
theorem Arrives.reached (grounded : env.Grounded z s) (twin : s.Twin z s)
    (tables : FunctionTable.Twin .same z table table) {hops : List Hop} {h : Handle} {u : Store}
    (arrives : env.Arrives target table bound s hops h u) :
    ∃ z₁, z.Onward s z₁ u ∧ u.Twin z₁ u ∧ u.Linkable z₁ h := by
  have reflexive : target.Parallel Naming.same.declared target := .refl (fun _ => rfl) target
  have root := twins_rootValue env reflexive grounded twin
  have chains := reflexive.chain? env
  rw [arrives.chain] at chains
  cases chains with
  | some same =>
    obtain ⟨table₁, walked⟩ := arrives.walked
    obtain ⟨z₁, onward, twin₁, -, linkable⟩ :=
      (twins_walk grounded twin root (hops.length - 1) same).diagonal tables walked
    exact ⟨z₁, onward, twin₁, linkable h rfl⟩

theorem accepts_name (name : String) (c : Scope) (s : Store) :
    Namespace.accepts (.scope c) (.identifier name) s =
      ((s.node c.locals).isMapShaped && !Scope.isReserved name) := by
  simp [Namespace.accepts, Namespace.container, Namespace.reserves, Store.slots]

theorem accepts_member (name : String) (h : Handle) (s : Store) :
    Namespace.accepts (.entity h) (.identifier name) s = (s.node h).isMapShaped := by
  simp [Namespace.accepts, Namespace.container, Namespace.reserves, Store.slots]

/-- Under a key that has a type everything is stored. -/
theorem accepts_index {key : Handle} (typed : (s.node key).HasType) (h : Handle) :
    Namespace.accepts (.entity h) (.value key) s = (s.node h).isMapShaped := by
  obtain ⟨tag, listed⟩ := typed
  have nonempty : (s.slots (.value key)).isEmpty = false := by
    rw [List.isEmpty_eq_false_iff]
    exact List.ne_nil_of_mem (List.mem_map_of_mem listed)
  simp [Namespace.accepts, Namespace.container, Namespace.reserves, nonempty]

theorem define_eq_false_iff (grounded : env.Grounded z s)
    (shaped : (s.node env.scope.locals).isMapShaped = true) (twin : s.Twin z s)
    (tables : FunctionTable.Twin .same z table table) {value : Handle} (hv : value ∈ s)
    {taken : Bool} (defined : env.define target value table bound s = .ok ((taken, table'), t)) :
    taken = false ↔ env.Refuses target table bound s := by
  cases course_define defined with
  | unresolved chain => exact iff_of_true rfl (refuses_of_chain?_eq_none chain)
  | literal chain => exact iff_of_true rfl (.literal (accessChain_of_chain? chain))
  | @name name _ _ _ chain ran =>
    have locals := grounded.scope _ Scope.locals_mem_holds
    have taken_eq := accepts_of_bind ran twin.closed locals.mem trivial hv
    rw [taken_eq, refuses_name_iff chain, accepts_name, shaped]
    simp
  | transient arrives last transient =>
    exact iff_of_true rfl ((refuses_iff_of_arrives arrives last).2 (.inl transient))
  | @member _ h u _ _ _ arrives last ran =>
    obtain ⟨z₁, onward, twin₁, linkable⟩ := arrives.reached grounded twin tables
    have taken_eq := accepts_of_bind ran twin₁.closed linkable.mem trivial (onward.later.mem hv)
    rw [taken_eq, refuses_iff_of_arrives arrives last, accepts_member]
    simp [Access.isTransient]
  | @index _ h u e key v _ _ arrives last resolved ran =>
    obtain ⟨z₁, onward, twin₁, linkable⟩ := arrives.reached grounded twin tables
    have keys :=
      twins_resolveType (grounded.mono onward) twin₁ false (.refl (R := Eq) (fun _ => rfl) e)
    obtain ⟨-, later, twin₂, keyed⟩ := keys.diagonal resolved
    have inside := onward.later.mem hv
    have taken_eq :=
      accepts_of_bind ran twin₂.closed (later.mem linkable.mem) keyed.mem (later.mem inside)
    rw [taken_eq, refuses_iff_of_arrives arrives last, accepts_index (twin₂.typed keyed.base_le),
      later.isMapShaped linkable.mem]
    simp [Access.isTransient]

/-- What has to be resolved on the way to a target is resolved, and a lone name is not merged with
anything. -/
structure Unhindered (env : Env) (target : Expr) (table : FunctionTable) (bound : Nat) (s : Store) :
    Prop where
  arrives : ∀ {hops}, env.chain? target = some hops → 2 ≤ hops.length →
    ∃ h u, env.Arrives target table bound s hops h u
  key : ∀ {hops h u e}, env.Arrives target table bound s hops h u →
    lastAccess? hops = some (.index e) → ∃ key v, env.resolveType false e bound u = .ok (key, v)
  free : ∀ {name reference}, env.chain? target = some [⟨.name name, reference⟩] →
    env.options.mergeReassignments = true → s.member? env.scope.locals (.identifier name) = none

theorem exists_define_of_refuses (grounded : env.Grounded z s)
    (shaped : (s.node env.scope.locals).isMapShaped = true) (twin : s.Twin z s)
    (tables : FunctionTable.Twin .same z table table) {value : Handle} (hv : value ∈ s)
    (unhindered : env.Unhindered target table bound s)
    (refuses : env.Refuses target table bound s) :
    ∃ table' t, env.define target value table bound s = .ok ((false, table'), t) := by
  -- whatever the answer is, it can only be a refusal
  suffices returned : ∃ taken table' t, env.define target value table bound s =
      .ok ((taken, table'), t) by
    obtain ⟨taken, table', t, defined⟩ := returned
    have refused := (define_eq_false_iff grounded shaped twin tables hv defined).2 refuses
    exact ⟨table', t, refused ▸ defined⟩
  rcases chain : env.chain? target with _ | ⟨_ | ⟨hop, _ | ⟨second, rest⟩⟩⟩
  · rw [define, chain]
    exact ⟨false, table, s.release value, rfl⟩
  · rw [define, chain]
    exact ⟨false, table, s.release value, rfl⟩
  · rw [define, chain]
    obtain ⟨access, reference⟩ := hop
    cases access with
    | name name =>
      have locals := grounded.scope _ Scope.locals_mem_holds
      have free : env.options.mergeReassignments = true →
          ∀ slot ∈ s.slots (.identifier name), s.member? env.scope.locals slot = none :=
        fun merge slot hslot => List.mem_singleton.1 hslot ▸ unhindered.free chain merge
      obtain ⟨t, ran⟩ :=
        exists_bind (.scope env.scope) (.identifier name) twin.closed locals.mem trivial hv free
        target.line bound
      exact ⟨_, table, t, Resolve.lift_of_ok ran table⟩
    | _ => exact ⟨false, table, s.release value, rfl⟩
  · obtain ⟨h, u, arrives⟩ := unhindered.arrives chain (by simp)
    obtain ⟨table₁, walked⟩ := arrives.walked
    obtain ⟨z₁, onward, twin₁, linkable⟩ := arrives.reached grounded twin tables
    obtain ⟨access, last⟩ : ∃ access, lastAccess? (hop :: second :: rest) = some access :=
      ⟨_, congrArg (Option.map Hop.access) (List.getLast?_eq_some_getLast (List.cons_ne_nil _ _))⟩
    have reason := (refuses_iff_of_arrives arrives last).1 refuses
    have ends := last
    rw [lastAccess?] at ends
    rw [define, chain]
    dsimp only
    rw [Resolve.bind_of_ok walked]
    dsimp only
    rw [ends]
    cases access with
    | member name =>
      have shapeless : (u.node h).isMapShaped = false := reason.resolve_left Bool.false_ne_true
      have free : env.options.mergeReassignments = true →
          ∀ slot ∈ u.slots (.identifier name), u.member? h slot = none :=
        fun _ slot _ => twin₁.member?_eq_none linkable.base_le shapeless slot
      obtain ⟨v, ran⟩ :=
        exists_bind (.entity h) (.identifier name) twin₁.closed linkable.mem trivial
        (onward.later.mem hv) free target.line bound
      exact ⟨_, _, _, Resolve.bind_of_ok (Resolve.lift_of_ok ran table₁) _⟩
    | index e =>
      have shapeless : (u.node h).isMapShaped = false := reason.resolve_left Bool.false_ne_true
      obtain ⟨key, v, resolved⟩ := unhindered.key arrives last
      have keys :=
        twins_resolveType (grounded.mono onward) twin₁ false (.refl (R := Eq) (fun _ => rfl) e)
      obtain ⟨-, later, twin₂, keyed⟩ := keys.diagonal resolved
      have still : (v.node h).isMapShaped = false :=
        (later.isMapShaped linkable.mem).trans shapeless
      have free : env.options.mergeReassignments = true →
          ∀ slot ∈ v.slots (.value key), v.member? h slot = none :=
        fun _ slot _ => twin₂.member?_eq_none linkable.base_le still slot
      have inside := onward.later.mem hv
      obtain ⟨w, ran⟩ :=
        exists_bind (.entity h) (.value key) twin₂.closed (later.mem linkable.mem) keyed.mem
        (later.mem inside) free target.line bound
      dsimp only
      rw [Resolve.bind_of_ok (Resolve.lift_of_ok resolved table₁),
        Resolve.bind_of_ok (Resolve.lift_of_ok ran table₁)]
      exact ⟨_, _, _, rfl⟩
    | _ => exact ⟨false, _, _, rfl⟩

end Env

end ScriptInference
