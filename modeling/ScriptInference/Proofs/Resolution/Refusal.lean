import ScriptInference.Proofs.Document.Queries
import ScriptInference.Proofs.Resolution.Effects

/-!
# What a refused binding leaves behind

A binding that is refused stores nothing. But its value is made ready before the namespace is asked:
a function that is offered to an entity has that entity as its context from then on, and a map or
list without a label has the name as its label, whether they are stored or not. The rest of the
store is as it was, up to what resolving the target itself has done. The target changes nothing that
exists unless it begins with a constructor of a map or list that stores entities which it has not
made.
-/

namespace ScriptInference

variable {key : Property} {n : Namespace} {h : Handle} {e : Expr} {own : Multiset Handle}
  {u : Store}

namespace Entity
variable {owner : Option Handle} {name : Option String} {e : Entity}

theorem owned_eq_iff :
    e.owned owner = e ↔ (e.kind = .function → owner.isSome → e.context = owner) := by
  unfold owned
  constructor
  · intro same function given
    obtain ⟨h, rfl⟩ := Option.isSome_iff_exists.1 given
    rw [if_pos function] at same
    exact (congrArg Entity.context same).symm
  · intro has
    split
    · rename_i function
      cases owner with
      | none => rfl
      | some h =>
        rw [Option.some_or, ← has function rfl]
    · rfl

theorem titled_eq_iff :
    e.titled name = e ↔ (e.isReferenceShaped → e.label = "" → name.getD "" = "") := by
  unfold titled
  constructor
  · intro same shaped unlabelled
    rw [if_pos (by simp [shaped, unlabelled])] at same
    have label := congrArg Entity.label same
    simpa [unlabelled] using label
  · intro has
    split
    · rename_i both
      obtain ⟨shaped, unlabelled⟩ := Bool.and_eq_true_iff.1 both
      have empty := String.isEmpty_iff.1 unlabelled
      rw [empty, has shaped empty, ← empty]
    · rfl

/-- Made ready for an owner and a name, an entity is as it was exactly if it has its context and its
label already, or takes none. -/
theorem titled_owned_eq_iff :
    (e.owned owner).titled name = e ↔
    (e.kind = .function → owner.isSome → e.context = owner) ∧
    (e.isReferenceShaped → e.label = "" → name.getD "" = "") := by
  rw [← owned_eq_iff, ← titled_eq_iff]
  constructor
  · intro same
    have first : e.owned owner = e := by
      rw [owned_eq_iff]
      intro function given
      have context := congrArg Entity.context same
      rw [context_titled, owned, if_pos function] at context
      obtain ⟨h, rfl⟩ := Option.isSome_iff_exists.1 given
      exact context.symm
    rw [first] at same
    exact ⟨first, same⟩
  · rintro ⟨first, second⟩
    rw [first, second]

end Entity

/-- Whether the root of an access expression is a constructor of a map or list. -/
def Expr.isConstructed : Expr → Bool
  | .unary _ a _ => a.isConstructed
  | .member b _ _ | .index b _ _ | .slice b _ _ _ | .call b _ _ => b.isConstructed
  | .map _ _ | .list _ _ => true
  | _ => false

namespace Store
variable {s : Store} {strict : Prop}

/-- A refused member is given up, and nothing else happens. -/
theorem setProperty_refused {value : Handle} (refused : (s.setProperty h key value).1 = false) :
    (s.setProperty h key value).2 = s.release value := by
  unfold setProperty at refused ⊢
  split
  · rfl
  · rename_i shaped
    rw [if_neg shaped] at refused
    cases key with
    | identifier name => cases refused
    | value k =>
      cases tags : (s.node k).types.toList with
      | nil => simp only [tags]
      | cons tag rest => simp [tags] at refused

section Lending

/-- The store without one of the holds on a node. -/
def lending (s : Store) (h : Handle) : Store := s.setCount h (s.count h - 1)

theorem count_lending (inside : h ∈ s) (k : Handle) :
    (s.lending h).count k = if k = h then s.count h - 1 else s.count k := by
  by_cases hk : k ∈ s
  · exact Ledger.count_setCount hk h _
  · have other : k ≠ h := fun same => hk (same ▸ inside)
    have outside : k ∉ s.lending h := hk
    rw [count_of_not_mem outside, count_of_not_mem hk, if_neg other]

theorem live_lending (several : 1 < s.count h) (k : Handle) : (s.lending h).live k = s.live k := by
  have inside : h ∈ s := mem_of_live (live_iff.2 (Nat.lt_of_succ_lt several))
  apply Bool.eq_iff_iff.2
  rw [live_iff, live_iff, count_lending inside]
  split
  · rename_i here
    rw [here]
    omega
  · rfl

/-- One of several holds on a node may be put on the ledger. -/
theorem Ledger.lend (sound : s.Sound) (several : 1 < s.count h) :
    Ledger (s.lending h) strict {h} s := by
  have inside : h ∈ s := mem_of_live (live_iff.2 (Nat.lt_of_succ_lt several))
  constructor
  · constructor
    · exact sound.closed
    · intro k hk j hj
      rw [live_lending several] at hk ⊢
      exact sound.held k hk j hj
  · exact sound.closed
  · exact Nat.le_refl s.size
  · exact fun n _ => .refl _
  · exact fun _ n _ => rfl
  · intro n _ hn
    rwa [live_lending several]
  · intro k
    have size : (s.lending h).size = s.size := rfl
    have nothing : s.heldFrom (s.lending h).size k = 0 := by
      rw [size, heldFrom, Finset.Ico_self, Finset.sum_empty]
    rw [nothing, count_lending inside, Multiset.count_singleton]
    split
    · rename_i here
      rw [here]
      omega
    · omega

end Lending

end Store

theorem Namespace.setProperty_refused {value : Handle} {s : Store}
    (refused : (n.setProperty key value s).1 = false) :
    (n.setProperty key value s).2 = s.release value := by
  cases n with
  | entity h => exact Store.setProperty_refused refused
  | scope c =>
    cases key with
    | value k => exact Store.setProperty_refused refused
    | identifier name =>
      change (c.setProperty name value s).1 = false at refused
      change (c.setProperty name value s).2 = s.release value
      unfold Scope.setProperty at refused ⊢
      split
      · rfl
      · rename_i free
        rw [if_neg free] at refused
        exact Store.setProperty_refused refused

namespace Infer
variable {s t : Store} {bound : Nat}

/-- A refused value has been offered, and what was made of it is given up. -/
theorem bind_refused {merge : Bool} {value : Handle} {line : UInt64}
    (refused : Infer.bind merge n key value line bound s = .ok (false, t)) :
    ∃ r u, offer merge n key value line bound s = .ok (r, u) ∧ t = u.release r := by
  rw [bind_eq_offer] at refused
  obtain ⟨r, u, offered, refused⟩ := bind_ok refused
  have result : n.setProperty key r u = (false, t) := Except.ok.inj refused
  have answer : (n.setProperty key r u).1 = false := by rw [result]
  refine ⟨r, u, offered, ?_⟩
  rw [← Namespace.setProperty_refused answer, result]

end Infer

namespace Env
variable {env : Env} {target : Expr} {table : FunctionTable} {bound : Nat} {s t : Store}

open Infer Store

/-- The target offers a value to the namespace, under a name or under a key without one. -/
inductive Offers (env : Env) (target : Expr) (table : FunctionTable) (bound : Nat) (s : Store) :
    Namespace → Option String → Prop
  | name {name : String} {reference : Bool} : env.chain? target = some [⟨.name name, reference⟩] →
      env.Offers target table bound s (.scope env.scope) (some name)
  | member {hops : List Hop} {h : Handle} {u : Store} {name : String} :
      env.Arrives target table bound s hops h u → lastAccess? hops = some (.member name) →
      env.Offers target table bound s (.entity h) (some name)
  | index {hops : List Hop} {h : Handle} {u : Store} {e : Expr} :
      env.Arrives target table bound s hops h u → lastAccess? hops = some (.index e) →
      env.Offers target table bound s (.entity h) none

/-- The value at the root is no more than a name or a literal. -/
theorem exists_rootValue_eq (env : Env) (plain : e.isConstructed = false) :
    ∃ root, env.rootValue e = liftM (env.resolveType false root) := by
  fun_induction Expr.isConstructed e with
  | case1 _ _ _ ih | case2 _ _ _ ih | case3 _ _ _ ih | case4 _ _ _ _ ih | case5 _ _ _ ih =>
    rw [rootValue]
    exact ih plain
  | case6 | case7 => cases plain
  | case8 e => exact ⟨e, by rw [rootValue] <;> assumption⟩

theorem balanced_walk_lift {D : Discipline} (anchored : env.Anchored D own) (l : D.InOrder own s)
    (root : Expr) (count : Nat) (hops : List Hop) (table : FunctionTable) :
    Balanced D s (env.walk (liftM (env.resolveType false root)) count hops table)
      (fun r => holding r.1.toList own) fun _ => True := by
  have rest_of : ∀ {x : Infer Handle}, Balanced D s x (· ::ₘ own) (fun _ => True) → ∀ rest,
      Balanced D s ((do
        let first ← x
        return some (← env.resolveHops (count - 1) first rest) : Resolve (Option Handle)) table)
        (fun r => holding r.1.toList own) fun _ => True := by
    intro x hx rest
    refine hx.lift_bind fun t first l' _ => ?_
    refine (balanced_resolveHops anchored _ l' rest).lift_bind fun u h l'' _ => ?_
    exact .pure l'' trivial
  cases hops with
  | nil => exact .pure l trivial
  | cons hop rest =>
    rw [walk]
    cases access : hop.access with
    | name name => exact rest_of (balanced_resolveName anchored.registry anchored.scope l _ _) rest
    | value e => exact rest_of (balanced_resolveType anchored l false root) rest
    | _ => exact .pure l trivial

/-- Resolving the target changes nothing that exists: it begins with a name or a literal, or it is
quiet and no function has been recorded yet. -/
def Spares (target : Expr) (table : FunctionTable) : Prop :=
  target.isConstructed = false ∨ table = ∅ ∧ target.quiet = true

/-- The target has been resolved as far as needed, and some holds have been gained by it. -/
def Advances (env : Env) (s v : Store) (gained : List Handle) : Prop :=
  ∀ (g : Store) (strict : Prop) (own : Multiset Handle), env.Anchored (.ledger g strict) own →
    g.Ledger strict own s → g.Ledger strict (holding gained own) v

theorem Arrives.advances {hops : List Hop} (arrives : env.Arrives target table bound s hops h u)
    (spares : Spares target table) : env.Advances s u [h] := by
  intro g strict own anchored l
  obtain ⟨table', walked⟩ := arrives.walked
  rcases spares with plain | ⟨rfl, quiet⟩
  · obtain ⟨root, same⟩ := exists_rootValue_eq env plain
    rw [same] at walked
    exact ((balanced_walk_lift anchored l root _ hops table).runs _ _ _ walked).1
  · have root : Resolve.Balanced (.ledger g strict) own (env.rootValue target) (· ::ₘ own)
        fun _ => True :=
      balanced_rootValue env target anchored fun _ => quiet
    have balanced := balanced_walk anchored root (hops.length - 1) hops
    exact Ledger.mono ((balanced.run (fun _ => rfl) l).runs _ _ _ walked).1 (le_holding _ _)

/-- A target offers its value once. -/
theorem Offers.unique {n' : Namespace} {name name' : Option String}
    (first : env.Offers target table bound s n name)
    (second : env.Offers target table bound s n' name') : n = n' ∧ name = name' := by
  cases first with
  | name chain =>
    cases second with
    | name chain' =>
      cases chain.symm.trans chain'
      exact ⟨rfl, rfl⟩
    | member arrives _ | index arrives _ => exact absurd arrives.leads (not_leads_of_name chain _)
  | member arrives ends =>
    cases second with
    | name chain => exact absurd arrives.leads (not_leads_of_name chain _)
    | member arrives' ends' =>
      cases Option.some.inj (arrives.chain.symm.trans arrives'.chain)
      cases ends.symm.trans ends'
      cases arrives.leads.unique arrives'.leads
      exact ⟨rfl, rfl⟩
    | index arrives' ends' =>
      cases Option.some.inj (arrives.chain.symm.trans arrives'.chain)
      cases ends.symm.trans ends'
  | index arrives ends =>
    cases second with
    | name chain => exact absurd arrives.leads (not_leads_of_name chain _)
    | member arrives' ends' =>
      cases Option.some.inj (arrives.chain.symm.trans arrives'.chain)
      cases ends.symm.trans ends'
    | index arrives' ends' =>
      cases arrives.leads.unique arrives'.leads
      exact ⟨rfl, rfl⟩

/-- What a refusal leaves of the entities that exist, where the value has been made ready in some
way. -/
structure Leaves (s : Store) (value : Handle) (ready : Entity → Entity) (t : Store) : Prop where
  others : ∀ n ∈ s, n ≠ value → t.node n = s.node n
  offered : t.node value = ready (s.node value)
  live : 1 < s.count value → ∀ n ∈ s, t.live n = s.live n

section Leaves
variable {v : Store} {value : Handle} {gained : List Handle}

theorem Alive.anchored (alive : env.Alive s) {strict : Prop} :
    env.Anchored (.ledger s strict) own :=
  ⟨fun h hh => .of_live (alive.scope h hh),
    fun h hh => (Discipline.Anchored.of_live (alive.registry h hh)).known⟩

theorem Alive.lending (alive : env.Alive s) (several : 1 < s.count value) :
    env.Alive (s.lending value) := by
  constructor
  · intro h hh
    rw [live_lending several]
    exact alive.scope h hh
  · intro h hh
    rw [live_lending several]
    exact alive.registry h hh

variable (advances : env.Advances s v gained)

include advances

theorem Advances.node_eq (sound : s.Sound) (alive : env.Alive s) : ∀ n ∈ s, v.node n = s.node n :=
  (advances s True 0 alive.anchored (.start sound True)).same trivial

/-- The value is given up together with what has been gained. -/
theorem Advances.leaves_of_release (sound : s.Sound) (alive : env.Alive s) (hv : value ∈ s) :
    Leaves s value id ((v.release value).releaseAll gained) := by
  have nodes : ((v.release value).releaseAll gained).nodes = v.nodes := by simp
  have same := advances.node_eq sound alive
  constructor
  · intro n hn _
    rw [Store.node_eq nodes, same n hn]
  · rw [Store.node_eq nodes, same value hv]
    rfl
  · intro several n hn
    have l := advances _ False _ (alive.lending several).anchored (.lend sound several)
    rw [← Multiset.cons_zero, ← cons_holding, holding_eq, add_zero] at l
    have done := l.release
    rw [← add_zero (↑gained : Multiset Handle)] at done
    rw [done.releaseAll.live_eq hn, live_lending several]

/-- The value is offered and refused, and then what has been gained is given up. -/
theorem Advances.leaves_of_bind (sound : s.Sound) (alive : env.Alive s) (hv : value ∈ s)
    (held : n.container ∈ env.scope.holds ∨ n.container ∈ gained) {merge : Bool} {line : UInt64}
    (refused : Infer.bind merge n key value line bound v = .ok (false, t)) :
    Leaves s value (fun e => (e.owned n.owner?).titled key.name?) (t.releaseAll gained) := by
  have container : ∀ {D own}, env.Anchored D own → D.Anchored (holding gained own) n.container := by
    intro D own anchored
    rcases held with scope | mine
    · exact (anchored.scope _ scope).mono (le_holding gained own)
    · exact .of_mem (mem_holding.2 (.inl mine))
  have same := advances.node_eq sound alive
  have l := advances s True 0 alive.anchored (.start sound True)
  have inside : ∀ {k}, k ∈ s → k ∈ v := fun hk => l.mem_of_ground hk
  obtain ⟨r, u, offered, rfl⟩ := bind_refused refused
  have nodes : ((u.release r).releaseAll gained).nodes = u.nodes := by simp
  have contents : ∀ k ∈ s, ((u.release r).releaseAll gained).node k =
      if k = value then ((s.node value).owned n.owner?).titled key.name? else s.node k := by
    intro k hk
    have hn : n.container ∈ v := mem_of_live ((container alive.anchored).live l)
    rw [Store.node_eq nodes, node_offer l.closed hn (inside hv) offered (inside hk), same value hv,
      same k hk]
  constructor
  · intro k hk other
    rw [contents k hk, if_neg other]
  · rw [contents value hv, if_pos rfl]
  · intro several k hk
    have l := advances _ False _ (alive.lending several).anchored (.lend sound several)
    rw [← Multiset.cons_zero, ← cons_holding] at l
    have here : (Discipline.ledger (s.lending value) False).Anchored
        (holding gained 0) n.container :=
      container (alive.lending several).anchored
    have taken := ((balanced_offer l merge here key line False.elim).runs _ _ _ offered).1
    rw [holding_eq] at taken
    rw [taken.release.releaseAll.live_eq hk, live_lending several]

end Leaves

theorem Advances.resolveType {v : Store} {gained : List Handle} (advances : env.Advances s u gained)
    {key : Handle} (resolved : env.resolveType false e bound u = .ok (key, v)) :
    env.Advances s v (key :: gained) := by
  intro g strict own anchored l
  have later := advances g strict own anchored l
  exact ((balanced_resolveType (anchored.mono (le_holding _ _)) later false e).runs _ _ _
    resolved).1

/-- A refusal changes nothing that exists but the value, and the value only as it is made ready for
where the target offers it. -/
theorem leaves_of_refused (sound : s.Sound) (alive : env.Alive s) {value : Handle} (hv : value ∈ s)
    {table' : FunctionTable} (spares : Spares target table)
    (refused : env.define target value table bound s = .ok ((false, table'), t)) :
    ((∀ n name, ¬ env.Offers target table bound s n name) ∧ Leaves s value id t) ∨
    ∃ n name, env.Offers target table bound s n name ∧
      Leaves s value (fun e => (e.owned n.owner?).titled name) t := by
  have start : env.Advances s s [] := fun _ _ _ _ l => l
  cases course_define refused with
  | unresolved chain =>
    refine .inl ⟨fun n name offers => ?_, start.leaves_of_release sound alive hv⟩
    cases offers with
    | name chain' => cases chain.symm.trans chain'
    | member arrives _ | index arrives _ => cases chain.symm.trans arrives.chain
  | literal chain =>
    refine .inl ⟨fun n name offers => ?_, start.leaves_of_release sound alive hv⟩
    cases offers with
    | name chain' => cases chain.symm.trans chain'
    | member arrives _ | index arrives _ =>
      cases chain.symm.trans arrives.chain
      exact absurd arrives.long (by simp)
  | name chain ran =>
    exact .inr ⟨_, _, .name chain,
      start.leaves_of_bind sound alive hv (.inl Scope.locals_mem_holds) ran⟩
  | transient arrives ends transient =>
    refine .inl ⟨fun n name offers => ?_,
      (arrives.advances spares).leaves_of_release sound alive hv⟩
    cases offers with
    | name chain => exact absurd arrives.leads (not_leads_of_name chain _)
    | member arrives' ends' | index arrives' ends' =>
      cases arrives.chain.symm.trans arrives'.chain
      cases ends.symm.trans ends'
      cases transient
  | member arrives ends ran =>
    have advances := arrives.advances spares
    exact .inr ⟨_, _, .member arrives ends,
      advances.leaves_of_bind sound alive hv (.inr List.mem_cons_self) ran⟩
  | index arrives ends resolved ran =>
    have advances := (arrives.advances spares).resolveType resolved
    exact .inr ⟨_, _, .index arrives ends,
      advances.leaves_of_bind sound alive hv (.inr (List.mem_cons_of_mem _ List.mem_cons_self)) ran⟩

/-- A refused binding fills at most empty labels of maps and lists and sets at most contexts of
functions. If the target spares what exists, only the value can be affected, and this exactly if the
target offers it to an entity that is not its context yet, though it is a function, or under a name,
though it is a map or list without a label. Nothing dies that is held by somebody else. -/
theorem refused_binding_restyles_at_most {env : Env} {target : Expr} {value : Handle}
    {table table' : FunctionTable} {bound : Nat} {s t : Store} (sound : s.Sound)
    (alive : env.Alive s) (hv : value ∈ s)
    (refused : env.define target value table bound s = .ok ((false, table'), t)) :
    (∀ n ∈ s, (s.node n).Restyled (t.node n)) ∧
    (Spares target table →
      (∀ n ∈ s, n ≠ value → t.node n = s.node n) ∧
      (t.node value = s.node value ↔ ∀ n name, env.Offers target table bound s n name →
        ((s.node value).kind = .function → n.owner?.isSome → (s.node value).context = n.owner?) ∧
        ((s.node value).isReferenceShaped → (s.node value).label = "" → name.getD "" = "")) ∧
      (1 < s.count value → ∀ n ∈ s, t.live n = s.live n)) := by
  have fits : env.Fits s := fun h hh => mem_of_live (alive.scope h hh)
  constructor
  · cases outcome_define sound.closed fits hv refused with
    | refused keeps _ nodes =>
      intro n hn
      rw [Store.node_eq nodes]
      exact (keeps.contents n hn).restyled
  · intro spares
    rcases leaves_of_refused sound alive hv spares refused with
      ⟨never, leaves⟩ | ⟨n, name, offers, leaves⟩
    · refine ⟨leaves.others, ?_, leaves.live⟩
      exact ⟨fun _ n name offers => absurd offers (never n name), fun _ => leaves.offered⟩
    · refine ⟨leaves.others, ?_, leaves.live⟩
      rw [leaves.offered, Entity.titled_owned_eq_iff]
      constructor
      · intro same n' name' offers'
        obtain ⟨rfl, rfl⟩ := offers.unique offers'
        exact same
      · intro same
        exact same n name offers

end Env

namespace Document

open Env Infer Store

/-- The expression `@o.f`. -/
def shelfMethod : Expr := .unary .reference (.member (.identifier "o" default) "f" default) default

/-- The target `"x".g`, which leads to a text. -/
def textMember : Expr := .member (.string "x" default) "g" default

/-- After the analysis of the program, the map in `a` and the function in `o` are asked for, and
held. The name `self` then refuses the map, and the text refuses the function. -/
theorem exists_refusals_shelf :
    ∃ d held s c, Workspace {d} held s ∧ d.scope "root" = .ok c ∧
    (∃ table t, (d.env c).define (.identifier "self" default) ⟨2⟩ ∅ 0 s = .ok ((false, table), t) ∧
      ⟨2⟩ ∈ s ∧ (s.node ⟨2⟩).label = "" ∧ (t.node ⟨2⟩).label = "self") ∧
    ∃ table t, (d.env c).define textMember ⟨6⟩ ∅ 0 s = .ok ((false, table), t) ∧
      ⟨6⟩ ∈ s ∧ s.context? ⟨6⟩ = some ⟨4⟩ ∧ (t.node ⟨6⟩).context = some ⟨s.size⟩ := by
  obtain ⟨d₀, s₀, opened⟩ : ∃ d s, ofCatalog shelfProgram (.ok {}) {} .empty = .ok (d, s) :=
    ⟨_, _, rfl⟩
  have granted : grants (d₀.serve (.block "root")) s₀ fun d s =>
      grants (d.resolveExpression "root" shelfEntry) s fun _ u =>
        grants (d.resolveExpression "root" shelfMethod) u fun _ v =>
          (d.scope "root").toOption.any fun c =>
            yields ((d.env c).define (.identifier "self" default) ⟨2⟩ ∅) 0 v (fun r t => r.1 =
              false ∧ ⟨2⟩ ∈ v ∧ (v.node ⟨2⟩).label = "" ∧ (t.node ⟨2⟩).label = "self") &&
            yields ((d.env c).define textMember ⟨6⟩ ∅) 0 v fun r t => r.1 = false ∧
              ⟨6⟩ ∈ v ∧ v.context? ⟨6⟩ = some ⟨4⟩ ∧ (t.node ⟨6⟩).context = some ⟨v.size⟩ := by
    cases opened
    decide +kernel
  obtain ⟨d, s, served, queried⟩ := exists_of_grants granted
  obtain ⟨r, u, found, queried⟩ := exists_of_grants queried
  obtain ⟨f, v, found', queried⟩ := exists_of_grants queried
  have w : Workspace {d} _ v :=
    .resolved (.resolved (.served (.opened .empty opened) served) found) found'
  obtain ⟨c, option, defined⟩ := (Option.any_eq_true _ _).1 queried
  have scope : d.scope "root" = .ok c := by
    cases found : d.scope "root" with
    | error e =>
      rw [found] at option
      cases option
    | ok c' =>
      rw [found] at option
      cases option
      rfl
  obtain ⟨named, stored⟩ := Bool.and_eq_true_iff.1 defined
  obtain ⟨⟨taken, table⟩, t, ran, seen⟩ := exists_of_yields named
  obtain ⟨⟨taken', table'⟩, t', ran', seen'⟩ := exists_of_yields stored
  obtain ⟨rfl, first⟩ := of_decide_eq_true seen
  obtain ⟨rfl, second⟩ := of_decide_eq_true seen'
  exact ⟨d, _, v, c, w, scope, ⟨table, t, ran, first⟩, table', t', ran', second⟩

theorem refused_binding_restyles_at_most_shelf :
    ∃ d held s c, Workspace {d} held s ∧
    d.scope "root" = .ok c ∧ ∃ table t, ⟨6⟩ ∈ s ∧
      (d.env c).define textMember ⟨6⟩ ∅ 0 s = .ok ((false, table), t) ∧ Spares textMember ∅ ∧
      (∀ n ∈ s, (s.node n).Restyled (t.node n)) ∧ ∀ n ∈ s, n ≠ ⟨6⟩ → t.node n = s.node n := by
  obtain ⟨d, held, s, c, w, scope, -, table, t, refused, inside, -⟩ := exists_refusals_shelf
  have frame := refused_binding_restyles_at_most w.accounts.sound (w.alive_env scope) inside refused
  have spares : Spares textMember ∅ := .inl rfl
  exact ⟨d, held, s, c, w, scope, table, t, inside, refused, spares, frame.1, (frame.2 spares).1⟩

/-- A map that is refused by the name `self` is labelled with it, and a function that is refused by
a text gets the text as its context. -/
theorem refused_bindings_restyle_shelf :
    ∃ d held s c, Workspace {d} held s ∧ d.scope "root" = .ok c ∧
    (∃ value table t, value ∈ s ∧
      (d.env c).define (.identifier "self" default) value ∅ 0 s = .ok ((false, table), t) ∧
      (s.node value).label = "" ∧ (t.node value).label = "self") ∧
    ∃ value table t, value ∈ s ∧ (d.env c).define textMember value ∅ 0 s = .ok ((false, table), t) ∧
      (t.node value).context ≠ (s.node value).context := by
  obtain ⟨d, held, s, c, w, scope, ⟨table, t, refused, inside, before, after⟩, table', t', refused',
      inside',
    context, replaced⟩ := exists_refusals_shelf
  refine ⟨d, held, s, c, w, scope, ⟨_, table, t, inside, refused, before, after⟩, _, table', t',
    inside', refused', ?_⟩
  rw [replaced, (context?_eq_some_iff.1 context).1]
  intro same
  have owner := (context?_eq_some_iff.1 context).2
  rw [← Option.some.inj same] at owner
  exact absurd (mem_of_live owner) (Nat.lt_irrefl _)

end Document

end ScriptInference
