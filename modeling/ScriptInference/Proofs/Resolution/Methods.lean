import ScriptInference.Proofs.Resolution.Effects
import ScriptInference.Proofs.Syntax.Parallel

/-!
# Functions that become methods

The entity of a function is recorded under the id of its declaration, and the container for which it
was made becomes its context. The container gets a copy, so that nothing ever names the recorded
entity itself. This is the third discipline: under it, what is resolved or stored later leaves the
entity as it is. And the record stays as long as no function with the same id is met.
-/

namespace ScriptInference

variable {h : Handle} {decl : FunctionDecl} {declaration : Span} {e : Entity} {key : Expr}

/-- The computation leaves what is recorded under the id. -/
def Resolve.Skips {α : Type} (id : String) (x : Resolve α) : Prop :=
  ∀ table bound s a table' t, x table bound s = .ok ((a, table'), t) →
    table'.get? id = table.get? id

namespace Resolve.Skips
variable {α β : Type} {id : String} {x : Resolve α} {f : α → Resolve β}

theorem pure (a : α) : Skips id (pure a) := by
  intro table bound s b table' t h
  cases h
  rfl

theorem lift (y : Infer α) : Skips id (liftM y) := by
  intro table bound s a table' t h
  obtain ⟨-, rfl⟩ := lift_ok h
  rfl

theorem bind (hx : Skips id x) (hf : ∀ a, Skips id (f a)) : Skips id (x >>= f) := by
  intro table bound s b table' t h
  obtain ⟨a, table₁, u, first, second⟩ := bind_ok h
  exact (hf a _ _ _ _ _ _ second).trans (hx _ _ _ _ _ _ first)

end Resolve.Skips

namespace Env
variable {env : Env} {id : String}

open Resolve

theorem skips_walk {root : Resolve Handle} (hr : Skips id root) (count : Nat) (hops : List Hop) :
    Skips id (env.walk root count hops) := by
  have rest : ∀ h hops, Skips id (do return some (← env.resolveHops (count - 1) h hops)) :=
    fun h hops => (Skips.lift _).bind fun _ => .pure _
  cases hops with
  | nil => exact .pure none
  | cons hop hops =>
    rw [walk]
    split
    · exact (Skips.lift _).bind fun h => rest h hops
    · exact hr.bind fun h => rest h hops
    · exact .pure none

theorem skips_resolveChain {root : Resolve Handle} (hr : Skips id root) (e : Expr) :
    Skips id (env.resolveChain root e) := by
  unfold resolveChain
  split
  · exact .pure none
  · exact skips_walk hr _ _

theorem skips_resolveAccess {root : Resolve Handle} (hr : Skips id root) {suppress : Bool}
    (e : Expr) : Skips id (env.resolveAccess suppress root e) := by
  refine (skips_resolveChain hr e).bind fun found => ?_
  cases found with
  | some h => exact .pure h
  | none => exact .lift _

theorem skips_newMap (line : UInt64) {fill : Handle → Resolve Unit}
    (hf : ∀ map, Skips id (fill map)) : Skips id (newMap line fill) :=
  (Skips.lift _).bind fun map => (hf map).bind fun _ => .pure map

theorem skips_newList (line : UInt64) {items : Resolve (List Handle)} (hi : Skips id items) :
    Skips id (newList line items) :=
  (Skips.lift _).bind fun list => hi.bind fun _ => (Skips.lift _).bind fun _ => .pure list

theorem skips_newFunction (arguments : List Argument) (other : id ≠ declaration.id) :
    Skips id (newFunction arguments declaration) := by
  intro table bound s f table' t h
  obtain ⟨_, table₁, u, made, h⟩ := bind_ok h
  obtain ⟨-, rfl⟩ := lift_ok made
  cases h
  rw [SortedMap.get?_insert, if_neg other]

mutual

theorem skips_resolve (env : Env) (e : Expr) (unlisted : id ∉ declaredIds e.walk) :
    Skips id (env.resolve e) := by
  cases e with
  | function d _ =>
    rw [resolve]
    exact skips_resolveFunction env d unlisted
  | map fs sp =>
    rw [resolve]
    exact skips_newMap _ fun map => skips_resolveFields env map fs unlisted
  | list is sp =>
    rw [resolve]
    exact skips_newList _ (skips_resolveItems env is unlisted)
  | unary op a sp =>
    have root : Skips id (env.rootValue a) := skips_rootValue env a unlisted
    cases op with
    | new =>
      rw [resolve]
      exact (skips_resolveAccess root a).bind fun _ => .lift _
    | reference =>
      rw [resolve]
      exact skips_resolveAccess root _
    | _ =>
      rw [resolve]
      · exact .lift _
      all_goals simp
  | member b _ _ | index b _ _ | slice b _ _ _ | call b _ _ =>
    have base : id ∉ declaredIds b.walk := fun listed =>
      unlisted (by simp [Expr.walk, declaredIds_expression, declaredIds_append, listed])
    rw [resolve]
    exact skips_resolveAccess (skips_rootValue env b base) _
  | identifier n sp =>
    rw [resolve]
    exact skips_resolveAccess (.lift _) _
  | _ =>
    rw [resolve]
    · exact .lift _
    all_goals simp

theorem skips_rootValue (env : Env) (e : Expr) (unlisted : id ∉ declaredIds e.walk) :
    Skips id (env.rootValue e) := by
  cases e with
  | map fs sp =>
    rw [rootValue]
    exact skips_newMap _ fun map => skips_resolveFields env map fs unlisted
  | list is sp =>
    rw [rootValue]
    exact skips_newList _ (skips_resolveItems env is unlisted)
  | unary _ b _ | member b _ _ | index b _ _ | slice b _ _ _ | call b _ _ =>
    have base : id ∉ declaredIds b.walk := fun listed =>
      unlisted (by simp [Expr.walk, declaredIds_expression, declaredIds_append, listed])
    rw [rootValue]
    exact skips_rootValue env b base
  | _ =>
    rw [rootValue]
    · exact .lift _
    all_goals simp

theorem skips_resolveFields (env : Env) (map : Handle) (fs : Fields)
    (unlisted : id ∉ declaredIds (walkFields fs)) : Skips id (env.resolveFields map fs) := by
  cases fs with
  | nil =>
    rw [resolveFields]
    exact .pure ()
  | cons field rest =>
    obtain ⟨k, v⟩ := field
    simp only [walkFields, declaredIds_append, List.mem_append, not_or] at unlisted
    rw [resolveFields]
    refine (skips_resolve env v unlisted.1.2).bind fun value => (Skips.lift _).bind fun _ => ?_
    exact skips_resolveFields env map rest unlisted.2

theorem skips_resolveItems (env : Env) (es : List Expr)
    (unlisted : id ∉ declaredIds (walkExprs es)) : Skips id (env.resolveItems es) := by
  cases es with
  | nil =>
    rw [resolveItems]
    exact .pure []
  | cons e rest =>
    rw [walkExprs, declaredIds_append, List.mem_append, not_or] at unlisted
    rw [resolveItems]
    exact (skips_resolve env e unlisted.1).bind fun first =>
      (skips_resolveItems env rest unlisted.2).bind fun others => .pure (first :: others)

theorem skips_resolveFunction (env : Env) (d : FunctionDecl) (unlisted : id ∉ declaredIds d.walk) :
    Skips id (env.resolveFunction d) := by
  cases d with
  | mk ps body sp =>
    simp only [FunctionDecl.walk, declaredIds_enter, declaredIds_append, List.mem_cons,
      List.mem_append, not_or] at unlisted
    rw [resolveFunction]
    refine (skips_resolveArguments env ps unlisted.2.1.1).bind fun arguments => ?_
    exact skips_newFunction arguments unlisted.1

theorem skips_resolveArguments (env : Env) (ps : List Param)
    (unlisted : id ∉ declaredIds (walkParams ps)) : Skips id (env.resolveArguments ps) := by
  cases ps with
  | nil =>
    rw [resolveArguments]
    exact .pure []
  | cons p rest =>
    rw [walkParams, declaredIds_append, List.mem_append, not_or] at unlisted
    rw [resolveArguments]
    exact (skips_resolveArgument env p unlisted.1).bind fun first =>
      (skips_resolveArguments env rest unlisted.2).bind fun others => .pure (first :: others)

theorem skips_resolveArgument (env : Env) (p : Param) (unlisted : id ∉ declaredIds p.walk) :
    Skips id (env.resolveArgument p) := by
  cases p with
  | plain n sp =>
    rw [resolveArgument]
    exact .pure _
  | withDefault n d sp =>
    rw [resolveArgument]
    exact (skips_resolve env d unlisted).bind fun value =>
      (Skips.lift _).bind fun e => (Skips.lift _).bind fun _ => .pure _

end

theorem skips_define {target : Expr} (unlisted : id ∉ declaredIds target.walk) (value : Handle) :
    Skips id (env.define target value) := by
  have refuse : Skips id (do Infer.release value; return false) :=
    (Skips.lift _).bind fun _ => .pure false
  unfold define
  dsimp only
  split
  · exact refuse
  · exact refuse
  · split
    · exact .lift _
    · exact refuse
  · refine (skips_walk (skips_rootValue env target unlisted) _ _).bind fun found => ?_
    cases found with
    | none => exact refuse
    | some container =>
      have answer : ∀ {x : Resolve Bool}, Skips id x → Skips id (do
          let taken ← x
          Infer.release container
          return taken) := fun hx => hx.bind fun taken => (Skips.lift _).bind fun _ => .pure taken
      dsimp only
      split
      · exact answer (.lift _)
      · refine (Skips.lift _).bind fun key => (Skips.lift _).bind fun taken => ?_
        exact (Skips.lift _).bind fun _ => answer (.pure taken)
      · exact answer refuse

end Env

namespace Discipline
variable {f : Handle} {own own' : Multiset Handle} {s t : Store}

/-- Nothing names the entity, which has the given contents and is not at hand. -/
structure Aside (f : Handle) (e : Entity) (own : Multiset Handle) (s : Store) : Prop where
  closed : s.Closed
  stored : f ∈ s
  contents : s.node f = e
  unnamed : ∀ n, f ∉ (s.node n).links
  others : ∀ h ∈ own, h ∈ s ∧ h ≠ f

namespace Aside

theorem linked (l : Aside f e own s) {n k : Handle} (hk : k ∈ (s.node n).links) : k ∈ s ∧ k ≠ f :=
  ⟨l.closed.links n hk, fun same => l.unnamed n (same ▸ hk)⟩

section
variable (l : Aside f e own s)

include l

theorem recount (nodes : t.nodes = s.nodes)
    (others : ∀ h ∈ own', h ∈ own ∨ h ∈ s ∧ h ≠ f) : Aside f e own' t where
  closed := l.closed.of_nodes_eq nodes
  stored := by
    rw [Store.mem_iff, Store.size_eq nodes]
    exact l.stored
  contents := (Store.node_eq nodes f).trans l.contents
  unnamed n := by
    rw [Store.node_eq nodes]
    exact l.unnamed n
  others h hh := by
    rw [Store.mem_iff, Store.size_eq nodes]
    exact (others h hh).elim (l.others h) id

/-- A larger store in which everything is as it was, and what is named has been named before. -/
theorem grow (closed : t.Closed) (size_le : s.size ≤ t.size)
    (kept : ∀ n ∈ s, t.node n = s.node n)
    (named : ∀ n, ∀ k ∈ (t.node n).links, k ∈ s → ∃ m, k ∈ (s.node m).links) (stored : h ∈ t)
    (new : h ∉ s) : Aside f e (h ::ₘ own) t where
  closed := closed
  stored := Nat.lt_of_lt_of_le l.stored size_le
  contents := (kept f l.stored).trans l.contents
  unnamed n hn := by
    obtain ⟨m, hm⟩ := named n f hn l.stored
    exact l.unnamed m hm
  others k hk := by
    rcases Multiset.mem_cons.1 hk with rfl | hk
    · exact ⟨stored, fun same => new (same ▸ l.stored)⟩
    · exact ⟨Nat.lt_of_lt_of_le (l.others k hk).1 size_le, (l.others k hk).2⟩

theorem alloc {c : Entity} (links : ∀ k ∈ c.links, ∃ m, k ∈ (s.node m).links) :
    Aside f e ((s.alloc c).1 ::ₘ own) (s.alloc c).2 := by
  have closed := l.closed.alloc fun k hk => (links k hk).elim fun m hm => l.closed.links m hm
  refine l.grow closed (by rw [Store.size_alloc]; omega) (Store.node_alloc_lt c s)
    (fun n k hk _ => ?_) (Store.mem_alloc c s) (Nat.lt_irrefl s.size)
  rw [Store.node_alloc_eq] at hk
  split at hk
  · exact links k hk
  · exact ⟨n, hk⟩

/-- What is at hand may be written to, with links to anything else. -/
theorem modify (hh : h ∈ own) {g : Entity → Entity}
    (links : ∀ k ∈ (g (s.node h)).links, (k ∈ s ∧ k ≠ f) ∨ k ∈ (s.node h).links) :
    Aside f e own (s.modifyNode h g) where
  closed := l.closed.modifyNode fun k hk => (links k hk).elim And.left (l.closed.links h)
  stored := by
    rw [Store.mem_iff, Store.size_modifyNode]
    exact l.stored
  contents := by
    rw [Store.node_modifyNode_eq, if_neg fun here => (l.others h hh).2 here.1.symm]
    exact l.contents
  unnamed n hn := by
    rw [Store.node_modifyNode_eq] at hn
    split at hn
    · rename_i here
      rw [here.1] at hn
      exact (links f hn).elim (fun other => other.2 rfl) (l.unnamed h)
    · exact l.unnamed n hn
  others k hk := by
    rw [Store.mem_iff, Store.size_modifyNode]
    exact l.others k hk

end

theorem write (l : Aside f e own s) {value : Handle} (hh : h ∈ own) (hv : value ∈ own)
    (slots : List EntryKey) : Aside f e own (s.write h slots value) := by
  induction slots generalizing s with
  | nil => exact l
  | cons slot rest ih =>
    refine ih (l.modify hh fun k hk => ?_)
    rcases Entity.mem_links_insert hk with rfl | old
    · exact .inl (l.others k hv)
    · exact .inr old

theorem setProperty (l : Aside f e own s) {value : Handle} (hh : h ∈ own) (hv : value ∈ own)
    (key : Property) : Aside f e own (s.setProperty h key value).2 := by
  rcases Store.setProperty_cases h key value s with ⟨-, nodes⟩ | ⟨-, nodes⟩
  · exact (l.write hh hv _).recount nodes fun _ => .inl
  · exact l.recount nodes fun _ => .inl

end Aside

/-- The discipline of an entity that stands aside. -/
def aside (f : Handle) (e : Entity) : Discipline where
  InOrder := Aside f e
  Live s h := h ∈ s ∧ h ≠ f
  Open _ _ := True
  New _ := True
  strict := False
  table _ := 0
  open_of_live _ := trivial
  live_of_mem l := l.others _
  held l _ hk := l.linked (Entity.mem_links_of_mem_holds hk)
  linked l _ hk _ := l.linked hk
  chain _ _ _ := trivial
  mono l le := l.recount rfl fun _ hh => .inl (Multiset.mem_of_le le hh)
  new _ := trivial
  make l bare := l.alloc fun k hk => by simp [bare] at hk
  copy {_ s h} l _ o := l.alloc (c := (s.node h).override o) fun k hk => ⟨h, hk⟩
  retain l hh :=
    l.recount rfl fun _ hk => (Multiset.mem_cons.1 hk).elim (fun same => .inr (same ▸ hh)) .inl
  release {_ s h} l :=
    l.recount (Store.nodes_release h s) fun _ hk => .inl (Multiset.mem_cons_of_mem hk)
  union l alive ran := by
    have unites := Infer.unites_union l.closed (fun b hb => (alive b hb).1) ran
    refine ⟨l.grow unites.closed unites.store.size_le unites.store.kept unites.store.named
      unites.stored ?_, trivial⟩
    rw [unites.new]
    exact Nat.lt_irrefl _
  setProperty l _ hh key :=
    (l.setProperty (Multiset.mem_cons_of_mem hh) (Multiset.mem_cons_self _ _) key).recount rfl
      fun _ hk => .inl (Multiset.mem_cons_of_mem hk)
  inherit {_ s h prototype} l _ hh := by
    have other := l.others prototype (Multiset.mem_cons_self _ _)
    refine Aside.recount (l.modify (Multiset.mem_cons_of_mem hh) fun k hk => ?_)
      (Store.nodes_inherit h prototype s) fun _ hk => .inl (Multiset.mem_cons_of_mem hk)
    rcases Entity.mem_links_isa hk with ⟨p, isa, rfl⟩ | old
    · exact .inl (Option.some.inj isa ▸ other)
    · exact .inr old
  setContext l hh ho _ _ := l.modify hh fun k hk => by
    rcases Entity.mem_links_context hk with same | old
    · exact .inl (Option.some.inj same ▸ ho)
    · exact .inr old
  setLabel l hh _ _ _ _ := l.modify hh fun _ => .inr
  record l _ := by
    refine l.recount (Store.nodes_releaseAll _ _) fun k hk => .inl ?_
    rwa [add_zero] at hk ⊢

end Discipline

namespace Env
variable {env : Env} {s t : Store} {own : Multiset Handle} {table table' : FunctionTable}
  {bound : Nat} {f : Handle}

open Infer Discipline

theorem anchored_aside (env : Env) (f : Handle) (e : Entity) :
    env.Anchored (aside f e) ↑env.scope.holds :=
  ⟨fun _ hh => .of_mem (Multiset.mem_coe.2 hh), fun _ _ _ _ _ _ => trivial⟩

/-- A function is recorded under the id of its declaration, and it stands aside. -/
structure Records (own : Multiset Handle) (id : String) (f : Handle) (table : FunctionTable)
    (t : Store) : Prop where
  recorded : table.get? id = some f
  aside : Aside f (t.node f) own t
  function : (t.node f).kind = .function
  plain : (t.node f).isReferenceShaped = false

theorem records_newFunction (closed : s.Closed) (inside : ∀ h ∈ own, h ∈ s)
    {arguments : List Argument}
    (h : newFunction arguments declaration table bound s = .ok ((f, table'), t)) :
    Records own declaration.id f table' t := by
  let contents : Entity :=
    { Entity.ofType .function Tag.function with
      label := "function"
      source := some declaration.id
      line := some declaration.line
      signatures := .ofList [.function arguments []] }
  have bare : contents.links = [] := rfl
  obtain rfl : f = (s.alloc contents).1 := by
    cases h
    rfl
  have nodes : t.nodes = (s.alloc contents).2.nodes := by
    cases h
    exact Store.nodes_releaseAll _ _
  have made : t.node (s.alloc contents).1 = contents := by
    rw [Store.node_eq nodes, Store.node_alloc]
  have outside : (s.alloc contents).1 ∉ s := Nat.lt_irrefl s.size
  have start : Aside (s.alloc contents).1 contents own (s.alloc contents).2 := by
    refine ⟨closed.alloc
      fun k hk => by simp [bare] at hk, Store.mem_alloc _ s, Store.node_alloc _ s,
      fun n hn => ?_, fun k hk => ?_⟩
    · rw [Store.node_alloc_eq] at hn
      split at hn
      · simp [bare] at hn
      · exact outside (closed.links n hn)
    · refine ⟨?_, fun same => outside (same ▸ inside k hk)⟩
      rw [Store.mem_iff, Store.size_alloc]
      exact Nat.lt_succ_of_lt (inside k hk)
  refine ⟨?_, ?_, ?_, ?_⟩
  · cases h
    exact (SortedMap.get?_insert ..).trans (if_pos rfl)
  · rw [made]
    exact start.recount nodes fun _ => .inl
  · rw [made]
    rfl
  · rw [made]
    rfl

theorem records_resolve (closed : s.Closed) (inside : ∀ h ∈ own, h ∈ s)
    (anchored : env.Anchored (frame 0 s) own) {span : Span}
    (h : env.resolve (.function decl span) table bound s = .ok ((f, table'), t)) :
    Records own decl.id f table' t := by
  rw [resolve] at h
  cases decl with
  | mk ps body declaration =>
    rw [resolveFunction] at h
    obtain ⟨arguments, table₁, u, resolved, h⟩ := Resolve.bind_ok h
    have start : Framed 0 s (own + 0) s :=
      .start ⟨closed, Nat.zero_le _⟩ ((add_zero own).symm ▸ inside)
    have done :=
      ((balanced_resolveArguments env ps anchored False.elim table s start).runs _ _ _ resolved).1
    exact records_newFunction done.ready.closed
      (fun k hk => done.inside k (Multiset.mem_of_le (Multiset.le_add_right _ _) hk)) h

/-- What is stored in the place of the function is a copy. -/
theorem aside_prepare (l : Aside f e own s) (plain : e.isReferenceShaped = false)
    {name : Option String} {line : UInt64} {item : Handle}
    (h : prepare f name line bound s = .ok (item, t)) : Aside f e (item ::ₘ own) t := by
  obtain ⟨_, _, read, h⟩ := bind_ok h
  cases read
  rw [l.contents, if_neg (Bool.eq_false_iff.1 plain)] at h
  cases h
  have copied := (aside f e).copy (h := f) l trivial
  exact Aside.recount (copied _) (Store.nodes_release _ _) fun _ => .inl

/-- The field of a map constructor gives the function its context and stores a copy. -/
theorem aside_setField {map : Handle} (l : Aside f e own s) (hm : map ∈ own)
    (function : e.kind = .function) (plain : e.isReferenceShaped = false)
    (anchored : env.Anchored (aside f { e with context := some map }) own)
    (h : env.setField map key f bound s = .ok ((), t)) :
    Aside f { e with context := some map } own t := by
  have other := l.others map hm
  unfold setField at h
  obtain ⟨_, _, read, h⟩ := bind_ok h
  cases read
  dsimp only at h
  rw [l.contents, if_pos function] at h
  obtain ⟨_, u, set, h⟩ := bind_ok h
  have given : Aside f { e with context := some map } own u := by
    cases set
    refine ⟨l.closed.setContext other.1 f, ?_, ?_, fun n hn => ?_, fun k hk => ?_⟩
    · rw [Store.setContext, Store.mem_iff, Store.size_modifyNode]
      exact l.stored
    · rw [Store.setContext, Store.node_modifyNode f f _ s l.stored, if_pos rfl, l.contents]
    · rw [Store.setContext, Store.node_modifyNode_eq] at hn
      split at hn
      · rcases Entity.mem_links_context hn with same | old
        · exact other.2 (Option.some.inj same)
        · exact l.unnamed n old
      · exact l.unnamed n hn
    · rw [Store.setContext, Store.mem_iff, Store.size_modifyNode]
      exact l.others k hk
  have stored : ∀ {own v w x name line item key taken},
      Aside f { e with context := some map } own v →
      map ∈ own → prepare f name line bound v = .ok (item, w) →
      Infer.setProperty map key item bound w = .ok (taken, x) →
      Aside f { e with context := some map } own x := by
    intro own v w x name line item key taken l hm prepared set
    have result : w.setProperty map key item = (taken, x) := Except.ok.inj set
    have done := (aside f _).setProperty (aside_prepare l plain prepared) trivial hm key
    rwa [result] at done
  have computed : ∀ {key : Expr}, (do
      let k ← env.resolveType false key
      let value ← Infer.prepare f none key.line
      let _ ← Infer.setProperty map (.value k) value
      Infer.release k : Infer Unit) bound u = .ok ((), t) →
      Aside f { e with context := some map } own t := by
    intro key h
    obtain ⟨k, v, resolved, h⟩ := bind_ok h
    obtain ⟨item, w, prepared, h⟩ := bind_ok h
    obtain ⟨taken, x, set, h⟩ := bind_ok h
    cases h
    have typed := ((balanced_resolveType anchored given false key).runs _ _ _ resolved).1
    have done := stored typed (Multiset.mem_cons_of_mem hm) prepared set
    exact (aside f { e with context := some map }).release done
  cases key with
  | string name sp =>
    obtain ⟨item, v, prepared, h⟩ := bind_ok h
    obtain ⟨taken, w, set, h⟩ := bind_ok h
    cases h
    exact stored given hm prepared set
  | _ => exact computed h

theorem resolveFields_append (map : Handle) (fs gs : Fields) :
    env.resolveFields map (fs ++ gs) = (do
      env.resolveFields map fs
      env.resolveFields map gs) := by
  induction fs with
  | nil =>
    rw [resolveFields]
    exact (pure_bind _ _).symm
  | cons field rest ih =>
    rw [List.cons_append, resolveFields, resolveFields, ih]
    simp only [bind_assoc]

/-- A function in a field of a map constructor has the map as its context, whatever the other fields
are, and it stays recorded if they do not declare it again. -/
theorem context_resolveFields (closed : s.Closed) (fits : env.Fits s) {map : Handle} (hm : map ∈ s)
    {before after : Fields} {span : Span} (unlisted : decl.id ∉ declaredIds (walkFields after))
    (h : env.resolveFields map (before ++ (key, .function decl span) :: after) table bound s = .ok
      (((), table'), t)) : ∃ f, table'.get? decl.id = some f ∧ (t.node f).context = some map := by
  rw [resolveFields_append] at h
  obtain ⟨_, table₁, u, first, h⟩ := Resolve.bind_ok h
  have start : Framed 0 s (map ::ₘ ↑env.scope.holds + 0) s := by
    rw [add_zero]
    refine .start ⟨closed, Nat.zero_le _⟩ fun k hk => ?_
    rcases Multiset.mem_cons.1 hk with rfl | scope
    · exact hm
    · exact fits k (Multiset.mem_coe.1 scope)
  have framed :=
    ((balanced_resolveFields env before (env.anchored_frame 0 s) (Nat.zero_le _) False.elim
      table s start).runs _ _ _ first).1
  have inside : ∀ k ∈ map ::ₘ ↑env.scope.holds, k ∈ u := fun k hk =>
    framed.inside k (Multiset.mem_of_le (Multiset.le_add_right _ _) hk)
  rw [resolveFields] at h
  obtain ⟨f, table₂, v, made, h⟩ := Resolve.bind_ok h
  obtain ⟨_, table₃, w, set, later⟩ := Resolve.bind_ok h
  obtain ⟨ran, rfl⟩ := Resolve.lift_ok set
  have records :=
    records_resolve framed.ready.closed inside ((env.anchored_frame 0 u).cons map) made
  have anchored := env.anchored_aside f { v.node f with context := some map }
  have stored :=
    aside_setField records.aside (Multiset.mem_cons_self map _) records.function records.plain
    (anchored.cons map) ran
  have done := ((balanced_resolveFields env after anchored trivial False.elim table₃ w
    ((add_zero (map ::ₘ ↑env.scope.holds)).symm ▸ stored)).runs _ _ _ later).1
  refine ⟨f, ?_, ?_⟩
  · rw [skips_resolveFields env map after unlisted _ _ _ _ _ _ later]
    exact records.recorded
  · rw [done.contents]

/-- A function that is assigned to a member of an entity has it as its context, and it stays
recorded if the target does not declare it again. -/
theorem context_run (closed : s.Closed) (fits : env.Fits s) {target : Expr} {span span' : Span}
    (h : env.run (.assignment target (.function decl span) span') table bound s = .ok ((true,
      table'), t)) :
    ∃ f table₁ u, env.resolve (.function decl span) table bound s = .ok ((f, table₁), u) ∧
      table₁.get? decl.id = some f ∧
      (decl.id ∉ declaredIds target.walk → table'.get? decl.id = some f) ∧
      ∀ owner, env.Leads target table₁ bound u owner → (t.node f).context = some owner := by
  obtain ⟨f, table₁, u, made, defined⟩ := Resolve.bind_ok h
  have records := records_resolve closed (fun k hk => fits k (Multiset.mem_coe.1 hk))
    (env.anchored_frame 0 s) made
  have safe := safe_resolve env (.function decl span) ⟨closed, Nat.le_refl _⟩ fits table
  obtain ⟨ready, keeps, -⟩ := safe.runs _ _ _ made
  have outcome := outcome_define ready.closed (fits.mono keeps) records.aside.stored defined
  refine ⟨f, table₁, u, made, records.recorded, fun unlisted => ?_, fun owner leads => ?_⟩
  · rw [skips_define unlisted f _ _ _ _ _ _ defined]
    exact records.recorded
  · exact outcome.context leads records.function

end Env

end ScriptInference
