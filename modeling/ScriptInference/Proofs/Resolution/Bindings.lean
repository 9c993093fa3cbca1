import ScriptInference.Proofs.Resolution.Construction
import ScriptInference.Proofs.Resolution.Rebinding

/-!
# Bindings keep the ledger in order

To bind a value is to hand over a hold on it, to a scope, to an entity, or to nobody if it is
refused. Bindings write to whatever an expression leads to, so nothing is protected from them; the
ledger is that of the empty ground, on which it accounts for all the holds there are.
-/

namespace ScriptInference

namespace Infer
variable {D : Discipline} {s : Store} {own : Multiset Handle} {n : Namespace}

theorem balanced_mergeStored {value : Handle} (l : D.InOrder (value ::ₘ own) s)
    (hn : D.Open s n.container) (key : Property) :
    Balanced D s (mergeStored n key value) (· ::ₘ own) fun _ => True := by
  refine .bind_get ?_
  have alive : ∀ b ∈ stored s n key value ++ [value], D.Live s b := by
    intro b hb
    rcases List.mem_append.1 hb with hb | hb
    · obtain ⟨slot, member⟩ := exists_of_mem_stored hb
      exact D.live_member l hn (SortedMap.mem_values_iff.2 ⟨slot, member⟩)
    · exact List.mem_singleton.1 hb ▸ D.live_head l
  split
  · exact .pure l trivial
  · refine (balanced_union l _ _ alive).bind fun t merged l' _ => ?_
    rw [Multiset.cons_swap] at l'
    exact (balanced_release l').bind fun u _ l'' _ => .pure l'' trivial

theorem balanced_own {value : Handle} (l : D.InOrder own s) (hv : value ∈ own)
    (hn : D.Live s n.container) (allowed : D.strict → D.New value) :
    Balanced D s (modify (Store.modifyNode value (Entity.owned n.owner?))) (fun _ => own)
      fun _ => True := by
  refine .of_step (fun _ => rfl) ?_ trivial
  rcases s.own_cases n value with same | ⟨owner, owned, function, same⟩
  · rwa [same]
  · rw [same]
    exact D.setContext l hv (n.container_of_owner? owned ▸ hn) function allowed

theorem balanced_offer {value : Handle} (l : D.InOrder (value ::ₘ own) s) (merge : Bool)
    (hn : D.Anchored own n.container) (key : Property) (line : UInt64)
    (allowed : D.strict → D.New value) :
    Balanced D s (offer merge n key value line) (· ::ₘ own) fun _ => True := by
  have alive : ∀ {t k}, D.InOrder (k ::ₘ own) t → D.Live t n.container := fun l =>
    (hn.mono (Multiset.le_cons_self own _)).live l
  refine (balanced_own l (Multiset.mem_cons_self _ _) (alive l) allowed).bind fun t _ l' _ => ?_
  refine (balanced_prepare l' _ line fun _ => allowed).bind fun u bound l'' _ => ?_
  cases merge with
  | false => exact .pure l'' trivial
  | true => exact balanced_mergeStored l'' (D.open_of_live (alive l'')) key

theorem balanced_store {value : Handle} (l : D.InOrder (value ::ₘ own) s) (new : D.New n.container)
    (hn : n.container ∈ own) (key : Property) :
    Balanced D s (modifyGet (n.setProperty key value)) (fun _ => own) fun _ => True := by
  have booked : D.InOrder own (n.setProperty key value s).2 := by
    unfold Namespace.setProperty
    split
    · unfold Scope.setProperty
      split
      · exact D.release l
      · exact D.setProperty l new hn _
    · exact D.setProperty l new hn _
  exact .of_step (fun _ => rfl) booked trivial

theorem balanced_bind {value : Handle} (l : D.InOrder (value ::ₘ own) s) (merge : Bool)
    (new : D.New n.container) (hn : n.container ∈ own) (key : Property) (line : UInt64)
    (allowed : D.strict → D.New value) :
    Balanced D s (Infer.bind merge n key value line) (fun _ => own) fun _ => True := by
  rw [bind_eq_offer]
  refine (balanced_offer l merge (.of_mem hn) key line allowed).bind fun t bound l' _ => ?_
  exact balanced_store l' new hn key

end Infer

namespace Discipline

/-- Everything may be written to, and the table holds what is recorded in it. -/
structure Lax (D : Discipline) : Prop where
  new : ∀ h, D.New h
  loose : ¬D.strict
  table : ∀ t, D.table t = ↑t.values

end Discipline

/-- The ledger accounts for everything that is held in the store. -/
abbrev Store.Accounts (s : Store) (own : Multiset Handle) : Prop := Store.empty.Ledger False own s

/-- The discipline of the accounts. -/
abbrev Discipline.accounts : Discipline := ledger Store.empty False

theorem Discipline.lax_accounts : accounts.Lax := ⟨fun _ => Nat.not_lt_zero _, id, fun _ => rfl⟩

/-- The holds at hand include those of the scope, and the registry may be read. -/
structure Env.Owned (env : Env) (D : Discipline) (own : Multiset Handle) : Prop where
  scope : ∀ h ∈ env.scope.holds, h ∈ own
  registry : env.registry.Known D own

namespace Env
variable {env : Env} {D : Discipline} {s : Store} {own own' : Multiset Handle}

open Infer

theorem Owned.mono (owned : env.Owned D own) (le : own ≤ own') : env.Owned D own' :=
  ⟨fun h hh => Multiset.mem_of_le le (owned.scope h hh), owned.registry.mono le⟩

theorem Owned.cons (owned : env.Owned D own) (h : Handle) : env.Owned D (h ::ₘ own) :=
  owned.mono (Multiset.le_cons_self own h)

theorem Owned.anchored (owned : env.Owned D own) : env.Anchored D own :=
  ⟨fun h hh => .of_mem (owned.scope h hh), owned.registry⟩

theorem Owned.locals (owned : env.Owned D own) : env.scope.locals ∈ own :=
  owned.scope _ Scope.locals_mem_holds

section Elements

theorem balanced_listElement (anchored : env.Anchored D own) (l : D.InOrder own s) {list : Handle}
    (hl : list ∈ own) : Balanced D s (env.listElement list) (· ::ₘ own) fun _ => True := by
  refine (balanced_make l rfl).bind fun t key l' _ => ?_
  have opened := D.open_of_live (D.live_of_mem l' (Multiset.mem_cons_of_mem hl))
  refine (balanced_resolveProperty (anchored.cons key).registry l' opened _ false).bind ?_
  intro u found l'' _
  rw [Multiset.cons_swap] at l''
  exact (balanced_release l'').bind fun v _ done _ => .pure done trivial

theorem balanced_mapEntry (l : D.InOrder own s) :
    Balanced D s mapEntry (· ::ₘ own) fun _ => True := by
  refine (balanced_make l rfl).bind fun t entry l₁ new => ?_
  refine (balanced_make l₁ rfl).bind fun u key l₂ _ => ?_
  refine (balanced_setProperty l₂ new (Multiset.mem_cons_self _ _) _).bind fun v _ l₃ _ => ?_
  refine (balanced_make l₃ rfl).bind fun w value l₄ _ => ?_
  refine (balanced_setProperty l₄ new (Multiset.mem_cons_self _ _) _).bind fun x _ l₅ _ => ?_
  exact .pure l₅ trivial

/-- Computations made one after the other, each of which gives back one hold. -/
theorem balanced_mapM {α : Type} {xs : List α} {f : α → Infer Handle} {more : Multiset Handle}
    (le : own ≤ more) (l : D.InOrder more s)
    (balanced : ∀ x ∈ xs, ∀ own' t, own ≤ own' → D.InOrder own' t →
      Balanced D t (f x) (· ::ₘ own') fun _ => True) :
    Balanced D s (xs.mapM f) (fun hs => holding hs more) fun _ => True := by
  induction xs generalizing s more with
  | nil => exact .pure l trivial
  | cons x rest ih =>
    rw [List.mapM_cons]
    refine (balanced x List.mem_cons_self more s le l).bind fun t first l' _ => ?_
    have later := ih (le.trans (Multiset.le_cons_self more first)) l' fun y hy =>
      balanced y (List.mem_cons_of_mem x hy)
    refine later.bind fun u others done _ => .pure ?_ trivial
    rw [← cons_holding] at done
    exact done

theorem balanced_elementParts (anchored : env.Anchored D own) (l : D.InOrder own s)
    {collection : Handle} (hc : collection ∈ own) :
    Balanced D s (env.elementParts collection) (fun hs => holding hs own) fun _ => True := by
  refine .bind_node (balanced_mapM (le_refl own) l fun source listed own' t le l' => ?_)
  have source_mem := (List.mem_filter.1 listed).1
  simp only [elementSources, List.mem_cons, List.not_mem_nil, or_false] at source_mem
  rcases source_mem with rfl | rfl | rfl
  · exact balanced_listElement (anchored.mono le) l' (Multiset.mem_of_le le hc)
  · exact (balanced_make l' rfl).forget
  · exact balanced_mapEntry l'

end Elements

/-- With the holds that a computation spends and gives back, and nothing else to say. -/
abbrev Books {α : Type} (D : Discipline) (own : Multiset Handle) (x : Resolve α)
    (give : α → Multiset Handle) : Prop :=
  Resolve.Balanced D own x give fun _ => True

theorem books_release (h : Handle) : Books D (h ::ₘ own) (liftM (release h)) fun _ => own :=
  .lift [h] (fun _ => []) fun _ _ _ l => balanced_release l

theorem books_make {e : Entity} (bare : e.links = []) : Books D own (liftM (alloc e)) (· ::ₘ own) :=
  (balanced_lift_make bare).forget

theorem books_resolveElement (anchored : env.Anchored D own) {iterator : Expr}
    (quiet : D.strict → iterator.quiet) :
    Books D own (env.resolveElement iterator) (· ::ₘ own) := by
  refine (balanced_resolve env iterator anchored quiet).bind fun collection _ => ?_
  have parted : Books D (collection ::ₘ own) (liftM (env.elementParts collection))
      fun hs => holding hs (collection ::ₘ own) :=
    .lift [] id fun own' s le l => balanced_elementParts ((anchored.cons collection).mono le) l
      (Multiset.mem_of_le le (Multiset.mem_cons_self _ _))
  refine parted.bind fun parts _ => ?_
  have answer : ∀ element, Books D (element ::ₘ collection ::ₘ own) (do
      Infer.release collection
      return element) (· ::ₘ own) := by
    intro element
    rw [Multiset.cons_swap]
    exact (books_release collection).bind fun _ _ => .pure rfl trivial
  dsimp only
  split
  · exact (books_make rfl).bind fun element _ => answer element
  · exact answer _
  · have united : Books D (holding parts (collection ::ₘ own))
        (liftM (Infer.union .expression "element" parts))
        fun merged => merged ::ₘ holding parts (collection ::ₘ own) :=
      .lift [] ([·]) fun own' s le l => (balanced_union l _ _ fun b hb => D.live_of_mem l
        (Multiset.mem_of_le le (mem_holding.2 (.inl hb)))).forget
    refine united.bind fun merged _ => ?_
    rw [cons_holding]
    have released : Books D (holding parts (merged ::ₘ collection ::ₘ own))
        (liftM (Infer.releaseAll parts)) fun _ => merged ::ₘ collection ::ₘ own :=
      .lift parts (fun _ => []) fun _ _ _ l => balanced_releaseAll l
    exact released.bind fun _ _ => answer merged

section Lax
variable (lax : D.Lax)

include lax

theorem books_resolve (owned : env.Owned D own) (e : Expr) :
    Books D own (env.resolve e) (· ::ₘ own) :=
  (balanced_resolve env e owned.anchored fun strict => absurd strict lax.loose).forget

theorem books_bind (merge : Bool) {n : Namespace} (hn : n.container ∈ own) (key : Property)
    (value : Handle) (line : UInt64) :
    Books D (value ::ₘ own) (liftM (Infer.bind merge n key value line)) fun _ => own :=
  .lift [value] (fun _ => []) fun _ _ le l =>
    balanced_bind l merge (lax.new _) (Multiset.mem_of_le le hn) key line fun _ => lax.new value

theorem books_bindName {c : Scope} (held : c.locals ∈ own) (name : String) (value : Handle) :
    Books D (value ::ₘ own) (liftM (bindName c name value)) fun _ => own := by
  refine .lift [value] (fun _ => []) fun own' s le l => ?_
  exact balanced_store (n := .scope c) l (lax.new _) (Multiset.mem_of_le le held) (.identifier name)

variable (owned : env.Owned D own)

include owned

theorem books_define (target : Expr) (value : Handle) :
    Books D (value ::ₘ own) (env.define target value) fun _ => own := by
  have refuse : ∀ {own}, Books D (value ::ₘ own) (do Infer.release value; return false)
      fun _ => own :=
    (books_release value).bind fun _ _ => .pure rfl trivial
  unfold define
  dsimp only
  split
  · exact refuse
  · exact refuse
  · split
    · exact books_bind lax _ (n := .scope env.scope) owned.locals _ value _
    · exact refuse
  · have anchored' := (owned.cons value).anchored
    have root : Books D (value ::ₘ own) (env.rootValue target) (· ::ₘ value ::ₘ own) :=
      balanced_rootValue env target anchored' fun strict => absurd strict lax.loose
    refine (balanced_walk anchored' root _ _).bind fun found _ => ?_
    cases found with
    | none => exact refuse
    | some container =>
      -- what is bound is spent, and the container is still held
      have answer : ∀ {x : Resolve Bool},
          Books D (value ::ₘ container ::ₘ own) x (fun _ => container ::ₘ own) →
          Books D (container ::ₘ value ::ₘ own) (do
            let taken ← x
            Infer.release container
            return taken) fun _ => own := by
        intro x hx
        rw [Multiset.cons_swap]
        refine hx.bind fun taken _ => ?_
        exact (books_release container).bind fun _ _ => .pure rfl trivial
      dsimp only
      split
      · exact answer
          (books_bind lax _ (n := .entity container) (Multiset.mem_cons_self _ _) _ value _)
      · -- the key is resolved before the value is bound
        refine (balanced_lift_resolveType (anchored'.cons container) false _).bind fun key _ => ?_
        rw [Multiset.cons_swap container, Multiset.cons_swap key]
        have held : container ∈ key ::ₘ container ::ₘ own :=
          Multiset.mem_cons_of_mem (Multiset.mem_cons_self _ _)
        refine (books_bind lax _ (n := .entity container) held _ value _).bind fun taken _ => ?_
        refine (books_release key).bind fun _ _ => ?_
        have known : Books D (container ::ₘ own) (pure taken) fun _ => container ::ₘ own :=
          .pure rfl trivial
        refine known.bind fun taken _ => ?_
        exact (books_release container).bind fun _ _ => .pure rfl trivial
      · exact answer refuse

theorem books_assign (target init : Expr) : Books D own (env.assign target init) fun _ => own :=
  (books_resolve lax owned init).bind fun value _ => books_define lax owned target value

theorem books_defineParameter (p : Param) : Books D own (env.defineParameter p) fun _ => own := by
  have value : Books D own (env.parameterValue p) (· ::ₘ own) := by
    rw [parameterValue]
    cases p.default? with
    | some d => exact books_resolve lax owned d
    | none => exact books_make rfl
  refine value.bind fun value _ => ?_
  have copied : Books D (value ::ₘ own) (liftM (Infer.copy value
      { kind := some .parameter, label := some p.name, line := some p.span.line }))
      fun bound => bound ::ₘ value ::ₘ own :=
    .lift [] ([·]) fun own' s le l => (balanced_copy l (D.open_of_live (D.live_of_mem l
      (Multiset.mem_of_le le (Multiset.mem_cons_self _ _)))) _).forget
  refine copied.bind fun bound _ => ?_
  refine (books_bindName lax (owned.cons value).locals p.name bound).bind fun _ _ => ?_
  exact books_release value

theorem books_defineParameters (ps : List Param) :
    Books D own (env.defineParameters ps) fun _ => own := by
  induction ps with
  | nil => exact .pure rfl trivial
  | cons p rest ih => exact (books_defineParameter lax owned p).bind fun _ _ => ih

theorem books_defineLoop (element iterator : Expr) (span : Span) :
    Books D own (env.defineLoop element iterator span) fun _ => own := by
  have resolved : Books D own (env.resolveElement iterator) (· ::ₘ own) :=
    books_resolveElement owned.anchored fun strict => absurd strict lax.loose
  refine resolved.bind fun value _ => ?_
  refine (books_define lax owned element value).bind fun bound _ => ?_
  dsimp only
  split
  · split
    · refine (books_make rfl).bind fun index _ => ?_
      exact (books_bindName lax owned.locals _ index).bind fun _ _ => .pure rfl trivial
    · exact .pure rfl trivial
  · exact .pure rfl trivial

theorem books_run (b : Binding) : Books D own (env.run b) fun _ => own := by
  cases b with
  | assignment target init _ => exact books_assign lax owned target init
  | loop element iterator span => exact books_defineLoop lax owned element iterator span

end Lax

end Env

end ScriptInference
