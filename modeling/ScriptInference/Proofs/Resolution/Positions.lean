import ScriptInference.Proofs.Resolution.Recording

/-!
# Resolving parallel expressions

From twins, two expressions that differ only in spans are resolved in step, and so are the bindings
that are made of them: the results are the same handles, and the stores are twins again. Every
entity that an expression resolves to was made in the zone, and so has a type. Only that of a
function expression is recorded. What an access chain leads to may be named, and so may the
container of a target.
-/

namespace ScriptInference

section Chains
variable {R : String → String → Prop}

inductive Access.Parallel (R : String → String → Prop) : Access → Access → Prop
  | name (n) : Access.Parallel R (.name n) (.name n)
  | value {e e'} : Expr.Parallel R e e' → Access.Parallel R (.value e) (.value e')
  | member (n) : Access.Parallel R (.member n) (.member n)
  | index {e e'} : Expr.Parallel R e e' → Access.Parallel R (.index e) (.index e')
  | call {as as'} : ParallelExprs R as as' → Access.Parallel R (.call as) (.call as')
  | slice : Access.Parallel R .slice .slice

structure Hop.Parallel (R : String → String → Prop) (hop hop' : Hop) : Prop where
  access : hop.access.Parallel R hop'.access
  reference : hop'.reference = hop.reference

/-- Chains with the same hops. -/
abbrev ParallelHops (R : String → String → Prop) : List Hop → List Hop → Prop :=
  List.Forall₂ (Hop.Parallel R)

theorem Access.Parallel.isCall {a a' : Access} (h : a.Parallel R a') : a'.isCall = a.isCall := by
  cases h <;> rfl

theorem Expr.Parallel.indexAccess {i i' : Expr} (h : i.Parallel R i') :
    i.indexAccess.Parallel R i'.indexAccess := by
  unfold Expr.indexAccess
  rw [h.stringLiteral?]
  split
  · exact .member _
  · exact .index h

theorem Expr.Parallel.rootHops {e e' : Expr} (h : e.Parallel R e') (reference : Bool)
    {acc acc' : List Hop} (rest : ParallelHops R acc acc') :
    Option.Rel (ParallelHops R) (if e.isValue then some (⟨.value e, reference⟩ :: acc) else none)
      (if e'.isValue then some (⟨.value e', reference⟩ :: acc') else none) := by
  rw [h.isValue]
  split
  · exact .some (.cons ⟨.value h, rfl⟩ rest)
  · exact .none

theorem Expr.Parallel.hopsOnto {a b : Expr} : a.Parallel R b →
    ∀ (reference : Bool) {acc acc' : List Hop}, ParallelHops R acc acc' →
      Option.Rel (ParallelHops R) (a.hopsOnto reference acc) (b.hopsOnto reference acc')
  | .unary .reference _ _ h, _, _, _, rest => h.hopsOnto true rest
  | .member n _ _ h, _, _, _, rest => h.hopsOnto false (.cons ⟨.member n, rfl⟩ rest)
  | .index _ _ h i, _, _, _, rest => h.hopsOnto false (.cons ⟨i.indexAccess, rfl⟩ rest)
  | .slice _ _ h _ _, _, _, _, rest => h.hopsOnto false (.cons ⟨.slice, rfl⟩ rest)
  | .call _ _ h as, _, _, _, rest => h.hopsOnto false (.cons ⟨.call as, rfl⟩ rest)
  | .identifier n _ _, _, _, _, rest => .some (.cons ⟨.name n, rfl⟩ rest)
  | .nil p q, _, _, _, rest => rootHops (.nil p q) _ rest
  | .string v p q, _, _, _, rest => rootHops (.string v p q) _ rest
  | .number v p q, _, _, _, rest => rootHops (.number v p q) _ rest
  | .boolean v p q, _, _, _, rest => rootHops (.boolean v p q) _ rest
  | .unary .new p q h, _, _, _, rest => rootHops (.unary .new p q h) _ rest
  | .unary .negate p q h, _, _, _, rest => rootHops (.unary .negate p q h) _ rest
  | .unary .not p q h, _, _, _, rest => rootHops (.unary .not p q h) _ rest
  | .binary o p q h k, _, _, _, rest => rootHops (.binary o p q h k) _ rest
  | .map p q h, _, _, _, rest => rootHops (.map p q h) _ rest
  | .list p q h, _, _, _, rest => rootHops (.list p q h) _ rest
  | .function p q h, _, _, _, rest => rootHops (.function p q h) _ rest
  | .unknown k p q, _, _, _, rest => rootHops (.unknown k p q) _ rest

theorem Expr.Parallel.chain? {a b : Expr} (h : a.Parallel R b) (env : Env) :
    Option.Rel (ParallelHops R) (env.chain? a) (env.chain? b) := by
  unfold Env.chain? Expr.accessChain
  have hops := h.hopsOnto false .nil
  generalize a.hopsOnto false [] = l at hops ⊢
  generalize b.hopsOnto false [] = l' at hops ⊢
  cases hops with
  | none => exact .none
  | some hops =>
    rw [Option.filter_some, Option.filter_some, hops.length_eq]
    split
    · exact .some hops
    · exact .none

theorem suppresses_eq {hop hop' : Hop} {rest rest' : List Hop} (h : hop.Parallel R hop')
    (others : ParallelHops R rest rest') : Env.suppresses hop' rest' = Env.suppresses hop rest := by
  unfold Env.suppresses
  rw [h.reference]
  cases others with
  | nil => rfl
  | cons next _ => simp [next.access.isCall]

end Chains

namespace Env
variable {env : Env} {N : Naming} {R : String → String → Prop} {z : Zone} {s s' : Store}

open Infer

section Access

variable (grounded : env.Grounded z s)

include grounded

variable (twin : s.Twin z s')

include twin

theorem twins_resolveType (suppress : Bool) {e e' : Expr} (h : e.Parallel R e') :
    Infer.Twins z s s' (env.resolveType suppress e) (env.resolveType suppress e')
      fun h t => t.Linkable z h := by
  cases h with
  | identifier n _ _ => exact twins_resolveName twin grounded.registry grounded.scope n suppress
  | nil | string | number | boolean => exact twins_make twin rfl rfl (hasType_ofType .literal _)
  | _ => exact twins_make twin rfl rfl (hasType_ofType .expression Tag.any)

theorem twins_resolveHop {current : Handle} (linkable : s.Linkable z current) {hop hop' : Hop}
    (h : hop.Parallel R hop') (suppress : Bool) :
    Infer.Twins z s s' (env.resolveHop current hop suppress) (env.resolveHop current hop' suppress)
      fun m t => t.Linkable z m := by
  obtain ⟨access, reference⟩ := hop
  obtain ⟨access', reference'⟩ := hop'
  obtain ⟨parallel, same⟩ := h
  dsimp only at parallel same
  subst same
  cases parallel with
  | name | value => exact twins_make twin rfl rfl (hasType_ofType .unknown Tag.any)
  | member name => exact twins_resolveProperty twin grounded.registry linkable.toMade _ suppress
  | index e =>
    refine (twins_resolveType grounded twin false e).bind fun t t' key later twin₁ _ => ?_
    have seeded := grounded.registry.mono later
    refine (twins_resolveProperty twin₁ seeded (linkable.mono later).toMade
      (.value key) suppress).bind ?_
    exact fun u u' found _ twin₂ found' => twins_release_pure twin₂ found' key
  | call =>
    refine .bind_node twin current (fun _ => rfl) ?_
    split
    · exact twins_invoke twin (twin.made_result linkable.toMade)
    · exact twins_retain twin current (linkable.later (Nat.le_refl _))
  | slice => exact twins_copy twin (twin.copyable linkable.toMade) rfl rfl

theorem twins_resolveHops (count : Nat) {current : Handle} (linkable : s.Linkable z current)
    {hops hops' : List Hop} (h : ParallelHops R hops hops') :
    Infer.Twins z s s' (env.resolveHops count current hops) (env.resolveHops count current hops')
      fun m t => t.Linkable z m := by
  induction count generalizing s s' current hops hops' with
  | zero => exact .pure twin linkable
  | succ count ih =>
    cases h with
    | nil => exact .pure twin linkable
    | cons first rest =>
      rw [resolveHops, resolveHops, suppresses_eq first rest]
      refine (twins_resolveHop grounded twin linkable first _).bind
        fun t t' next later twin₁ found => ?_
      refine (twins_release twin₁ current).bind fun u u' _ later' twin₂ _ => ?_
      exact ih (grounded.mono (.of_later (later.trans later'))) twin₂ (found.mono later') rest

/-- Chains are followed in step, if the values at their roots are resolved in step. -/
theorem twins_walk {root root' : Resolve Handle}
    (value : Resolve.Twins N z s s' root root' fun m z t => t.Linkable z m) (count : Nat)
    {hops hops' : List Hop} (h : ParallelHops N.declared hops hops') :
    Resolve.Twins N z s s' (env.walk root count hops) (env.walk root' count hops')
      fun r z t => ∀ m ∈ r, t.Linkable z m := by
  have follow : ∀ {x x' : Resolve Handle}, Resolve.Twins N z s s' x x'
      (fun m z t => t.Linkable z m) → ∀ {rest rest'}, ParallelHops N.declared rest rest' →
      Resolve.Twins N z s s' (do return some (← env.resolveHops (count - 1) (← x) rest))
        (do return some (← env.resolveHops (count - 1) (← x') rest')) fun r z t => ∀ m ∈ r,
        t.Linkable z m := by
    intro x x' hx rest rest' others
    refine hx.bind fun z₁ t t' first onward twin₁ linkable => ?_
    refine .bind_lift (twins_resolveHops (grounded.mono onward) twin₁ _ linkable others) ?_
    exact fun u u' m _ twin₂ found => .pure twin₂ fun _ hm => Option.some.inj hm ▸ found
  cases h with
  | nil => exact .pure twin fun _ hm => nomatch hm
  | @cons hop hop' rest rest' first others =>
    obtain ⟨access, reference⟩ := hop
    obtain ⟨access', reference'⟩ := hop'
    rw [walk, walk, suppresses_eq first others]
    obtain ⟨parallel, -⟩ := first
    dsimp only at parallel
    cases parallel with
    | name name =>
      exact follow (.lift (twins_resolveName twin grounded.registry grounded.scope name _)) others
    | value _ => exact follow value others
    | _ => exact .pure twin fun _ hm => nomatch hm

theorem twins_resolveChain {root root' : Resolve Handle}
    (value : Resolve.Twins N z s s' root root' fun m z t => t.Linkable z m) {e e' : Expr}
    (h : e.Parallel N.declared e') :
    Resolve.Twins N z s s' (env.resolveChain root e) (env.resolveChain root' e')
      fun r z t => ∀ m ∈ r, t.Linkable z m := by
  unfold resolveChain
  have chains := h.chain? env
  generalize env.chain? e = chain at chains ⊢
  generalize env.chain? e' = chain' at chains ⊢
  cases chains with
  | none => exact .pure twin fun _ hm => nomatch hm
  | some hops =>
    dsimp only
    rw [← hops.length_eq]
    exact twins_walk grounded twin value _ hops

theorem twins_resolveAccess {suppress : Bool} {root root' : Resolve Handle}
    (value : Resolve.Twins N z s s' root root' fun m z t => t.Linkable z m) {e e' : Expr}
    (h : e.Parallel N.declared e') :
    Resolve.Twins N z s s' (env.resolveAccess suppress root e) (env.resolveAccess suppress root' e')
      fun m z t => t.Linkable z m := by
  refine (twins_resolveChain grounded twin value h).bind
    fun z₁ t t' found onward twin₁ linkable => ?_
  cases found with
  | some m => exact .pure twin₁ (linkable m rfl)
  | none => exact .lift (twins_resolveType (grounded.mono onward) twin₁ suppress h)

end Access

section Construction

theorem twins_setField (grounded : env.Grounded z s) (twin : s.Twin z s') {map value : Handle}
    (linkable : s.Linkable z map) (made : s.Made z value) {key key' : Expr}
    (h : key.Parallel R key') :
    Infer.Twins z s s' (env.setField map key value) (env.setField map key' value)
      fun _ _ => True := by
  have indexed : ∀ t t', s.Later z.base t → t.Twin z t' → Infer.Twins z t t' (do
        let k ← env.resolveType false key
        let value ← prepare value none key.line
        let _ ← Infer.setProperty map (.value k) value
        release k) (do
        let k ← env.resolveType false key'
        let value ← prepare value none key'.line
        let _ ← Infer.setProperty map (.value k) value
        release k) fun _ _ => True := by
    intro t t' later twin₁
    refine (twins_resolveType (grounded.mono (.of_later later)) twin₁ false h).bind ?_
    intro u u' k later' twin₂ _
    have onward := later.trans later'
    refine (twins_prepare twin₂ (made.mono onward) none _ _).bind
      fun v v' bound later'' twin₃ stored => ?_
    refine (twins_setProperty twin₃ ((linkable.mono onward).mono later'') stored _).bind ?_
    exact fun w w' _ _ twin₄ _ => twins_release twin₄ k
  cases h with
  | string name p q =>
    refine twins_own twin made linkable fun t t' later twin₁ => ?_
    refine (twins_prepare twin₁ (made.mono later) (some name) _ _).bind
      fun u u' bound later' twin₂ stored => ?_
    refine (twins_setProperty twin₂ ((linkable.mono later).mono later') stored _).bind ?_
    exact fun v v' _ _ twin₃ _ => .pure twin₃ trivial
  | _ => exact twins_own twin made linkable indexed

theorem twins_setElement (twin : s.Twin z s') {list element : Handle} (linkable : s.Linkable z list)
    (stored : s.Linkable z element) :
    Infer.Twins z s s' (setItems.setElement list element) (setItems.setElement list element)
      fun _ _ => True := by
  refine (twins_make twin rfl rfl (hasType_ofType .literal Tag.number)).bind
    fun t t' key later twin₁ _ => ?_
  refine (twins_setProperty twin₁ (linkable.mono later) (stored.mono later) _).bind ?_
  exact fun u u' _ _ twin₂ _ => twins_release twin₂ key

theorem twins_setItems (twin : s.Twin z s') {list : Handle} (linkable : s.Linkable z list)
    {items : List Handle} (made : ∀ m ∈ items, s.Made z m) (line line' : UInt64) :
    Infer.Twins z s s' (setItems list line items) (setItems list line' items) fun _ _ => True := by
  match items with
  | [] => exact .pure twin trivial
  | [item] =>
    refine (twins_prepare twin (made item List.mem_cons_self) none line line').bind ?_
    exact fun t t' element later twin₁ stored => twins_setElement twin₁ (linkable.mono later) stored
  | first :: second :: rest =>
    refine (twins_union twin _ _ (List.cons_ne_nil _ _) made).bind
      fun t t' element later twin₁ stored => ?_
    refine (twins_setElement twin₁ (linkable.mono later) stored).bind fun u u' _ _ twin₂ _ => ?_
    exact twins_releaseAll twin₂ _

theorem twins_newMap (twin : s.Twin z s') (line line' : UInt64) {fill fill' : Handle → Resolve Unit}
    (fills : ∀ t t' map, s.Later z.base t → t.Twin z t' → t.Linkable z map →
      Resolve.Twins N z t t' (fill map) (fill' map) fun _ _ _ => True) :
    Resolve.Twins N z s s' (newMap line fill) (newMap line' fill') fun m z t => t.Linkable z m := by
  refine .bind_lift (twins_make twin rfl rfl (hasType_ofType .map Tag.map))
    fun t t' map later twin₁ linkable => ?_
  refine (fills t t' map later twin₁ linkable).bind fun z₁ u u' _ onward twin₂ _ => ?_
  exact .pure twin₂ (onward.linkable linkable)

theorem twins_newList (twin : s.Twin z s') (line line' : UInt64)
    {items items' : Resolve (List Handle)}
    (resolves : ∀ t t', s.Later z.base t → t.Twin z t' →
      Resolve.Twins N z t t' items items' fun hs z t => ∀ m ∈ hs, t.Made z m) :
    Resolve.Twins N z s s' (newList line items) (newList line' items')
      fun m z t => t.Linkable z m := by
  refine .bind_lift (twins_make twin rfl rfl (hasType_ofType .list Tag.list))
    fun t t' list later twin₁ linkable => ?_
  refine (resolves t t' later twin₁).bind fun z₁ u u' hs onward twin₂ made => ?_
  have stored := onward.linkable linkable
  refine .bind_lift (twins_setItems twin₂ stored made line line') fun v v' _ later' twin₃ _ => ?_
  exact .pure twin₃ (stored.mono later')

/-- The entity of a function as it is declared. -/
def declaredFunction (arguments : List Argument) (declaration : Span) : Entity :=
  { Entity.ofType .function Tag.function with
    label := "function"
    source := some declaration.id
    line := some declaration.line
    signatures := .ofList [.function arguments []] }

theorem newFunction_run (arguments : List Argument) (declaration : Span) (table : FunctionTable)
    (bound : Nat) (s : Store) :
    newFunction arguments declaration table bound s =
      .ok ((⟨s.size⟩, table.insert declaration.id ⟨s.size⟩),
        ((s.alloc (declaredFunction arguments declaration)).2.retainAll [⟨s.size⟩]).releaseAll
          (table.get? declaration.id).toList) := rfl

/-- The entity of a function is recorded as soon as it is made. -/
theorem twins_newFunction (twin : s.Twin z s') (arguments : List Argument) {p q : Span}
    (declared : N.declared p.id q.id) :
    Resolve.Twins N z s s' (newFunction arguments p) (newFunction arguments q)
      fun m z t => t.Made z m := by
  intro table table' tables
  have simple : (declaredFunction arguments p).isReferenceShaped = false :=
    show (Entity.ofType .function Tag.function).isReferenceShaped = false by decide
  have same : (declaredFunction arguments q).unplaced =
      (declaredFunction arguments p).unplaced := rfl
  have allocated := twin.alloc_recorded same rfl (hasType_ofType .function Tag.function) simple
  have onward := Zone.Onward.record twin.base_le (declaredFunction arguments p)
  have tables₁ := tables.mono onward.kept
  have settled := (allocated.retainAll [⟨s.size⟩]).releaseAll_recorded
    (fun h hh => tables₁.mem_recorded_left (i := p.id) hh)
    (fun h hh => tables₁.mem_recorded_right (i := q.id) hh)
  have nodes := (Store.nodes_releaseAll (table.get? p.id).toList _).trans
    (Store.nodes_retainAll [⟨s.size⟩] (s.alloc (declaredFunction arguments p)).2)
  have arrived : z.Onward s (z.record ⟨s.size⟩) _ := onward.trans (.of_later (.of_nodes_eq nodes))
  have step' := fun bound => newFunction_run arguments q table' bound s'
  rw [twin.size_eq] at step'
  exact .of_steps (newFunction_run arguments p table · s) step'
    ⟨rfl, _, arrived, settled, tables₁.insert declared (Set.mem_insert _ _),
      settled.recorded _ (Set.mem_insert _ _)⟩

theorem twins_newHeir (twin : s.Twin z s') {prototype : Handle} (linkable : s.Linkable z prototype)
    (line line' : UInt64) :
    Infer.Twins z s s' (newHeir line prototype) (newHeir line' prototype)
      fun m t => t.Linkable z m := by
  refine Twins.bind (twins_make twin rfl rfl (hasType_ofType .map Tag.map))
    fun t t' made later twin₁ heir => ?_
  have inherits := twins_modify (Store.Later.inherit (s := t) heir.base_le prototype)
    (twin₁.inherit heir (linkable.mono later))
  exact inherits.bind fun u u' _ later' twin₂ _ => .pure twin₂ (heir.mono later')

mutual

theorem twins_resolve (env : Env) {e e' : Expr} (h : e.Parallel N.declared e') {z : Zone}
    {s s' : Store} (grounded : env.Grounded z s) (twin : s.Twin z s') :
    Resolve.Twins N z s s' (env.resolve e) (env.resolve e') fun m z t => t.Made z m := by
  have parallel := h
  have access : ∀ {root root' : Resolve Handle},
      (Resolve.Twins N z s s' root root' fun m z t => t.Linkable z m) →
      Resolve.Twins N z s s' (env.resolveAccess false root e) (env.resolveAccess false root' e')
      fun m z t => t.Made z m :=
    fun value => (twins_resolveAccess grounded twin value h).made
  cases h with
  | function _ _ d =>
    rw [resolve, resolve]
    exact twins_resolveFunction env d grounded twin
  | map p q fs =>
    rw [resolve, resolve]
    refine (twins_newMap twin p.line q.line fun t t' map later twin₁ linkable => ?_).made
    exact twins_resolveFields env fs (grounded.mono (.of_later later)) twin₁ linkable
  | list p q is =>
    rw [resolve, resolve]
    refine (twins_newList twin p.line q.line fun t t' later twin₁ => ?_).made
    exact twins_resolveItems env is (grounded.mono (.of_later later)) twin₁
  | unary o p q a =>
    have root := twins_rootValue env a grounded twin
    cases o with
    | new =>
      rw [resolve, resolve]
      refine (twins_resolveAccess grounded twin root a).bind
        fun z₁ t t' prototype onward twin₁ linkable => ?_
      exact .lift_made (twins_newHeir twin₁ linkable p.line q.line)
    | reference =>
      rw [resolve, resolve]
      exact access root
    | negate | not =>
      rw [resolve, resolve]
      · exact .lift_made (twins_make twin rfl rfl (hasType_ofType .expression Tag.number))
      all_goals simp
  | member n p q b | index p q b _ | slice p q b _ _ | call p q b _ =>
    have root := twins_rootValue env b grounded twin
    rw [resolve, resolve]
    exact access root
  | identifier n p q =>
    rw [resolve, resolve]
    exact access (.lift (twins_resolveType grounded twin false parallel))
  | _ =>
    rw [resolve, resolve]
    · exact .lift_made (twins_resolveType grounded twin false parallel)
    all_goals simp

theorem twins_rootValue (env : Env) {e e' : Expr} (h : e.Parallel N.declared e') {z : Zone}
    {s s' : Store} (grounded : env.Grounded z s) (twin : s.Twin z s') :
    Resolve.Twins N z s s' (env.rootValue e) (env.rootValue e') fun m z t => t.Linkable z m := by
  have parallel := h
  cases h with
  | unary _ _ _ a | member _ _ _ a | index _ _ a _ | slice _ _ a _ _ | call _ _ a _ =>
    rw [rootValue, rootValue]
    exact twins_rootValue env a grounded twin
  | map p q fs =>
    rw [rootValue, rootValue]
    refine twins_newMap twin p.line q.line fun t t' map later twin₁ linkable => ?_
    exact twins_resolveFields env fs (grounded.mono (.of_later later)) twin₁ linkable
  | list p q is =>
    rw [rootValue, rootValue]
    refine twins_newList twin p.line q.line fun t t' later twin₁ => ?_
    exact twins_resolveItems env is (grounded.mono (.of_later later)) twin₁
  | _ =>
    rw [rootValue, rootValue]
    · exact .lift (twins_resolveType grounded twin false parallel)
    all_goals simp

theorem twins_resolveFields (env : Env) {fs fs' : Fields} (h : ParallelFields N.declared fs fs')
    {z : Zone} {s s' : Store} (grounded : env.Grounded z s) (twin : s.Twin z s') {map : Handle}
    (linkable : s.Linkable z map) :
    Resolve.Twins N z s s' (env.resolveFields map fs) (env.resolveFields map fs')
      fun _ _ _ => True := by
  cases h with
  | nil =>
    rw [resolveFields]
    exact .pure twin trivial
  | cons key value rest =>
    rw [resolveFields, resolveFields]
    refine (twins_resolve env value grounded twin).bind fun z₁ t t' m onward twin₁ made => ?_
    have grounded₁ := grounded.mono onward
    refine .bind_lift (twins_setField grounded₁ twin₁ (onward.linkable linkable) made key) ?_
    intro u u' _ later twin₂ _
    exact twins_resolveFields env rest (grounded₁.mono (.of_later later)) twin₂
      ((onward.linkable linkable).mono later)

theorem twins_resolveItems (env : Env) {es es' : List Expr} (h : ParallelExprs N.declared es es')
    {z : Zone} {s s' : Store} (grounded : env.Grounded z s) (twin : s.Twin z s') :
    Resolve.Twins N z s s' (env.resolveItems es) (env.resolveItems es')
      fun hs z t => ∀ m ∈ hs, t.Made z m := by
  cases h with
  | nil =>
    rw [resolveItems]
    exact .pure twin fun _ hm => absurd hm List.not_mem_nil
  | cons first rest =>
    rw [resolveItems, resolveItems]
    refine (twins_resolve env first grounded twin).bind fun z₁ t t' m onward twin₁ made => ?_
    refine (twins_resolveItems env rest (grounded.mono onward) twin₁).bind
      fun z₂ u u' others onward' twin₂ made' => ?_
    exact .pure twin₂ (List.forall_mem_cons.2 ⟨onward'.made made, made'⟩)

theorem twins_resolveFunction (env : Env) {d d' : FunctionDecl} (h : d.Parallel N.declared d')
    {z : Zone} {s s' : Store} (grounded : env.Grounded z s) (twin : s.Twin z s') :
    Resolve.Twins N z s s' (env.resolveFunction d) (env.resolveFunction d')
      fun m z t => t.Made z m := by
  cases h with
  | mk declared parameters _ =>
    rw [resolveFunction, resolveFunction]
    refine (twins_resolveArguments env parameters grounded twin).bind
      fun z₁ t t' arguments _ twin₁ _ => ?_
    exact twins_newFunction twin₁ arguments declared

theorem twins_resolveArguments (env : Env) {ps ps' : List Param}
    (h : ParallelParams N.declared ps ps') {z : Zone} {s s' : Store} (grounded : env.Grounded z s)
    (twin : s.Twin z s') :
    Resolve.Twins N z s s' (env.resolveArguments ps) (env.resolveArguments ps')
      fun _ _ _ => True := by
  cases h with
  | nil =>
    rw [resolveArguments]
    exact .pure twin trivial
  | cons first rest =>
    rw [resolveArguments, resolveArguments]
    refine (twins_resolveArgument env first grounded twin).bind
      fun z₁ t t' argument onward twin₁ _ => ?_
    refine (twins_resolveArguments env rest (grounded.mono onward) twin₁).bind
      fun z₂ u u' _ _ twin₂ _ => ?_
    exact .pure twin₂ trivial

theorem twins_resolveArgument (env : Env) {p p' : Param} (h : p.Parallel N.declared p') {z : Zone}
    {s s' : Store} (grounded : env.Grounded z s) (twin : s.Twin z s') :
    Resolve.Twins N z s s' (env.resolveArgument p) (env.resolveArgument p') fun _ _ _ => True := by
  cases h with
  | plain n _ _ =>
    rw [resolveArgument, resolveArgument]
    exact .pure twin trivial
  | withDefault n _ _ d =>
    rw [resolveArgument, resolveArgument]
    refine (twins_resolve env d grounded twin).bind fun z₁ t t' value onward twin₁ _ => ?_
    refine .bind_node twin₁ value (fun _ => rfl) ?_
    refine .bind_lift (twins_release twin₁ value) fun u u' _ _ twin₂ _ => ?_
    exact .pure twin₂ trivial

end

end Construction

section Defining

theorem twins_refuse (twin : s.Twin z s') (value : Handle) :
    Resolve.Twins N z s s' (do Infer.release value; return false)
      (do Infer.release value; return false) fun _ _ _ => True :=
  .bind_lift (twins_release twin value) fun _ _ _ _ twin₁ _ => .pure twin₁ trivial

theorem parallel_getLast? {hops hops' : List Hop} (h : ParallelHops R hops hops') :
    Option.Rel (Access.Parallel R) (hops.getLast?.map Hop.access)
      (hops'.getLast?.map Hop.access) := by
  induction h with
  | nil => exact .none
  | cons first rest ih =>
    cases rest with
    | nil => exact .some first.access
    | cons _ _ =>
      rw [List.getLast?_cons_cons, List.getLast?_cons_cons]
      exact ih

/-- A value is bound in an entity, and the hold on the entity is given up. -/
theorem twins_answer {x x' : Resolve Bool} (container : Handle)
    (hx : Resolve.Twins N z s s' x x' fun _ _ _ => True) :
    Resolve.Twins N z s s' (do
      let taken ← x
      Infer.release container
      return taken) (do
      let taken ← x'
      Infer.release container
      return taken) fun _ _ _ => True := by
  refine hx.bind fun z₁ t t' taken _ twin₁ _ => ?_
  exact .bind_lift (twins_release twin₁ container) fun _ _ _ _ twin₂ _ => .pure twin₂ trivial

variable (grounded : env.Grounded z s)

include grounded

variable (twin : s.Twin z s')

include twin

theorem twins_define {target target' : Expr} (h : target.Parallel N.declared target')
    {value : Handle} (made : s.Made z value) :
    Resolve.Twins N z s s' (env.define target value) (env.define target' value)
      fun _ _ _ => True := by
  have root := twins_rootValue env h grounded twin
  have chains := h.chain? env
  unfold define
  dsimp only
  generalize env.chain? target = chain at chains ⊢
  generalize env.chain? target' = chain' at chains ⊢
  cases chains with
  | none => exact twins_refuse twin value
  | some hops =>
    cases hops with
    | nil => exact twins_refuse twin value
    | @cons hop hop' rest rest' first others =>
      cases others with
      | nil =>
        obtain ⟨access, reference⟩ := hop
        obtain ⟨access', reference'⟩ := hop'
        obtain ⟨parallel, -⟩ := first
        dsimp only at parallel
        cases parallel with
        | name name =>
          have bound := twins_bind twin env.options.mergeReassignments (n := .scope env.scope)
            (grounded.scope _ Scope.locals_mem_holds) (.identifier name) trivial made target.line
            target'.line
          exact .lift (bound.weaken fun _ _ _ => trivial)
        | _ => exact twins_refuse twin value
      | cons second rest =>
        have hops := List.Forall₂.cons first (.cons second rest)
        dsimp only
        rw [← hops.length_eq]
        refine (twins_walk grounded twin root _ hops).bind
          fun z₁ t t' found onward twin₁ linkable => ?_
        cases found with
        | none => exact twins_refuse twin₁ value
        | some container =>
          have inside := linkable container rfl
          have made₁ := onward.made made
          have last := parallel_getLast? hops
          dsimp only
          generalize (List.getLast? _).map Hop.access = access at last ⊢
          generalize (List.getLast? _).map Hop.access = access' at last ⊢
          cases last with
          | none => exact twins_answer container (twins_refuse twin₁ value)
          | some parallel =>
            cases parallel with
            | member name =>
              have bound :=
                twins_bind twin₁ env.options.mergeReassignments (n := .entity container) inside
                (.identifier name) trivial made₁ target.line target'.line
              exact twins_answer container (.lift (bound.weaken fun _ _ _ => trivial))
            | index e =>
              refine .bind_lift (twins_resolveType (grounded.mono onward) twin₁ false e) ?_
              intro u u' key later twin₂ stored
              have bound := twins_bind twin₂ env.options.mergeReassignments (n := .entity container)
                (inside.mono later) (.value key) stored.mem
                (made₁.mono later) target.line target'.line
              refine .bind_lift bound fun v v' taken _ twin₃ _ => ?_
              refine .bind_lift (twins_release twin₃ key) fun w w' _ _ twin₄ _ => ?_
              exact twins_answer container (.pure twin₄ trivial)
            | _ => exact twins_answer container (twins_refuse twin₁ value)

theorem twins_assign {target target' init init' : Expr} (h : target.Parallel N.declared target')
    (k : init.Parallel N.declared init') :
    Resolve.Twins N z s s' (env.assign target init) (env.assign target' init') fun _ _ _ => True :=
  (twins_resolve env k grounded twin).bind fun _ _ _ _ onward twin₁ made =>
    twins_define (grounded.mono onward) twin₁ h made

theorem twins_bindName (name : String) {value : Handle} (stored : s.Linkable z value) :
    Infer.Twins z s s' (bindName env.scope name value) (bindName env.scope name value)
      fun _ _ => True :=
  (twins_storeMember twin (n := .scope env.scope) (grounded.scope _ Scope.locals_mem_holds) stored
    (.identifier name)).weaken fun _ _ _ => trivial

theorem twins_defineParameter {p p' : Param} (h : p.Parallel N.declared p') :
    Resolve.Twins N z s s' (env.defineParameter p) (env.defineParameter p') fun _ _ _ => True := by
  have value : Resolve.Twins N z s s' (env.parameterValue p) (env.parameterValue p')
      fun m z t => t.Made z m := by
    cases h with
    | plain n _ _ => exact .lift_made (twins_make twin rfl rfl (hasType_ofType .unknown Tag.any))
    | withDefault n _ _ d => exact twins_resolve env d grounded twin
  refine value.bind fun z₁ t t' value onward twin₁ made => ?_
  have grounded₁ := grounded.mono onward
  rw [h.name]
  refine .bind_lift (twins_copy twin₁ (twin₁.copyable made) (by rfl) (by rfl)) ?_
  intro u u' bound later twin₂ stored
  refine .bind_lift (twins_bindName (grounded₁.mono (.of_later later)) twin₂ p.name stored) ?_
  exact fun v v' _ _ twin₃ _ => .lift (twins_release twin₃ value)

theorem twins_defineParameters {ps ps' : List Param} (h : ParallelParams N.declared ps ps') :
    Resolve.Twins N z s s' (env.defineParameters ps) (env.defineParameters ps')
      fun _ _ _ => True := by
  induction ps generalizing z s s' ps' with
  | nil =>
    cases h
    exact .pure twin trivial
  | cons p rest ih =>
    cases h with
    | cons first others =>
      refine (twins_defineParameter grounded twin first).bind fun z₁ t t' _ onward twin₁ _ => ?_
      exact ih (grounded.mono onward) twin₁ others

end Defining

section Loops

theorem twins_listElement (grounded : env.Grounded z s) (twin : s.Twin z s') {list : Handle}
    (made : s.Made z list) :
    Infer.Twins z s s' (env.listElement list) (env.listElement list) fun m t => t.Linkable z m := by
  refine (twins_make twin rfl rfl (hasType_ofType .literal Tag.number)).bind
    fun t t' key later twin₁ _ => ?_
  refine (twins_resolveProperty twin₁ (grounded.registry.mono later)
    (made.mono later) _ false).bind ?_
  exact fun u u' found _ twin₂ linkable => twins_release_pure twin₂ linkable key

theorem twins_mapEntry (twin : s.Twin z s') :
    Infer.Twins z s s' mapEntry mapEntry fun m t => t.Linkable z m := by
  have any : ∀ {t t' : Store}, t.Twin z t' → Infer.Twins z t t' (alloc .any) (alloc .any)
      fun m t => t.Linkable z m :=
      fun twin => twins_make twin rfl rfl (hasType_ofType .unknown Tag.any)
  refine (twins_make twin rfl rfl (hasType_ofType .map Tag.map)).bind
    fun t₁ _ entry _ twin₁ linkable => ?_
  refine (any twin₁).bind fun t₂ _ key later twin₂ stored => ?_
  have linkable₂ := linkable.mono later
  refine (twins_setProperty twin₂ linkable₂ stored _).bind fun t₃ _ _ later twin₃ _ => ?_
  have linkable₃ := linkable₂.mono later
  refine (any twin₃).bind fun t₄ _ value later twin₄ stored => ?_
  have linkable₄ := linkable₃.mono later
  refine (twins_setProperty twin₄ linkable₄ stored _).bind fun t₅ _ _ later twin₅ _ => ?_
  exact .pure twin₅ (linkable₄.mono later)

theorem twins_mapM {α : Type} {xs : List α} {f : α → Infer Handle} (twin : s.Twin z s')
    (each : ∀ x ∈ xs, ∀ t t', s.Later z.base t → t.Twin z t' →
      Infer.Twins z t t' (f x) (f x) fun m t => t.Linkable z m) :
    Infer.Twins z s s' (xs.mapM f) (xs.mapM f) fun hs t => ∀ m ∈ hs, t.Linkable z m := by
  induction xs generalizing s s' with
  | nil => exact .pure twin fun _ hm => absurd hm List.not_mem_nil
  | cons x rest ih =>
    rw [List.mapM_cons]
    refine (each x List.mem_cons_self s s' (.refl _ s) twin).bind
      fun t t' first later twin₁ linkable => ?_
    have others :=
      ih twin₁ fun y hy u u' later' => each y (List.mem_cons_of_mem x hy) u u' (later.trans later')
    refine others.bind fun u u' hs later' twin₂ linkables => .pure twin₂ ?_
    exact List.forall_mem_cons.2 ⟨linkable.mono later', linkables⟩

variable (grounded : env.Grounded z s)

include grounded

variable (twin : s.Twin z s')

include twin

theorem twins_elementParts {collection : Handle} (made : s.Made z collection) :
    Infer.Twins z s s' (env.elementParts collection) (env.elementParts collection)
      fun hs t => ∀ m ∈ hs, t.Linkable z m := by
  refine .bind_node twin collection
    (fun _ => rfl) (twins_mapM twin fun source listed t t' later twin₁ => ?_)
  have source_mem := (List.mem_filter.1 listed).1
  simp only [elementSources, List.mem_cons, List.not_mem_nil, or_false] at source_mem
  rcases source_mem with rfl | rfl | rfl
  · exact twins_listElement (grounded.mono (.of_later later)) twin₁ (made.mono later)
  · exact twins_make twin₁ rfl rfl (hasType_ofType .expression Tag.string)
  · exact twins_mapEntry twin₁

theorem twins_resolveElement {iterator iterator' : Expr}
    (h : iterator.Parallel N.declared iterator') :
    Resolve.Twins N z s s' (env.resolveElement iterator) (env.resolveElement iterator')
      fun m z t => t.Linkable z m := by
  refine (twins_resolve env h grounded twin).bind fun z₁ t t' collection onward twin₁ made => ?_
  refine .bind_lift (twins_elementParts (grounded.mono onward) twin₁ made)
    fun u u' parts _ twin₂ linkable => ?_
  have answer : ∀ {v v' : Store} {element : Handle}, v.Twin z₁ v' → v.Linkable z₁ element →
      Resolve.Twins N z₁ v v' (do Infer.release collection; return element)
        (do Infer.release collection; return element) fun m z t => t.Linkable z m := by
    intro v v' element twin linkable
    refine .bind_lift (twins_release twin collection) fun w w' _ later twin₁ _ => ?_
    exact .pure twin₁ (linkable.mono later)
  match parts with
  | [] =>
    refine .bind_lift (twins_make twin₂ rfl rfl (hasType_ofType .unknown Tag.any)) ?_
    exact fun v v' element _ twin₃ linkable => answer twin₃ linkable
  | [part] => exact answer twin₂ (linkable part List.mem_cons_self)
  | first :: second :: rest =>
    refine .bind_lift (twins_union twin₂ _ _ (List.cons_ne_nil _ _)
      fun m hm => (linkable m hm).toMade) ?_
    intro v v' merged _ twin₃ stored
    refine .bind_lift (twins_releaseAll twin₃ _) fun w w' _ later twin₄ _ => ?_
    exact answer twin₄ (stored.mono later)

theorem twins_defineLoop {element element' iterator iterator' : Expr}
    (h : element.Parallel N.declared element') (k : iterator.Parallel N.declared iterator')
    (p q : Span) :
    Resolve.Twins N z s s' (env.defineLoop element iterator p) (env.defineLoop element' iterator' q)
      fun _ _ _ => True := by
  refine (twins_resolveElement grounded twin k).bind fun z₁ t t' value onward twin₁ linkable => ?_
  have grounded₁ := grounded.mono onward
  refine (twins_define grounded₁ twin₁ h linkable.toMade).bind
    fun z₂ u u' bound onward' twin₂ _ => ?_
  dsimp only
  rw [h.identifier?]
  split
  · cases element.identifier? with
    | none => exact .pure twin₂ trivial
    | some name =>
      refine .bind_lift (twins_make twin₂ rfl rfl (hasType_ofType .variable Tag.number)) ?_
      intro v v' index later twin₃ stored
      have grounded₃ := (grounded₁.mono onward').mono (.of_later later)
      refine .bind_lift (twins_bindName grounded₃ twin₃ _ stored) fun w w' _ _ twin₄ _ => ?_
      exact .pure twin₄ trivial
  · exact .pure twin₂ trivial

theorem twins_run {b b' : Binding} (h : b.Parallel N.declared b') :
    Resolve.Twins N z s s' (env.run b) (env.run b') fun _ _ _ => True := by
  cases h with
  | assignment _ _ target init => exact twins_assign grounded twin target init
  | loop p q element iterator => exact twins_defineLoop grounded twin element iterator p q

end Loops

end Env

end ScriptInference
