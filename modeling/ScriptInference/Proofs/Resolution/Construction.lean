import ScriptInference.Proofs.Resolution.Balance
import ScriptInference.Resolution.Resolve

/-!
# Resolving expressions keeps the ledger in order

Resolving an expression gives back one hold on its entity, and leaves behind the functions that it
has recorded. Members are written only to the maps and lists that the expression itself constructs,
which are not on the ground. What is stored in them may be. An entity that is stored under the name
of a field of a map gets this name as its label if it has none, and a function that is stored in a
map gets the map as its context. An expression is quiet if it stores no entity that it has not made
itself in a field; it then changes nothing on the ground.
-/

namespace ScriptInference

namespace Infer
variable {D : Discipline} {s : Store} {own : Multiset Handle}

theorem balanced_setProperty {h value : Handle} (l : D.InOrder (value ::ₘ own) s) (new : D.New h)
    (hh : h ∈ own) (key : Property) :
    Balanced D s (setProperty h key value) (fun _ => own) fun _ => True :=
  .of_step (fun _ => rfl) (D.setProperty l new hh key) trivial

theorem balanced_inherit {h prototype : Handle} (l : D.InOrder (prototype ::ₘ own) s)
    (new : D.New h) (hh : h ∈ own) :
    Balanced D s (inherit h prototype) (fun _ => own) fun _ => True :=
  .of_step (fun _ => rfl) (D.inherit l new hh) trivial

theorem balanced_setContext (l : D.InOrder own s) {h owner : Handle} (hh : h ∈ own)
    (ho : D.Live s owner) (function : (s.node h).kind = .function) (allowed : D.strict → D.New h) :
    Balanced D s (modify (Store.setContext h owner)) (fun _ => own) fun _ => True :=
  .of_step (fun _ => rfl) (D.setContext l hh ho function allowed) trivial

theorem balanced_setLabel (l : D.InOrder own s) {h : Handle} (hh : h ∈ own) (label : String)
    (shaped : (s.node h).isReferenceShaped) (unlabelled : (s.node h).label = "")
    (allowed : D.strict → D.New h) :
    Balanced D s (modify (Store.modifyNode h ({ · with label }))) (fun _ => own) fun _ => True :=
  .of_step (fun _ => rfl) (D.setLabel l hh shaped unlabelled allowed label) trivial

/-- Only a value that is stored under a name can be labelled. -/
theorem balanced_prepare {value : Handle} (l : D.InOrder (value ::ₘ own) s) (name : Option String)
    (line : UInt64) (allowed : name.isSome → D.strict → D.New value) :
    Balanced D s (prepare value name line) (· ::ₘ own) fun _ => True := by
  refine .bind_node ?_
  split
  · rename_i shaped
    cases name with
    | none => exact .pure l trivial
    | some label =>
      dsimp only
      split
      · rename_i empty
        have unlabelled : (s.node value).label = "" := String.isEmpty_iff.1 empty
        refine (balanced_setLabel l (Multiset.mem_cons_self _ _) label shaped unlabelled
          (allowed rfl)).bind fun t _ l' _ => ?_
        exact .pure l' trivial
      · exact .pure l trivial
  · refine (balanced_copy l (D.open_of_live (D.live_head l)) _).bind fun t fresh l' _ => ?_
    rw [Multiset.cons_swap] at l'
    exact (balanced_release l').bind fun u _ l'' _ => .pure l'' trivial

end Infer

/-- Whether the entity of an expression is one that the expression makes. -/
def Expr.makesNew : Expr → Bool
  | .identifier .. | .member .. | .index .. | .slice .. | .call .. | .unary .reference .. => false
  | _ => true

mutual

/-- Whether the constructors in an expression store only entities that it makes in the fields of
maps. -/
def Expr.quiet : Expr → Bool
  | .function d _ => d.quiet
  | .map fs _ => Expr.quietFields fs
  | .list is _ => Expr.quietItems is
  | .unary _ a _ => a.quiet
  | .member b _ _ | .index b _ _ | .slice b _ _ _ | .call b _ _ => b.quiet
  | _ => true

def Expr.quietFields : Fields → Bool
  | [] => true
  | (_, v) :: fs => v.makesNew && v.quiet && Expr.quietFields fs

def Expr.quietItems : List Expr → Bool
  | [] => true
  | e :: es => e.quiet && Expr.quietItems es

def FunctionDecl.quiet : FunctionDecl → Bool
  | .mk ps _ _ => FunctionDecl.quietParams ps

def FunctionDecl.quietParams : List Param → Bool
  | [] => true
  | p :: ps => p.quiet && FunctionDecl.quietParams ps

def Param.quiet : Param → Bool
  | .plain _ _ => true
  | .withDefault _ d _ => d.quiet

end

/-- The scope of the environment may be held and its registry read as long as the store is in
order. -/
structure Env.Anchored (env : Env) (D : Discipline) (own : Multiset Handle) : Prop where
  scope : env.scope.Anchored D own
  registry : env.registry.Known D own

/-- What the scope and the registry of the environment hold is alive. -/
structure Env.Alive (env : Env) (s : Store) : Prop where
  scope : ∀ h ∈ env.scope.holds, s.live h
  registry : ∀ h ∈ env.registry.holds, s.live h

namespace Env
variable {env : Env} {D : Discipline} {s : Store} {own own' : Multiset Handle}

open Infer

variable (anchored : env.Anchored D own)

include anchored

theorem Anchored.mono (le : own ≤ own') : env.Anchored D own' :=
  ⟨anchored.scope.mono le, anchored.registry.mono le⟩

theorem Anchored.cons (h : Handle) : env.Anchored D (h ::ₘ own) :=
  anchored.mono (Multiset.le_cons_self own h)

theorem balanced_resolveType (l : D.InOrder own s) (suppress : Bool) (e : Expr) :
    Balanced D s (env.resolveType suppress e) (· ::ₘ own) fun _ => True := by
  unfold resolveType
  split
  · exact balanced_resolveName anchored.registry anchored.scope l _ suppress
  all_goals exact (balanced_make l rfl).forget

theorem balanced_resolveHop (l : D.InOrder own s) {current : Handle} (hc : D.Anchored own current)
    (hop : Hop) (suppress : Bool) :
    Balanced D s (env.resolveHop current hop suppress) (· ::ₘ own) fun _ => True := by
  have alive := hc.live l
  have opened := D.open_of_live alive
  unfold resolveHop
  split
  · exact balanced_resolveProperty anchored.registry l opened _ suppress
  · refine (balanced_resolveType anchored l false _).bind fun t key l' _ => ?_
    have opened' := D.open_of_live ((hc.mono (Multiset.le_cons_self own key)).live l')
    refine (balanced_resolveProperty (anchored.cons key).registry l' opened' _ suppress).bind ?_
    intro u found l'' _
    rw [Multiset.cons_swap] at l''
    exact (balanced_release l'').bind fun v _ done _ => .pure done trivial
  · refine .bind_node ?_
    split
    · exact (balanced_invoke l opened).forget
    · exact (balanced_retain l alive).forget
  · exact (balanced_copy l opened _).forget
  · exact (balanced_make l rfl).forget
  · exact (balanced_make l rfl).forget

theorem balanced_resolveHops (count : Nat) {current : Handle} (l : D.InOrder (current ::ₘ own) s)
    (hops : List Hop) :
    Balanced D s (env.resolveHops count current hops) (· ::ₘ own) fun _ => True := by
  induction count generalizing s current hops with
  | zero => exact .pure l trivial
  | succ count ih =>
    cases hops with
    | nil => exact .pure l trivial
    | cons hop rest =>
      refine (balanced_resolveHop (anchored.cons current) l (.of_mem (Multiset.mem_cons_self _ _))
        hop _).bind fun t next l' _ => ?_
      rw [Multiset.cons_swap] at l'
      exact (balanced_release l').bind fun u _ l'' _ => ih l'' rest

end Env

/-- The table of recorded functions has holds of its own. -/
def Resolve.Balanced {α : Type} (D : Discipline) (own : Multiset Handle) (x : Resolve α)
    (give : α → Multiset Handle) (post : α → Prop) : Prop :=
  ∀ table s, D.InOrder (own + D.table table) s →
    Infer.Balanced D s (x table) (fun r => give r.1 + D.table r.2) fun r => post r.1

namespace Resolve.Balanced
variable {α β : Type} {D : Discipline} {own : Multiset Handle} {x : Resolve α}
  {f : α → Resolve β} {give : α → Multiset Handle} {give' : β → Multiset Handle} {post : α → Prop}
  {post' : β → Prop}

theorem pure {a : α} (kept : own = give a) (result : post a) : Balanced D own (pure a) give post :=
  fun _ _ l => .pure (kept ▸ l) result

theorem bind (hx : Balanced D own x give post)
    (hf : ∀ a, post a → Balanced D (give a) (f a) give' post') :
    Balanced D own (x >>= f) give' post' :=
  fun table s l => (hx table s l).bind fun t r l' result => hf r.1 result r.2 t l'

theorem weaken {other : α → Prop} (hx : Balanced D own x give post)
    (implies : ∀ a, post a → other a) : Balanced D own x give other :=
  fun table s l => (hx table s l).weaken fun r => implies r.1

theorem forget (hx : Balanced D own x give post) : Balanced D own x give fun _ => True :=
  hx.weaken fun _ _ => trivial

/-- A computation that spends some holds and gives others back, whatever else is held. -/
theorem lift {y : Infer α} (spend : List Handle) (given : α → List Handle)
    (hy : ∀ own' s, own ≤ own' → D.InOrder (holding spend own') s →
      Infer.Balanced D s y (fun a => holding (given a) own') post) :
    Balanced D (holding spend own) (liftM y) (fun a => holding (given a) own) post := by
  intro table s l
  rw [holding_add] at l
  have run := hy (own + D.table table) s (Multiset.le_add_right _ _) l
  have lifted : Infer.Balanced D s (y >>= fun a => Pure.pure (a, table))
      (fun r => holding (given r.1) own + D.table r.2) fun r => post r.1 := by
    refine run.bind fun t a l' result => .pure ?_ result
    rw [holding_add]
    exact l'
  exact lifted

/-- Such a computation, and what comes after it. -/
theorem bind_lift {y : Infer α} (spend : List Handle) (given : α → List Handle)
    (hy : ∀ own' s, own ≤ own' → D.InOrder (holding spend own') s →
      Infer.Balanced D s y (fun a => holding (given a) own') fun _ => True)
    (hf : ∀ a, Balanced D (holding (given a) own) (f a) give' post') :
    Balanced D (holding spend own) (liftM y >>= f) give' post' :=
  (lift spend given hy).bind fun a _ => hf a

theorem bind_node {n : Handle} {f : Entity → Resolve β}
    (h : ∀ e, Balanced D own (f e) give' post') :
    Balanced D own (liftM (Infer.node n) >>= f) give' post' :=
  fun table s l => (h (s.node n) table s l).congr fun _ => rfl

/-- With no function recorded before, the table at the end has the holds on the recorded ones. -/
theorem run {s : Store} (held : ∀ t, D.table t = ↑t.values) (hx : Balanced D own x give post)
    (l : D.InOrder own s) :
    Infer.Balanced D s (x.run ∅) (fun r => holding r.2.values (give r.1)) fun r => post r.1 := by
  have none : D.table ∅ = 0 := held ∅
  have started := hx ∅ s (by rwa [none, add_zero])
  refine ⟨started.settles, fun bound r t h => ?_⟩
  obtain ⟨l', result⟩ := started.runs bound r t h
  rw [holding_eq, add_comm, ← held]
  exact ⟨l', result⟩

end Resolve.Balanced

namespace Infer.Balanced
variable {α β : Type} {D : Discipline} {s : Store} {table : FunctionTable} {f : α → Resolve β}
  {give : α → Multiset Handle} {give' : β × FunctionTable → Multiset Handle} {post : α → Prop}
  {post' : β × FunctionTable → Prop}

theorem lift_bind {y : Infer α} (hy : Balanced D s y give post)
    (hf : ∀ t a, D.InOrder (give a) t → post a → Balanced D t (f a table) give' post') :
    Balanced D s ((liftM y >>= f : Resolve β) table) give' post' := by
  have lifted : Balanced D s (y >>= fun a => f a table) give' post' := hy.bind hf
  refine lifted.congr fun bound => ?_
  change ((y >>= fun a => Pure.pure (a, table)) >>= fun r => f r.1 r.2 : Infer _) bound s = _
  rw [bind_assoc]
  rfl

end Infer.Balanced

namespace Env
variable {env : Env} {D : Discipline} {s : Store} {own own' : Multiset Handle}

open Infer

theorem balanced_walk (anchored : env.Anchored D own) {root : Resolve Handle}
    (balanced : Resolve.Balanced D own root (· ::ₘ own) fun _ => True) (count : Nat)
    (hops : List Hop) :
    Resolve.Balanced D own (env.walk root count hops) (fun r => holding r.toList own)
      fun _ => True := by
  have rest_of : ∀ {x : Resolve Handle},
      Resolve.Balanced D own x (· ::ₘ own) (fun _ => True) → ∀ rest,
      Resolve.Balanced D own (do return some (← env.resolveHops (count - 1) (← x) rest))
        (fun r => holding r.toList own) fun _ => True := by
    intro x hx rest
    refine hx.bind fun first _ => ?_
    refine .bind_lift [first] ([·]) (fun own' s le l => ?_) fun h => .pure rfl trivial
    exact balanced_resolveHops (anchored.mono le) _ l rest
  cases hops with
  | nil => exact .pure rfl trivial
  | cons hop rest =>
    rw [walk]
    split
    · refine rest_of (.lift [] ([·]) fun own' s le l => ?_) rest
      exact balanced_resolveName (anchored.mono le).registry (anchored.mono le).scope l _ _
    · exact rest_of balanced rest
    · exact .pure rfl trivial

theorem balanced_resolveChain (anchored : env.Anchored D own) {root : Resolve Handle}
    (balanced : Resolve.Balanced D own root (· ::ₘ own) fun _ => True) (e : Expr) :
    Resolve.Balanced D own (env.resolveChain root e) (fun r => holding r.toList own)
      fun _ => True := by
  unfold resolveChain
  split
  · exact .pure rfl trivial
  · exact balanced_walk anchored balanced _ _

theorem balanced_lift_resolveType (anchored : env.Anchored D own) (suppress : Bool) (e : Expr) :
    Resolve.Balanced D own (liftM (env.resolveType suppress e)) (· ::ₘ own) fun _ => True :=
  .lift [] ([·]) fun _ _ le l => balanced_resolveType (anchored.mono le) l suppress e

theorem balanced_lift_make {e : Entity} (bare : e.links = []) :
    Resolve.Balanced D own (liftM (alloc e)) (· ::ₘ own) D.New :=
  .lift [] ([·]) fun _ _ _ l => balanced_make l bare

theorem balanced_resolveAccess (anchored : env.Anchored D own) {suppress : Bool}
    {root : Resolve Handle} (balanced : Resolve.Balanced D own root (· ::ₘ own) fun _ => True)
    (e : Expr) :
    Resolve.Balanced D own (env.resolveAccess suppress root e) (· ::ₘ own) fun _ => True := by
  refine (balanced_resolveChain anchored balanced e).bind fun found _ => ?_
  cases found with
  | some h => exact .pure rfl trivial
  | none => exact balanced_lift_resolveType anchored suppress e

theorem balanced_setField (anchored : env.Anchored D own) {map value : Handle}
    (l : D.InOrder (value ::ₘ own) s) (new : D.New map) (hm : map ∈ own)
    (allowed : D.strict → D.New value) (key : Expr) :
    Balanced D s (env.setField map key value) (fun _ => own) fun _ => True := by
  have context : (s.node value).kind = .function →
      Balanced D s (modify (Store.setContext value map)) (fun _ => value ::ₘ own)
        fun _ => True := fun function =>
    balanced_setContext l (Multiset.mem_cons_self _ _)
    (D.live_of_mem l (Multiset.mem_cons_of_mem hm))
      function allowed
  unfold setField
  refine .bind_node ?_
  split
  · refine .guarded context (fun t l' => ?_) l
    refine (balanced_prepare l' _ _ fun _ => allowed).bind fun u bound l'' _ => ?_
    exact (balanced_setProperty l'' new hm _).bind fun v _ done _ => .pure done trivial
  · refine .guarded context (fun t l' => ?_) l
    refine (balanced_resolveType (anchored.cons value) l' false _).bind fun u k l'' _ => ?_
    rw [Multiset.cons_swap] at l''
    refine (balanced_prepare l'' none _ fun named => by cases named).bind fun v bound l₃ _ => ?_
    refine (balanced_setProperty l₃ new (Multiset.mem_cons_of_mem hm) _).bind fun w _ l₄ _ => ?_
    exact balanced_release l₄

theorem balanced_setElement {list element : Handle} (l : D.InOrder (element ::ₘ own) s)
    (new : D.New list) (hl : list ∈ own) :
    Balanced D s (setItems.setElement list element) (fun _ => own) fun _ => True := by
  refine (balanced_make l rfl).bind fun t key l' _ => ?_
  rw [Multiset.cons_swap] at l'
  refine (balanced_setProperty l' new (Multiset.mem_cons_of_mem hl) _).bind fun u _ l'' _ => ?_
  exact balanced_release l''

theorem balanced_setItems {list : Handle} {items : List Handle}
    (l : D.InOrder (holding items own) s) (new : D.New list) (hl : list ∈ own) (line : UInt64) :
    Balanced D s (setItems list line items) (fun _ => own) fun _ => True := by
  unfold setItems
  split
  · exact .pure l trivial
  · refine (balanced_prepare l none line fun named => by cases named).bind fun t element l' _ => ?_
    exact balanced_setElement l' new hl
  · have alive : ∀ h ∈ items, D.Live s h := fun h hh => D.live_of_mem l (mem_holding.2 (.inl hh))
    refine (balanced_union l _ _ alive).bind fun t element l' _ => ?_
    refine (balanced_setElement l' new (mem_holding.2 (.inr hl))).bind fun u _ l'' _ => ?_
    exact balanced_releaseAll l''

theorem balanced_newMap (line : UInt64) {fill : Handle → Resolve Unit}
    (balanced : ∀ map, D.New map →
      Resolve.Balanced D (map ::ₘ own) (fill map) (fun _ => map ::ₘ own) fun _ => True) :
    Resolve.Balanced D own (newMap line fill) (· ::ₘ own) D.New := by
  refine (balanced_lift_make rfl).bind fun map new => ?_
  exact (balanced map new).bind fun _ _ => .pure rfl new

theorem balanced_newList (line : UInt64) {items : Resolve (List Handle)}
    (balanced : ∀ list, Resolve.Balanced D (list ::ₘ own) items
      (fun hs => holding hs (list ::ₘ own)) fun _ => True) :
    Resolve.Balanced D own (newList line items) (· ::ₘ own) D.New := by
  refine (balanced_lift_make rfl).bind fun list new => ?_
  refine (balanced list).bind fun hs _ => ?_
  refine .bind_lift hs (fun _ => []) (fun own' s le l => ?_) fun _ => .pure rfl new
  exact balanced_setItems l new (Multiset.mem_of_le le (Multiset.mem_cons_self _ _)) line

/-- The table holds the functions that are recorded in it, and gives up the ones that are
replaced. -/
theorem balanced_newFunction (arguments : List Argument) (declaration : Span) :
    Resolve.Balanced D own (newFunction arguments declaration) (· ::ₘ own) D.New := by
  intro table s l
  refine Balanced.lift_bind (balanced_make l rfl) fun t h l' new => ?_
  exact .of_step (fun _ => rfl) (D.record l' declaration.id) new

theorem balanced_newHeir (line : UInt64) {prototype : Handle}
    (l : D.InOrder (prototype ::ₘ own) s) :
    Balanced D s (newHeir line prototype) (· ::ₘ own) D.New := by
  refine (balanced_make l rfl).bind fun t made l' new => ?_
  rw [Multiset.cons_swap] at l'
  refine (balanced_inherit l' new (Multiset.mem_cons_self made own)).bind fun u _ l'' _ => ?_
  exact .pure l'' new

mutual

theorem balanced_resolve (env : Env) (e : Expr) {own : Multiset Handle}
    (anchored : env.Anchored D own) (quiet : D.strict → e.quiet) :
    Resolve.Balanced D own (env.resolve e) (· ::ₘ own) fun h => e.makesNew → D.New h := by
  cases e with
  | function d _ =>
    rw [resolve]
    rw [Expr.quiet] at quiet
    exact (balanced_resolveFunction env d anchored quiet).weaken fun _ new _ => new
  | map fs sp =>
    rw [resolve]
    rw [Expr.quiet] at quiet
    refine (balanced_newMap _ fun map new => ?_).weaken fun _ new _ => new
    exact balanced_resolveFields env fs anchored new quiet
  | list is sp =>
    rw [resolve]
    rw [Expr.quiet] at quiet
    refine (balanced_newList _ fun list => ?_).weaken fun _ new _ => new
    exact balanced_resolveItems env is (anchored.cons list) quiet
  | unary op a sp =>
    rw [Expr.quiet] at quiet
    cases op with
    | new =>
      rw [resolve]
      have root := balanced_rootValue env a anchored quiet
      refine (balanced_resolveAccess anchored root a).bind fun prototype _ => ?_
      exact .lift [prototype] ([·]) fun _ _ _ l =>
        (balanced_newHeir sp.line l).weaken fun _ new _ => new
    | reference =>
      rw [resolve]
      have root := balanced_rootValue env a anchored quiet
      exact (balanced_resolveAccess anchored root _).weaken fun _ _ new => by cases new
    | negate | not =>
      rw [resolve]
      · exact (balanced_lift_make rfl).weaken fun _ new _ => new
      all_goals simp
  | member b _ _ | index b _ _ | slice b _ _ _ | call b _ _ =>
    rw [resolve]
    rw [Expr.quiet] at quiet
    have root := balanced_rootValue env b anchored quiet
    exact (balanced_resolveAccess anchored root _).weaken fun _ _ new => by cases new
  | identifier n sp =>
    rw [resolve]
    have root : Resolve.Balanced D own (liftM (env.resolveType false (.identifier n sp)))
        (· ::ₘ own) fun _ => True := balanced_lift_resolveType anchored false _
    exact (balanced_resolveAccess anchored root _).weaken fun _ _ new => by cases new
  | _ =>
    rw [resolve]
    · exact (balanced_lift_make rfl).weaken fun _ new _ => new
    all_goals simp

theorem balanced_rootValue (env : Env) (e : Expr) {own : Multiset Handle}
    (anchored : env.Anchored D own) (quiet : D.strict → e.quiet) :
    Resolve.Balanced D own (env.rootValue e) (· ::ₘ own) fun _ => True := by
  cases e with
  | unary _ a _ | member a _ _ | index a _ _ | slice a _ _ _ | call a _ _ =>
    rw [rootValue]
    rw [Expr.quiet] at quiet
    exact balanced_rootValue env a anchored quiet
  | map fs sp =>
    rw [rootValue]
    rw [Expr.quiet] at quiet
    refine (balanced_newMap _ fun map new => ?_).forget
    exact balanced_resolveFields env fs anchored new quiet
  | list is sp =>
    rw [rootValue]
    rw [Expr.quiet] at quiet
    refine (balanced_newList _ fun list => ?_).forget
    exact balanced_resolveItems env is (anchored.cons list) quiet
  | _ =>
    rw [rootValue]
    · exact balanced_lift_resolveType anchored false _
    all_goals simp

theorem balanced_resolveFields (env : Env) (fs : Fields) {own : Multiset Handle} {map : Handle}
    (anchored : env.Anchored D own) (new : D.New map) (quiet : D.strict → Expr.quietFields fs) :
    Resolve.Balanced D (map ::ₘ own) (env.resolveFields map fs) (fun _ => map ::ₘ own)
      fun _ => True := by
  cases fs with
  | nil =>
    rw [resolveFields]
    exact .pure rfl trivial
  | cons field rest =>
    obtain ⟨k, v⟩ := field
    rw [resolveFields]
    have split : D.strict → (v.makesNew ∧ v.quiet) ∧ Expr.quietFields rest := fun h => by
      simpa [Expr.quietFields] using quiet h
    refine (balanced_resolve env v (anchored.cons map) fun h => (split h).1.2).bind
      fun value made => ?_
    have allowed : D.strict → D.New value := fun h => made (split h).1.1
    refine .bind_lift [value] (fun _ => []) (fun own' s le l => ?_) fun _ => ?_
    · exact balanced_setField ((anchored.cons map).mono le) l new
        (Multiset.mem_of_le le (Multiset.mem_cons_self map own)) allowed k
    · exact balanced_resolveFields env rest anchored new fun h => (split h).2

theorem balanced_resolveItems (env : Env) (es : List Expr) {own : Multiset Handle}
    (anchored : env.Anchored D own) (quiet : D.strict → Expr.quietItems es) :
    Resolve.Balanced D own (env.resolveItems es) (fun hs => holding hs own) fun _ => True := by
  cases es with
  | nil =>
    rw [resolveItems]
    exact .pure rfl trivial
  | cons e rest =>
    rw [resolveItems]
    have split : D.strict → e.quiet ∧ Expr.quietItems rest := fun h => by
      simpa [Expr.quietItems] using quiet h
    refine (balanced_resolve env e anchored fun h => (split h).1).bind fun first _ => ?_
    refine (balanced_resolveItems env rest (anchored.cons first) fun h => (split h).2).bind ?_
    exact fun others _ => .pure (cons_holding first others own).symm trivial

theorem balanced_resolveFunction (env : Env) (d : FunctionDecl) {own : Multiset Handle}
    (anchored : env.Anchored D own) (quiet : D.strict → d.quiet) :
    Resolve.Balanced D own (env.resolveFunction d) (· ::ₘ own) D.New := by
  cases d with
  | mk ps body sp =>
    rw [resolveFunction]
    rw [FunctionDecl.quiet] at quiet
    refine (balanced_resolveArguments env ps anchored quiet).bind fun arguments _ => ?_
    exact balanced_newFunction arguments sp

theorem balanced_resolveArguments (env : Env) (ps : List Param) {own : Multiset Handle}
    (anchored : env.Anchored D own) (quiet : D.strict → FunctionDecl.quietParams ps) :
    Resolve.Balanced D own (env.resolveArguments ps) (fun _ => own) fun _ => True := by
  cases ps with
  | nil =>
    rw [resolveArguments]
    exact .pure rfl trivial
  | cons p rest =>
    rw [resolveArguments]
    have split : D.strict → p.quiet ∧ FunctionDecl.quietParams rest := fun h => by
      simpa [FunctionDecl.quietParams] using quiet h
    refine (balanced_resolveArgument env p anchored fun h => (split h).1).bind fun _ _ => ?_
    refine (balanced_resolveArguments env rest anchored fun h => (split h).2).bind fun _ _ => ?_
    exact .pure rfl trivial

theorem balanced_resolveArgument (env : Env) (p : Param) {own : Multiset Handle}
    (anchored : env.Anchored D own) (quiet : D.strict → p.quiet) :
    Resolve.Balanced D own (env.resolveArgument p) (fun _ => own) fun _ => True := by
  cases p with
  | plain n sp =>
    rw [resolveArgument]
    exact .pure rfl trivial
  | withDefault n d sp =>
    rw [resolveArgument]
    rw [Param.quiet] at quiet
    refine (balanced_resolve env d anchored quiet).bind fun value _ => ?_
    refine .bind_node fun e => ?_
    refine .bind_lift [value] (fun _ => []) (fun _ _ _ l => ?_) fun _ => .pure rfl trivial
    exact balanced_release l

end

end Env

end ScriptInference
