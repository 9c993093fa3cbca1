import ScriptInference.Proofs.Resolution.Lockstep
import ScriptInference.Proofs.Resolution.Rebinding
import ScriptInference.Proofs.Syntax.Parallel

/-!
# Recording functions and binding values in step

While expressions are resolved, functions are recorded under the ids of their declarations. Two runs
may use different ids. Their tables agree under ids that correspond, and what a table holds is
recorded in the zone: of such an entity only copies are stored, so it is never named by another one.

From twins, values are bound in step. A value is bound unless the name is reserved, the key has no
type, or the entity is of no shape that has members; whether it is bound does not depend on the
value.
-/

namespace ScriptInference

variable {h owner : Handle} {n : Namespace} {s t : Store} {i : String}

section Zones

/-- A zone and a store that have come from others by work in the zone. What is recorded in between
is new. -/
structure Zone.Onward (z : Zone) (s : Store) (z' : Zone) (t : Store) : Prop where
  base_eq : z'.base = z.base
  kept : ∀ h ∈ z.recorded, h ∈ z'.recorded
  fresh : ∀ h ∈ s, h ∈ z'.recorded → h ∈ z.recorded
  later : s.Later z.base t

namespace Zone.Onward
variable {z z₁ z₂ : Zone} {u : Store}

theorem of_later (later : s.Later z.base t) : z.Onward s z t :=
  ⟨rfl, fun _ hh => hh, fun _ _ hh => hh, later⟩

theorem refl (z : Zone) (s : Store) : z.Onward s z s := .of_later (.refl _ s)

theorem trans (first : z.Onward s z₁ t) (second : z₁.Onward t z₂ u) : z.Onward s z₂ u where
  base_eq := second.base_eq.trans first.base_eq
  kept h hh := second.kept h (first.kept h hh)
  fresh h hh recorded := first.fresh h hh (second.fresh h (first.later.mem hh) recorded)
  later := first.later.trans (first.base_eq ▸ second.later)

theorem made (onward : z.Onward s z₁ t) (made : s.Made z h) : t.Made z₁ h :=
  ⟨onward.base_eq ▸ made.base_le, onward.later.mem made.mem⟩

theorem linkable (onward : z.Onward s z₁ t) (linkable : s.Linkable z h) : t.Linkable z₁ h :=
  ⟨onward.made linkable.toMade,
    fun recorded => linkable.free (onward.fresh h linkable.mem recorded)⟩

/-- A node that is added may be recorded. -/
theorem record (base_le : z.base ≤ s.size) (e : Entity) :
    z.Onward s (z.record ⟨s.size⟩) (s.alloc e).2 where
  base_eq := rfl
  kept _ hh := .inr hh
  fresh h hh recorded := by
    rcases recorded with rfl | recorded
    · exact absurd hh (Nat.lt_irrefl s.size)
    · exact recorded
  later := .alloc base_le e

end Zone.Onward

/-- The tables of two runs hold recorded entities, and agree under ids that correspond. -/
structure FunctionTable.Twin (N : Naming) (z : Zone) (table table' : FunctionTable) : Prop where
  left : ∀ h ∈ table.values, h ∈ z.recorded
  right : ∀ h ∈ table'.values, h ∈ z.recorded
  agree : ∀ {i i'}, N.tracked i i' → table'.get? i' = table.get? i

namespace FunctionTable.Twin
variable {N : Naming} {z z₁ : Zone} {table table' : FunctionTable}

theorem empty (N : Naming) (z : Zone) : Twin N z ∅ ∅ where
  left h hh := by cases hh
  right h hh := by cases hh
  agree _ := rfl

variable (tables : Twin N z table table')

include tables

theorem mono (kept : ∀ h ∈ z.recorded, h ∈ z₁.recorded) : Twin N z₁ table table' :=
  ⟨fun h hh => kept h (tables.left h hh), fun h hh => kept h (tables.right h hh), tables.agree⟩

theorem insert {i' : String} (declared : N.declared i i')
    (recorded : h ∈ z.recorded) : Twin N z (table.insert i h) (table'.insert i' h) where
  left k hk := by
    rcases SortedMap.mem_values_insert hk with rfl | hk
    · exact recorded
    · exact tables.left k hk
  right k hk := by
    rcases SortedMap.mem_values_insert hk with rfl | hk
    · exact recorded
    · exact tables.right k hk
  agree tracked := by
    have same := N.consistent declared tracked
    rw [SortedMap.get?_insert, SortedMap.get?_insert, tables.agree tracked]
    simp only [same]

theorem mem_recorded_left (hh : h ∈ (table.get? i).toList) : h ∈ z.recorded :=
  tables.left h (SortedMap.mem_values_iff.2 ⟨i, Option.mem_toList.1 hh⟩)

theorem mem_recorded_right (hh : h ∈ (table'.get? i).toList) : h ∈ z.recorded :=
  tables.right h (SortedMap.mem_values_iff.2 ⟨i, Option.mem_toList.1 hh⟩)

end FunctionTable.Twin

/-- The types of the environment lie below the base, and the entities of its scope may be named. -/
structure Env.Grounded (env : Env) (z : Zone) (s : Store) : Prop where
  registry : env.registry.Seeded z.base s
  scope : env.scope.Linkable z s

theorem Env.Grounded.mono {env : Env} {z z₁ : Zone} (grounded : env.Grounded z s)
    (onward : z.Onward s z₁ t) : env.Grounded z₁ t where
  registry := onward.base_eq ▸ grounded.registry.mono onward.later
  scope h hh := onward.linkable (grounded.scope h hh)

end Zones

section Binding

/-- Reserved names are never bound in a scope. -/
def Namespace.reserves : Namespace → Property → Bool
  | scope _, .identifier name => Scope.isReserved name
  | _, _ => false

/-- Whether a value is taken under a key. -/
def Namespace.accepts (n : Namespace) (key : Property) (s : Store) : Bool :=
  (s.node n.container).isMapShaped && !(s.slots key).isEmpty && !n.reserves key

theorem Store.fst_setProperty (h : Handle) (key : Property) (value : Handle) (s : Store) :
    (s.setProperty h key value).1 = ((s.node h).isMapShaped && !(s.slots key).isEmpty) := by
  unfold setProperty
  cases (s.node h).isMapShaped with
  | false => rfl
  | true =>
    cases key with
    | identifier name => rfl
    | value k => cases tags : (s.node k).types.toList <;> simp [slots, tags]

theorem Namespace.fst_setProperty (n : Namespace) (key : Property) (value : Handle) (s : Store) :
    (n.setProperty key value s).1 = n.accepts key s := by
  cases n with
  | entity h => simp [setProperty, accepts, reserves, Store.fst_setProperty]
  | scope c =>
    cases key with
    | value k => simp [setProperty, accepts, reserves, Store.fst_setProperty]
    | identifier name =>
      change (c.setProperty name value s).1 = _
      unfold Scope.setProperty accepts
      cases reserved :
        Scope.isReserved name <;> simp [Store.fst_setProperty, container, reserves, reserved]

theorem Namespace.accepts_eq {base : Nat} (later : s.Later base t) (hn : n.container ∈ s)
    {key : Property} (fits : key.Fits s) : n.accepts key t = n.accepts key s := by
  have slots : t.slots key = s.slots key := by
    cases key with
    | identifier name => rfl
    | value k => rw [Store.slots, Store.slots, later.types k fits]
  rw [accepts, accepts, later.isMapShaped hn, slots]

namespace Store.Later
variable {base : Nat}

theorem write (base_le : base ≤ h.index) (slots : List EntryKey) (value : Handle) :
    s.Later base (s.write h slots value) := by
  induction slots generalizing s with
  | nil => exact .refl base s
  | cons slot rest ih => exact .trans (.modifyNode base_le rfl rfl) ih

theorem setProperty (base_le : base ≤ h.index) (key : Property) (value : Handle) :
    s.Later base (s.setProperty h key value).2 := by
  rcases setProperty_cases h key value s with ⟨-, nodes⟩ | ⟨-, nodes⟩
  · exact .trans (.write base_le (s.slots key) value) (.of_nodes_eq nodes)
  · exact .of_nodes_eq nodes

theorem setPrototype (base_le : base ≤ h.index) (isa : Option Prototype) :
    s.Later base (s.setPrototype h isa) :=
  .trans (.modifyNode base_le rfl rfl) (.of_nodes_eq (nodes_releaseAll _ _))

theorem inherit (base_le : base ≤ h.index) (prototype : Handle) :
    s.Later base (s.inherit h prototype) := by
  unfold Store.inherit
  refine .trans (.of_nodes_eq ?_) (.setPrototype base_le _)
  split
  · rfl
  · exact nodes_release prototype s

end Store.Later

namespace Infer
variable {z : Zone} {s' : Store}

section
variable (twin : s.Twin z s')

include twin

theorem twins_setContext (made : s.Made z h) (linkable : s.Linkable z owner) :
    Twins z s s' (modify (Store.setContext h owner)) (modify (Store.setContext h owner))
      fun _ _ => True :=
  twins_modify (.modifyNode made.base_le rfl rfl) (twin.setContext made linkable)

/-- An entity that is recorded is neither a map nor a list, so that a copy of it is stored. -/
theorem twins_prepare {value : Handle} (made : s.Made z value) (name : Option String)
    (line line' : UInt64) :
    Twins z s s' (prepare value name line) (prepare value name line')
      fun h t => t.Linkable z h := by
  refine .bind_node twin value (fun _ => rfl) ?_
  split
  · rename_i shaped
    have linkable : s.Linkable z value :=
      ⟨made, fun recorded => Bool.false_ne_true ((twin.simple value recorded).symm.trans shaped)⟩
    cases name with
    | none => exact .pure twin linkable
    | some label =>
      dsimp only
      split
      · have labelled :=
          twins_modify (z := z) (.modifyNode made.base_le rfl rfl) (twin.setLabel made label)
        exact labelled.bind fun t t' _ later twin₁ _ => .pure twin₁ (linkable.mono later)
      · exact .pure twin linkable
  · dsimp only
    refine (twins_copy twin (twin.copyable made) (by rfl) (by rfl)).bind
      fun t t' fresh _ twin₁ linkable => ?_
    exact twins_release_pure twin₁ linkable value

theorem stored_eq (n : Namespace) (key : Property) (value : Handle) :
    stored s' n key value = stored s n key value := by
  have slots : s'.slots key = s.slots key := by
    cases key with
    | identifier name => rfl
    | value k => rw [Store.slots, Store.slots, twin.types_eq]
  have found : n.local? s' = n.local? s := funext fun slot => twin.member?_eq n.container slot
  rw [stored, stored, slots, found]

theorem twins_mergeStored (container : s.Made z n.container) (key : Property) {value : Handle}
    (linkable : s.Linkable z value) :
    Twins z s s' (mergeStored n key value) (mergeStored n key value) fun h t => t.Linkable z h := by
  refine .bind_get ?_
  rw [stored_eq twin]
  split
  · exact .pure twin linkable
  · have kind : (s'.node value).kind = (s.node value).kind :=
      twin.congr value Entity.kind fun _ => rfl
    have label : (s'.node value).label = (s.node value).label :=
      twin.congr value Entity.label fun _ => rfl
    have old : ∀ m ∈ stored s n key value ++ [value], s.Made z m := by
      intro m hm
      rcases List.mem_append.1 hm with hm | hm
      · obtain ⟨slot, member⟩ := exists_of_mem_stored hm
        exact (twin.linkable_member container member).toMade
      · exact List.mem_singleton.1 hm ▸ linkable.toMade
    dsimp only
    rw [kind, label]
    refine (twins_union twin _ _ (by simp) old).bind fun t t' merged _ twin₁ made => ?_
    exact twins_release_pure twin₁ made value

theorem twins_setProperty {value : Handle} (linkable : s.Linkable z h) (stored : s.Linkable z value)
    (key : Property) :
    Twins z s s' (setProperty h key value) (setProperty h key value) fun _ _ => True := by
  obtain ⟨same, twin₁⟩ := twin.setProperty linkable stored key
  refine .of_steps (fun _ => rfl)
    (fun _ => ?_) (.setProperty linkable.base_le key value) twin₁ trivial
  change Except.ok (s'.setProperty h key value) =
    Except.ok ((s.setProperty h key value).1, (s'.setProperty h key value).2)
  rw [← same]

theorem twins_storeMember (container : s.Linkable z n.container) {value : Handle}
    (stored : s.Linkable z value) (key : Property) :
    Twins z s s' (modifyGet (n.setProperty key value)) (modifyGet (n.setProperty key value))
      fun taken _ => taken = n.accepts key s := by
  have stores :
      Twins z s s' (modifyGet (n.setProperty key value)) (modifyGet (n.setProperty key value))
      fun _ _ => True := by
    cases n with
    | entity h => exact twins_setProperty twin container stored key
    | scope c =>
      cases key with
      | value k => exact twins_setProperty twin container stored (.value k)
      | identifier name =>
        change Twins z s s' (modifyGet (c.setProperty name value))
          (modifyGet (c.setProperty name value)) _
        unfold Scope.setProperty
        split
        · exact .of_steps (fun _ => rfl) (fun _ => rfl) (.of_nodes_eq (Store.nodes_release value s))
            (twin.release value) trivial
        · exact twins_setProperty twin container stored (.identifier name)
  intro bound
  rcases stores bound with failed | ⟨a, b, t, t', ran, ran', same, later, twin₁, -⟩
  · exact .inl failed
  · refine .inr ⟨a, b, t, t', ran, ran', same, later, twin₁, ?_⟩
    have result : n.setProperty key value s = (a, t) := Except.ok.inj ran
    rw [← n.fst_setProperty key value s, result]

end

/-- What follows goes in step whether or not a function gets an owner first. -/
theorem twins_own {α : Type} (twin : s.Twin z s') {value : Handle} (made : s.Made z value)
    (linkable : s.Linkable z owner) {x x' : Infer α} {post : α → Store → Prop}
    (next : ∀ t t', s.Later z.base t → t.Twin z t' → Twins z t t' x x' post) :
    Twins z s s' (do
      if (← node value).kind = .function then modify (Store.setContext value owner)
      x) (do
      if (← node value).kind = .function then modify (Store.setContext value owner)
      x') post := by
  refine .bind_node twin value (fun _ => rfl) ?_
  split
  · exact (twins_setContext twin made linkable).bind fun t t' _ later twin₁ _ =>
      next t t' later twin₁
  · exact next s s' (.refl _ s) twin

theorem twins_ownedBy (twin : s.Twin z s') {value : Handle} (made : s.Made z value)
    (container : s.Linkable z n.container) :
    Twins z s s' (modify (Store.modifyNode value (Entity.owned n.owner?)))
      (modify (Store.modifyNode value (Entity.owned n.owner?))) fun _ _ => True := by
  have kind : (s'.node value).kind = (s.node value).kind :=
    twin.congr value Entity.kind fun _ => rfl
  refine twins_modify (.modifyNode made.base_le ?_ ?_) ?_
  · unfold Entity.owned
    split <;> rfl
  · unfold Entity.owned
    split <;> rfl
  by_cases function : (s.node value).kind = .function
  · cases owned : n.owner? with
    | none =>
      rw [Store.modifyNode_eq_self (Entity.owned_none _),
        Store.modifyNode_eq_self (Entity.owned_none _)]
      exact twin
    | some o =>
      rw [Store.modifyNode_owned function, Store.modifyNode_owned (kind.trans function)]
      exact twin.setContext made (n.container_of_owner? owned ▸ container)
  · rw [Store.modifyNode_eq_self (Entity.owned_of_ne function _),
      Store.modifyNode_eq_self (Entity.owned_of_ne (kind ▸ function) _)]
    exact twin

/-- A value that is recorded is offered as a copy. -/
theorem twins_offer (twin : s.Twin z s') (merge : Bool) (container : s.Linkable z n.container)
    (key : Property) {value : Handle} (made : s.Made z value) (line line' : UInt64) :
    Twins z s s' (offer merge n key value line) (offer merge n key value line')
      fun bound t => t.Linkable z bound := by
  refine Twins.bind (twins_ownedBy twin made container) fun t t' _ later twin₁ _ => ?_
  refine (twins_prepare twin₁ (made.mono later) _ line line').bind
    fun u u' bound later' twin₂ stored => ?_
  cases merge with
  | false => exact .pure twin₂ stored
  | true => exact twins_mergeStored twin₂ ((container.mono later).mono later').toMade key stored

theorem twins_bind (twin : s.Twin z s') (merge : Bool) (container : s.Linkable z n.container)
    (key : Property) (fits : key.Fits s) {value : Handle} (made : s.Made z value)
    (line line' : UInt64) :
    Twins z s s' (Infer.bind merge n key value line) (Infer.bind merge n key value line')
      fun taken _ => taken = n.accepts key s := by
  rw [bind_eq_offer, bind_eq_offer]
  refine (twins_offer twin merge container key made line line').bind
    fun t t' bound later twin₁ stored => ?_
  rw [← Namespace.accepts_eq later container.mem fits]
  exact twins_storeMember twin₁ (container.mono later) stored key

end Infer

end Binding

/-- From twins, with tables that agree, the computations go in step, with the same result, and lead
to twins and to tables that agree. -/
def Resolve.Twins {α : Type} (N : Naming) (z : Zone) (s s' : Store) (x x' : Resolve α)
    (post : α → Zone → Store → Prop) : Prop :=
  ∀ table table', FunctionTable.Twin N z table table' →
    Infer.Lockstep s s' (x table) (x' table') fun r r' t t' => r'.1 = r.1 ∧
      ∃ z₁, z.Onward s z₁ t ∧ t.Twin z₁ t' ∧ FunctionTable.Twin N z₁ r.2 r'.2 ∧ post r.1 z₁ t

namespace Resolve.Twins
variable {α β : Type} {N : Naming} {z : Zone} {s' : Store} {x x' : Resolve α} {f f' : α → Resolve β}
  {post : α → Zone → Store → Prop} {post' : β → Zone → Store → Prop}

theorem pure {a : α} (twin : s.Twin z s') (result : post a z s) :
    Twins N z s s' (pure a) (pure a) post :=
  fun _ _ tables =>
    .of_steps (fun _ => rfl) (fun _ => rfl) ⟨rfl, z, .refl z s, twin, tables, result⟩

theorem bind (hx : Twins N z s s' x x' post)
    (hf : ∀ z₁ t t' a, z.Onward s z₁ t → t.Twin z₁ t' → post a z₁ t →
      Twins N z₁ t t' (f a) (f' a) post') : Twins N z s s' (x >>= f) (x' >>= f') post' := by
  intro table table' tables
  change Infer.Lockstep s s' (x table >>= fun r => f r.1 r.2) (x' table' >>= fun r => f' r.1 r.2) _
  refine (hx table table' tables).bind ?_
  rintro ⟨a, _⟩ ⟨_, _⟩ t t' ⟨rfl, z₁, onward, twin, tables₁, result⟩
  refine (hf z₁ t t' _ onward twin result _ _ tables₁).weaken ?_
  rintro r r' u u' ⟨same, z₂, onward', twin', tables₂, result'⟩
  exact ⟨same, z₂, onward.trans onward', twin', tables₂, result'⟩

/-- A run is in step with itself. -/
theorem diagonal (hx : Twins N z s s x x post) {table table' : FunctionTable}
    (tables : FunctionTable.Twin N z table table) {bound : Nat} {a : α}
    (ran : x table bound s = .ok ((a, table'), t)) :
    ∃ z₁, z.Onward s z₁ t ∧ t.Twin z₁ t ∧ FunctionTable.Twin N z₁ table' table' ∧ post a z₁ t :=
  ((hx table table tables).diagonal ran).2

theorem weaken {other : α → Zone → Store → Prop} (hx : Twins N z s s' x x' post)
    (implies : ∀ a z t, post a z t → other a z t) : Twins N z s s' x x' other := by
  intro table table' tables
  refine (hx table table' tables).weaken ?_
  rintro r r' t t' ⟨same, z₁, onward, twin, tables₁, result⟩
  exact ⟨same, z₁, onward, twin, tables₁, implies r.1 z₁ t result⟩

theorem lift {y y' : Infer α} (hy : Infer.Twins z s s' y y' fun a t => post a z t) :
    Twins N z s s' (liftM y) (liftM y') post := by
  intro table table' tables
  change Infer.Lockstep s s' (y >>= fun a => Pure.pure (a, table)) (y' >>=
    fun a => Pure.pure (a, table')) _
  refine Infer.Lockstep.bind hy ?_
  rintro a _ t t' ⟨rfl, later, twin, result⟩
  exact .of_steps (fun _ => rfl) (fun _ => rfl) ⟨rfl, z, .of_later later, twin, tables, result⟩

theorem made {x x' : Resolve Handle} (hx : Twins N z s s' x x' fun m z t => t.Linkable z m) :
    Twins N z s s' x x' fun m z t => t.Made z m := hx.weaken fun _ _ _ linkable => linkable.toMade

theorem lift_made {y y' : Infer Handle} (hy : Infer.Twins z s s' y y' fun m t => t.Linkable z m) :
    Twins N z s s' (liftM y) (liftM y') fun m z t => t.Made z m := made (lift hy)

/-- A step that leaves the tables alone, and what comes after it. -/
theorem bind_lift {y y' : Infer α} {post : α → Store → Prop} (hy : Infer.Twins z s s' y y' post)
    (hf : ∀ t t' a, s.Later z.base t → t.Twin z t' → post a t → Twins N z t t' (f a) (f' a) post') :
    Twins N z s s' (liftM y >>= f) (liftM y' >>= f') post' := by
  have lifted : Twins N z s s' (liftM y) (liftM y') fun a z₁ t => z₁ = z ∧ post a t :=
    lift (hy.weaken fun _ _ result => ⟨rfl, result⟩)
  refine lifted.bind ?_
  rintro z₁ t t' a onward twin ⟨rfl, result⟩
  exact hf t t' a onward.later twin result

theorem bind_node {f f' : Entity → Resolve β} (twin : s.Twin z s') (n : Handle)
    (blind : ∀ e, f' e.unplaced = f' e) (h : Twins N z s s' (f (s.node n)) (f' (s.node n)) post') :
    Twins N z s s' (liftM (Infer.node n) >>= f) (liftM (Infer.node n) >>= f') post' := by
  rw [← twin.congr n f' blind] at h
  exact fun table table' tables bound => h table table' tables bound

end Resolve.Twins

end ScriptInference
