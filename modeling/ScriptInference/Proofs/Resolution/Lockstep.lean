import ScriptInference.Proofs.Entity.TwinJoins
import ScriptInference.Proofs.Resolution.Balance

/-!
# Twins are read in step

Two computations go in step from two stores if both run out of steps or both have a result. From
twins, looking up members, asking the registry and resolving names go in step, give the same handle,
and leave twins behind. What they return may be named by other nodes: it was made in the zone, and
is not recorded.

The entities of the types of a registry lie below the base. They are bare: their members name
nothing, and are stored under names only. A query gives a copy of such a member, so no handle of one
gets out.

Nothing that is done to a zone changes what lies below its base, or the types of what was there
before.
-/

namespace ScriptInference

variable {h r : Handle} {s t t' : Store} {base bound : Nat} {z : Zone} {e e' : Entity}

theorem SortedSet.exists_mem {types : SortedSet String} (some : ¬ types.isEmpty) :
    ∃ tag, tag ∈ types := by
  obtain ⟨tag, listed⟩ :=
    List.exists_mem_of_ne_nil types.elements fun none => some (by simp [SortedSet.isEmpty, none])
  exact ⟨tag, listed⟩

namespace Store

/-- The store `t` has come from `s` by work in the zone above the base. -/
structure Later (base : Nat) (s t : Store) : Prop where
  size_le : s.size ≤ t.size
  below : ∀ h, h.index < base → t.node h = s.node h
  types : ∀ h ∈ s, (t.node h).types = (s.node h).types
  shaped : ∀ h ∈ s, (t.node h).shaped = (s.node h).shaped

namespace Later
variable {u : Store}

theorem refl (base : Nat) (s : Store) : s.Later base s :=
  ⟨Nat.le_refl _, fun _ _ => rfl, fun _ _ => rfl, fun _ _ => rfl⟩

theorem mem (later : s.Later base t) (hh : h ∈ s) : h ∈ t := Nat.lt_of_lt_of_le hh later.size_le

theorem trans (first : s.Later base t) (second : t.Later base u) : s.Later base u where
  size_le := Nat.le_trans first.size_le second.size_le
  below h hh := (second.below h hh).trans (first.below h hh)
  types h hh := (second.types h (first.mem hh)).trans (first.types h hh)
  shaped h hh := (second.shaped h (first.mem hh)).trans (first.shaped h hh)

theorem of_kept (base_le : base ≤ s.size) (size_le : s.size ≤ t.size) (kept : ∀ n ∈ s, t.node n =
    s.node n) : s.Later base t where
  size_le := size_le
  below h hh := kept h (Nat.lt_of_lt_of_le hh base_le)
  types h hh := by rw [kept h hh]
  shaped h hh := by rw [kept h hh]

theorem of_nodes_eq (nodes : t.nodes = s.nodes) : s.Later base t where
  size_le := Nat.le_of_eq (size_eq nodes).symm
  below h _ := node_eq nodes h
  types h _ := by rw [node_eq nodes]
  shaped h _ := by rw [node_eq nodes]

theorem modifyNode {a : Handle} (base_le : base ≤ a.index) {f : Entity → Entity}
    (types : (f (s.node a)).types = (s.node a).types) (shaped : (f (s.node a)).shaped =
      (s.node a).shaped) :
    s.Later base (s.modifyNode a f) where
  size_le := Nat.le_of_eq (size_modifyNode a f s).symm
  below h hh := by
    have ne : h ≠ a := by
      rintro rfl
      exact Nat.not_lt.2 base_le hh
    rw [node_modifyNode_eq, if_neg fun here => ne here.1]
  types h _ := by
    rw [node_modifyNode_eq]
    split
    · rename_i here
      rw [here.1, types]
    · rfl
  shaped h _ := by
    rw [node_modifyNode_eq]
    split
    · rename_i here
      rw [here.1, shaped]
    · rfl

theorem alloc (base_le : base ≤ s.size) (e : Entity) : s.Later base (s.alloc e).2 :=
  .of_kept base_le (Nat.le_of_lt (mem_alloc e s)) (node_alloc_lt e s)

theorem isMapShaped (later : s.Later base t) (hh : h ∈ s) :
    (t.node h).isMapShaped = (s.node h).isMapShaped := by
  rw [Entity.isMapShaped, Entity.isMapShaped, later.types h hh, later.shaped h hh]

end Later

/-- A copy of the node may be made in the zone. -/
structure Copyable (z : Zone) (s : Store) (h : Handle) : Prop where
  links : ∀ k ∈ (s.node h).links, s.Linkable z k
  formed : (s.node h).Formed

theorem Twin.copyable {s' : Store} (twin : s.Twin z s') (made : s.Made z h) : s.Copyable z h :=
  ⟨twin.links h made.base_le, twin.formed h made.base_le⟩


/-- The entity of a catalog type. It has no prototype, and its members are stored under names only
and name nothing themselves. -/
structure Seeded (base : Nat) (s : Store) (h : Handle) : Prop where
  below : h.index < base
  isa : (s.node h).isa = none
  named : ∀ {key m}, s.member? h key = some m → ∃ name, key = .identifier name
  member : ∀ {key m}, s.member? h key = some m →
    m.index < base ∧ (s.node m).links = [] ∧ (s.node m).HasType

theorem Seeded.mono (seeded : s.Seeded base h) (later : s.Later base t) : t.Seeded base h := by
  have same : t.node h = s.node h := later.below h seeded.below
  have member : ∀ {key}, t.member? h key = s.member? h key := congrArg (Entity.member? · _) same
  constructor
  · exact seeded.below
  · exact same ▸ seeded.isa
  · intro key m hm
    exact seeded.named (member ▸ hm)
  · intro key m hm
    obtain ⟨below, bare, typed⟩ := seeded.member (member ▸ hm)
    rw [later.below m below]
    exact ⟨below, bare, typed⟩

/-- Nothing is found through an entity of a type but its own members. -/
theorem Seeded.eq_of_mem_lookupChain {n : Handle} (seeded : s.Seeded base h)
    (hn : n ∈ s.lookupChain h) : n = h := by
  have none : s.isa? h = none := by
    rw [isa?, seeded.isa]
    rfl
  have chain : s.isaChain h = [h] := by
    rw [isaChain]
    cases s.size with
    | zero => rfl
    | succ bound => rw [isaFrom, none]
  have listed := mem_isaChain_of_mem_lookupChain hn
  rw [chain] at listed
  exact List.mem_singleton.1 listed

theorem Made.mono (made : s.Made z h) (later : s.Later base t) : t.Made z h :=
  made.later later.size_le

theorem Linkable.mono (linkable : s.Linkable z h) (later : s.Later base t) : t.Linkable z h :=
  linkable.later later.size_le

end Store

namespace Store.Twin
variable {s' : Store} {m n : Handle}

variable (twin : s.Twin z s')

include twin

theorem isaFrom_eq (bound : Nat) (seen : Std.TreeSet Handle) (h : Handle) :
    s'.isaFrom bound seen h = s.isaFrom bound seen h := by
  induction bound generalizing seen h with
  | zero => rfl
  | succ bound ih =>
    rw [isaFrom, isaFrom, twin.isa?_eq]
    split
    · rfl
    · rw [ih]

theorem lookupChain_eq (h : Handle) : s'.lookupChain h = s.lookupChain h := by
  have inheritable : (fun p => (s'.node p).isInheritable) = fun p => (s.node p).isInheritable :=
    funext fun p => twin.congr p Entity.isInheritable fun _ => rfl
  rw [lookupChain, lookupChain, isaChain, isaChain, twin.size_eq, twin.isaFrom_eq]
  split
  · rfl
  · rw [twin.congr _ Entity.isMapShaped fun _ => rfl, inheritable]

theorem findName?_eq (h : Handle) (name : String) : s'.findName? h name = s.findName? h name := by
  have members : (fun n => s'.member? n (.identifier name)) =
      fun n => s.member? n (.identifier name) :=
    funext fun n => twin.member?_eq n _
  rw [findName?, findName?, twin.lookupChain_eq, members]

theorem findIndexed_eq (h : Handle) (keyTypes : SortedSet String) :
    s'.findIndexed h keyTypes = s.findIndexed h keyTypes := by
  have selected : (fun n => ((s'.node n).indexMatches keyTypes).eraseDups) =
      fun n => ((s.node n).indexMatches keyTypes).eraseDups :=
    funext fun n => twin.congr n (fun e => (e.indexMatches keyTypes).eraseDups) fun _ => rfl
  rw [findIndexed, findIndexed, twin.lookupChain_eq, selected]

theorem made_of_mem_isaFrom {seen : Std.TreeSet Handle} (made : s.Made z h)
    (hn : n ∈ s.isaFrom bound seen h) : s.Made z n := by
  induction bound generalizing seen h with
  | zero => exact List.mem_singleton.1 hn ▸ made
  | succ bound ih =>
    rw [isaFrom] at hn
    split at hn
    · exact List.mem_singleton.1 hn ▸ made
    · rename_i p prototype
      split at hn
      · exact List.mem_singleton.1 hn ▸ made
      · rcases List.mem_cons.1 hn with rfl | hn
        · exact made
        · exact ih (twin.linkable_isa? made.base_le prototype).toMade hn

variable (made : s.Made z h)

include made

theorem made_result : ∀ r ∈ (s.node h).result, s.Made z r :=
  fun r declared =>
    (twin.links h made.base_le r (Entity.mem_links_iff.2 (.inr (.inl declared)))).toMade

/-- The nodes that answer a lookup were made in the zone. -/
theorem made_of_mem_lookupChain (hn : n ∈ s.lookupChain h) : s.Made z n :=
  twin.made_of_mem_isaFrom made (mem_isaChain_of_mem_lookupChain hn)

theorem linkable_findName? {name : String} (hm : s.findName? h name = some m) : s.Linkable z m := by
  obtain ⟨n, hn, member⟩ := List.exists_of_findSome?_eq_some hm
  exact twin.linkable_member (twin.made_of_mem_lookupChain made hn) member

theorem linkable_findIndexed {types : SortedSet String} (hm : m ∈ s.findIndexed h types) :
    s.Linkable z m := by
  obtain ⟨n, hn, listed⟩ := exists_of_mem_findIndexed hm
  exact twin.links n (twin.made_of_mem_lookupChain made hn).base_le m
    (Entity.mem_links_iff.2 (.inl listed))

end Store.Twin

namespace Infer
variable {α β γ δ : Type} {s' : Store}

/-- Both computations run out of steps, or both have a result, and the results are as promised. -/
def Lockstep (s s' : Store) (x : Infer α) (x' : Infer β) (post : α → β → Store → Store → Prop) :
    Prop :=
  ∀ bound, (∃ t t', x bound s = .error t ∧ x' bound s' = .error t') ∨
    ∃ a b t t', x bound s = .ok (a, t) ∧ x' bound s' = .ok (b, t') ∧ post a b t t'

namespace Lockstep
variable {x : Infer α} {x' : Infer β} {post : α → β → Store → Store → Prop}

theorem of_steps {a : α} {b : β} (step : ∀ bound, x bound s = .ok (a, t))
    (step' : ∀ bound, x' bound s' = .ok (b, t')) (result : post a b t t') :
    Lockstep s s' x x' post :=
  fun bound => .inr ⟨a, b, t, t', step bound, step' bound, result⟩

theorem bind {f : α → Infer γ} {f' : β → Infer δ} {post' : γ → δ → Store → Store → Prop}
    (hx : Lockstep s s' x x' post)
    (hf : ∀ a b t t', post a b t t' → Lockstep t t' (f a) (f' b) post') :
    Lockstep s s' (x >>= f) (x' >>= f') post' := by
  intro bound
  rcases hx bound with ⟨t, t', failed, failed'⟩ | ⟨a, b, t, t', ran, ran', result⟩
  · exact .inl ⟨t, t', bind_of_error failed f, bind_of_error failed' f'⟩
  · rw [bind_of_ok ran, bind_of_ok ran']
    exact hf a b t t' result bound

/-- A run is in step with itself. -/
theorem diagonal {post : α → α → Store → Store → Prop} (hx : Lockstep s s x x post) {a : α}
    (ran : x bound s = .ok (a, t)) : post a a t t := by
  rcases hx bound with ⟨u, u', failed, -⟩ | ⟨b, b', u, u', first, second, result⟩
  · rw [ran] at failed
    cases failed
  · rw [ran] at first second
    cases first
    cases second
    exact result

theorem weaken {other : α → β → Store → Store → Prop} (hx : Lockstep s s' x x' post)
    (implies : ∀ a b t t', post a b t t' → other a b t t') : Lockstep s s' x x' other := by
  intro bound
  refine (hx bound).imp id ?_
  rintro ⟨a, b, t, t', ran, ran', result⟩
  exact ⟨a, b, t, t', ran, ran', implies a b t t' result⟩

theorem bind_get {f : Store → Infer γ} {f' : Store → Infer δ} {post : γ → δ → Store → Store → Prop}
    (h : Lockstep s s' (f s) (f' s') post) : Lockstep s s' (get >>= f) (get >>= f') post :=
  fun bound => h bound

theorem bind_modify {g g' : Store → Store} {f : PUnit → Infer γ} {f' : PUnit → Infer δ}
    {post : γ → δ → Store → Store → Prop} (h : Lockstep (g s) (g' s') (f ()) (f' ()) post) :
    Lockstep s s' (modify g >>= f) (modify g' >>= f') post := fun bound => h bound

end Lockstep

/-- From twins, the computations go in step, with the same result, and lead to twins. -/
def Twins (z : Zone) (s s' : Store) (x x' : Infer α) (post : α → Store → Prop) : Prop :=
  Lockstep s s' x x' fun a b t t' => b = a ∧ s.Later z.base t ∧ t.Twin z t' ∧ post a t

namespace Twins
variable {x x' : Infer α} {f f' : α → Infer β} {post : α → Store → Prop} {post' : β → Store → Prop}

theorem of_steps {a : α} (step : ∀ bound, x bound s = .ok (a, t))
    (step' : ∀ bound, x' bound s' = .ok (a, t')) (later : s.Later z.base t) (twin : t.Twin z t')
    (result : post a t) : Twins z s s' x x' post :=
  Lockstep.of_steps step step' ⟨rfl, later, twin, result⟩

theorem pure {a : α} (twin : s.Twin z s') (result : post a s) :
    Twins z s s' (pure a) (pure a) post :=
  .of_steps (fun _ => rfl) (fun _ => rfl) (.refl _ s) twin result

theorem bind (hx : Twins z s s' x x' post)
    (hf : ∀ t t' a, s.Later z.base t → t.Twin z t' → post a t → Twins z t t' (f a) (f' a) post') :
    Twins z s s' (x >>= f) (x' >>= f') post' := by
  refine Lockstep.bind hx ?_
  rintro a _ t t' ⟨rfl, later, twin, result⟩
  refine (hf t t' _ later twin result).weaken ?_
  rintro b _ u u' ⟨rfl, later', twin', result'⟩
  exact ⟨rfl, later.trans later', twin', result'⟩

theorem weaken {other : α → Store → Prop} (hx : Twins z s s' x x' post)
    (implies : ∀ a t, post a t → other a t) : Twins z s s' x x' other := by
  refine Lockstep.weaken hx ?_
  rintro a b t t' ⟨same, later, twin, result⟩
  exact ⟨same, later, twin, implies a t result⟩

theorem bind_get {f f' : Store → Infer β} (h : Twins z s s' (f s) (f' s') post') :
    Twins z s s' (get >>= f) (get >>= f') post' := fun bound => h bound

/-- Contents are read for more than their place only. -/
theorem bind_node {f f' : Entity → Infer β} (twin : s.Twin z s') (n : Handle)
    (blind : ∀ e, f' e.unplaced = f' e) (h : Twins z s s' (f (s.node n)) (f' (s.node n)) post') :
    Twins z s s' (node n >>= f) (node n >>= f') post' := by
  rw [← twin.congr n f' blind] at h
  exact fun bound => h bound

theorem some {x x' : Infer Handle} {post : Handle → Store → Prop} (hx : Twins z s s' x x' post) :
    Twins z s s' (x >>= fun h => Pure.pure (Option.some h)) (x' >>=
      fun h => Pure.pure (Option.some h)) fun r t => ∀ m ∈ r, post m t :=
  hx.bind fun _ _ _ _ twin result => .pure twin fun _ hm => Option.some.inj hm ▸ result

theorem none {post : Handle → Store → Prop} (twin : s.Twin z s') :
    Twins z s s' (Pure.pure Option.none) (Pure.pure Option.none) fun (r : Option Handle) t =>
      ∀ m ∈ r, post m t :=
  .pure twin fun _ hm => nomatch hm

end Twins

section Primitives

theorem twins_modify {f f' : Store → Store} (later : s.Later z.base (f s))
    (twin : (f s).Twin z (f' s')) : Twins z s s' (modify f) (modify f') fun _ _ => True :=
  .of_steps (fun _ => rfl) (fun _ => rfl) later twin trivial

theorem twins_alloc (twin : s.Twin z s') (same : e'.unplaced = e.unplaced)
    (links : ∀ k ∈ e.links, s.Linkable z k) (formed : e.Formed) :
    Twins z s s' (alloc e) (alloc e') fun h t => t.Linkable z h := by
  refine .of_steps (fun _ => rfl) (fun _ => ?_) (.alloc twin.base_le e)
    (twin.alloc same links formed) (twin.linkable_new (Store.mem_alloc e s) (Nat.lt_irrefl s.size))
  have handle : (s'.alloc e').1 = (s.alloc e).1 := congrArg Handle.mk twin.size_eq
  change Except.ok (s'.alloc e') = Except.ok ((s.alloc e).1, (s'.alloc e').2)
  rw [← handle]

/-- A new entity that names nothing. -/
theorem twins_make (twin : s.Twin z s') (same : e'.unplaced = e.unplaced) (bare : e.links = [])
    (typed : e.HasType) : Twins z s s' (alloc e) (alloc e') fun h t => t.Linkable z h := by
  refine twins_alloc twin same (fun k hk => ?_) (typed.formed bare)
  rw [bare] at hk
  cases hk

/-- Entities of one tag, with a label and a line. -/
theorem hasType_ofType (kind : EntityKind) (tag : String) : (Entity.ofType kind tag).HasType :=
  ⟨tag, SortedSet.mem_ofList.2 List.mem_cons_self⟩

variable (twin : s.Twin z s')

include twin

theorem twins_copy (copyable : s.Copyable z h) {o o' : Overrides} (kind : o'.kind = o.kind)
    (label : o'.label = o.label) :
    Twins z s s' (copy h o) (copy h o') fun k t => t.Linkable z k := by
  have same : ((s'.node h).override o').unplaced = ((s.node h).override o).unplaced := by
    rw [Entity.override, Entity.override, kind, label]
    exact twin.congr h (fun e => Entity.unplaced
      { e with kind := o.kind.getD e.kind, label := o.label.getD e.label }) fun _ => rfl
  have made := twins_alloc twin same (e := (s.node h).override o) copyable.links copyable.formed
  exact fun bound => made bound

theorem twins_retain (h : Handle) {post : Handle → Store → Prop} (result : post h (s.retain h)) :
    Twins z s s' (retain h) (retain h) post :=
  .of_steps (fun _ => rfl) (fun _ => rfl) (.of_nodes_eq rfl) (twin.retainAll [h]) result

theorem twins_release (h : Handle) : Twins z s s' (release h) (release h) fun _ _ => True :=
  twins_modify (.of_nodes_eq (Store.nodes_release h s)) (twin.release h)

theorem twins_releaseAll (hs : List Handle) :
    Twins z s s' (releaseAll hs) (releaseAll hs) fun _ _ => True :=
  twins_modify (.of_nodes_eq (Store.nodes_releaseAll hs s)) (twin.releaseAll hs)

/-- A hold is given up at the end, and the result may still be named. -/
theorem twins_release_pure (linkable : s.Linkable z r) (h : Handle) :
    Twins z s s' (do release h; Pure.pure r) (do release h; Pure.pure r)
      fun r t => t.Linkable z r :=
  (twins_release twin h).bind fun _ _ _ later twin _ => .pure twin (linkable.mono later)

theorem twins_releaseAll_some (linkable : s.Linkable z r) (hs : List Handle) :
    Twins z s s' (do releaseAll hs; Pure.pure (some r)) (do releaseAll hs; Pure.pure (some r))
      fun r t => ∀ m ∈ r, t.Linkable z m :=
  (twins_releaseAll twin hs).bind fun _ _ _ later twin _ =>
    .pure twin fun _ hm => Option.some.inj hm ▸ linkable.mono later

end Primitives

section Joins
variable {mode : JoinMode} {a b : Handle}

theorem join_of_run {r : Except Store Store} (h : s.joinWithin mode bound a b = r) :
    join mode a b bound s = r.map fun t => ((), t) := by rw [join, h]


/-- A join whose first pair has been begun. -/
theorem lockstep_join (deep : mode.deepCopy = true)
    (begun : (Joining.enter mode a b { store := s }).Twin z
      (Joining.enter mode a b { store := s' })) :
    Lockstep s s' (join mode a b) (join mode a b) fun _ _ t t' => t.Twin z t' ∧
      s.size ≤ t.size := by
  intro bound
  rcases begun.run deep bound with ⟨t, t', ran, ran'⟩ | ⟨t, t', ran, ran', twin⟩
  · exact .inl ⟨t, t', join_of_run ran, join_of_run ran'⟩
  · exact .inr ⟨(), (), t, t', join_of_run ran, join_of_run ran', twin,
      (Store.grows_joinWithin ran).size_le⟩

theorem lockstep_joinAll (deep : mode.deepCopy = true) (twin : s.Twin z s') {m : Handle}
    (linkable : s.Linkable z m) {members : List Handle} (made : ∀ b ∈ members, s.Made z b) :
    Lockstep s s' (joinAll mode m members) (joinAll mode m members)
      fun _ _ t t' => t.Twin z t' ∧ s.size ≤ t.size := by
  induction members generalizing s s' with
  | nil => exact .of_steps (fun _ => rfl) (fun _ => rfl) ⟨twin, Nat.le_refl _⟩
  | cons b rest ih =>
    obtain ⟨here, others⟩ := List.forall_mem_cons.1 made
    have start : Joining.Twin z { store := s } { store := s' } :=
      ⟨rfl, rfl, twin, fun e he => absurd he List.not_mem_nil⟩
    refine (lockstep_join deep (start.enter linkable here)).bind ?_
    rintro _ _ t t' ⟨twin', size_le⟩
    refine (ih twin' (linkable.later size_le) fun b hb => (others b hb).later size_le).weaken ?_
    rintro _ _ u u' ⟨twin'', size_le'⟩
    exact ⟨twin'', Nat.le_trans size_le size_le'⟩

theorem lockstep_union (twin : s.Twin z s') (kind : EntityKind) (label : String) {b : Handle}
    {rest : List Handle} (made : ∀ m ∈ b :: rest, s.Made z m) :
    Lockstep s s' (union kind label (b :: rest)) (union kind label (b :: rest))
      fun _ _ t t' => t.Twin z t' := by
  obtain ⟨here, others⟩ := List.forall_mem_cons.1 made
  have size : (s.alloc { kind, label }).2.size = s.size + 1 := Store.size_alloc _ s
  have handle : (s'.alloc { kind, label }).1 = (s.alloc { kind, label }).1 :=
    congrArg Handle.mk twin.size_eq
  have begun : Lockstep s s' (alloc { kind, label }) (alloc { kind, label }) fun m m' t t' =>
      m = (s.alloc { kind, label }).1 ∧ m' = m ∧ t = (s.alloc { kind, label }).2 ∧
        t' = (s'.alloc { kind, label }).2 :=
    .of_steps (fun _ => rfl) (fun _ => rfl) ⟨rfl, handle, rfl, rfl⟩
  refine begun.bind ?_
  rintro m m' t t' ⟨rfl, rfl, rfl, rfl⟩
  refine Lockstep.bind
    (Lockstep.bind (lockstep_join rfl (Joining.Twin.open_union twin here kind label)) ?_)
    fun _ _ t t' done => .of_steps (fun _ => rfl) (fun _ => rfl) done
  rintro _ _ t t' ⟨twin', size_le⟩
  have stored : (s.alloc { kind, label }).1 ∈ t := Nat.lt_of_lt_of_le (Store.mem_alloc _ s) size_le
  refine (lockstep_joinAll rfl twin' (twin.linkable_new stored (Nat.lt_irrefl s.size))
    fun m hm => (others m hm).later (by omega)).weaken ?_
  exact fun _ _ _ _ done => done.1

theorem twins_union (twin : s.Twin z s') (kind : EntityKind) (label : String)
    {members : List Handle} (nonempty : members ≠ []) (made : ∀ b ∈ members, s.Made z b) :
    Twins z s s' (union kind label members) (union kind label members)
      fun m t => t.Linkable z m := by
  obtain ⟨b, rest, rfl⟩ := List.exists_cons_of_ne_nil nonempty
  intro bound
  rcases lockstep_union twin kind label made bound with failed | ⟨m, m', t, t', ran, ran', twin'⟩
  · exact .inl failed
  · have inside : ∀ n ∈ b :: rest, n ∈ s := fun n hn => (made n hn).mem
    have unites := unites_union twin.closed inside ran
    have unites' := unites_union twin.closed_right (fun n hn => twin.mem_iff.2 (inside n hn)) ran'
    have later : s.Later z.base t := .of_kept twin.base_le unites.store.size_le unites.store.kept
    have new : m ∉ s := by
      rw [unites.new]
      exact Nat.lt_irrefl s.size
    refine .inr ⟨m, m', t, t', ran, ran', ?_, later, twin', twin.linkable_new unites.stored new⟩
    rw [unites.new, unites'.new, twin.size_eq]

end Joins

section Members

variable (twin : s.Twin z s')

include twin

theorem twins_lookup (made : s.Made z h) (key : Property) :
    Twins z s s' (lookup h key) (lookup h key) fun r t => ∀ m ∈ r, t.Linkable z m := by
  cases key with
  | identifier name =>
    refine .bind_get ?_
    rw [twin.findName?_eq]
    split
    · rename_i found hfound
      exact .some (twins_retain twin found
        ((twin.linkable_findName? made hfound).later (Nat.le_refl _)))
    · exact .none twin
  | value k =>
    refine .bind_get ?_
    dsimp only
    rw [twin.types_eq, twin.findIndexed_eq]
    have inside : ∀ m ∈ s.findIndexed h (s.node k).types, s.Linkable z m := fun m hm =>
      twin.linkable_findIndexed made hm
    split
    · exact .none twin
    · rename_i found hfound
      exact .some (twins_retain twin found
        ((inside found (by simp [hfound])).later (Nat.le_refl _)))
    · rename_i first rest _ hfound
      rw [hfound] at inside
      have kind : (s'.node first).kind = (s.node first).kind :=
        twin.congr first Entity.kind fun _ => rfl
      have label : (s'.node first).label = (s.node first).label :=
        twin.congr first Entity.label fun _ => rfl
      rw [kind, label]
      exact .some (twins_union twin _ _ (List.cons_ne_nil _ _) fun b hb => (inside b hb).toMade)

/-- A call gives a copy of the declared result, or a new entity. -/
theorem twins_invoke (result : ∀ r ∈ (s.node h).result, s.Made z r) :
    Twins z s s' (invoke h) (invoke h) fun r t => t.Linkable z r := by
  refine .bind_node twin h (fun _ => rfl) ?_
  split
  · rename_i r declared
    exact twins_copy twin (twin.copyable (result r declared)) rfl rfl
  · refine twins_make twin rfl rfl ?_
    dsimp only [Entity.HasType]
    split
    · exact ⟨Tag.any, SortedSet.mem_ofList.2 List.mem_cons_self⟩
    · rename_i some_type
      exact SortedSet.exists_mem some_type

theorem twins_readMember {found : Handle} (linkable : s.Linkable z found) (suppress : Bool) :
    Twins z s s' (readMember found suppress) (readMember found suppress)
      fun r t => t.Linkable z r := by
  refine .bind_node twin found (fun _ => rfl) ?_
  split
  · refine (twins_invoke twin (twin.made_result linkable.toMade)).bind
      fun t t' called _ twin' made => ?_
    exact twins_release_pure twin' made found
  · exact .pure twin linkable

theorem twins_resolveMember (made : s.Made z h) (key : Property) (suppress : Bool) :
    Twins z s s' (resolveMember h key suppress) (resolveMember h key suppress)
      fun r t => ∀ m ∈ r, t.Linkable z m := by
  refine (twins_lookup twin made key).bind fun t t' r _ twin' found => ?_
  cases r with
  | none => exact .none twin'
  | some m => exact .some (twins_readMember twin' (found m rfl) suppress)

end Members

section Types

variable (twin : s.Twin z s')

include twin

/-- Reading a member of a type gives the member or a new entity, and of either a copy may be
made. -/
theorem twins_resolveSeeded (seeded : s.Seeded z.base h) (property : String) (suppress : Bool) :
    Twins z s s' (resolveMember h (.identifier property) suppress)
      (resolveMember h (.identifier property) suppress) fun r t => ∀ m ∈ r, t.Copyable z m := by
  have found : Twins z s s' (lookup h (.identifier property)) (lookup h (.identifier property))
      fun r t => ∀ m ∈ r, (t.node m).links = [] ∧ (t.node m).HasType := by
    refine .bind_get ?_
    rw [twin.findName?_eq]
    split
    · rename_i m hm
      obtain ⟨n, hn, member⟩ := List.exists_of_findSome?_eq_some hm
      rw [seeded.eq_of_mem_lookupChain hn] at member
      exact .some (twins_retain twin m (seeded.member member).2)
    · exact .none twin
  refine found.bind fun t t' r _ twin₁ result => ?_
  cases r with
  | none => exact .none twin₁
  | some m =>
    obtain ⟨bare, typed⟩ := result m rfl
    have none : ∀ k, k ∉ (t.node m).links := by simp [bare]
    refine .some (.bind_node twin₁ m (fun _ => rfl) ?_)
    split
    · have undeclared : ∀ r ∈ (t.node m).result, t.Made z r := fun r declared =>
        (none r (Entity.mem_links_iff.2 (.inr (.inl declared)))).elim
      refine (twins_invoke twin₁ undeclared).bind fun u u' called _ twin₂ made => ?_
      refine (twins_release twin₂ m).bind fun v v' _ later twin₃ _ => ?_
      exact .pure twin₃ (twin₃.copyable (made.mono later).toMade)
    · exact .pure twin₁ ⟨fun k hk => (none k hk).elim, typed.formed bare⟩

theorem twins_detach (copyable : s.Copyable z h) :
    Twins z s s' (detach h) (detach h) fun r t => t.Linkable z r :=
  (twins_copy twin copyable rfl rfl).bind fun _ _ _ _ twin₁ made => twins_release_pure twin₁ made h

/-- A member of a type is handed out as a copy. -/
theorem twins_definedOn (seeded : s.Seeded z.base h) (property : String) (suppress : Bool) :
    Twins z s s' (definedOn h property suppress) (definedOn h property suppress)
      fun r t => ∀ m ∈ r, t.Linkable z m := by
  refine (twins_resolveSeeded twin seeded property suppress).bind fun t t' r _ twin₁ found => ?_
  cases r with
  | none => exact .none twin₁
  | some m => exact .some (twins_detach twin₁ (found m rfl))

/-- No member of a type is found by a value. -/
theorem twins_lookup_value (seeded : s.Seeded z.base h) (key : Handle) :
    Twins z s s' (lookup h (.value key)) (lookup h (.value key)) fun r _ => r = none := by
  have unindexed : ∀ types, (s.node h).indexMatches types = [] := by
    intro types
    rw [List.eq_nil_iff_forall_not_mem]
    intro m hm
    unfold Entity.indexMatches at hm
    split at hm
    · obtain ⟨entry, listed, tagged⟩ := List.mem_filterMap.1 hm
      obtain ⟨name, key⟩ := seeded.named (SortedMap.get?_eq_some_iff.2 listed)
      rw [key] at tagged
      cases tagged
    · obtain ⟨tag, -, member⟩ := List.mem_filterMap.1 hm
      obtain ⟨name, key⟩ := seeded.named member
      cases key
  have nothing : s.findIndexed h (s.node key).types = [] := by
    rw [List.eq_nil_iff_forall_not_mem]
    intro m hm
    obtain ⟨n, hn, listed⟩ := Store.exists_mem_indexMatches_of_mem_findIndexed hm
    rw [seeded.eq_of_mem_lookupChain hn, unindexed] at listed
    cases listed
  refine .bind_get ?_
  dsimp only
  rw [twin.types_eq, twin.findIndexed_eq, nothing]
  exact .pure twin rfl

end Types

section Settling

theorem twins_matching {find : String → Handle → Infer (Option Handle)} {l : List (String × Handle)}
    (twin : s.Twin z s')
    (each : ∀ t t', s.Later z.base t → t.Twin z t' → ∀ entry ∈ l,
      Twins z t t' (find entry.1 entry.2) (find entry.1 entry.2) fun r t =>
        ∀ m ∈ r, t.Linkable z m) :
    Twins z s s' (matching find l) (matching find l) fun r t => ∀ m ∈ matched r,
      t.Linkable z m := by
  induction l generalizing s s' with
  | nil => exact .pure twin fun _ hm => absurd hm List.not_mem_nil
  | cons entry rest ih =>
    refine (each s s' (.refl _ s) twin entry List.mem_cons_self).bind
      fun t t' found later twin₁ result => ?_
    have others := ih twin₁ fun u u' later' twin' other listed =>
      each u u' (later.trans later') twin' other (List.mem_cons_of_mem _ listed)
    refine others.bind fun u u' others later' twin₂ results => .pure twin₂ fun m hm => ?_
    simp only [matched, List.map_append, List.map_map, Function.comp_def, List.map_id',
      List.mem_append, Option.mem_toList] at hm
    rcases hm with hm | hm
    · exact (result m hm).mono later'
    · exact results m hm

theorem twins_settle {found : List (String × Handle)} {general : Infer (Option Handle)}
    (twin : s.Twin z s') (linkable : ∀ m ∈ matched found, s.Linkable z m) (count : Nat)
    (label : String) (fallback : Twins z s s' general general fun r t => ∀ m ∈ r, t.Linkable z m) :
    Twins z s s' (settle count found label general) (settle count found label general)
      fun r t => ∀ m ∈ r, t.Linkable z m := by
  unfold settle
  split
  · exact .none twin
  · rename_i name first rest
    split
    · exact twins_releaseAll_some twin (linkable first List.mem_cons_self) _
    · split
      · rename_i key h hmatch
        exact twins_releaseAll_some twin
          (linkable h (List.mem_map_of_mem (List.mem_of_find?_eq_some hmatch))) _
      · refine fallback.bind fun t t' g later twin₁ result => ?_
        cases g with
        | some g => exact twins_releaseAll_some twin₁ (result g rfl) _
        | none =>
          dsimp only
          split
          · exact .pure twin₁
              fun m hm => Option.some.inj hm ▸ (linkable first List.mem_cons_self).mono later
          · refine .bind_node twin₁ first (fun _ => rfl) ?_
            refine (twins_union twin₁ _ _ (List.cons_ne_nil _ _) fun b hb => ?_).bind
              fun u u' merged _ twin₂ made => twins_releaseAll_some twin₂ made _
            exact ((linkable b hb).mono later).toMade

end Settling

end Infer

/-- The entities of the types lie below the base. -/
def TypeRegistry.Seeded (r : TypeRegistry) (base : Nat) (s : Store) : Prop :=
  ∀ h ∈ r.holds, s.Seeded base h

theorem TypeRegistry.Seeded.mono {r : TypeRegistry} (seeded : r.Seeded base s)
    (later : s.Later base t) : r.Seeded base t := fun h hh => (seeded h hh).mono later

namespace Infer
variable {s' : Store}

section Definitions
variable {r : TypeRegistry}

variable (twin : s.Twin z s')

include twin

variable (seeded : r.Seeded z.base s)

include seeded

theorem twins_generalDefinition (property : String) (suppress : Bool) :
    Twins z s s' (generalDefinition r property suppress) (generalDefinition r property suppress)
      fun r t => ∀ m ∈ r, t.Linkable z m := by
  unfold generalDefinition
  split
  · exact .none twin
  · rename_i h registered
    exact twins_definedOn twin (seeded h (TypeRegistry.mem_holds_of_type? registered)) property
      suppress

theorem twins_definition (types : SortedSet String) (property : String) (suppress : Bool) :
    Twins z s s' (definition r types property suppress) (definition r types property suppress)
      fun r t => ∀ m ∈ r, t.Linkable z m := by
  refine (twins_matching twin fun t t' later twin₁ entry he => ?_).bind
    fun t t' found later twin₁ result => ?_
  · have below := (seeded entry.2 (TypeRegistry.mem_holds_of_mem_candidates he)).mono later
    exact twins_definedOn twin₁ below property suppress
  · exact twins_settle twin₁ result _ _
      (twins_generalDefinition twin₁ (seeded.mono later) property suppress)

theorem twins_indexDefinition (types : SortedSet String) (key : Handle) :
    Twins z s s' (indexDefinition r types key) (indexDefinition r types key)
      fun r t => ∀ m ∈ r, t.Linkable z m := by
  refine .bind_node twin key (fun _ => rfl) ?_
  refine (twins_matching twin fun t t' later twin₁ entry he => ?_).bind
    fun t t' found _ twin₁ result =>
    twins_settle twin₁ result _ _ (.none twin₁)
  have below := (seeded entry.2 (TypeRegistry.mem_holds_of_mem_candidates he)).mono later
  refine (twins_lookup_value twin₁ below key).bind fun u u' found _ twin₂ nothing => ?_
  subst nothing
  dsimp only
  split
  · exact .none twin₂
  · rename_i some_type
    exact .some (twins_make twin₂ rfl rfl (SortedSet.exists_mem some_type))

theorem twins_resolveProperty (made : s.Made z h) (key : Property) (suppress : Bool) :
    Twins z s s' (resolveProperty r h key suppress) (resolveProperty r h key suppress)
      fun m t => t.Linkable z m := by
  refine (twins_resolveMember twin made key suppress).bind fun t t' found later twin₁ result => ?_
  cases found with
  | some found => exact .pure twin₁ (result found rfl)
  | none =>
    refine .bind_node twin₁ h (fun _ => rfl) ?_
    cases key with
    | identifier name =>
      refine (twins_definition twin₁ (seeded.mono later) _ name suppress).bind
        fun u u' found _ twin₂ result => ?_
      cases found with
      | some found => exact .pure twin₂ (result found rfl)
      | none => exact twins_make twin₂ rfl rfl (hasType_ofType .unknown Tag.any)
    | value k =>
      refine (twins_indexDefinition twin₁ (seeded.mono later) _ k).bind
        fun u u' found _ twin₂ result => ?_
      cases found with
      | some found => exact .pure twin₂ (result found rfl)
      | none => exact twins_make twin₂ rfl rfl (hasType_ofType .unknown Tag.any)

end Definitions

end Infer

/-- The entities of the scope may be named. -/
def Scope.Linkable (z : Zone) (c : Scope) (s : Store) : Prop := ∀ h ∈ c.holds, s.Linkable z h

theorem Scope.Linkable.mono {c : Scope} (linkable : c.Linkable z s) (later : s.Later base t) :
    c.Linkable z t := fun h hh => (linkable h hh).mono later

namespace Infer
variable {s' : Store} {c : Scope}

theorem twins_resolveReserved (twin : s.Twin z s') (linkable : c.Linkable z s) (name : String) :
    Twins z s s' (resolveReserved c name) (resolveReserved c name) fun r t => ∀ m ∈ r,
      t.Linkable z m := by
  unfold resolveReserved
  split
  · exact .none twin
  · rename_i h stored
    exact .some (twins_retain twin h
      ((linkable h (Scope.mem_holds_of_pseudo? stored)).later (Nat.le_refl _)))
  · exact .some (twins_make twin rfl rfl (hasType_ofType .unknown Tag.any))

theorem Scope.find?_eq (twin : s.Twin z s') (c : Scope) (name : String) :
    c.find? s' name = c.find? s name := by
  have found : (fun h => s'.findName? h name) = fun h => s.findName? h name :=
    funext fun h => twin.findName?_eq h name
  rw [Scope.find?, Scope.find?, found]

theorem twins_lookupName (twin : s.Twin z s') (linkable : c.Linkable z s) (name : String) :
    Twins z s s' (lookupName c name) (lookupName c name) fun r t => ∀ m ∈ r, t.Linkable z m := by
  refine .bind_get ?_
  rw [Scope.find?_eq twin]
  split
  · exact .none twin
  · rename_i h found
    obtain ⟨n, held, named⟩ := Scope.exists_mem_holds_of_find? found
    exact .some (twins_retain twin h
      ((twin.linkable_findName? (linkable n held).toMade named).later (Nat.le_refl _)))

theorem twins_resolveName {r : TypeRegistry} (twin : s.Twin z s') (seeded : r.Seeded z.base s)
    (linkable : c.Linkable z s) (name : String) (suppress : Bool) :
    Twins z s s' (resolveName r c name suppress) (resolveName r c name suppress)
      fun m t => t.Linkable z m := by
  refine (twins_resolveReserved twin linkable name).bind fun t t' found later twin₁ result => ?_
  cases found with
  | some found => exact .pure twin₁ (result found rfl)
  | none =>
    refine (twins_lookupName twin₁ (linkable.mono later) name).bind
      fun u u' found later₂ twin₂ result => ?_
    cases found with
    | some found => exact twins_readMember twin₂ (result found rfl) suppress
    | none =>
      refine (twins_generalDefinition twin₂ ((seeded.mono later).mono later₂) name suppress).bind
        fun v v' found _ twin₃ result => ?_
      cases found with
      | some found => exact .pure twin₃ (result found rfl)
      | none => exact twins_make twin₃ rfl rfl (hasType_ofType .unknown Tag.any)

end Infer

end ScriptInference
