import Mathlib.Data.Set.Function
import ScriptInference.Entity.Copy
import ScriptInference.Proofs.Entity.Search

/-!
# What a deep copy leaves behind

A deep copy appends one copy for each node that it meets, in the order in which it meets them, so
the copy of a node is found by its rank. In the end every copy has the contents of its original with
members and result replaced by their copies, and with the links to copied nodes redirected.

The search is described by what it adds. It never touches a copy that was there when it began, and
so leaves the half-built copies on the way to a node alone. What it adds is finished when it ends:
all parts of a new copy have been met by then, if not before, and a copy keeps its place once it is
listed.
-/

namespace ScriptInference

variable {asked asked' : List Handle} {s : Store} {k : Handle} {c : Copying}

/-! ### The finished copies -/

/-- Contents with the members and the result replaced. -/
def Entity.refit (φ : Handle → Handle) (e : Entity) : Entity :=
  { e with members := e.members.mapValues φ, result := e.result.map φ }

namespace Store

/-- The copy of a node, where the nodes of `domain` are copied in order to the end of the store. -/
def image (s : Store) (domain : Enumeration Handle) (h : Handle) : Handle :=
  match domain.rank? h with
  | some i => ⟨s.size + i⟩
  | none => h

/-- Contents with every edge redirected. A redirected prototype link is not held. -/
def redirect (s : Store) (domain : Enumeration Handle) (e : Entity) : Entity :=
  { e with
    members := e.members.mapValues (s.image domain)
    result := e.result.map (s.image domain)
    isa := e.isa.map fun p =>
      if s.live p.target && (domain.rank? p.target).isSome then ⟨s.image domain p.target,
        false⟩ else p
    context := e.context.map fun c => if s.live c then s.image domain c else c }

/-- The outcome of a deep copy in one step. -/
def duplicate (roots : List Handle) (s : Store) : List Handle × Store :=
  let domain := s.copied roots
  let contents := domain.toList.map fun h => s.redirect domain (s.node h)
  let copies := roots.map (s.image domain)
  let extended := contents.foldl (fun t e => t.push e) s
  (copies, extended.retainAll (contents.flatMap Entity.holds ++ copies))

section Places
variable {t : Store} {domain : Enumeration Handle} {n : Handle}

theorem image_of_rank {i : Nat} (hi : domain.rank? n = some i) :
    s.image domain n = ⟨s.size + i⟩ := by
  simp [image, hi]

theorem exists_place (hn : n ∈ domain.toList) :
    ∃ i, domain.toList[i]? = some n ∧ s.image domain n = ⟨s.size + i⟩ := by
  obtain ⟨i, hi⟩ := List.mem_iff_getElem?.1 hn
  exact ⟨i, hi, image_of_rank ((domain.rank?_eq_some_iff n i).2 hi)⟩

theorem image_not_mem (hn : n ∈ domain.toList) : s.image domain n ∉ s := by
  obtain ⟨i, -, place⟩ := exists_place hn
  rw [place]
  exact Nat.not_lt.2 (Nat.le_add_right s.size i)

theorem image_injOn (domain : Enumeration Handle) :
    Set.InjOn (s.image domain) {n | n ∈ domain.toList} := by
  intro n hn m hm same
  obtain ⟨i, hi, place⟩ := exists_place hn
  obtain ⟨j, hj, place'⟩ := exists_place hm
  rw [place, place', Handle.mk.injEq] at same
  obtain rfl : i = j := by omega
  exact Option.some.inj (hi.symm.trans hj)

theorem exists_image_of_lt (bounded : n.index < s.size + domain.toList.length) (fresh : n ∉ s) :
    ∃ m ∈ domain.toList, s.image domain m = n := by
  have beyond : s.size ≤ n.index := Nat.le_of_not_lt fresh
  have listed : n.index - s.size < domain.toList.length := by omega
  refine ⟨_, List.getElem_mem listed, ?_⟩
  rw [image_of_rank ((domain.rank?_eq_some_iff _ _).2 (List.getElem?_eq_getElem listed))]
  exact congrArg Handle.mk (by omega)

/-- Nodes appended for a domain are found at the places of its copies. -/
theorem node_of_append {f : Handle → Entity}
    (nodes : t.nodes = s.nodes ++ (domain.toList.map f).toArray) :
    (∀ k ∈ s, t.node k = s.node k) ∧ ∀ m ∈ domain.toList, t.node (s.image domain m) = f m := by
  refine ⟨fun k hk => ?_, fun m hm => ?_⟩
  · have inside : k.index < s.nodes.size := hk
    simp [node, nodes, Array.getD_eq_getD_getElem?, Array.getElem?_append_left inside]
  · obtain ⟨i, hi, place⟩ := exists_place (s := s) hm
    have beyond : s.nodes.size ≤ s.nodes.size + i := Nat.le_add_right _ _
    have shifted : s.nodes.size + i - s.nodes.size = i := by omega
    rw [place]
    simp [node, nodes, size, Array.getD_eq_getD_getElem?, Array.getElem?_append_right beyond,
      shifted, hi]

theorem parts_redirect (domain : Enumeration Handle) (e : Entity) :
    (s.redirect domain e).parts = e.parts.map (s.image domain) := by
  cases hresult : e.result <;> simp [redirect, Entity.parts, SortedMap.values_mapValues, hresult]

end Places

/-- Stores of one size are equal if they agree on the contents and the count of every node. -/
theorem eq_of_node_of_count {t : Store} (size : s.size = t.size)
    (node : ∀ k ∈ s, s.node k = t.node k) (count : ∀ k ∈ s, s.count k = t.count k) : s = t := by
  obtain ⟨nodes, holders, aligned⟩ := s
  obtain ⟨nodes', holders', aligned'⟩ := t
  have same_nodes : nodes = nodes' := by
    refine Array.ext size fun i hi hi' => ?_
    simpa [Store.node, hi, hi'] using node ⟨i⟩ hi
  have same_holders : holders = holders' := by
    refine Array.ext ((aligned.trans size).trans aligned'.symm) fun i hi hi' => ?_
    have same := count ⟨i⟩ (Nat.lt_of_lt_of_eq hi aligned)
    simpa [Store.count, hi, hi'] using same
  subst same_nodes same_holders
  rfl

/-- A hold on a node of the store counts there and nowhere else. -/
theorem count_retain_eq {h : Handle} (hh : h ∈ s) (k : Handle) :
    (s.retain h).count k = s.count k + [h].count k := by
  by_cases hk : k ∈ s
  · rw [count_retain hk, List.count_singleton]
    simp
  · have other : k ∉ [h] := fun same => hk (List.mem_singleton.1 same ▸ hh)
    have out : k ∉ s.retain h := hk
    rw [count_of_not_mem hk, count_of_not_mem out, List.count_eq_zero_of_not_mem other]

end Store

/-! ### What the search adds -/

namespace Copying
variable {φ : Handle → Handle} {known later : Enumeration Handle} {c' c'' : Copying}

/-- The memo lists the nodes that have been met, each with the place of its copy. -/
structure Lists (s : Store) (known : Enumeration Handle) (c : Copying) : Prop where
  size : c.store.size = s.size + known.toList.length
  memo : ∀ h, c.memo[h]? = (known.rank? h).map fun i => ⟨s.size + i⟩

/-- Between `c` and `c'` finished copies of the nodes `new` have been added, and copies of the nodes
`asked` returned, each with a hold. Copies that were there before are as they were. -/
structure Adds (s : Store) (φ : Handle → Handle) (new asked : List Handle) (c c' : Copying) :
    Prop where
  nodes : c'.store.nodes = c.store.nodes ++ (new.map fun n => (s.node n).refit φ).toArray
  count : ∀ k, c'.store.count k =
    c.store.count k + (new.flatMap fun n => (s.node n).parts.map φ).count k + (asked.map φ).count k

theorem Adds.size {new : List Handle} (adds : c.Adds s φ new asked c') :
    c'.store.size = c.store.size + new.length := by
  simp [Store.size, adds.nodes]

theorem Adds.refl (c : Copying) : c.Adds s φ [] [] c := ⟨by simp, fun k => by simp⟩

theorem Adds.trans {new new' : List Handle} (first : c.Adds s φ new asked c')
    (second : c'.Adds s φ new' asked' c'') : c.Adds s φ (new ++ new') (asked ++ asked') c'' where
  nodes := by rw [second.nodes, first.nodes]; simp
  count k := by
    rw [second.count, first.count]
    simp only [List.flatMap_append, List.map_append, List.count_append]
    omega

/-- Begun when the nodes of `known` have been met, `x` returns `a`, and then those of `later` have
been met: it has copied the nodes `asked`, and whatever these led to. -/
def Copies (s : Store) (φ : Handle → Handle) (known later : Enumeration Handle)
    (asked : List Handle) {α : Type} (x : StateM Copying α) (a : α) : Prop :=
  ∀ c : Copying, c.Lists s known → ∃ new, later.toList = known.toList ++ new ∧
    (x.run c).1 = a ∧ (x.run c).2.Lists s later ∧ c.Adds s φ new asked (x.run c).2

section Rules
variable {α β : Type} {x : StateM Copying α} {a : α}

theorem Copies.pure (a : α) : Copies s φ known known [] (Pure.pure a) a := fun c lists =>
  ⟨[], (List.append_nil _).symm, rfl, lists, .refl c⟩

theorem Copies.bind {last : Enumeration Handle} {f : α → StateM Copying β} {b : β}
    (first : Copies s φ known later asked x a) (second : Copies s φ later last asked' (f a) b) :
    Copies s φ known last (asked ++ asked') (x >>= f) b := by
  intro c lists
  obtain ⟨new, listed, value, lists', adds⟩ := first c lists
  obtain ⟨new', listed', value', lists'', adds'⟩ := second _ lists'
  have run : (x >>= f).run c = (f a).run (x.run c).2 := by
    rw [← value]
    rfl
  rw [run]
  exact ⟨new ++ new', by rw [listed', listed, List.append_assoc], value', lists'', adds.trans adds'⟩

theorem Copies.map (g : α → β) (copies : Copies s φ known later asked x a) :
    Copies s φ known later asked (g <$> x) (g a) := by
  intro c lists
  obtain ⟨new, listed, value, lists', adds⟩ := copies c lists
  exact ⟨new, listed, congrArg g value, lists', adds⟩

end Rules

section Search
variable {bound : Nat} {domain : Enumeration Handle} {h : Handle}

theorem image_mem (lists : c.Lists s known) (met : h ∈ known.toList)
    (within : known.toList <+: domain.toList) :
    c.memo[h]? = some (s.image domain h) ∧ s.image domain h ∈ c.store := by
  obtain ⟨i, place⟩ := List.mem_iff_getElem?.1 met
  have bounded : i < known.toList.length := (List.getElem?_eq_some_iff.1 place).1
  have rank : domain.rank? h = some i := by
    obtain ⟨rest, split⟩ := within
    rw [Enumeration.rank?_eq_some_iff, ← split, List.getElem?_append_left bounded]
    exact place
  have first : known.rank? h = some i := (known.rank?_eq_some_iff h i).2 place
  rw [Store.image_of_rank rank, lists.memo, first, Store.mem_iff, lists.size]
  exact ⟨rfl, Nat.add_lt_add_left bounded s.size⟩

theorem copies_mapM {α β : Type} {f : α → StateM Copying β} {node : α → Handle} {value : α → β}
    (each : ∀ a {known}, s.Ample bound known →
      (s.visitWithin bound known (node a)).toList <+: domain.toList →
      Copies s φ known (s.visitWithin bound known (node a)) [node a] (f a) (value a))
    (l : List α) (ample : ∀ a ∈ l, s.Ample bound known)
    (within : ((l.map node).foldl (s.visitWithin bound) known).toList <+: domain.toList) :
    Copies s φ known ((l.map node).foldl (s.visitWithin bound) known) (l.map node) (l.mapM f)
      (l.map value) := by
  induction l generalizing known with
  | nil => exact .pure []
  | cons a l ih =>
    have enough := ample a List.mem_cons_self
    have first := each a enough ((Store.prefix_visitAll bound (l.map node) _).trans within)
    have rest := ih (fun _ _ => enough.mono (Store.prefix_visitWithin bound known (node a))) within
    rw [List.mapM_cons]
    exact first.bind (rest.map (value a :: ·))

theorem copies_copyParts {copy : Handle → StateM Copying Handle}
    (each : ∀ m {known}, s.Ample bound known →
      (s.visitWithin bound known m).toList <+: domain.toList →
      Copies s φ known (s.visitWithin bound known m) [m] (copy m) (φ m))
    (e : Entity) (ample : ∀ m ∈ e.parts, s.Ample bound known)
    (within : (e.parts.foldl (s.visitWithin bound) known).toList <+: domain.toList) :
    Copies s φ known (e.parts.foldl (s.visitWithin bound) known) e.parts (e.copyParts copy)
      (e.members.mapValues φ, e.result.map φ) := by
  rw [Entity.parts, List.foldl_append] at within ⊢
  have first := copies_mapM (f := fun entry => do return (entry.1, ← copy entry.2))
    (fun entry _ ample inside => (each entry.2 ample inside).map (entry.1, ·)) e.members.toList
    (fun entry hentry => ample entry.2 (List.mem_append_left _ (List.mem_map_of_mem hentry)))
    ((Store.prefix_visitAll bound e.result.toList _).trans within)
  rw [← SortedMap.ofList_map_toList]
  refine first.bind ?_
  cases hresult : e.result with
  | none => exact .pure _
  | some m =>
    have enough : s.Ample bound known := ample m (by simp [Entity.parts, hresult])
    rw [hresult] at within
    have last := each m (enough.mono (Store.prefix_visitAll bound e.members.values known)) within
    exact last.map fun copy => (_, some copy)

/-- The search from a node that has been met returns the copy there is. -/
theorem run_copyNode_of_met {copy : Handle} (found : c.memo[h]? = some copy) :
    (copyNode s (bound + 1) h).run c = (copy, { c with store := c.store.retain copy }) := by
  simp only [copyNode, StateT.run_bind, StateT.run_get, pure_bind]
  rw [found]
  rfl

/-- The search from a new node lists a half-built copy, copies the parts, and finishes the copy. -/
theorem run_copyNode_of_new (found : c.memo[h]? = none) :
    (copyNode s (bound + 1) h).run c =
      let copy : Handle := ⟨c.store.size⟩
      let began : Copying := ⟨c.memo.insert h copy, c.store.push (s.node h)⟩
      let r := ((s.node h).copyParts (copyNode s bound)).run began
      let finished :=
        r.2.store.modifyNode copy fun e => { e with members := r.1.1, result := r.1.2 }
      (copy, { r.2 with store := finished.retain copy }) := by
  simp only [copyNode, StateT.run_bind, StateT.run_get, pure_bind]
  rw [found]
  rfl

/-- A half-built copy is listed at the end of the store. -/
theorem Lists.begin (lists : c.Lists s known) (new : h ∉ known.toList) (e : Entity) :
    Lists s (known.add h) ⟨c.memo.insert h ⟨c.store.size⟩, c.store.push e⟩ where
  size := by
    rw [Store.size_push, lists.size, Enumeration.toList_add, if_neg new, List.length_append]
    rfl
  memo k := by
    rw [Std.TreeMap.getElem?_insert, lists.memo, Enumeration.rank?_add new, lists.size]
    simp only [Std.compare_eq_iff_eq]
    split <;> rfl

theorem modify_push_append {a : Array Entity} {e : Entity} {l : List Entity} (f : Entity → Entity) :
    (a.push e ++ l.toArray).modify a.size f = a ++ (f e :: l).toArray := by
  refine Array.ext_getElem? fun i => ?_
  rw [Array.getElem?_modify]
  rcases Nat.lt_trichotomy i a.size with before | rfl | behind
  · simp [Array.getElem?_append_left, before, Nat.ne_of_gt before]
  · simp
  · have shifted : i - a.size = i - (a.size + 1) + 1 := by omega
    have after : (a.push e).size ≤ i := by
      rw [Array.size_push]
      exact behind
    rw [if_neg (Nat.ne_of_lt behind), Array.getElem?_append_right after,
      Array.getElem?_append_right (Nat.le_of_lt behind), Array.size_push, shifted]
    simp

/-- A half-built copy is finished when its parts have been copied. -/
theorem Adds.finish {memo : Std.TreeMap Handle Handle} {later : List Handle}
    (adds : Adds s φ later (s.node h).parts ⟨memo, c.store.push (s.node h)⟩ c')
    (place : φ h = ⟨c.store.size⟩) :
    c.Adds s φ (h :: later) [h] { c' with
      store := (c'.store.modifyNode (φ h) fun e => { e with
        members := (s.node h).members.mapValues φ
        result := (s.node h).result.map φ }).retain (φ h) } where
  nodes := by
    have finished : ∀ f : Entity → Entity, (c'.store.modifyNode (φ h) f).nodes =
        c.store.nodes ++ (f (s.node h) :: later.map fun n => (s.node n).refit φ).toArray := by
      intro f
      rw [place]
      change c'.store.nodes.modify c.store.nodes.size f = _
      rw [adds.nodes]
      exact modify_push_append f
    exact finished fun e => { e with
      members := (s.node h).members.mapValues φ
      result := (s.node h).result.map φ }
  count k := by
    have stored : φ h ∈ c'.store := by
      rw [place, Store.mem_iff, adds.size, Store.size_push]
      exact Nat.lt_add_right _ (Nat.lt_succ_self _)
    refine (Store.count_retain_eq (by simpa [Store.mem_iff] using stored) k).trans ?_
    change c'.store.count k + [φ h].count k = _
    rw [adds.count, Store.count_push, List.flatMap_cons, List.count_append]
    exact congrArg (· + _) (by omega)

theorem copies_copyNode (ample : s.Ample bound known)
    (within : (s.visitWithin bound known h).toList <+: domain.toList) :
    Copies s (s.image domain) known (s.visitWithin bound known h) [h] (copyNode s bound h)
      (s.image domain h) := by
  induction bound generalizing known h with
  | zero => exact absurd ample Store.not_ample_zero
  | succ bound ih =>
    intro c lists
    rw [Store.visitWithin] at within ⊢
    split at within
    · rename_i met
      obtain ⟨found, stored⟩ := image_mem lists met within
      rw [if_pos met, run_copyNode_of_met found]
      refine ⟨[], (List.append_nil _).symm, rfl, ⟨lists.size, lists.memo⟩, by simp, fun k => ?_⟩
      simpa using Store.count_retain_eq stored k
    · rename_i new
      have listed_add : (known.add h).toList = known.toList ++ [h] := by
        rw [Enumeration.toList_add, if_neg new]
      have unlisted : c.memo[h]? = none := by
        rw [lists.memo, (known.rank?_eq_none_iff h).2 new]
        rfl
      have began := lists.begin new (s.node h)
      have inside := (Store.prefix_visitAll bound (s.node h).parts (known.add h)).trans within
      have place : s.image domain h = ⟨c.store.size⟩ := by
        have found := (image_mem began (Enumeration.mem_add.2 (.inl rfl)) inside).1
        rw [Std.TreeMap.getElem?_insert_self] at found
        exact (Option.some.inj found).symm
      obtain ⟨later, listed, value, lists', adds⟩ := copies_copyParts (fun _ {_} => ih) (s.node h)
        (fun _ => ample.descend new) within _ began
      rw [if_neg new, run_copyNode_of_new unlisted]
      refine ⟨h :: later, ?_, place.symm, ⟨?_, lists'.memo⟩, ?_⟩
      · rw [listed, listed_add, List.append_assoc, List.singleton_append]
      · exact (Store.size_modifyNode ..).trans lists'.size
      · have finished := adds.finish place
        rw [place] at finished
        simpa only [value] using finished

end Search

end Copying

/-! ### Settling the links -/

/-- The prototype that an entity holds. -/
def Entity.ownedPrototype (e : Entity) : List Handle :=
  (e.isa.filter Prototype.owned).toList.map Prototype.target

namespace Store

section Settle
variable {live : Handle → Bool} {memo : Std.TreeMap Handle Handle} {t : Store}

theorem size_settle (copy : Handle) : (t.settle live memo copy).size = t.size := by
  rw [settle, size_retainAll, size_modifyNode]

theorem node_settle {copy : Handle} (stored : copy ∈ t) (k : Handle) :
    (t.settle live memo copy).node k =
      if k = copy then (t.node k).relink live memo else t.node k := by
  rw [settle, node_retainAll, node_modifyNode_eq]
  by_cases same : k = copy
  · subst same
    simp [stored]
  · simp [same]

theorem count_settle {copy : Handle} (stored : copy ∈ t) (hk : k ∈ t) :
    (t.settle live memo copy).count k =
      t.count k + ((t.node copy).relink live memo).ownedPrototype.count k := by
  have inside : k ∈ t.modifyNode copy (·.relink live memo) := by rwa [mem_iff, size_modifyNode]
  rw [settle, count_retainAll inside, node_modifyNode_eq, if_pos ⟨rfl, stored⟩]
  rfl

/-- The second pass settles each copy once, in whatever order. -/
theorem settle_all {copies : List Handle} (nodup : copies.Nodup) (stored : ∀ k ∈ copies, k ∈ t) :
    let u := copies.foldl (fun t copy => t.settle live memo copy) t
    u.size = t.size ∧
    (∀ k, u.node k = if k ∈ copies then (t.node k).relink live memo else t.node k) ∧
    ∀ k ∈ t, u.count k = t.count k +
      (copies.flatMap fun copy => ((t.node copy).relink live memo).ownedPrototype).count k := by
  induction copies generalizing t with
  | nil => simp
  | cons copy copies ih =>
    obtain ⟨absent, distinct⟩ := List.nodup_cons.1 nodup
    have first := stored copy List.mem_cons_self
    have size : (t.settle live memo copy).size = t.size := size_settle copy
    have stored' : ∀ k ∈ copies, k ∈ t.settle live memo copy := fun k hk => by
      rw [mem_iff, size]
      exact stored k (List.mem_cons_of_mem _ hk)
    obtain ⟨size', nodes, counts⟩ := ih distinct stored'
    have kept : ∀ k ∈ copies, (t.settle live memo copy).node k = t.node k := fun k hk => by
      have other : k ≠ copy := fun same => absent (same ▸ hk)
      rw [node_settle first, if_neg other]
    refine ⟨size'.trans size, fun k => ?_, fun k hk => ?_⟩
    · rw [List.foldl_cons, nodes]
      by_cases later : k ∈ copies
      · rw [if_pos later, kept k later, if_pos (List.mem_cons_of_mem _ later)]
      · rw [if_neg later, node_settle first]
        simp [later]
    · rw [List.foldl_cons, counts k (by rwa [mem_iff, size]), count_settle first hk,
        List.flatMap_cons, List.count_append, Nat.add_assoc]
      congr 3
      exact List.flatMap_congr fun c hc => by rw [kept c hc]

theorem live_settle_all {α : Type} (copy : α → Handle) (alive : t.live k) (copies : List α) :
    (copies.foldl (fun t e => t.settle live memo (copy e)) t).live k := by
  induction copies generalizing t with
  | nil => exact alive
  | cons e copies ih =>
    have relinked : (t.modifyNode (copy e) (·.relink live memo)).live k := alive
    have settled : (t.settle live memo (copy e)).live k := live_retainAll relinked _
    exact ih settled

end Settle

section Outcome
variable {roots : List Handle} {domain : Enumeration Handle}

/-- A finished copy with its links redirected is what takes the place of the original. -/
theorem relink_refit (lists : c.Lists s domain) (e : Entity) :
    (e.refit (s.image domain)).relink s.live c.memo = s.redirect domain e := by
  have found : ∀ q, (if s.live q then c.memo[q]? else none) =
      if s.live q && (domain.rank? q).isSome then some (s.image domain q) else none := fun q => by
    rw [lists.memo, image]
    cases domain.rank? q <;> simp
  rw [Entity.relink, Entity.refit, redirect]
  congr 1
  · cases e.isa with
    | none => rfl
    | some p =>
      simp only [Option.bind_some, found, Option.map_some]
      split <;> rfl
  · cases e.context with
    | none => rfl
    | some q =>
      simp only [Option.bind_some, found, Option.map_some]
      cases rank : domain.rank? q <;> cases s.live q <;> simp [image, rank]

/-- The memo lists the nodes of the domain, in some order, with their copies. -/
theorem keys_memo (lists : c.Lists s domain) :
    c.memo.keys.Perm domain.toList ∧
      c.memo.toList.map Prod.snd = c.memo.keys.map (s.image domain) := by
  have entry : ∀ e, e ∈ c.memo.toList ↔ e.1 ∈ domain.toList ∧ e.2 = s.image domain e.1 := by
    rintro ⟨k, v⟩
    rw [Std.TreeMap.mem_toList_iff_getElem?_eq_some, lists.memo, image]
    cases rank : domain.rank? k with
    | none => simp [(domain.rank?_eq_none_iff k).1 rank]
    | some i =>
      have listed := List.mem_of_getElem? ((domain.rank?_eq_some_iff k i).1 rank)
      simp [listed, eq_comm]
  refine ⟨?_, ?_⟩
  · rw [List.perm_ext_iff_of_nodup Std.TreeMap.nodup_keys domain.nodup]
    intro k
    rw [← Std.TreeMap.map_fst_toList_eq_keys, List.mem_map]
    constructor
    · rintro ⟨e, he, rfl⟩
      exact ((entry e).1 he).1
    · exact fun hk => ⟨(k, s.image domain k), (entry _).2 ⟨hk, rfl⟩, rfl⟩
  · rw [← Std.TreeMap.map_fst_toList_eq_keys, List.map_map]
    exact List.map_congr_left fun e he => ((entry e).1 he).2

variable (roots : List Handle)

theorem nodes_duplicate (s : Store) :
    (s.duplicate roots).2.nodes = s.nodes ++
      ((s.copied roots).toList.map fun h => s.redirect (s.copied roots) (s.node h)).toArray := by
  simp only [duplicate, nodes_retainAll]
  exact nodes_pushAll _ s

theorem size_duplicate (s : Store) :
    (s.duplicate roots).2.size = s.size + (s.copied roots).toList.length := by
  simp [size, nodes_duplicate]

theorem count_duplicate (hk : k.index < s.size + (s.copied roots).toList.length) :
    let φ := s.image (s.copied roots)
    (s.duplicate roots).2.count k =
      s.count k + ((s.copied roots).toList.flatMap fun n => (s.node n).parts.map φ).count k +
        ((s.copied roots).toList.flatMap fun n =>
          (s.redirect (s.copied roots) (s.node n)).ownedPrototype).count k +
            (roots.map φ).count k := by
  intro φ
  set domain := s.copied roots
  set contents := domain.toList.map fun h => s.redirect domain (s.node h)
  have inside : k ∈ contents.foldl (fun t e => t.push e) s := by
    rw [mem_iff, Store.size, nodes_pushAll]
    simpa [contents, Store.size] using hk
  have holds : (contents.flatMap Entity.holds).count k =
      (domain.toList.flatMap fun n => (s.node n).parts.map φ).count k +
        (domain.toList.flatMap fun n => (s.redirect domain (s.node n)).ownedPrototype).count k := by
    rw [List.flatMap_map, ← List.count_append, (List.flatMap_append_perm ..).count_eq]
    congr 1
    exact List.flatMap_congr fun n _ => by rw [← parts_redirect]; rfl
  change ((contents.foldl (fun t e => t.push e) s).retainAll
    (contents.flatMap Entity.holds ++ roots.map φ)).count k = _
  rw [count_retainAll inside, count_pushAll, List.count_append, holds]
  omega

/-- The search from the roots, however large its bound, adds the finished copies of the domain. -/
theorem run_roots (more : Nat) (roots : List Handle) (s : Store) :
    let domain := s.copied roots
    let r := (roots.mapM (copyNode s (s.size + 1 + more))).run { store := s }
    r.1 = roots.map (s.image domain) ∧ r.2.Lists s domain ∧
      Copying.Adds s (s.image domain) domain.toList roots { store := s } r.2 := by
  intro domain r
  have same : (roots.map fun h => h).foldl (s.visitWithin (s.size + 1 + more)) .empty = domain := by
    rw [List.map_id']
    exact visitAll_add (fun ample => visitWithin_add ample more) roots fun _ _ => ample_empty 0
  have copies := Copying.copies_mapM (fun h {_} => @Copying.copies_copyNode s _ _ domain h) roots
    (fun _ _ => ample_empty more) (same ▸ List.prefix_rfl)
  rw [same, List.map_id'] at copies
  have start : Copying.Lists s .empty { store := s } := ⟨rfl, fun _ => Std.TreeMap.getElem?_emptyc⟩
  obtain ⟨new, listed, value, lists, adds⟩ := copies { store := s } start
  obtain rfl : domain.toList = new := listed
  exact ⟨value, lists, adds⟩

/-- However large the bound, the two passes leave the finished copies of the domain with their links
redirected, and each of them held as often as it is named. -/
theorem copyGraphWithin_eq_duplicate (more : Nat) (roots : List Handle) (s : Store) :
    s.copyGraphWithin (s.size + 1 + more) roots = s.duplicate roots := by
  obtain ⟨value, lists, adds⟩ := run_roots more roots s
  set domain := s.copied roots
  set r := (roots.mapM (copyNode s (s.size + 1 + more))).run { store := s }
  have unfolded : s.copyGraphWithin (s.size + 1 + more) roots =
      (r.1, (r.2.memo.toList.map Prod.snd).foldl
        (fun t copy => t.settle s.live r.2.memo copy) r.2.store) := by
    rw [List.foldl_map]
    rfl
  obtain ⟨keys, copies⟩ := keys_memo lists
  have stored : ∀ k ∈ r.2.memo.keys.map (s.image domain), k ∈ r.2.store := fun k hk => by
    obtain ⟨n, hn, rfl⟩ := List.mem_map.1 hk
    exact (Copying.image_mem lists (keys.subset hn) List.prefix_rfl).2
  have nodup : (r.2.memo.keys.map (s.image domain)).Nodup :=
    (keys.map _).nodup_iff.2 (List.Nodup.map_on
      (fun n hn m hm => image_injOn domain hn hm) domain.nodup)
  obtain ⟨size, nodes, counts⟩ := @settle_all s.live r.2.memo r.2.store _ nodup stored
  obtain ⟨old, finished⟩ := node_of_append adds.nodes
  obtain ⟨old', settled⟩ := node_of_append (nodes_duplicate roots s)
  have larger : r.2.store.size = s.size + domain.toList.length := lists.size
  rw [unfolded, copies, value]
  refine Prod.ext rfl (eq_of_node_of_count ?_ (fun k hk => ?_) fun k hk => ?_)
  · rw [size, larger, size_duplicate]
  · rw [mem_iff, size, larger] at hk
    rw [nodes]
    by_cases inside : k ∈ s
    · have unlisted : k ∉ r.2.memo.keys.map (s.image domain) := fun listed => by
        obtain ⟨n, hn, rfl⟩ := List.mem_map.1 listed
        exact image_not_mem (keys.subset hn) inside
      rw [if_neg unlisted, old k inside, old' k inside]
    · obtain ⟨n, hn, rfl⟩ := exists_image_of_lt hk inside
      rw [if_pos (List.mem_map_of_mem (keys.symm.subset hn)), finished n hn, settled n hn,
        relink_refit lists]
  · rw [mem_iff, size] at hk
    have owned : ((r.2.memo.keys.map (s.image domain)).flatMap fun copy =>
          ((r.2.store.node copy).relink s.live r.2.memo).ownedPrototype).count k =
        (domain.toList.flatMap fun n => (s.redirect domain (s.node n)).ownedPrototype).count k := by
      rw [List.flatMap_map, (keys.flatMap_right _).count_eq]
      congr 1
      exact List.flatMap_congr fun n hn => by rw [finished n hn, relink_refit lists]
    rw [counts k hk, adds.count, owned, count_duplicate roots (larger ▸ hk)]
    exact Nat.add_right_comm ..

theorem copyGraph_eq_duplicate (s : Store) : s.copyGraph roots = s.duplicate roots :=
  copyGraphWithin_eq_duplicate 0 roots s

end Outcome

end Store

end ScriptInference
