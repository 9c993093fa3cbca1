import ScriptInference.Proofs.Document.Queries
import ScriptInference.Proofs.Entity.Freshness
import ScriptInference.Proofs.Resolution.Verdicts

/-!
# What is bound is what is read

A target with a mark in front is read along the hops on which it was bound, and its last hop is not
called. A container that has taken a value under a key holds one item in all slots of the key, and
it is the first to answer when the key is looked up. So the item is found again, as long as the
target leads to the same slots of the same container.
-/

namespace ScriptInference

variable {s t u v : Store} {h item : Handle} {mark reference : Bool} {hops : List Hop} {c : Scope}
  {access : Access} {e : Expr} {first : Hop}

/-! ## Reading slots -/

namespace Store

theorem exists_isaFrom_eq (bound : Nat) (seen : Std.TreeSet Handle) (h : Handle) :
    ∃ rest, s.isaFrom bound seen h = h :: rest := by
  unfold isaFrom
  split
  · exact ⟨_, rfl⟩
  · split
    · exact ⟨_, rfl⟩
    · split
      · exact ⟨_, rfl⟩
      · exact ⟨_, rfl⟩

/-- A node that can hold members is the first to answer a lookup. -/
theorem exists_lookupChain_eq (shaped : (s.node h).isMapShaped = true) :
    ∃ rest, s.lookupChain h = h :: rest := by
  obtain ⟨rest, chain⟩ := s.exists_isaFrom_eq s.size {h} h
  rw [lookupChain, isaChain, chain]
  simp only [shaped, if_true]
  exact ⟨_, rfl⟩

theorem findName?_of_member? (shaped : (s.node h).isMapShaped = true) {name : String}
    (stored : s.member? h (.identifier name) = some item) : s.findName? h name = some item := by
  obtain ⟨rest, chain⟩ := exists_lookupChain_eq shaped
  rw [findName?, chain, List.findSome?_cons, stored]

theorem indexMatches_of_member? {types : SortedSet String} (plain : Tag.any ∉ types)
    (stored : ∀ tag ∈ types.toList, s.member? h (.type tag) = some item) :
    (s.node h).indexMatches types = types.toList.map fun _ => item := by
  rw [Entity.indexMatches, if_neg plain]
  exact List.filterMap_eq_map_iff_forall_eq_some.2 stored

theorem findIndexed_of_member? (shaped : (s.node h).isMapShaped = true) {types : SortedSet String}
    (plain : Tag.any ∉ types) (typed : types.toList ≠ [])
    (stored : ∀ tag ∈ types.toList, s.member? h (.type tag) = some item) :
    s.findIndexed h types = [item] := by
  obtain ⟨rest, chain⟩ := exists_lookupChain_eq shaped
  have single : ((s.node h).indexMatches types).eraseDups = [item] := by
    rw [indexMatches_of_member? plain stored]
    cases tags : types.toList with
    | nil => exact absurd tags typed
    | cons tag rest => simp [List.eraseDups_cons]
  rw [findIndexed, chain, List.map_cons, single]
  rfl

end Store

namespace Infer
variable {key : Property} {bound : Nat}

/-- The item in all slots of a key is what is found under the key. -/
theorem lookup_of_member? (shaped : (s.node h).isMapShaped = true) (some_slot : s.slots key ≠ [])
    (plain : .type Tag.any ∉ s.slots key)
    (stored : ∀ slot ∈ s.slots key, s.member? h slot = some item) :
    lookup h key bound s = .ok (some item, s.retain item) := by
  have read : (get : Infer Store) bound s = .ok (s, s) := rfl
  cases key with
  | identifier name =>
    have found := Store.findName?_of_member? shaped (stored _ (List.mem_singleton.2 rfl))
    rw [lookup, bind_of_ok read]
    simp only [found]
    rfl
  | value k =>
    have found : s.findIndexed h (s.node k).types = [item] := by
      refine Store.findIndexed_of_member? shaped (fun any => plain ?_) (fun none => some_slot ?_)
        fun tag ht => ?_
      · exact List.mem_map_of_mem any
      · rw [Store.slots, none]
        rfl
      · exact stored _ (List.mem_map_of_mem ht)
    rw [lookup, bind_of_ok read]
    simp only [found]
    rfl

variable (r : TypeRegistry)

theorem resolveProperty_of_member? (shaped : (s.node h).isMapShaped = true)
    (some_slot : s.slots key ≠ []) (plain : .type Tag.any ∉ s.slots key)
    (stored : ∀ slot ∈ s.slots key, s.member? h slot = some item) :
    resolveProperty r h key true bound s = .ok (item, s.retain item) := by
  have found : resolveMember h key true bound s = .ok (some item, s.retain item) := by
    rw [resolveMember, bind_of_ok (lookup_of_member? shaped some_slot plain stored)]
    rfl
  rw [resolveProperty, bind_of_ok found]
  rfl

theorem resolveReserved_of_free {name : String} (free : Scope.isReserved name = false) (bound : Nat)
    (s : Store) : resolveReserved c name bound s = .ok (none, s) := by
  have plain : c.pseudo? name = none := by
    simp only [Scope.isReserved, Scope.reservedNames, List.contains_cons, List.contains_nil,
      Bool.or_false, Bool.or_eq_false_iff, beq_eq_false_iff_ne] at free
    simp [Scope.pseudo?, free]
  rw [resolveReserved, plain]
  rfl

theorem lookupName_eq (c : Scope) (name : String) (bound : Nat) (s : Store) :
    lookupName c name bound s = .ok (c.find? s name, s.retainAll (c.find? s name).toList) := by
  have read : (get : Infer Store) bound s = .ok (s, s) := rfl
  rw [lookupName, bind_of_ok read]
  cases c.find? s name <;> rfl

/-- A name that is bound is read as its binding. -/
theorem resolveName_of_find? {name : String} (free : Scope.isReserved name = false)
    (found : c.find? s name = some item) :
    resolveName r c name true bound s = .ok (item, s.retain item) := by
  have looked := lookupName_eq c name bound s
  rw [found] at looked
  rw [resolveName, bind_of_ok (resolveReserved_of_free free bound s)]
  simp only []
  rw [bind_of_ok looked]
  rfl

/-- A name that is not reserved is found in the innermost frame, if it is bound there. -/
theorem resolveName_of_member? {name : String} (free : Scope.isReserved name = false)
    (shaped : (s.node c.locals).isMapShaped = true)
    (stored : s.member? c.locals (.identifier name) = some item) :
    resolveName r c name true bound s = .ok (item, s.retain item) := by
  refine resolveName_of_find? r free ?_
  have here : s.findName? c.frame.locals name = some item :=
    Store.findName?_of_member? shaped stored
  rw [Scope.find?, Scope.frames, List.map_cons, List.cons_append, List.findSome?_cons, here]

end Infer

/-! ## Marked targets -/

namespace Expr

theorem hopsOnto_append (e : Expr) (reference : Bool) (acc more : List Hop) :
    e.hopsOnto reference (acc ++ more) = (e.hopsOnto reference acc).map (· ++ more) := by
  fun_induction Expr.hopsOnto e reference acc with
  | case1 _ _ _ _ ih | case2 _ _ _ _ _ ih | case3 _ _ _ _ _ ih | case5 _ _ _ _ _ ih
  | case4 _ _ _ _ _ _ ih =>
    rw [hopsOnto]
    exact ih
  | case6 => rfl
  | case7 | case8 => simp [hopsOnto, *]

/-- A mark in front of an expression marks its last hop, and no other. -/
theorem hopsOnto_marked {acc : List Hop} (h : e.hopsOnto reference acc = some hops) :
    ∃ front access mark, hops = front ++ ⟨access, mark⟩ :: acc ∧
      e.hopsOnto true acc = some (front ++ ⟨access, true⟩ :: acc) := by
  -- the hops in front do not depend on the mark, which is stored with the last one
  have onto : ∀ {b : Expr} {access : Access} {reference : Bool},
      b.hopsOnto false (⟨access, reference⟩ :: acc) = some hops →
      ∃ front, hops = front ++ ⟨access, reference⟩ :: acc ∧
        b.hopsOnto false (⟨access, true⟩ :: acc) = some (front ++ ⟨access, true⟩ :: acc) := by
    intro b access reference h
    have split := hopsOnto_append b false [] (⟨access, reference⟩ :: acc)
    rw [List.nil_append, h] at split
    obtain ⟨front, found, whole⟩ := Option.map_eq_some_iff.1 split.symm
    refine ⟨front, whole.symm, ?_⟩
    have marked := hopsOnto_append b false [] (⟨access, true⟩ :: acc)
    rw [List.nil_append, found] at marked
    exact marked
  fun_induction Expr.hopsOnto e reference acc with
  | case1 _ _ _ _ ih => exact ih h onto
  | case2 | case3 | case4 | case5 =>
    obtain ⟨front, whole, marked⟩ := onto h
    exact ⟨front, _, _, whole, marked⟩
  | case6 => exact ⟨[], _, _, (Option.some.inj h).symm, rfl⟩
  | case7 =>
    refine ⟨[], _, _, (Option.some.inj h).symm, ?_⟩
    simp [hopsOnto, *]
  | case8 => cases h

end Expr

namespace Env
variable {env : Env} {target : Expr} {table table' : FunctionTable} {bound : Nat}

open Infer

theorem chain?_marked (chain : env.chain? target = some hops) (span : Span) :
    ∃ front access mark, hops = front ++ [⟨access, mark⟩] ∧
      env.chain? (.unary .reference target span) = some (front ++ [⟨access, true⟩]) := by
  obtain ⟨found, short⟩ := Option.filter_eq_some_iff.1 chain
  obtain ⟨front, access, mark, rfl, marked⟩ := Expr.hopsOnto_marked found
  refine ⟨front, access, mark, rfl, Option.filter_eq_some_iff.2 ⟨marked, ?_⟩⟩
  simpa using short

/-- Resolving one hop more. -/
theorem resolveHops_concat (front : List Hop) (access : Access) (mark : Bool) (current : Handle) :
    env.resolveHops (front.length + 1) current (front ++ [⟨access, true⟩]) =
      env.resolveHops front.length current (front ++ [⟨access, mark⟩]) >>= fun h => do
        let next ← env.resolveHop h ⟨access, true⟩ true
        Infer.release h
        return next := by
  induction front generalizing current with
  | nil => rfl
  | cons hop rest ih =>
    have same : suppresses hop (rest ++ [⟨access, true⟩]) =
        suppresses hop (rest ++ [⟨access, mark⟩]) := by
      cases rest <;> rfl
    simp only [List.cons_append, List.length_cons, resolveHops, same, ih, bind_assoc]

theorem resolveHops_marked {front : List Hop} {current : Handle}
    (front_resolved : env.resolveHops front.length current (front ++ [⟨access, mark⟩]) bound s =
      .ok (h, u))
    (last_resolved : env.resolveHop h ⟨access, true⟩ true bound u = .ok (item, v)) :
    env.resolveHops (front.length + 1) current (front ++ [⟨access, true⟩]) bound s =
      .ok (item, v.release h) := by
  rw [resolveHops_concat front access mark, Infer.bind_of_ok front_resolved,
    Infer.bind_of_ok last_resolved]
  rfl

theorem walk_marked {root : Resolve Handle} {rest : List Hop}
    (walked : env.walk root (rest.length + 1) (first :: (rest ++ [⟨access, mark⟩])) table bound s =
      .ok ((some h, table'), u))
    (last_resolved : env.resolveHop h ⟨access, true⟩ true bound u = .ok (item, v)) :
    env.walk root (rest.length + 1 + 1) (first :: (rest ++ [⟨access, true⟩])) table bound s =
      .ok ((some item, table'), v.release h) := by
  have same : suppresses first (rest ++ [⟨access, true⟩]) =
      suppresses first (rest ++ [⟨access, mark⟩]) := by
    cases rest <;> rfl
  have onward : ∀ {x : Resolve Handle}, (do
      let found ← x
      return some (← env.resolveHops rest.length found (rest ++ [⟨access, mark⟩])) :
        Resolve (Option Handle)) table bound s = .ok ((some h, table'), u) → (do
      let found ← x
      return some (← env.resolveHops (rest.length + 1) found (rest ++ [⟨access, true⟩])) :
        Resolve (Option Handle)) table bound s = .ok ((some item, table'), v.release h) := by
    intro x walked
    obtain ⟨found, table₁, w, begun, walked⟩ := Resolve.bind_ok walked
    obtain ⟨next, table₂, x, hopped, walked⟩ := Resolve.bind_ok walked
    cases walked
    obtain ⟨resolved, rfl⟩ := Resolve.lift_ok hopped
    rw [Resolve.bind_of_ok begun,
      Resolve.bind_of_ok (Resolve.lift_of_ok (resolveHops_marked resolved last_resolved) _)]
    rfl
  rw [walk] at walked ⊢
  rw [same]
  cases begins : first.access with
  | name name | value e =>
    simp only [begins, Nat.add_sub_cancel] at walked ⊢
    exact onward walked
  | _ =>
    simp only [begins] at walked
    cases walked

/-- Reading a marked target: its prefix is followed as in the target, and then its last hop without
a call. -/
theorem resolveNamespace_marked (arrives : env.Arrives target table bound s hops h u)
    (ends : lastAccess? hops = some access)
    (last_resolved : env.resolveHop h ⟨access, true⟩ true bound u = .ok (item, v)) (span : Span) :
    ∃ table', env.resolveNamespace (.unary .reference target span) table bound s =
      .ok ((some item, table'), v.release h) := by
  obtain ⟨front, last, mark, rfl, marked⟩ := chain?_marked arrives.chain span
  obtain rfl : last = access := by simpa [lastAccess?] using ends
  have long := arrives.long
  obtain ⟨table', walked⟩ := arrives.walked
  cases front with
  | nil => simp at long
  | cons first rest =>
    refine ⟨table', ?_⟩
    rw [resolveNamespace, resolveChain, marked]
    simp only [List.length_append, List.length_cons, List.length_nil, Nat.zero_add,
      Nat.add_sub_cancel, List.cons_append] at walked ⊢
    exact walk_marked walked last_resolved

end Env

/-! ## Offers -/

namespace Infer
variable {bound : Nat} {merge : Bool} {n : Namespace} {key : Property} {value r : Handle}
  {line : UInt64} {name : Option String} {tag : String}

theorem stored_eq_nil_of_alone
    (alone : ∀ slot ∈ s.slots key, ∀ old, s.member? n.container slot = some old → old = value) :
    stored s n key value = [] := by
  rw [List.eq_nil_iff_forall_not_mem]
  intro m hm
  rw [stored, List.mem_eraseDups, List.mem_filter, List.mem_filterMap] at hm
  obtain ⟨⟨slot, hslot, found⟩, other⟩ := hm
  exact absurd (alone slot hslot m found) (by simpa using other)

variable (closed : s.Closed)

include closed

/-- The types of a merged value are its own and those of everything that its slots hold. -/
theorem mem_types_mergeStored (hv : value ∈ s) (h : mergeStored n key value bound s = .ok (r, t)) :
    tag ∈ (t.node r).types ↔ tag ∈ (s.node value).types ∨
      ∃ slot ∈ s.slots key, ∃ old, s.member? n.container slot = some old ∧
        tag ∈ (s.node old).types := by
  have inside : ∀ b ∈ stored s n key value ++ [value], b ∈ s := by
    intro b hb
    rcases List.mem_append.1 hb with hb | hb
    · exact mem_of_mem_stored closed hb
    · exact List.mem_singleton.1 hb ▸ hv
  have gathered : tag ∈ (t.node r).types ↔
      ∃ b ∈ stored s n key value ++ [value], tag ∈ (s.node b).types := by
    obtain ⟨_, u, read, h⟩ := bind_ok h
    cases read
    cases old : stored s n key value with
    | nil =>
      simp only [old] at h
      cases h
      simp
    | cons first rest =>
      simp only [old] at h
      obtain ⟨merged, v, united, h⟩ := bind_ok h
      obtain ⟨_, w, released, h⟩ := bind_ok h
      cases released
      cases h
      rw [old] at inside
      rw [Store.node_eq (Store.nodes_release value v)]
      exact (gathers_union inside united).2.types tag
  rw [gathered]
  constructor
  · rintro ⟨b, hb, ht⟩
    rcases List.mem_append.1 hb with hb | hb
    · rw [stored, List.mem_eraseDups, List.mem_filter, List.mem_filterMap] at hb
      obtain ⟨⟨slot, hslot, found⟩, -⟩ := hb
      exact .inr ⟨slot, hslot, b, found, ht⟩
    · exact .inl (List.mem_singleton.1 hb ▸ ht)
  · rintro (ht | ⟨slot, hslot, old, found, ht⟩)
    · exact ⟨value, List.mem_append_right _ (List.mem_singleton.2 rfl), ht⟩
    · by_cases same : old = value
      · exact ⟨value, List.mem_append_right _ (List.mem_singleton.2 rfl), same ▸ ht⟩
      · exact ⟨old, List.mem_append_left _ (mem_stored hslot found same), ht⟩

/-- What is offered has been prepared, after a function has got its owner, and merged if so wished.
Up to the merge, what can be read in the store is as before. -/
theorem offer_ok (hn : n.container ∈ s) (hv : value ∈ s)
    (h : offer merge n key value line bound s = .ok (r, t)) :
    ∃ b u, s.Keeps s.size u ∧ u.Closed ∧ b ∈ u ∧ (u.node b).types = (s.node value).types ∧
      ((s.node value).isReferenceShaped = true → b = value) ∧
      (if merge then mergeStored n key b else pure b : Infer Handle) bound u = .ok (r, t) := by
  obtain ⟨_, w, own, h⟩ := bind_ok h
  obtain ⟨b, u, prepared, merged⟩ := bind_ok h
  obtain ⟨ready, keeps, -⟩ := (safe_own ⟨closed, Nat.le_refl _⟩ hn value).runs _ _ _ own
  obtain ⟨ready', keeps', hb⟩ :=
    (safe_prepare ⟨ready.closed, Nat.le_refl _⟩ (keeps.mem hv) key.name? line).runs _ _ _ prepared
  have before : (w.node value).types = (s.node value).types := (keeps.contents value hv).types
  obtain ⟨types, -, same⟩ := contents_prepare prepared (keeps.mem hv)
  refine ⟨b, u, keeps.onward keeps', ready'.closed, hb, types.trans before,
    fun shaped => same ?_, merged⟩
  rw [Entity.isReferenceShaped, before]
  exact shaped

/-- What is offered has the types of the value and, with merging, of everything that the slots
hold. -/
theorem mem_types_offer (hn : n.container ∈ s) (hk : key.Fits s) (hv : value ∈ s)
    (h : offer merge n key value line bound s = .ok (r, t)) :
    tag ∈ (t.node r).types ↔ tag ∈ (s.node value).types ∨ merge = true ∧
      ∃ slot ∈ s.slots key, ∃ old, s.member? n.container slot = some old ∧
        tag ∈ (s.node old).types := by
  obtain ⟨b, u, keeps, closed', hb, types, -, merged⟩ := offer_ok closed hn hv h
  cases merge with
  | false =>
    cases merged
    rw [types]
    simp
  | true =>
    rw [if_pos rfl] at merged
    rw [mem_types_mergeStored closed' hb merged, types, keeps.slots_eq hk]
    simp only [true_and]
    refine or_congr_right (exists_congr fun slot => and_congr_right fun _ => exists_congr
      fun old => ?_)
    rw [keeps.member?_eq hn]
    refine and_congr_right fun found => ?_
    rw [(keeps.contents old (closed.member? found)).types]

/-- A map or list is offered as it is, if its slots hold nothing else. -/
theorem offer_eq_value (hn : n.container ∈ s) (hk : key.Fits s) (hv : value ∈ s)
    (h : offer merge n key value line bound s = .ok (r, t))
    (shaped : (s.node value).isReferenceShaped = true)
    (alone : ∀ slot ∈ s.slots key, ∀ old, s.member? n.container slot = some old → old = value) :
    r = value := by
  obtain ⟨b, u, keeps, -, -, -, same, merged⟩ := offer_ok closed hn hv h
  obtain rfl := same shaped
  cases merge with
  | false =>
    cases merged
    rfl
  | true =>
    rw [if_pos rfl] at merged
    have nothing : stored u n key b = [] := by
      refine stored_eq_nil_of_alone fun slot hslot old found => ?_
      rw [keeps.slots_eq hk] at hslot
      rw [keeps.member?_eq hn] at found
      exact alone slot hslot old found
    obtain ⟨_, w, read, merged⟩ := bind_ok merged
    cases read
    simp only [nothing] at merged
    cases merged
    rfl

end Infer

/-! ## What a definition leaves behind -/

/-- What binding a value in the slots of a container leaves behind: one item in all of them, with
the types of the value and, with merging, of everything they held. -/
structure Bound (merge : Bool) (container : Handle) (slots : List EntryKey) (value : Handle)
    (s : Store) (item : Handle) (t : Store) : Prop where
  shaped : (t.node container).isMapShaped = true
  some_slot : slots ≠ []
  stored : ∀ slot ∈ slots, t.member? container slot = some item
  others : ∀ key, key ∉ slots → t.member? container key = s.member? container key
  types : ∀ tag, tag ∈ (t.node item).types ↔ tag ∈ (s.node value).types ∨ merge = true ∧
    ∃ slot ∈ slots, ∃ old, s.member? container slot = some old ∧ tag ∈ (s.node old).types
  shared : (s.node value).isReferenceShaped = true →
    (∀ slot ∈ slots, ∀ old, s.member? container slot = some old → old = value) → item = value

theorem Bound.of_keeps {merge : Bool} {container value : Handle} {slots : List EntryKey}
    (h : Bound merge container slots value u item v) (closed : s.Closed) (keeps : s.Keeps s.size u)
    (hc : container ∈ s) (hv : value ∈ s) (nodes : t.nodes = v.nodes) :
    Bound merge container slots value s item t where
  shaped := by
    rw [Store.node_eq nodes]
    exact h.shaped
  some_slot := h.some_slot
  stored slot hslot := by
    rw [Store.member?, Store.node_eq nodes]
    exact h.stored slot hslot
  others key hkey := by
    rw [Store.member?, Store.node_eq nodes, ← keeps.member?_eq hc]
    exact h.others key hkey
  types tag := by
    rw [Store.node_eq nodes, h.types, (keeps.contents value hv).types]
    refine or_congr_right (and_congr_right fun _ => exists_congr fun slot => and_congr_right
      fun _ =>
      exists_congr fun old => ?_)
    rw [keeps.member?_eq hc]
    refine and_congr_right fun found => ?_
    rw [(keeps.contents old (closed.member? found)).types]
  shared shaped alone := by
    refine h.shared ?_ fun slot hslot old found => ?_
    · rw [Entity.isReferenceShaped, (keeps.contents value hv).types]
      exact shaped
    · rw [keeps.member?_eq hc] at found
      exact alone slot hslot old found

theorem Infer.bound_bind {bound : Nat} {merge : Bool} (n : Namespace) (key : Property)
    {value : Handle} {line : UInt64} (closed : s.Closed) (hn : n.container ∈ s) (hk : key.Fits s)
    (hv : value ∈ s) (h : Infer.bind merge n key value line bound s = .ok (true, t)) :
    ∃ item, Bound merge n.container (s.slots key) value s item t := by
  have accepted : (s.node n.container).isMapShaped = true ∧ s.slots key ≠ [] := by
    have taken := accepts_of_bind h closed hn hk hv
    rw [Namespace.accepts] at taken
    simp only [Bool.true_eq, Bool.and_eq_true, Bool.not_eq_true',
      List.isEmpty_eq_false_iff] at taken
    exact taken.1
  rw [bind_eq_offer] at h
  obtain ⟨item, u, offered, h⟩ := bind_ok h
  have result : n.setProperty key item u = (true, t) := Except.ok.inj h
  obtain ⟨-, keeps, -⟩ :=
    (safe_offer ⟨closed, Nat.le_refl _⟩ merge hn hk hv line).runs _ _ _ offered
  have nodes : t.nodes = (u.write n.container (s.slots key) item).nodes := by
    rcases n.setProperty_cases key item u with ⟨-, nodes⟩ | ⟨refused, -⟩
    · rw [result, keeps.slots_eq hk] at nodes
      exact nodes
    · rw [result] at refused
      cases refused
  have written : ∀ slot, t.member? n.container slot =
      if slot ∈ s.slots key then some item else u.member? n.container slot := fun slot => by
    rw [Store.member?, Store.node_eq nodes]
    exact Store.member?_write (keeps.mem hn) slot
  refine ⟨item, ?_, accepted.2, fun slot hslot => ?_, fun slot hslot => ?_, fun tag => ?_,
    offer_eq_value closed hn hk hv offered⟩
  · rw [Store.node_eq nodes, Store.node_write]
    exact (keeps.contents _ hn).isMapShaped.trans accepted.1
  · rw [written, if_pos hslot]
  · rw [written, if_neg hslot, keeps.member?_eq hn]
  · rw [Store.node_eq nodes, Store.types_write]
    exact mem_types_offer closed hn hk hv offered

namespace Env
variable {env : Env} {target : Expr} {table table' : FunctionTable} {bound : Nat}
  {container value : Handle} {slots : List EntryKey}

open Infer

/-- The container that a target leads to, and the slots of it that the last hop selects. An index
selects the slots of its types if they are known. -/
inductive Locates (env : Env) (target : Expr) (table : FunctionTable) (bound : Nat) (s : Store) :
    Handle → List EntryKey → Prop
  | name {name reference} : env.chain? target = some [⟨.name name, reference⟩] →
      env.Locates target table bound s env.scope.locals [.identifier name]
  | member {hops h u name} : env.Arrives target table bound s hops h u →
      lastAccess? hops = some (.member name) → env.Locates target table bound s h [.identifier name]
  | index {hops h u e key v} : env.Arrives target table bound s hops h u →
      lastAccess? hops = some (.index e) → env.resolveType false e bound u = .ok (key, v) →
      Tag.any ∉ (v.node key).types → env.Locates target table bound s h (v.slots (.value key))

theorem Arrives.not_single {hop : Hop} (arrives : env.Arrives target table bound s hops h u) :
    env.chain? target ≠ some [hop] :=
  fun chain => arrives.ne_singleton _ (Option.some.inj (arrives.chain.symm.trans chain))

/-- Where a target with several hops is located is known from the way to its container. -/
theorem Arrives.located {hops : List Hop} {h : Handle} {u : Store}
    (arrives : env.Arrives target table bound s hops h u)
    (located : env.Locates target table bound s container slots) :
    container = h ∧
      ((∃ name, lastAccess? hops = some (.member name) ∧ slots = [.identifier name]) ∨
        ∃ e key v, lastAccess? hops = some (.index e) ∧
          env.resolveType false e bound u = .ok (key, v) ∧ slots = v.slots (.value key)) := by
  cases located with
  | name chain => exact (arrives.not_single chain).elim
  | member arrives' ends =>
    obtain ⟨rfl, rfl⟩ := arrives.unique arrives'
    obtain rfl := Option.some.inj (arrives.chain.symm.trans arrives'.chain)
    exact ⟨rfl, .inl ⟨_, ends, rfl⟩⟩
  | index arrives' ends resolved _ =>
    obtain ⟨rfl, rfl⟩ := arrives.unique arrives'
    obtain rfl := Option.some.inj (arrives.chain.symm.trans arrives'.chain)
    exact ⟨rfl, .inr ⟨_, _, _, ends, resolved, rfl⟩⟩

theorem bound_define (closed : s.Closed) (fits : env.Fits s) (hv : value ∈ s) (hc : container ∈ s)
    (located : env.Locates target table bound s container slots)
    (defined : env.define target value table bound s = .ok ((true, table'), t)) :
    ∃ item, Bound env.options.mergeReassignments container slots value s item t := by
  cases course_define defined with
  | name chain ran =>
    cases located with
    | name chain' =>
      cases chain.symm.trans chain'
      exact bound_bind (.scope env.scope) (.identifier _) closed fits.locals trivial hv ran
    | member arrives | index arrives => exact (arrives.not_single chain).elim
  | @member hops h u name _ v arrives ends ran =>
    obtain ⟨rfl, here⟩ := arrives.located located
    obtain ⟨keeps, closed', inside⟩ := arrives.keeps closed fits
    obtain ⟨item, bound⟩ := bound_bind (.entity container) (.identifier name) closed' inside trivial
      (keeps.mem hv) ran
    refine ⟨item, ?_⟩
    rcases here with ⟨name', ends', rfl⟩ | ⟨e, key, w, ends', -, -⟩
    · cases ends.symm.trans ends'
      exact bound.of_keeps closed keeps hc hv (Store.nodes_release container v)
    · cases ends.symm.trans ends'
  | @index hops h u e key v _ w arrives ends resolved ran =>
    obtain ⟨rfl, here⟩ := arrives.located located
    obtain ⟨keeps, closed', inside⟩ := arrives.keeps closed fits
    obtain ⟨ready, keeps', hkey⟩ :=
      (safe_resolveType ⟨closed', Nat.le_refl _⟩ (fits.mono keeps) false e).runs _ _ _ resolved
    have kept := keeps.onward keeps'
    obtain ⟨item, bound⟩ :=
      bound_bind (.entity container) (.value key) ready.closed (keeps'.mem inside)
      hkey (kept.mem hv) ran
    have nodes := (Store.nodes_release container _).trans (Store.nodes_release key w)
    refine ⟨item, ?_⟩
    rcases here with ⟨name, ends', -⟩ | ⟨e', key', v', ends', resolved', rfl⟩
    · cases ends.symm.trans ends'
    · cases ends.symm.trans ends'
      cases resolved.symm.trans resolved'
      exact bound.of_keeps closed kept hc hv nodes

/-- A lone name that was bound is not reserved. -/
theorem not_reserved_of_define (closed : s.Closed) (fits : env.Fits s) (hv : value ∈ s)
    (defined : env.define target value table bound s = .ok ((true, table'), t)) {name : String}
    (chain : env.chain? target = some [⟨.name name, reference⟩]) :
    Scope.isReserved name = false := by
  cases course_define defined with
  | name chain' ran =>
    cases chain.symm.trans chain'
    have taken := accepts_of_bind ran closed fits.locals trivial hv
    rw [Namespace.accepts] at taken
    simp only [Bool.true_eq, Bool.and_eq_true, Bool.not_eq_true'] at taken
    exact taken.2
  | member arrives | index arrives => exact (arrives.not_single chain).elim

/-- A target that leads to slots in which an item has been bound is read as this item. -/
theorem resolveNamespace_of_located (closed : t.Closed) (fits : env.Fits t) (hc : container ∈ t)
    {merge : Bool} (stored : Bound merge container slots value s item t)
    (free : ∀ name reference, env.chain? target = some [⟨.name name, reference⟩] → Scope.isReserved
      name = false)
    (located : env.Locates target table bound t container slots) (span : Span) :
    ∃ table' u, env.resolveNamespace (.unary .reference target span) table bound t =
      .ok ((some item, table'), u) := by
  cases located with
  | @name name reference chain =>
    obtain ⟨front, access, mark, split, marked⟩ := chain?_marked chain span
    have whole : [] ++ [⟨.name name, reference⟩] = front ++ [⟨access, mark⟩] := split
    obtain ⟨rfl, same⟩ := List.append_singleton_inj.1 whole
    cases same
    have read : resolveName env.registry env.scope name true bound t = .ok (item, t.retain item) :=
      resolveName_of_member? env.registry (free name reference chain) stored.shaped
        (stored.stored _ (List.mem_singleton.2 rfl))
    refine ⟨table, t.retain item, ?_⟩
    rw [resolveNamespace, resolveChain, marked]
    exact Resolve.bind_of_ok (Resolve.lift_of_ok read table) _
  | @member hops h u name arrives ends =>
    obtain ⟨keeps, -, -⟩ := arrives.keeps closed fits
    have read : env.resolveHop container ⟨.member name, true⟩ true bound u =
        .ok (item, u.retain item) := by
      refine resolveProperty_of_member? env.registry ?_ stored.some_slot (by simp [Store.slots])
        fun slot hslot => ?_
      · rw [(keeps.contents container hc).isMapShaped]
        exact stored.shaped
      · rw [keeps.member?_eq hc]
        exact stored.stored slot hslot
    obtain ⟨table', resolved⟩ := resolveNamespace_marked arrives ends read span
    exact ⟨table', _, resolved⟩
  | @index hops h u e key v arrives ends resolved plain =>
    obtain ⟨keeps, closed', -⟩ := arrives.keeps closed fits
    obtain ⟨-, keeps', -⟩ :=
      (safe_resolveType ⟨closed', Nat.le_refl _⟩ (fits.mono keeps) false e).runs _ _ _ resolved
    have kept := keeps.onward keeps'
    have found : resolveProperty env.registry container (.value key) true bound v =
        .ok (item, v.retain item) := by
      refine resolveProperty_of_member? env.registry ?_ stored.some_slot (fun any => plain ?_)
        fun slot hslot => ?_
      · rw [(kept.contents container hc).isMapShaped]
        exact stored.shaped
      · obtain ⟨tag, ht, same⟩ := List.mem_map.1 any
        cases same
        exact ht
      · rw [kept.member?_eq hc]
        exact stored.stored slot hslot
    have read : env.resolveHop container ⟨.index e, true⟩ true bound u =
        .ok (item, (v.retain item).release key) := by
      rw [resolveHop]
      simp only []
      rw [bind_of_ok resolved, bind_of_ok found]
      rfl
    obtain ⟨table', resolved⟩ := resolveNamespace_marked arrives ends read span
    exact ⟨table', _, resolved⟩

/-- What is bound is what is read. A value that a target has taken is stored as one item in the
slots that the target leads to, and a target that still leads to these slots is read as this
item. -/
theorem define_read_back (closed : s.Closed) (fits : env.Fits s) (hv : value ∈ s)
    (hc : container ∈ s) (before : env.Locates target table bound s container slots)
    (defined : env.define target value table bound s = .ok ((true, table'), t))
    {table₁ : FunctionTable} {bound₁ : Nat}
    (after : env.Locates target table₁ bound₁ t container slots) (span : Span) :
    ∃ item, Bound env.options.mergeReassignments container slots value s item t ∧
      ∃ table₂ u, env.resolveNamespace (.unary .reference target span) table₁ bound₁ t =
        .ok ((some item, table₂), u) := by
  obtain ⟨item, bound⟩ := bound_define closed fits hv hc before defined
  obtain ⟨closed', keeps⟩ := (outcome_define closed fits hv defined).keeps
  refine ⟨item, bound, ?_⟩
  exact resolveNamespace_of_located closed' (fits.mono keeps) (keeps.mem hc) bound
    (fun _ _ => not_reserved_of_define closed fits hv defined) after span

/-- Whether running the first of two hops leads to the container, and the index to the slots. -/
def leads (env : Env) (target : Expr) (first : Hop) (e : Expr) (container : Handle)
    (slots : List EntryKey) (bound : Nat) (s : Store) : Bool :=
  yields (env.walk (env.rootValue target) 1 [first, ⟨.index e, false⟩] ∅) bound s fun r u =>
    r.1 == some container && yields (env.resolveType false e) bound u fun key v =>
      Tag.any ∉ (v.node key).types && v.slots (.value key) == slots

theorem locates_of_leads (chain : env.chain? target = some [first, ⟨.index e, false⟩])
    (ran : env.leads target first e container slots bound s) :
    env.Locates target ∅ bound s container slots := by
  obtain ⟨⟨found, table'⟩, u, walked, ran⟩ := exists_of_yields ran
  rw [Bool.and_eq_true, beq_iff_eq] at ran
  obtain ⟨rfl, ran⟩ := ran
  obtain ⟨key, v, resolved, ran⟩ := exists_of_yields ran
  rw [Bool.and_eq_true, decide_eq_true_iff, beq_iff_eq] at ran
  obtain ⟨plain, rfl⟩ := ran
  exact .index ⟨chain, Nat.le_refl _, table', walked⟩ rfl resolved plain

end Env

/-- Globals with a map `m`, which has a number and a list under two types of keys, and a key `k` of
both types. A map stands beside them. -/
def Shelves.store : Store where
  nodes := #[
    { Scope.newGlobals with members := .ofList [(.identifier "k", ⟨2⟩), (.identifier "m", ⟨1⟩)] },
    { Entity.ofType .map Tag.map with
      label := "m", members := .ofList [(.type Tag.number, ⟨3⟩), (.type Tag.string, ⟨4⟩)] },
    { kind := .variable, label := "k", types := .ofList [Tag.number, Tag.string] },
    Entity.ofType .literal Tag.number,
    Entity.ofType .list Tag.list,
    Entity.ofType .map Tag.map]
  holders := #[2, 1, 1, 1, 1, 1]

def Shelves.env : Env where
  scope := ⟨⟨⟨0⟩, none⟩, [], ⟨0⟩⟩
  registry := { catalog := {} }
  options := {}

/-- The target `m[k]`. -/
def Shelves.target : Expr := .index (.identifier "m" default) (.identifier "k" default) default

def Shelves.leads : Store → Bool :=
  Shelves.env.leads Shelves.target ⟨.name "m", false⟩ (.identifier "k" default) ⟨1⟩
    [.type Tag.number, .type Tag.string] 9

namespace Env

open Infer

theorem define_read_back_shelves :
    ∃ table t, Shelves.env.define Shelves.target ⟨5⟩ ∅ 9 Shelves.store = .ok ((true, table), t) ∧
      ∃ item, Bound true ⟨1⟩ [.type Tag.number, .type Tag.string] ⟨5⟩ Shelves.store item t ∧
        ∃ table₂ u, Shelves.env.resolveNamespace (.unary .reference Shelves.target default) ∅ 9 t =
          .ok ((some item, table₂), u) := by
  have before : Shelves.leads Shelves.store := by decide +kernel
  have ran : yields (Shelves.env.define Shelves.target ⟨5⟩ ∅) 9 Shelves.store fun r t =>
      r.1 && Shelves.leads t := by decide +kernel
  obtain ⟨⟨taken, table⟩, t, defined, ran⟩ := exists_of_yields ran
  rw [Bool.and_eq_true] at ran
  obtain ⟨rfl, after⟩ := ran
  have fits : Shelves.env.Fits Shelves.store := by
    unfold Env.Fits Scope.Fits
    decide
  exact ⟨table, t, defined, define_read_back (by decide) fits (by decide) (by decide)
    (locates_of_leads rfl before) defined (locates_of_leads rfl after) default⟩

end Env

/-- Locals that hold a map under numbers and have it as their prototype, without holding it for
that. The map has a number `k`, which hides the string `k` of the globals. A further map stands
beside them. -/
def Eclipse.store : Store where
  nodes := #[
    { Scope.newGlobals with members := .ofList [(.identifier "k", ⟨1⟩)] },
    Entity.ofType .literal Tag.string,
    { Scope.newLocals with members := .ofList [(.type Tag.number, ⟨3⟩)], isa := some ⟨⟨3⟩, false⟩ },
    { Entity.ofType .map Tag.map with members := .ofList [(.identifier "k", ⟨4⟩)] },
    Entity.ofType .literal Tag.number,
    Entity.ofType .map Tag.map]
  holders := #[2, 1, 1, 1, 1, 1]

def Eclipse.env : Env where
  scope := ⟨⟨⟨2⟩, none⟩, [⟨⟨0⟩, none⟩], ⟨0⟩⟩
  registry := { catalog := {} }
  options := {}

/-- The target `locals[k]`. -/
def Eclipse.target : Expr := .index (.identifier "locals" default) (.identifier "k" default) default

def Eclipse.leads (tag : String) : Store → Bool :=
  Eclipse.env.leads Eclipse.target ⟨.name "locals", false⟩ (.identifier "k" default) ⟨2⟩
    [.type tag] 9

namespace Env

open Infer

/-- The member that a binding replaces may be what gives the index its type. Then the target leads
to other slots of the same container afterwards, and what is bound is not what is read. -/
theorem define_not_read_back_eclipse :
    Eclipse.store.Sound ∧ Eclipse.env.Fits Eclipse.store ∧
    Eclipse.env.Locates Eclipse.target ∅ 9 Eclipse.store ⟨2⟩ [.type Tag.number] ∧
    ∃ table t, Eclipse.env.define Eclipse.target ⟨5⟩ ∅ 9 Eclipse.store = .ok ((true, table), t) ∧
      Eclipse.env.Locates Eclipse.target ∅ 9 t ⟨2⟩ [.type Tag.string] ∧
      ∃ item read table₂ u, t.member? ⟨2⟩ (.type Tag.number) = some item ∧
        Eclipse.env.resolveNamespace (.unary .reference Eclipse.target default) ∅ 9 t =
          .ok ((some read, table₂), u) ∧ read ≠ item := by
  have before : Eclipse.leads Tag.number Eclipse.store := by decide +kernel
  have ran : yields (Eclipse.env.define Eclipse.target ⟨5⟩ ∅) 9 Eclipse.store fun r t =>
      r.1 && Eclipse.leads Tag.string t &&
        yields (Eclipse.env.resolveNamespace (.unary .reference Eclipse.target default) ∅) 9 t
        fun found u =>
          (t.member? ⟨2⟩ (.type Tag.number)).any fun item => found.1.any (· ≠ item) := by
            decide +kernel
  obtain ⟨⟨taken, table⟩, t, defined, ran⟩ := exists_of_yields ran
  rw [Bool.and_eq_true, Bool.and_eq_true] at ran
  obtain ⟨⟨rfl, after⟩, ran⟩ := ran
  obtain ⟨⟨found, table₂⟩, u, resolved, ran⟩ := exists_of_yields ran
  obtain ⟨item, stored, ran⟩ := (Option.any_eq_true _ _).1 ran
  obtain ⟨read, rfl, other⟩ := (Option.any_eq_true _ _).1 ran
  have fits : Eclipse.env.Fits Eclipse.store := by
    unfold Env.Fits Scope.Fits
    decide
  exact ⟨by decide, fits, locates_of_leads rfl before, table, t, defined,
    locates_of_leads rfl after, item, read, table₂, u, stored, resolved, of_decide_eq_true other⟩

end Env

end ScriptInference
