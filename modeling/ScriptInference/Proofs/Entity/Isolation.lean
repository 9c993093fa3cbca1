import Mathlib.Order.CompletePartialOrder
import ScriptInference.Proofs.Entity.Escapes

/-!
# Writes that are not seen

A snapshot shows everything that can be learned about a graph from its roots. It depends on the
contents and the liveness of the nodes that the roots reach, and on nothing else. A write of a
member changes the contents of one node and the counts of what it holds; all of this stays in any
set of nodes that holds the written node and the value and is closed under holding. So if two lists
of roots have nothing in common, no write to a node that one of them reaches shows in the snapshot
of the other.
-/

namespace ScriptInference

theorem discoverFrom_congr {edges edges' : Handle → List Handle} {roots : List Handle}
    (agree : ∀ n, ReachedFrom edges roots n → edges' n = edges n) {bound position : Nat}
    {known : Enumeration Handle} (reached : ∀ h ∈ known.toList, ReachedFrom edges roots h) :
    discoverFrom edges' bound position known = discoverFrom edges bound position known := by
  induction bound generalizing position known with
  | zero => rfl
  | succ bound ih =>
    unfold discoverFrom
    split
    · rfl
    · rename_i h hh
      have listed : h ∈ known.toList := Array.mem_toList_iff.2 (Array.mem_of_getElem? hh)
      rw [agree h (reached h listed)]
      refine ih fun k hk => ?_
      rcases Enumeration.mem_addAll.1 hk with hk | hk
      · exact reached k hk
      · exact .edge (reached h listed) hk

namespace Store

/-- A snapshot depends on what its roots reach. -/
theorem snapshot_congr {s t : Store} {roots : List Handle} (size : t.size = s.size)
    (node : ∀ n ∈ s.reach roots, t.node n = s.node n)
    (live : ∀ n ∈ s.reach roots, ∀ k ∈ (s.node n).links, t.live k = s.live k) :
    t.snapshot roots = s.snapshot roots := by
  have filtered : ∀ n ∈ s.reach roots, ∀ o : Option Handle,
      (∀ k, o = some k → k ∈ (s.node n).links) → o.filter t.live = o.filter s.live := by
    intro n hn o linked
    cases o with
    | none => rfl
    | some k => simp only [Option.filter_some, live n hn k (linked k rfl)]
  have isa : ∀ n ∈ s.reach roots, t.isa? n = s.isa? n := by
    intro n hn
    rw [isa?, isa?, node n hn]
    refine filtered n hn _ fun k hk => ?_
    exact Entity.mem_links_iff.2 (.inr (.inr (.inl (Option.map_eq_some_iff.1 hk))))
  have context : ∀ n ∈ s.reach roots, t.context? n = s.context? n := by
    intro n hn
    rw [context?, context?, node n hn]
    exact filtered n hn _ fun k hk => Entity.mem_links_iff.2 (.inr (.inr (.inr hk)))
  have start : ∀ h ∈ (Enumeration.empty.addAll roots : Enumeration Handle).toList,
      ReachedFrom s.edges roots h := by
    intro h hh
    rcases Enumeration.mem_addAll.1 hh with hh | hh
    · simp [Enumeration.empty, Enumeration.toList] at hh
    · exact .root hh
  have edges : ∀ n, ReachedFrom s.edges roots n → t.edges n = s.edges n := by
    intro n hn
    rw [Store.edges, Store.edges, node n hn, isa n hn, context n hn]
  have discovered : t.discover t.edges roots = s.discover s.edges roots := by
    unfold discover
    rw [size]
    exact discoverFrom_congr edges start
  simp only [snapshot, discovered, Snapshot.mk.injEq, true_and]
  refine List.map_congr_left fun n hn => ?_
  have reached : n ∈ s.reach roots := reachedFrom_of_mem_discoverFrom start hn
  rw [node n reached, isa n reached, context n reached]

/-- What a node of the set holds is in the set. -/
def HoldsWithin (s : Store) (region : Set Handle) : Prop :=
  ∀ n ∈ region, ∀ k ∈ (s.node n).holds, k ∈ region

/-- From `s` to `t`, contents and counts changed inside the region only, which is still closed. -/
structure ConfinedTo (region : Set Handle) (s t : Store) : Prop where
  size : t.size = s.size
  node : ∀ n, n ∉ region → t.node n = s.node n
  count : ∀ n, n ∉ region → t.count n = s.count n
  within : t.HoldsWithin region

namespace ConfinedTo
variable {region : Set Handle} {s t u : Store}

theorem refl (within : s.HoldsWithin region) : ConfinedTo region s s :=
  ⟨rfl, fun _ _ => rfl, fun _ _ => rfl, within⟩

theorem trans (h : ConfinedTo region s t) (k : ConfinedTo region t u) : ConfinedTo region s u where
  size := k.size.trans h.size
  node n hn := (k.node n hn).trans (h.node n hn)
  count n hn := (k.count n hn).trans (h.count n hn)
  within := k.within

/-- Counting inside the region. -/
theorem recount (within : s.HoldsWithin region) (nodes : t.nodes = s.nodes)
    (count : ∀ n, n ∉ region → t.count n = s.count n) : ConfinedTo region s t where
  size := size_eq nodes
  node n _ := node_eq nodes n
  count := count
  within n hn k hk := within n hn k (node_eq nodes n ▸ hk)

theorem count_modify {holders : Array Nat} {h n : Handle} (f : Nat → Nat) (ne : n ≠ h) :
    (holders.modify h.index f).getD n.index 0 = holders.getD n.index 0 := by
  have index : h.index ≠ n.index := by
    intro same
    cases h
    cases n
    exact ne (congrArg Handle.mk same.symm)
  simp [Array.getD_eq_getD_getElem?, Array.getElem?_modify, index]

theorem setCount (within : s.HoldsWithin region) {h : Handle} (hh : h ∈ region) (n : Nat) :
    ConfinedTo region s (s.setCount h n) :=
  recount within rfl fun _ hk => count_modify _ fun same => hk (same ▸ hh)

theorem retain (within : s.HoldsWithin region) {h : Handle} (hh : h ∈ region) :
    ConfinedTo region s (s.retain h) :=
  recount within rfl fun _ hk => count_modify _ fun same => hk (same ▸ hh)

/-- A region that is closed under holding is not left by the nodes that die one through another. -/
theorem releaseWithin (bound : Nat) (within : s.HoldsWithin region) {h : Handle} (hh : h ∈ region) :
    ConfinedTo region s (releaseWithin bound h s) := by
  induction bound generalizing h s with
  | zero => exact refl within
  | succ bound ih =>
    unfold Store.releaseWithin
    split
    · exact refl within
    · have buried := setCount within hh 0
      have held := within h hh
      revert buried
      generalize (s.node h).holds = holds at held
      generalize s.setCount h 0 = t
      intro buried
      induction holds generalizing t with
      | nil => exact buried
      | cons k rest ih' =>
        have first := ih buried.within (held k List.mem_cons_self)
        exact ih' (fun k hk => held k (List.mem_cons_of_mem _ hk)) _ (buried.trans first)
    · exact setCount within hh _

theorem release (within : s.HoldsWithin region) {h : Handle} (hh : h ∈ region) :
    ConfinedTo region s (s.release h) := releaseWithin _ within hh

theorem putMember (within : s.HoldsWithin region) {a value : Handle} (ha : a ∈ region)
    (hv : value ∈ region) (key : EntryKey) : ConfinedTo region s (s.putMember a key value) := by
  have inserted : ConfinedTo region s
      (s.modifyNode a fun e => { e with members := e.members.insert key value }) := by
    refine ⟨size_modifyNode _ _ _, fun n hn => ?_, fun _ _ => rfl, fun n hn k hk => ?_⟩
    · have other : n ≠ a := by
        rintro rfl
        exact hn ha
      rw [node_modifyNode_eq, if_neg fun here => other here.1]
    · rw [node_modifyNode_eq] at hk
      split at hk
      · rename_i here
        simp only [Entity.holds, Entity.parts, List.mem_append] at hk
        have old : ∀ k ∈ (s.node n).holds, k ∈ region := within n hn
        simp only [Entity.holds, Entity.parts, List.mem_append] at old
        rcases hk with (member | result) | owned
        · rcases SortedMap.mem_values_insert member with rfl | member
          · exact hv
          · exact old k (.inl (.inl member))
        · exact old k (.inl (.inr result))
        · exact old k (.inr owned)
      · exact within n hn k hk
  unfold Store.putMember
  cases stored : s.member? a key with
  | none => exact inserted
  | some m =>
    have listed : m ∈ (s.node a).members.values := SortedMap.mem_values_iff.2 ⟨key, stored⟩
    have held : m ∈ region :=
      within a ha m (List.mem_append_left _ (List.mem_append_left _ listed))
    exact inserted.trans (release inserted.within held)

theorem setProperty (within : s.HoldsWithin region) {a value : Handle} (ha : a ∈ region)
    (hv : value ∈ region) (key : Property) : ConfinedTo region s (s.setProperty a key value).2 := by
  have written : ∀ (tags : List String) (t : Store), ConfinedTo region s t → ConfinedTo region s
      (tags.foldl (fun t tag => (t.retain value).putMember a (.type tag) value) t) := by
    intro tags
    induction tags with
    | nil => exact fun t ht => ht
    | cons tag rest ih =>
      intro t ht
      have held := retain ht.within hv
      exact ih _ ((ht.trans held).trans (putMember held.within ha hv _))
  unfold Store.setProperty
  split
  · exact release within hv
  · cases key with
    | identifier name => exact putMember within ha hv _
    | value k =>
      dsimp only
      split
      · exact release within hv
      · have all := written (s.node k).types.toList s (refl within)
        exact all.trans (release all.within hv)

end ConfinedTo

/-- Changes in a region of living nodes do not show from roots that reach none of them. -/
theorem ConfinedTo.snapshot {s t : Store} {region : Set Handle} {roots : List Handle}
    (confined : ConfinedTo region s t) (living : ∀ n ∈ region, s.live n)
    (apart : Disjoint region (s.reach roots)) : t.snapshot roots = s.snapshot roots := by
  have outside : ∀ n ∈ s.reach roots, n ∉ region := fun n hn inside =>
    Set.disjoint_left.1 apart inside hn
  refine snapshot_congr confined.size (fun n hn => confined.node n (outside n hn))
    fun n hn k hk => ?_
  have unchanged : k ∉ region := by
    intro inside
    -- a link to a living node makes the node reachable
    refine outside k (.edge hn (mem_edges_iff.2 ?_)) inside
    rcases Entity.mem_links_iff.1 hk with member | result | isa | context
    · exact .inl (List.mem_append_left _ member)
    · exact .inl (List.mem_append_right _ (Option.mem_toList.2 result))
    · exact .inr (.inl (isa?_eq_some_iff.2 ⟨isa, living k inside⟩))
    · exact .inr (.inr (context?_eq_some_iff.2 ⟨context, living k inside⟩))
  rw [Store.live, Store.live, confined.count k unchanged]

/-- No write to a node that the roots reach shows from the others. Contents may be changed in any
way; what is stored as a member has itself nothing in common with the others. -/
def Isolates (s : Store) (roots others : List Handle) : Prop :=
  ∀ a ∈ s.reach roots,
    (∀ f, (s.modifyNode a f).snapshot others = s.snapshot others) ∧
    ∀ key value, s.live value → Disjoint (s.reach [value]) (s.reach others) →
      (s.setProperty a key value).2.snapshot others = s.snapshot others

theorem isolates_of_disjoint {s : Store} {roots others : List Handle} (sound : s.Sound)
    (alive : ∀ r ∈ roots, s.live r) (apart : Disjoint (s.reach roots) (s.reach others)) :
    s.Isolates roots others := by
  intro a ha
  constructor
  · intro f
    refine snapshot_congr (size_modifyNode a f s) (fun n hn => ?_) fun _ _ _ _ => rfl
    have other : n ≠ a := by
      rintro rfl
      exact Set.disjoint_left.1 apart ha hn
    rw [node_modifyNode_eq, if_neg fun here => other here.1]
  · intro key value live apart'
    let region := s.reach roots ∪ s.reach [value]
    have living : ∀ n ∈ region, s.live n := by
      rintro n (hn | hn)
      · exact live_of_mem_reach sound alive hn
      · exact live_of_mem_reach sound (fun r hr => List.mem_singleton.1 hr ▸ live) hn
    have within : s.HoldsWithin region := by
      rintro n hn k hk
      have step := mem_edges_of_mem_holds sound (living n hn) hk
      rcases hn with hn | hn
      · exact .inl (.edge hn step)
      · exact .inr (.edge hn step)
    have confined := ConfinedTo.setProperty within (.inl ha) (.inr (.root List.mem_cons_self)) key
    exact confined.snapshot living (Set.disjoint_union_left.2 ⟨apart, apart'⟩)

end Store

end ScriptInference
