import Mathlib.Algebra.BigOperators.Fin
import Mathlib.Algebra.BigOperators.Intervals
import Mathlib.Algebra.Order.BigOperators.Group.Finset
import Mathlib.Data.Multiset.Count
import ScriptInference.Proofs.Entity.Closedness

/-!
# The ledger of holds

A computation that starts from a sound store, its ground, may hold nodes, make nodes that hold
others, and give holds up again. The ledger of such a computation is the multiset of the holds that
it has at its disposal. It is in order if every node is held at least as often as it was on the
ground, plus the number of times it occurs in the ledger, plus the number of holds on it by living
nodes that are not on the ground. As long as the ledger is in order, no hold that was there before
can be lost: a node of the ground is alive exactly if it was alive on the ground.

The nodes of the ground are never written to, except that one may be given a label or a context, and
not even this if the ledger is strict. With the empty store as its ground, a ledger accounts for
everything.
-/

namespace ScriptInference

variable {h k n : Handle} {hs : List Handle} {e : Entity} {f : Entity → Entity}

/-- At most an empty label of a map or list has been filled, and the context of a function
replaced. -/
def Entity.Restyled (e e' : Entity) : Prop :=
  e' = { e with label := e'.label, context := e'.context } ∧
  (e'.label = e.label ∨ e.label = "" ∧ e.isReferenceShaped = true) ∧
  (e'.context = e.context ∨ e.kind = .function)

namespace Entity.Restyled
variable {f g : Entity}

theorem refl (e : Entity) : e.Restyled e := ⟨rfl, .inl rfl, .inl rfl⟩

theorem trans (h : e.Restyled f) (k : f.Restyled g) : e.Restyled g := by
  obtain ⟨contents, label, context⟩ := h
  obtain ⟨contents', label', context'⟩ := k
  have kind : f.kind = e.kind := by rw [contents]
  have types : f.types = e.types := by rw [contents]
  refine ⟨by rw [contents', contents], ?_, ?_⟩
  · rcases label with label | label
    · rw [label, isReferenceShaped, types] at label'
      exact label'
    · exact .inr label
  · rcases context with context | context
    · rw [context, kind] at context'
      exact context'
    · exact .inr context

theorem holds (h : e.Restyled f) : f.holds = e.holds := by
  rw [h.1]
  rfl

end Entity.Restyled

namespace Entity

theorem mem_links_of_mem_holds (h : k ∈ e.holds) : k ∈ e.links := by
  rcases List.mem_append.1 h with part | owned
  · exact mem_links_of_mem_parts part
  · obtain ⟨p, hp, rfl⟩ := List.mem_map.1 owned
    have isa : e.isa = some p := (Option.filter_eq_some_iff.1 (Option.mem_toList.1 hp)).1
    exact mem_links_iff.2 (.inr (.inr (.inl ⟨p, isa, rfl⟩)))

end Entity

namespace Store

/-- How often a node holds another, as long as it is alive. -/
def heldBy (s : Store) (n h : Handle) : Nat := if s.live n then (s.node n).holds.count h else 0

/-- How often a node is held by living nodes from the base on. -/
def heldFrom (base : Nat) (s : Store) (h : Handle) : Nat :=
  ∑ i ∈ Finset.Ico base s.size, s.heldBy ⟨i⟩ h

/-- The ledger `own` is in order in the store `s`, on the ground `g`. -/
structure Ledger (g : Store) (strict : Prop) (own : Multiset Handle) (s : Store) : Prop where
  ground : g.Sound
  closed : s.Closed
  size_le : g.size ≤ s.size
  restyled : ∀ n ∈ g, (g.node n).Restyled (s.node n)
  same : strict → ∀ n ∈ g, s.node n = g.node n
  dead : ∀ n ∈ g, s.live n → g.live n
  counts : ∀ h, own.count h + g.count h + s.heldFrom g.size h ≤ s.count h

section Sums
variable {base : Nat} {s t : Store}

theorem heldFrom_le (size : t.size = s.size)
    (le : ∀ n ∈ s, base ≤ n.index → t.heldBy n h ≤ s.heldBy n h) :
    t.heldFrom base h ≤ s.heldFrom base h := by
  unfold heldFrom
  rw [size]
  refine Finset.sum_le_sum fun i hi => ?_
  rw [Finset.mem_Ico] at hi
  exact le ⟨i⟩ hi.2 hi.1

/-- If only one node holds something else than before, the sums differ by what it holds. -/
theorem heldFrom_update (size : t.size = s.size) {a : Handle} (ha : a ∈ s) (new : base ≤ a.index)
    (others : ∀ n, n ≠ a → t.heldBy n h = s.heldBy n h) :
    t.heldFrom base h + s.heldBy a h = s.heldFrom base h + t.heldBy a h := by
  obtain ⟨index⟩ := a
  have listed : index ∈ Finset.Ico base s.size := Finset.mem_Ico.2 ⟨new, ha⟩
  have rest : ∑ i ∈ (Finset.Ico base s.size).erase index, t.heldBy ⟨i⟩ h =
      ∑ i ∈ (Finset.Ico base s.size).erase index, s.heldBy ⟨i⟩ h := by
    refine Finset.sum_congr rfl fun i hi => others ⟨i⟩ fun same => ?_
    exact (Finset.mem_erase.1 hi).1 (congrArg Handle.index same)
  unfold heldFrom
  rw [size, ← Finset.add_sum_erase _ _ listed, ← Finset.add_sum_erase _ _ listed, rest]
  omega

theorem heldBy_le_heldFrom (hn : n ∈ s) (new : base ≤ n.index) : s.heldBy n h ≤ s.heldFrom base h :=
  Finset.single_le_sum (f := fun i => s.heldBy ⟨i⟩ h) (fun _ _ => Nat.zero_le _)
    (Finset.mem_Ico.2 ⟨new, hn⟩)

end Sums

namespace Ledger
variable {g s t : Store} {strict : Prop} {own own' : Multiset Handle}

theorem start (sound : g.Sound) (strict : Prop) : Ledger g strict 0 g where
  ground := sound
  closed := sound.closed
  size_le := Nat.le_refl _
  restyled n _ := .refl _
  same _ n _ := rfl
  dead n _ hn := hn
  counts h := by simp [heldFrom]

section
variable (l : Ledger g strict own s)

include l

theorem mono (le : own' ≤ own) : Ledger g strict own' s where
  ground := l.ground
  closed := l.closed
  size_le := l.size_le
  restyled := l.restyled
  same := l.same
  dead := l.dead
  counts h := by
    have fewer := Multiset.count_le_of_le h le
    have before := l.counts h
    omega

theorem live_of_mem (hh : h ∈ own) : s.live h := by
  have listed := Multiset.count_pos.2 hh
  have before := l.counts h
  rw [live_iff]
  omega

theorem live_ground (hh : g.live h) : s.live h := by
  have before := l.counts h
  rw [live_iff] at hh ⊢
  omega

/-- A node of the ground is alive exactly if it was alive on the ground. -/
theorem live_eq (hn : n ∈ g) : s.live n = g.live n :=
  Bool.eq_iff_iff.2 ⟨l.dead n hn, l.live_ground⟩

end

/-- A living node holds living nodes only. -/
theorem held (l : Ledger g strict own s) (hn : s.live n) (hk : k ∈ (s.node n).holds) :
    s.live k := by
  by_cases old : n ∈ g
  · rw [(l.restyled n old).holds] at hk
    exact l.live_ground (l.ground.held n (l.dead n old hn) k hk)
  · have once : 0 < s.heldBy n k := by
      rw [heldBy, if_pos hn]
      exact List.count_pos_iff.2 hk
    have listed := heldBy_le_heldFrom (h := k) (mem_of_live hn) (Nat.le_of_not_lt old)
    have before := l.counts k
    rw [live_iff]
    omega

theorem sound (l : Ledger g strict own s) : s.Sound := ⟨l.closed, fun _ hn _ hk => l.held hn hk⟩

theorem mem_of_ground (l : Ledger g strict own s) (hn : n ∈ g) : n ∈ s :=
  Nat.lt_of_lt_of_le hn l.size_le

section Counting

/-- The counts may change as long as they cover the ledger and no dead node comes to life. -/
theorem recount (l : Ledger g strict own s) (nodes : t.nodes = s.nodes)
    (dead : ∀ n, t.live n → s.live n)
    (counts : ∀ h, own'.count h + g.count h + t.heldFrom g.size h ≤ t.count h) :
    Ledger g strict own' t where
  ground := l.ground
  closed := l.closed.of_nodes_eq nodes
  size_le := by
    rw [size_eq nodes]
    exact l.size_le
  restyled n hn := by
    rw [node_eq nodes]
    exact l.restyled n hn
  same h n hn := by
    rw [node_eq nodes]
    exact l.same h n hn
  dead n hn hlive := l.dead n hn (dead n hlive)
  counts := counts

/-- Nodes that are no longer alive hold nothing. -/
theorem heldFrom_mono (nodes : t.nodes = s.nodes) (dead : ∀ n, t.live n → s.live n) (base : Nat)
    (h : Handle) : t.heldFrom base h ≤ s.heldFrom base h := by
  refine heldFrom_le (size_eq nodes) fun n _ _ => ?_
  unfold heldBy
  rw [node_eq nodes]
  by_cases hlive : t.live n
  · rw [if_pos hlive, if_pos (dead n hlive)]
  · rw [if_neg hlive]
    exact Nat.zero_le _

theorem retain (l : Ledger g strict own s) (hh : s.live h) :
    Ledger g strict (h ::ₘ own) (s.retain h) := by
  have dead : ∀ n, (s.retain h).live n → s.live n := by
    intro n hn
    have inside : n ∈ s := mem_of_live (s := s.retain h) hn
    rw [live_iff, count_retain inside] at hn
    split at hn
    · rename_i same
      exact same ▸ hh
    · exact live_iff.2 hn
  have nodes : (s.retain h).nodes = s.nodes := rfl
  refine l.recount nodes dead fun k => ?_
  have held := heldFrom_mono nodes dead g.size k
  have before := l.counts k
  rw [Multiset.count_cons]
  by_cases inside : k ∈ s
  · rw [count_retain inside]
    by_cases same : k = h
    · rw [if_pos same, if_pos same.symm]
      omega
    · rw [if_neg same, if_neg (Ne.symm same)]
      omega
  · have other : k ≠ h := by
      rintro rfl
      exact inside (mem_of_live hh)
    rw [if_neg other]
    rw [count_of_not_mem inside] at before
    omega

theorem retainAll (l : Ledger g strict own s) (alive : ∀ h ∈ hs, s.live h) :
    Ledger g strict (↑hs + own) (s.retainAll hs) := by
  induction hs generalizing own s with
  | nil =>
    rw [Multiset.coe_nil, zero_add]
    exact l
  | cons h rest ih =>
    have first := l.retain (alive h List.mem_cons_self)
    have others := ih first fun k hk => live_retainAll (alive k (List.mem_cons_of_mem _ hk)) [h]
    rw [← Multiset.cons_coe, Multiset.cons_add, ← Multiset.add_cons]
    exact others

theorem count_setCount (hk : k ∈ s) (h : Handle) (n : Nat) :
    (s.setCount h n).count k = if k = h then n else s.count k := by
  have inside : k.index < s.holders.size := by
    rw [s.aligned]
    exact hk
  have index_eq : h.index = k.index ↔ k = h := by
    cases h
    cases k
    simp [eq_comm]
  simp only [count, setCount, Array.getD_eq_getD_getElem?, Array.getElem?_modify, index_eq]
  split <;> simp [inside]

/-- Lowering a count brings no node to life. -/
theorem live_of_live_setCount {n : Nat} (fewer : n ≤ s.count h) (hk : (s.setCount h n).live k) :
    s.live k := by
  have inside : k ∈ s := mem_of_live (s := s.setCount h n) hk
  rw [live_iff, count_setCount inside] at hk
  rw [live_iff]
  split at hk
  · rename_i same
    rw [same]
    omega
  · exact hk

/-- A node whose last hold is given up leaves the holds that it had to the ledger. -/
theorem bury (l : Ledger g strict (h ::ₘ own) s) (last : s.count h = 1) :
    Ledger g strict (↑(s.node h).holds + own) (s.setCount h 0) := by
  have alive : s.live h := by
    rw [live_iff]
    omega
  have here := l.counts h
  rw [Multiset.count_cons_self, last] at here
  have new : h ∉ g := by
    intro old
    have grounded := live_iff.1 (l.dead h old alive)
    omega
  have dead : ∀ n, (s.setCount h 0).live n → s.live n := fun n =>
    live_of_live_setCount (Nat.zero_le _)
  refine l.recount rfl dead fun k => ?_
  have others : ∀ n, n ≠ h → (s.setCount h 0).heldBy n k = s.heldBy n k := by
    intro n ne
    have nodes : (s.setCount h 0).node n = s.node n := rfl
    have live_eq : (s.setCount h 0).live n = s.live n := by
      by_cases inside : n ∈ s
      · rw [live, live, count_setCount inside, if_neg ne]
      · have outside : n ∉ s.setCount h 0 := inside
        rw [live, live, count_of_not_mem inside, count_of_not_mem outside]
    rw [heldBy, heldBy, nodes, live_eq]
  have mine : s.heldBy h k = (s.node h).holds.count k := if_pos alive
  have gone : (s.setCount h 0).heldBy h k = 0 := by
    rw [heldBy, live, count_setCount (mem_of_live alive), if_pos rfl]
    rfl
  have size : (s.setCount h 0).size = s.size := rfl
  have update := heldFrom_update size (mem_of_live alive) (Nat.le_of_not_lt new) others
  rw [mine, gone] at update
  rw [Multiset.count_add, Multiset.coe_count]
  by_cases same : k = h
  · subst same
    omega
  · have before := l.counts k
    rw [Multiset.count_cons_of_ne same] at before
    by_cases inside : k ∈ s
    · rw [count_setCount inside, if_neg same]
      omega
    · rw [count_of_not_mem inside] at before
      omega

theorem releaseWithin (bound : Nat) {h : Handle} (l : Ledger g strict (h ::ₘ own) s) :
    Ledger g strict own (releaseWithin bound h s) := by
  have given_up : own ≤ h ::ₘ own := Multiset.le_cons_self own h
  induction bound generalizing h own s with
  | zero => exact l.mono given_up
  | succ bound ih =>
    unfold Store.releaseWithin
    split
    · exact l.mono given_up
    · rename_i last
      -- the holds of the dead node are given up one after the other
      have buried := l.bury last
      revert buried
      generalize (s.node h).holds = held
      generalize s.setCount h 0 = t
      intro buried
      induction held generalizing t with
      | nil =>
        rw [Multiset.coe_nil, zero_add] at buried
        exact buried
      | cons k rest ih' =>
        rw [← Multiset.cons_coe, Multiset.cons_add] at buried
        exact ih' _ (ih buried (Multiset.le_cons_self _ k))
    · rename_i n more
      have dead : ∀ k, (s.setCount h (n + 1)).live k → s.live k := fun k =>
        live_of_live_setCount (by omega)
      have nodes : (s.setCount h (n + 1)).nodes = s.nodes := rfl
      refine l.recount nodes dead fun k => ?_
      have held := heldFrom_mono nodes dead g.size k
      have before := l.counts k
      rw [Multiset.count_cons] at before
      by_cases inside : k ∈ s
      · rw [count_setCount inside]
        split
        · rename_i same
          rw [if_pos same, same, more] at before
          subst same
          omega
        · rename_i other
          rw [if_neg other] at before
          omega
      · rw [count_of_not_mem inside] at before
        omega

theorem release (l : Ledger g strict (h ::ₘ own) s) : Ledger g strict own (s.release h) :=
  l.releaseWithin _

theorem releaseAll (l : Ledger g strict (↑hs + own) s) : Ledger g strict own (s.releaseAll hs) := by
  induction hs generalizing s with
  | nil =>
    rw [Multiset.coe_nil, zero_add] at l
    exact l
  | cons h rest ih =>
    rw [← Multiset.cons_coe, Multiset.cons_add] at l
    exact ih l.release

end Counting

section Contents

/-- A living node that is not on the ground may be changed, if what it holds then is paid for. -/
theorem modify (l : Ledger g strict own s) {a : Handle} (new : a ∉ g) (alive : s.live a)
    (closed : (s.modifyNode a f).Closed)
    (paid : own' + ↑(f (s.node a)).holds ≤ own + ↑(s.node a).holds) :
    Ledger g strict own' (s.modifyNode a f) := by
  have others : ∀ n, n ≠ a → (s.modifyNode a f).node n = s.node n := by
    intro n ne
    rw [node_modifyNode_eq, if_neg fun here => ne here.1]
  have changed : (s.modifyNode a f).node a = f (s.node a) := by
    rw [node_modifyNode_eq, if_pos ⟨rfl, mem_of_live alive⟩]
  have elsewhere : ∀ n ∈ g, (s.modifyNode a f).node n = s.node n := by
    intro n hn
    refine others n ?_
    rintro rfl
    exact new hn
  have live_eq : ∀ n, (s.modifyNode a f).live n = s.live n := fun _ => rfl
  have size : (s.modifyNode a f).size = s.size := size_modifyNode a f s
  refine ⟨l.ground, closed, size ▸ l.size_le, fun n hn => ?_, fun h n hn => ?_, l.dead, fun k => ?_⟩
  · rw [elsewhere n hn]
    exact l.restyled n hn
  · rw [elsewhere n hn]
    exact l.same h n hn
  · have kept : ∀ n, n ≠ a → (s.modifyNode a f).heldBy n k = s.heldBy n k := fun n ne => by
      rw [heldBy, heldBy, others n ne, live_eq]
    have update := heldFrom_update size (mem_of_live alive) (Nat.le_of_not_lt new) kept
    have before : s.heldBy a k = (s.node a).holds.count k := if_pos alive
    have after : (s.modifyNode a f).heldBy a k = (f (s.node a)).holds.count k := by
      rw [heldBy, live_eq, if_pos alive, changed]
    have price := Multiset.count_le_of_le k paid
    rw [Multiset.count_add, Multiset.count_add, Multiset.coe_count, Multiset.coe_count] at price
    have covered := l.counts k
    have count_eq : (s.modifyNode a f).count k = s.count k := rfl
    omega

/-- Any node may be restyled, unless the ledger is strict and the node is on the ground. -/
theorem restyle (l : Ledger g strict own s) {a : Handle} (closed : (s.modifyNode a f).Closed)
    (styled : (s.node a).Restyled (f (s.node a))) (allowed : strict → a ∉ g) :
    Ledger g strict own (s.modifyNode a f) := by
  have node_eq : ∀ n, n ≠ a → (s.modifyNode a f).node n = s.node n := by
    intro n ne
    rw [node_modifyNode_eq, if_neg fun here => ne here.1]
  have restyled : ∀ n, (s.node n).Restyled ((s.modifyNode a f).node n) := by
    intro n
    rw [node_modifyNode_eq]
    split
    · rename_i here
      rw [here.1]
      exact styled
    · exact .refl _
  have size : (s.modifyNode a f).size = s.size := size_modifyNode a f s
  refine ⟨l.ground, closed, size ▸ l.size_le, fun n hn => (l.restyled n hn).trans (restyled n),
    fun h n hn => ?_, l.dead, fun k => ?_⟩
  · have ne : n ≠ a := by
      rintro rfl
      exact allowed h hn
    rw [node_eq n ne]
    exact l.same h n hn
  · have held : (s.modifyNode a f).heldFrom g.size k ≤ s.heldFrom g.size k := by
      refine heldFrom_le size fun n _ _ => Nat.le_of_eq ?_
      rw [heldBy, heldBy, (restyled n).holds]
      rfl
    have before := l.counts k
    have count_eq : (s.modifyNode a f).count k = s.count k := rfl
    omega

section Extension
variable {contents : List Entity}

theorem size_extended (contents : List Entity) (hs : List Handle) :
    ((contents.foldl (fun t e => t.push e) s).retainAll hs).size = s.size + contents.length := by
  rw [size_retainAll, size, nodes_pushAll]
  simp [size]

theorem node_extended_of_mem (hn : n ∈ s) :
    ((contents.foldl (fun t e => t.push e) s).retainAll hs).node n = s.node n := by
  have inside : n.index < s.nodes.size := hn
  simp [node, nodes_pushAll, Array.getD_eq_getD_getElem?, Array.getElem?_append_left inside]

theorem node_extended_new (i : Nat) :
    ((contents.foldl (fun t e => t.push e) s).retainAll hs).node ⟨s.size + i⟩ =
      contents.getD i default := by
  have beyond : s.nodes.size ≤ s.nodes.size + i := Nat.le_add_right _ _
  have shifted : s.nodes.size + i - s.nodes.size = i := by omega
  simp [node, nodes_pushAll, size, Array.getD_eq_getD_getElem?, Array.getElem?_append_right beyond,
    shifted]

theorem count_extended (inside : ∀ k ∈ hs, k.index < s.size + contents.length) (k : Handle) :
    s.count k + hs.count k ≤ ((contents.foldl (fun t e => t.push e) s).retainAll hs).count k := by
  by_cases stored : k ∈ contents.foldl (fun t e => t.push e) s
  · rw [count_retainAll stored]
    by_cases old : k ∈ s
    · rw [count_pushAll]
    · rw [count_of_not_mem old]
      omega
  · have size := size_extended (s := s) contents []
    have outside : s.size + contents.length ≤ k.index := size ▸ Nat.le_of_not_lt stored
    have unlisted : k ∉ hs := fun hk => Nat.not_lt.2 outside (inside k hk)
    have old : k ∉ s := fun hk => by
      rw [mem_iff] at hk
      omega
    rw [count_of_not_mem old, List.count_eq_zero_of_not_mem unlisted]
    omega

theorem live_extended (hn : s.live n) (contents : List Entity) (hs : List Handle) :
    ((contents.foldl (fun t e => t.push e) s).retainAll hs).live n := by
  refine live_retainAll ?_ hs
  rw [live, count_pushAll]
  exact hn

/-- Nodes that were dead stay dead, if what is held was alive. -/
theorem live_of_live_extended (alive : ∀ k ∈ hs, k ∈ s → s.live k) (hn : n ∈ s)
    (hlive : ((contents.foldl (fun t e => t.push e) s).retainAll hs).live n) : s.live n := by
  by_cases listed : n ∈ hs
  · exact alive n listed hn
  · have stored : n ∈ contents.foldl (fun t e => t.push e) s := by
      rw [mem_iff, size, nodes_pushAll, Array.size_append]
      exact Nat.lt_add_right _ hn
    rw [live_iff, count_retainAll stored, count_pushAll,
      List.count_eq_zero_of_not_mem listed] at hlive
    exact live_iff.2 hlive

/-- What the new nodes hold adds to what the old ones hold. -/
theorem heldFrom_extended {base : Nat} (below : base ≤ s.size) (contents : List Entity)
    (alive : ∀ k ∈ hs, k ∈ s → s.live k) (k : Handle) :
    ((contents.foldl (fun t e => t.push e) s).retainAll hs).heldFrom base k ≤
      s.heldFrom base k + (contents.flatMap Entity.holds).count k := by
  set t := (contents.foldl (fun t e => t.push e) s).retainAll hs with ht
  have old : ∑ i ∈ Finset.Ico base s.size, t.heldBy ⟨i⟩ k ≤ s.heldFrom base k := by
    refine Finset.sum_le_sum fun i hi => ?_
    have inside : (⟨i⟩ : Handle) ∈ s := (Finset.mem_Ico.1 hi).2
    rw [heldBy, heldBy, node_extended_of_mem inside]
    by_cases hlive : t.live ⟨i⟩
    · rw [if_pos hlive, if_pos (live_of_live_extended alive inside hlive)]
    · rw [if_neg hlive]
      exact Nat.zero_le _
  have new : ∑ i ∈ Finset.Ico s.size (s.size + contents.length), t.heldBy ⟨i⟩ k ≤
      (contents.flatMap Entity.holds).count k := by
    rw [Finset.sum_Ico_eq_sum_range, Nat.add_sub_cancel_left, List.count_flatMap,
      ← Fin.sum_univ_getElem, ← Fin.sum_univ_eq_sum_range (fun i => t.heldBy ⟨s.size + i⟩ k)]
    have length : (contents.map (List.count k ∘ Entity.holds)).length = contents.length :=
      List.length_map _
    rw [← Fintype.sum_equiv (finCongr length.symm)
      (fun i => (contents[i.1].holds).count k) _ fun i => by simp]
    refine Finset.sum_le_sum fun i _ => ?_
    rw [heldBy, ht, node_extended_new, List.getD_eq_getElem?_getD, List.getElem?_eq_getElem i.2]
    split
    · exact Nat.le_refl _
    · exact Nat.zero_le _
  rw [heldFrom, ht, size_extended, ← Finset.sum_Ico_consecutive _ below (Nat.le_add_right _ _)]
  exact Nat.add_le_add old new

end Extension

variable (l : Ledger g strict own s)

include l

/-- New nodes may be added, if what they hold is alive and is held, together with what is given to
the ledger. -/
theorem extend (contents : List Entity) {given : List Handle}
    (retained : hs.Perm (contents.flatMap Entity.holds ++ given))
    (closed : ((contents.foldl (fun t e => t.push e) s).retainAll hs).Closed)
    (inside : ∀ k ∈ hs, k.index < s.size + contents.length) (alive : ∀ k ∈ hs, k ∈ s → s.live k) :
    Ledger g strict (↑given + own) ((contents.foldl (fun t e => t.push e) s).retainAll hs) := by
  refine ⟨l.ground, closed, ?_, fun n hn => ?_, fun h n hn => ?_, fun n hn hlive => ?_, fun k => ?_⟩
  · have before := l.size_le
    rw [size_extended]
    omega
  · rw [node_extended_of_mem (l.mem_of_ground hn)]
    exact l.restyled n hn
  · rw [node_extended_of_mem (l.mem_of_ground hn)]
    exact l.same h n hn
  · exact l.dead n hn (live_of_live_extended alive (l.mem_of_ground hn) hlive)
  · have held := heldFrom_extended l.size_le contents alive k
    have counted := count_extended inside k
    have before := l.counts k
    rw [Multiset.count_add, Multiset.coe_count]
    rw [retained.count_eq, List.count_append] at counted
    omega

theorem alloc (links : ∀ k ∈ e.links, k ∈ s) (alive : ∀ k ∈ e.holds, s.live k) :
    Ledger g strict ((s.alloc e).1 ::ₘ own) (s.alloc e).2 := by
  have retained :
      ((s.alloc e).1 :: e.holds).Perm ([e].flatMap Entity.holds ++ [(s.alloc e).1]) := by
    rw [List.flatMap_singleton]
    exact (List.perm_append_singleton _ _).symm
  refine l.extend [e] retained (l.closed.alloc links) (fun k hk => ?_) fun k hk old => ?_
  · rcases List.mem_cons.1 hk with rfl | hk
    · exact Nat.lt_succ_self _
    · exact Nat.lt_succ_of_lt (mem_of_live (alive k hk))
  · rcases List.mem_cons.1 hk with rfl | hk
    · exact absurd old (Nat.lt_irrefl _)
    · exact alive k hk

theorem copyGraph {roots : List Handle} (alive : ∀ r ∈ roots, s.live r) :
    Ledger g strict (↑(s.copyGraph roots).1 + own) (s.copyGraph roots).2 := by
  have closed := l.closed.copyGraph roots
  have length : (s.copiedContents roots).length = (s.copied roots).toList.length :=
    List.length_map _
  have copied : ∀ r ∈ roots, r ∈ (s.copied roots).toList := fun r hr =>
    mem_copied_iff.2 (.root hr)
  rw [copyGraph_eq]
  refine l.extend (s.copiedContents roots) (.refl _) (by rwa [copyGraph_eq] at closed)
    (fun k hk => ?_) fun k hk old => ?_
  · rw [length, ← size_copyGraph, ← mem_iff]
    rcases List.mem_append.1 hk with held | given
    · obtain ⟨e, he, hk⟩ := List.mem_flatMap.1 held
      obtain ⟨n, hn, rfl⟩ := List.mem_map.1 he
      rw [← node_copyGraph_image hn] at hk
      exact closed.links _ (Entity.mem_links_of_mem_holds hk)
    · obtain ⟨r, hr, rfl⟩ := List.mem_map.1 given
      exact image_mem_copyGraph (copied r hr)
  · rcases List.mem_append.1 hk with held | given
    · obtain ⟨e, he, hk⟩ := List.mem_flatMap.1 held
      exact live_of_mem_holds_copied l.sound alive he hk old
    · obtain ⟨r, hr, rfl⟩ := List.mem_map.1 given
      exact absurd old (image_not_mem (copied r hr))

theorem deepCopy (alive : s.live h) :
    Ledger g strict ((s.deepCopy h {}).1 ::ₘ own) (s.deepCopy h {}).2 := by
  rw [deepCopy_eq]
  have root_alive : ∀ r ∈ [h], s.live r := fun r hr => List.mem_singleton.1 hr ▸ alive
  have made := l.copyGraph root_alive
  rwa [copyGraph_fst] at made

end Contents

end Ledger

end Store

end ScriptInference
