import Mathlib.Data.List.Chain
import Mathlib.Data.List.TakeWhile
import ScriptInference.Proofs.Entity.Freshness
import ScriptInference.Proofs.Resolution.Balance

/-!
# Lookups take the first hit

The chain of an entity is described without its construction: it follows the live prototype links,
has no repetition, and ends only where a link is missing or leads back into it. There is exactly one
such chain, on cyclic links too. The nodes that answer lookups are its longest prefix of eligible
nodes, and a lookup is decided by the first of them that has anything under the key. Names and type
tags are keys of two kinds, and neither answers for the other.
-/

namespace ScriptInference

variable {key : Property} {rest chain nodes : List Handle}

namespace Store
variable {s : Store} {h n m : Handle}

/-! ## The chain of prototypes -/

/-- The prototypes from `h` on, nearest first, when the nodes of `front` have been met before. -/
structure PrototypeChain (s : Store) (front : List Handle) (h : Handle) (chain : List Handle) :
    Prop where
  head : chain.head? = some h
  linked : chain.IsChain fun a b => s.isa? a = some b
  nodup : (front ++ chain).Nodup
  complete : ∀ last ∈ chain.getLast?, ∀ p, s.isa? last = some p → p ∈ front ++ chain

theorem mem_of_isa? {p : Handle} (link : s.isa? h = some p) : h ∈ s := by
  by_contra outside
  rw [isa?, node_of_not_mem outside] at link
  cases link

namespace PrototypeChain
variable {front : List Handle}

theorem stop (nodup : (front ++ [h]).Nodup) (back : ∀ p, s.isa? h = some p → p ∈ front ++ [h]) :
    s.PrototypeChain front h [h] where
  head := rfl
  linked := .singleton h
  nodup := nodup
  complete := by
    rintro last ⟨rfl⟩
    exact back

theorem step {p : Handle} (link : s.isa? h = some p)
    (next : s.PrototypeChain (front ++ [h]) p chain) : s.PrototypeChain front h (h :: chain) := by
  obtain ⟨rest, rfl⟩ := List.head?_eq_some_iff.1 next.head
  refine ⟨rfl, List.isChain_cons_cons.2 ⟨link, next.linked⟩, ?_, ?_⟩
  · simpa using next.nodup
  · simpa using next.complete

end PrototypeChain

/-- The nodes met so far are distinct, and the bound is enough for the rest of the store: the chain
never stops for want of steps. -/
theorem prototypeChain_isaFrom {bound : Nat} {seen : Std.TreeSet Handle} {front : List Handle}
    (met : ∀ k, seen.contains k = true ↔ k ∈ front ++ [h]) (nodup : (front ++ [h]).Nodup)
    (inside : ∀ k ∈ front, k ∈ s) (enough : s.size ≤ bound + front.length) :
    s.PrototypeChain front h (s.isaFrom bound seen h) := by
  have stored : ∀ {p}, s.isa? h = some p → ∀ k ∈ front ++ [h], k ∈ s := by
    intro p link k hk
    rcases List.mem_append.1 hk with hk | hk
    · exact inside k hk
    · exact List.mem_singleton.1 hk ▸ mem_of_isa? link
  induction bound generalizing seen front h with
  | zero =>
    refine .stop nodup fun p link => ?_
    have short := length_le_size nodup (stored link)
    rw [List.length_append, List.length_singleton] at short
    omega
  | succ bound ih =>
    unfold isaFrom
    split
    · rename_i none
      exact .stop nodup fun p link => by rw [none] at link; cases link
    · rename_i p link
      split
      · rename_i again
        refine .stop nodup fun q link' => ?_
        rw [link] at link'
        cases link'
        exact (met p).1 again
      · rename_i new
        have fresh : p ∉ front ++ [h] := fun hp => new ((met p).2 hp)
        have met' : ∀ k, (seen.insert p).contains k = true ↔ k ∈ front ++ [h] ++ [p] := by
          intro k
          rw [Std.TreeSet.contains_insert, Bool.or_eq_true, beq_iff_eq, Std.compare_eq_iff_eq,
            met k, List.mem_append (t := [p]), List.mem_singleton, or_comm, eq_comm]
        have nodup' : (front ++ [h] ++ [p]).Nodup := by
          refine List.nodup_append.2 ⟨nodup, List.nodup_singleton p, fun a ha b hb => ?_⟩
          rw [List.mem_singleton.1 hb]
          exact fun same => fresh (same ▸ ha)
        refine .step link (ih met' nodup' (stored link) ?_ ?_)
        · rw [List.length_append, List.length_singleton]
          omega
        · intro q link' k hk
          rcases List.mem_append.1 hk with hk | hk
          · exact stored link k hk
          · exact List.mem_singleton.1 hk ▸ mem_of_isa? link'

theorem prototypeChain_isaChain (s : Store) (h : Handle) :
    s.PrototypeChain [] h (s.isaChain h) := by
  refine prototypeChain_isaFrom (fun k => ?_) (List.nodup_singleton h) (by simp) (Nat.le_refl _)
  have single : ({h} : Std.TreeSet Handle) = (∅ : Std.TreeSet Handle).insert h := rfl
  rw [single, Std.TreeSet.contains_insert, Std.TreeSet.contains_emptyc, Bool.or_false, beq_iff_eq,
    Std.compare_eq_iff_eq, List.nil_append, List.mem_singleton, eq_comm]

/-- Of two chains of a function that begin alike, one begins the other. -/
theorem prefix_or_prefix {α : Type} {next : α → Option α} {l l' : List α}
    (start : l.head? = l'.head?) (linked : l.IsChain fun a b => next a = some b)
    (linked' : l'.IsChain fun a b => next a = some b) : l <+: l' ∨ l' <+: l := by
  induction l generalizing l' with
  | nil => exact .inl List.nil_prefix
  | cons a rest ih =>
    obtain ⟨rest', rfl⟩ : ∃ rest', l' = a :: rest' := List.head?_eq_some_iff.1 start.symm
    have follows : rest = [] ∨ rest' = [] ∨ rest.head? = rest'.head? := by
      cases rest with
      | nil => exact .inl rfl
      | cons b _ =>
        cases rest' with
        | nil => exact .inr (.inl rfl)
        | cons b' _ =>
          have same :=
            (List.isChain_cons_cons.1 linked).1.symm.trans (List.isChain_cons_cons.1 linked').1
          exact .inr (.inr same)
    rcases follows with rfl | rfl | same
    · exact .inl (List.prefix_append [a] rest')
    · exact .inr (List.prefix_append [a] rest)
    · exact (ih same linked.tail linked'.tail).imp (List.prefix_cons_inj a).2
        (List.prefix_cons_inj a).2

theorem PrototypeChain.eq_of_prefix {longer : List Handle} (short : s.PrototypeChain [] h chain)
    (linked : longer.IsChain fun a b => s.isa? a = some b) (nodup : longer.Nodup)
    (starts : chain <+: longer) : longer = chain := by
  obtain ⟨rest, rfl⟩ := starts
  cases rest with
  | nil => exact List.append_nil chain
  | cons p rest =>
    -- the longer chain goes on to a node that the shorter one has met
    obtain ⟨front, last, rfl⟩ : ∃ front last, chain = front ++ [last] := by
      rcases List.eq_nil_or_concat' chain with rfl | split
      · cases short.head
      · exact split
    have link : s.isa? last = some p :=
      (List.isChain_append.1 linked).2.2 last (by simp) p rfl
    have met := short.complete last (by simp) p link
    exact absurd rfl ((List.nodup_append.1 nodup).2.2 p met p List.mem_cons_self)

/-- An entity has one chain of prototypes. -/
theorem PrototypeChain.unique {other : List Handle} (one : s.PrototypeChain [] h chain)
    (two : s.PrototypeChain [] h other) : chain = other := by
  rcases prefix_or_prefix (one.head.trans two.head.symm) one.linked two.linked with starts | starts
  · exact (one.eq_of_prefix two.linked two.nodup starts).symm
  · exact two.eq_of_prefix one.linked one.nodup starts

/-! ## The nodes that answer -/

/-- The first node can hold members, and every later one is tagged as a map, a list or `any`. -/
structure Eligible (s : Store) (nodes : List Handle) : Prop where
  first : ∀ n ∈ nodes.head?, (s.node n).isMapShaped = true
  later : ∀ n ∈ nodes.tail,
    Tag.map ∈ (s.node n).types ∨ Tag.list ∈ (s.node n).types ∨ Tag.any ∈ (s.node n).types

/-- The longest eligible prefix of the chain of an entity. -/
def Lineage (s : Store) (h : Handle) (nodes : List Handle) : Prop :=
  ∃ chain, s.PrototypeChain [] h chain ∧ nodes <+: chain ∧ s.Eligible nodes ∧
    ∀ other, other <+: chain → s.Eligible other → other <+: nodes

theorem eligible_nil (s : Store) : s.Eligible [] := ⟨by simp, by simp⟩

theorem eligible_cons_iff :
    s.Eligible (n :: rest) ↔
      (s.node n).isMapShaped = true ∧ ∀ p ∈ rest, (s.node p).isInheritable = true := by
  have inheritable : ∀ p, (s.node p).isInheritable = true ↔
      Tag.map ∈ (s.node p).types ∨ Tag.list ∈ (s.node p).types ∨ Tag.any ∈ (s.node p).types := by
    intro p
    simp only [Entity.isInheritable, Entity.holdsMembers, Bool.or_eq_true, decide_eq_true_eq,
      or_assoc]
  constructor
  · exact fun eligible => ⟨eligible.first n rfl,
      fun p hp => (inheritable p).2 (eligible.later p hp)⟩
  · rintro ⟨first, later⟩
    refine ⟨?_, fun p hp => (inheritable p).1 (later p hp)⟩
    rintro _ ⟨rfl⟩
    exact first

theorem lineage_lookupChain (s : Store) (h : Handle) : s.Lineage h (s.lookupChain h) := by
  have chain := prototypeChain_isaChain s h
  refine ⟨s.isaChain h, chain, ?_⟩
  obtain ⟨rest, isaChain_eq⟩ := List.head?_eq_some_iff.1 chain.head
  rw [lookupChain, isaChain_eq]
  dsimp only
  split
  · rename_i shaped
    refine ⟨(List.prefix_cons_inj h).2 (List.takeWhile_prefix _), ?_, ?_⟩
    · refine eligible_cons_iff.2 ⟨shaped, fun p hp => ?_⟩
      exact List.mem_takeWhile_imp (p := fun p => (s.node p).isInheritable) hp
    · intro other starts eligible
      cases other with
      | nil => exact List.nil_prefix
      | cons n others =>
        obtain ⟨rfl, more, rfl⟩ := List.cons_prefix_cons.1 starts
        rw [List.takeWhile_append_of_pos (eligible_cons_iff.1 eligible).2]
        exact (List.prefix_cons_inj n).2 (List.prefix_append others _)
  · rename_i plain
    refine ⟨List.nil_prefix, eligible_nil s, fun other starts eligible => ?_⟩
    cases other with
    | nil => exact List.nil_prefix
    | cons n others =>
      obtain ⟨rfl, -⟩ := List.cons_prefix_cons.1 starts
      exact absurd (eligible_cons_iff.1 eligible).1 plain

/-- An entity has one lineage. -/
theorem Lineage.unique {others : List Handle} (one : s.Lineage h nodes) (two : s.Lineage h others) :
    nodes = others := by
  obtain ⟨chain, follows, starts, eligible, longest⟩ := one
  obtain ⟨chain', follows', starts', eligible', longest'⟩ := two
  obtain rfl := follows.unique follows'
  exact (longest' nodes starts eligible).eq_of_length_le
    (longest others starts' eligible').length_le

/-- Two stores that agree on the chain of an entity agree on who answers for it. -/
theorem lookupChain_congr {t : Store}
    (agree : ∀ n ∈ s.isaChain h, t.isa? n = s.isa? n ∧
      (t.node n).types = (s.node n).types ∧ (t.node n).shaped = (s.node n).shaped) :
    t.lookupChain h = s.lookupChain h := by
  obtain ⟨chain, follows, starts, eligible, longest⟩ := lineage_lookupChain s h
  obtain rfl := follows.unique (prototypeChain_isaChain s h)
  have follows' : t.PrototypeChain [] h (s.isaChain h) := by
    refine ⟨follows.head, ?_, follows.nodup, fun last hl p link => ?_⟩
    · refine follows.linked.imp_of_mem_imp fun a b ha _ link => ?_
      rw [(agree a ha).1, link]
    · rw [(agree last (List.mem_of_getLast? hl)).1] at link
      exact follows.complete last hl p link
  have eligible_iff : ∀ other, other <+: s.isaChain h → (t.Eligible other ↔ s.Eligible other) := by
    intro other starts
    cases other with
    | nil => exact iff_of_true (eligible_nil t) (eligible_nil s)
    | cons n rest =>
      have same : ∀ p ∈ n :: rest, (t.node p).types = (s.node p).types ∧
          (t.node p).shaped = (s.node p).shaped := fun p hp => (agree p (starts.subset hp)).2
      obtain ⟨types, shaped⟩ := same n List.mem_cons_self
      rw [eligible_cons_iff, eligible_cons_iff, Entity.isMapShaped, Entity.isMapShaped,
        types, shaped]
      refine and_congr_right fun _ => forall₂_congr fun p hp => ?_
      rw [Entity.isInheritable, Entity.isInheritable, (same p (List.mem_cons_of_mem n hp)).1]
  refine (lineage_lookupChain t h).unique ⟨_, follows', starts, ?_,
    fun other starts' eligible' => ?_⟩
  · exact (eligible_iff _ starts).2 eligible
  · exact longest other starts' ((eligible_iff other starts').1 eligible')

/-! ## What a key selects -/

/-- The members of a node that a key asks for. -/
def Selects (s : Store) (n : Handle) : Property → Handle → Prop
  | .identifier name, m => s.member? n (.identifier name) = some m
  | .value k, m =>
    ∃ tag, (Tag.any ∈ (s.node k).types ∨ tag ∈ (s.node k).types) ∧ s.member? n (.type tag) = some m

/-- The first of the nodes on which a key selects anything. -/
def FirstHit (s : Store) (nodes : List Handle) (key : Property) (n : Handle) : Prop :=
  ∃ front back, nodes = front ++ n :: back ∧ (∀ f ∈ front, ∀ m, ¬ s.Selects f key m) ∧
    ∃ m, s.Selects n key m

def selected (s : Store) (n : Handle) : Property → List Handle
  | .identifier name => (s.member? n (.identifier name)).toList
  | .value k => ((s.node n).indexMatches (s.node k).types).eraseDups

/-- The members that a lookup has to choose from. -/
def hits (s : Store) (h : Handle) (key : Property) : List Handle :=
  (((s.lookupChain h).map fun n => s.selected n key).find? (!·.isEmpty)).getD []

theorem mem_indexMatches_iff {e : Entity} {types : SortedSet String} :
    m ∈ e.indexMatches types ↔
      ∃ tag, (Tag.any ∈ types ∨ tag ∈ types) ∧ e.member? (.type tag) = some m := by
  unfold Entity.indexMatches
  split
  · rename_i any
    simp only [any, true_or, true_and, List.mem_filterMap, Option.map_eq_some_iff, Entity.member?,
      SortedMap.get?_eq_some_iff]
    constructor
    · rintro ⟨⟨key, _⟩, listed, tag, tagged, rfl⟩
      cases key with
      | identifier name => cases tagged
      | type _ => exact ⟨_, listed⟩
    · rintro ⟨tag, listed⟩
      exact ⟨(.type tag, m), listed, tag, rfl, rfl⟩
  · rename_i plain
    simp only [plain, false_or, List.mem_filterMap]
    rfl

theorem mem_selected_iff : m ∈ s.selected n key ↔ s.Selects n key m := by
  cases key with
  | identifier name => exact Option.mem_toList
  | value k =>
    rw [selected, List.mem_eraseDups, mem_indexMatches_iff]
    rfl

instance (s : Store) (n m : Handle) (key : Property) : Decidable (s.Selects n key m) :=
  decidable_of_iff _ mem_selected_iff

theorem selected_eq_nil_iff : s.selected n key = [] ↔ ∀ m, ¬ s.Selects n key m := by
  simp only [List.eq_nil_iff_forall_not_mem, mem_selected_iff]

theorem eraseDups_eq_singleton {l : List Handle} (listed : m ∈ l) (only : ∀ k ∈ l, k = m) :
    l.eraseDups = [m] := by
  cases l with
  | nil => cases listed
  | cons a rest =>
    obtain rfl := only a List.mem_cons_self
    have none : rest.filter (fun b => !b == a) = [] := by
      refine List.filter_eq_nil_iff.2 fun b hb => ?_
      simp [only b (List.mem_cons_of_mem a hb)]
    rw [List.eraseDups_cons, none]
    rfl

theorem selected_eq_singleton (listed : s.Selects n key m) (only : ∀ k, s.Selects n key k → k = m) :
    s.selected n key = [m] := by
  cases key with
  | identifier name => exact congrArg Option.toList listed
  | value k =>
    have all : ∀ {x}, x ∈ (s.node n).indexMatches (s.node k).types ↔ s.Selects n (.value k) x :=
      mem_indexMatches_iff
    exact eraseDups_eq_singleton (all.2 listed) fun x hx => only x (all.1 hx)

theorem hits_eq_nil_iff : s.hits h key = [] ↔ ∀ n ∈ s.lookupChain h, ∀ m, ¬ s.Selects n key m := by
  simp only [← selected_eq_nil_iff]
  unfold hits
  cases found : ((s.lookupChain h).map fun n => s.selected n key).find? (!·.isEmpty) with
  | none => simpa using found
  | some l =>
    obtain ⟨n, hn, rfl⟩ := List.mem_map.1 (List.mem_of_find?_eq_some found)
    have occupied : s.selected n key ≠ [] := by simpa using List.find?_some found
    exact iff_of_false occupied fun none => occupied (none n hn)

theorem hits_of_firstHit (first : s.FirstHit (s.lookupChain h) key n) :
    s.hits h key = s.selected n key := by
  obtain ⟨front, back, chain, before, m, here⟩ := first
  have occupied : s.selected n key ≠ [] := fun none => selected_eq_nil_iff.1 none m here
  have empty : ∀ l ∈ front.map fun f => s.selected f key, ¬ (!l.isEmpty) = true := by
    intro l hl
    obtain ⟨f, hf, rfl⟩ := List.mem_map.1 hl
    simp [selected_eq_nil_iff.2 (before f hf)]
  have held : (!(s.selected n key).isEmpty) = true := by simpa using occupied
  rw [hits, chain, List.map_append, List.find?_append, List.find?_eq_none.2 empty, List.map_cons,
    List.find?_cons, held]
  rfl

theorem exists_firstHit (occupied : ¬ ∀ n ∈ nodes, ∀ m, ¬ s.Selects n key m) :
    ∃ n, s.FirstHit nodes key n := by
  induction nodes with
  | nil => exact absurd (by simp) occupied
  | cons a rest ih =>
    by_cases empty : ∀ m, ¬ s.Selects a key m
    · obtain ⟨n, front, back, rfl, before, here⟩ :=
        ih fun none => occupied (List.forall_mem_cons.2 ⟨empty, none⟩)
      exact ⟨n, a :: front, back, rfl, List.forall_mem_cons.2 ⟨empty, before⟩, here⟩
    · exact ⟨a, [], rest, rfl, by simp, not_forall_not.1 empty⟩

theorem live_of_mem_hits (sound : s.Sound) (alive : s.live h) (hm : m ∈ s.hits h key) :
    s.live m := by
  have occupied : ¬ ∀ n ∈ s.lookupChain h, ∀ m, ¬ s.Selects n key m := by
    rw [← hits_eq_nil_iff]
    exact List.ne_nil_of_mem hm
  obtain ⟨n, first⟩ := exists_firstHit occupied
  rw [hits_of_firstHit first, mem_selected_iff] at hm
  obtain ⟨front, back, chain, -, -⟩ := first
  have answers : n ∈ s.lookupChain h := by simp [chain]
  obtain ⟨slot, stored⟩ : ∃ slot, s.member? n slot = some m := by
    cases key with
    | identifier name => exact ⟨_, hm⟩
    | value k =>
      obtain ⟨tag, -, stored⟩ := hm
      exact ⟨_, stored⟩
  exact Discipline.live_member (D := .ledger s True) (.start sound True)
    (live_of_mem_lookupChain alive answers) (SortedMap.mem_values_iff.2 ⟨slot, stored⟩)

theorem toList_findName? (s : Store) (h : Handle) (name : String) :
    (s.findName? h name).toList = s.hits h (.identifier name) := by
  unfold findName? hits
  induction s.lookupChain h with
  | nil => rfl
  | cons n rest ih =>
    rw [List.findSome?_cons, List.map_cons, List.find?_cons]
    cases here : s.member? n (.identifier name) with
    | none => simpa [selected, here] using ih
    | some m => simp [selected, here]

/-- Stores a member under a key and leaves everything else alone. -/
def storeMember (a : Handle) (slot : EntryKey) (w : Handle) (s : Store) : Store :=
  s.modifyNode a fun e => { e with members := e.members.insert slot w }

end Store

/-- The slot is of the other kind than the slots of the key, whatever its text. -/
def Property.Foreign : Property → EntryKey → Prop
  | .identifier _, slot => ∃ tag, slot = .type tag
  | .value _, slot => ∃ name, slot = .identifier name

namespace Store
variable {s : Store} {h n m : Handle} {slot : EntryKey}

theorem node_storeMember (a w n : Handle) (slot : EntryKey) (s : Store) :
    ∃ members, (s.storeMember a slot w).node n = { s.node n with members } ∧
      ∀ other, other ≠ slot → members.get? other = s.member? n other := by
  rw [storeMember, node_modifyNode_eq]
  split
  · refine ⟨_, rfl, fun other ne => ?_⟩
    rw [SortedMap.get?_insert, if_neg ne]
    rfl
  · exact ⟨_, rfl, fun _ _ => rfl⟩

theorem lookupChain_storeMember (a w h : Handle) (slot : EntryKey) (s : Store) :
    (s.storeMember a slot w).lookupChain h = s.lookupChain h := by
  refine lookupChain_congr fun n _ => ?_
  obtain ⟨members, node, -⟩ := node_storeMember a w n slot s
  rw [isa?, isa?, node]
  exact ⟨rfl, rfl, rfl⟩

theorem selects_storeMember (foreign : key.Foreign slot) (a w : Handle) :
    (s.storeMember a slot w).Selects n key m ↔ s.Selects n key m := by
  obtain ⟨members, node, others⟩ := node_storeMember a w n slot s
  cases key with
  | identifier name =>
    obtain ⟨tag, rfl⟩ := foreign
    rw [Selects, Selects, member?, node, Entity.member?, others _ (by simp)]
  | value k =>
    obtain ⟨name, rfl⟩ := foreign
    obtain ⟨_, node_k, -⟩ := node_storeMember a w k (.identifier name) s
    refine exists_congr fun tag => ?_
    rw [node_k, member?, node, Entity.member?, others _ (by simp)]

end Store

namespace Infer
variable {s : Store} {h m : Handle} {slot : EntryKey}

theorem lookup_of_hits_nil (empty : s.hits h key = []) (bound : Nat) :
    lookup h key bound s = .ok (none, s) := by
  have read : (get : Infer Store) bound s = .ok (s, s) := rfl
  cases key with
  | identifier name =>
    rw [← Store.toList_findName?, Option.toList_eq_nil_iff] at empty
    rw [lookup, bind_of_ok read]
    simp only [empty]
    rfl
  | value k =>
    have empty' : s.findIndexed h (s.node k).types = [] := empty
    rw [lookup, bind_of_ok read]
    simp only [empty']
    rfl

theorem lookup_of_hits_one (one : s.hits h key = [m]) (bound : Nat) :
    lookup h key bound s = .ok (some m, s.retain m) := by
  have read : (get : Infer Store) bound s = .ok (s, s) := rfl
  cases key with
  | identifier name =>
    rw [← Store.toList_findName?, Option.toList_eq_singleton_iff] at one
    rw [lookup, bind_of_ok read]
    simp only [one]
    rfl
  | value k =>
    have one' : s.findIndexed h (s.node k).types = [m] := one
    rw [lookup, bind_of_ok read]
    simp only [one']
    rfl

theorem lookup_of_hits_several {a b : Handle} (several : s.hits h key = a :: b :: rest)
    (bound : Nat) :
    lookup h key bound s =
      (union (s.node a).kind (s.node a).label (a :: b :: rest) >>=
        fun u => pure (some u)) bound s := by
  have read : (get : Infer Store) bound s = .ok (s, s) := rfl
  cases key with
  | identifier name =>
    rw [← Store.toList_findName?] at several
    cases found : s.findName? h name with
    | none | some m =>
      rw [found] at several
      cases several
  | value k =>
    have several' : s.findIndexed h (s.node k).types = a :: b :: rest := several
    rw [lookup, bind_of_ok read]
    simp only [several']

theorem exists_lookup_none_iff :
    (∃ bound t, lookup h key bound s = .ok (none, t)) ↔
      ∀ n ∈ s.lookupChain h, ∀ m, ¬ s.Selects n key m := by
  rw [← Store.hits_eq_nil_iff]
  constructor
  · rintro ⟨bound, t, ran⟩
    cases found : s.hits h key with
    | nil => rfl
    | cons a others =>
      cases others with
      | nil =>
        rw [lookup_of_hits_one found] at ran
        cases ran
      | cons b rest =>
        rw [lookup_of_hits_several found] at ran
        obtain ⟨u, _, -, ran⟩ := bind_ok ran
        cases ran
  · exact fun empty => ⟨0, s, lookup_of_hits_nil empty 0⟩

/-- A lookup returns an entity of the store only if the first node with a match has no other. -/
theorem exists_lookup_some_iff (stored : m ∈ s) :
    (∃ bound t, lookup h key bound s = .ok (some m, t)) ↔
      ∃ n, s.FirstHit (s.lookupChain h) key n ∧ s.Selects n key m ∧ ∀ k, s.Selects n key k →
        k = m := by
  constructor
  · rintro ⟨bound, t, ran⟩
    have hit : s.hits h key = [m] := by
      cases found : s.hits h key with
      | nil =>
        rw [lookup_of_hits_nil found] at ran
        cases ran
      | cons a others =>
        cases others with
        | nil =>
          rw [lookup_of_hits_one found] at ran
          cases ran
          rfl
        | cons b rest =>
          rw [lookup_of_hits_several found] at ran
          obtain ⟨u, v, merged, ran⟩ := bind_ok ran
          cases ran
          rw [(union_ok merged).1] at stored
          exact absurd stored (Nat.lt_irrefl s.size)
    have occupied : ¬ ∀ n ∈ s.lookupChain h, ∀ m, ¬ s.Selects n key m := by
      rw [← Store.hits_eq_nil_iff, hit]
      exact List.cons_ne_nil m []
    obtain ⟨n, first⟩ := Store.exists_firstHit occupied
    have selected : ∀ k, s.Selects n key k ↔ k = m := by
      intro k
      rw [← Store.mem_selected_iff, ← Store.hits_of_firstHit first, hit, List.mem_singleton]
    exact ⟨n, first, (selected m).2 rfl, fun k hk => (selected k).1 hk⟩
  · rintro ⟨n, first, here, only⟩
    have one := (Store.hits_of_firstHit first).trans (Store.selected_eq_singleton here only)
    exact ⟨0, s.retain m, lookup_of_hits_one one 0⟩

/-- A lookup by name always has a result. -/
theorem exists_lookup_identifier_iff {name : String} {found : Option Handle} :
    (∃ bound t, lookup h (.identifier name) bound s = .ok (found, t)) ↔
      s.findName? h name = found := by
  have hits := s.toList_findName? h name
  cases named : s.findName? h name with
  | none =>
    rw [named] at hits
    simp [lookup_of_hits_nil hits.symm]
  | some m =>
    rw [named] at hits
    simp [lookup_of_hits_one hits.symm]

/-- Members of the other kind have no say in a lookup. -/
theorem exists_lookup_storeMember (foreign : key.Foreign slot) (a w : Handle)
    {found : Option Handle} (stored : ∀ m ∈ found, m ∈ s) :
    (∃ bound t, lookup h key bound (s.storeMember a slot w) = .ok (found, t)) ↔
      ∃ bound t, lookup h key bound s = .ok (found, t) := by
  cases found with
  | none =>
    simp only [exists_lookup_none_iff, Store.lookupChain_storeMember,
      Store.selects_storeMember foreign]
  | some m =>
    have here := stored m rfl
    have there : m ∈ s.storeMember a slot w := by
      rw [Store.mem_iff, Store.storeMember, Store.size_modifyNode]
      exact here
    simp only [exists_lookup_some_iff here, exists_lookup_some_iff there, Store.FirstHit,
      Store.lookupChain_storeMember, Store.selects_storeMember foreign]

/-- Several matches are answered by their union. -/
theorem lookup_of_several (sound : s.Sound) (alive : s.live h) {n m' : Handle}
    (first : s.FirstHit (s.lookupChain h) key n) (here : s.Selects n key m)
    (other : s.Selects n key m') (ne : m ≠ m') :
    ∃ lead others, (∀ k, k ∈ lead :: others ↔ s.Selects n key k) ∧
      ((lookup h key).Ends s ↔
        (union (s.node lead).kind (s.node lead).label (lead :: others)).Ends s) ∧
      ∀ bound found t, lookup h key bound s = .ok (found, t) →
        ∃ u, found = some u ∧ u ∉ s ∧ t.live u ∧ s.PreservedIn t ∧
          ∀ tag, tag ∈ (t.node u).types ↔ ∃ k, s.Selects n key k ∧ tag ∈ (s.node k).types := by
  have listed : ∀ k, k ∈ s.hits h key ↔ s.Selects n key k := by
    intro k
    rw [Store.hits_of_firstHit first, Store.mem_selected_iff]
  cases found : s.hits h key with
  | nil =>
    have impossible := (listed m).2 here
    rw [found] at impossible
    cases impossible
  | cons lead others =>
    cases others with
    | nil =>
      simp only [found, List.mem_singleton] at listed
      exact absurd (((listed m).2 here).trans ((listed m').2 other).symm) ne
    | cons next rest =>
      have step := fun bound => lookup_of_hits_several found bound
      rw [found] at listed
      refine ⟨lead, next :: rest, listed, ⟨?_, ?_⟩, fun bound r t ran => ?_⟩
      · rintro ⟨bound, r, ran⟩
        rw [step] at ran
        obtain ⟨u, t, merged, -⟩ := bind_ok ran
        exact ⟨bound, (u, t), merged⟩
      · rintro ⟨bound, ⟨u, t⟩, merged⟩
        refine ⟨bound, (some u, t), ?_⟩
        rw [step, bind_of_ok merged]
        rfl
      · rw [step] at ran
        obtain ⟨u, t, merged, ran⟩ := bind_ok ran
        cases ran
        have living : ∀ k ∈ lead :: next :: rest, s.live k := by
          intro k hk
          rw [← found] at hk
          exact Store.live_of_mem_hits sound alive hk
        have ledger := ledger_union (.start sound True) living merged
        obtain ⟨-, gathers⟩ := gathers_union (fun k hk => Store.mem_of_live (living k hk)) merged
        refine ⟨u, rfl, ?_, ledger.live_of_mem (Multiset.mem_cons_self _ _), ledger.preservedIn,
          fun tag => ?_⟩
        · rw [(union_ok merged).1]
          exact Nat.lt_irrefl s.size
        · rw [gathers.types]
          exact exists_congr fun k => and_congr_left fun _ => listed k

/-- Who answers for an entity is determined by the prototype links. A lookup finds nothing exactly
if its key selects nothing on any of these nodes. Otherwise the first node with a match decides: a
single match is returned itself, and several are answered by a new entity that has exactly their
types, provided that their union ends. A member stored under a key of the other kind changes nothing
of this. -/
theorem lookup_takes_first_hit (sound : s.Sound) (alive : s.live h) :
    ∃ nodes, s.Lineage h nodes ∧ (∀ others, s.Lineage h others → others = nodes) ∧
    (∀ key, ((∃ bound t, lookup h key bound s = .ok (none, t)) ↔
      ∀ n ∈ nodes, ∀ m, ¬ s.Selects n key m) ∧
      ((∀ n ∈ nodes, ∀ m, ¬ s.Selects n key m) → ∀ bound, lookup h key bound s = .ok (none, s))) ∧
    (∀ name n m, s.FirstHit nodes (.identifier name) n → s.member? n (.identifier name) = some m →
      ∀ bound, lookup h (.identifier name) bound s = .ok (some m, s.retain m)) ∧
    (∀ k n m, s.FirstHit nodes (.value k) n → s.Selects n (.value k) m →
      (∀ m', s.Selects n (.value k) m' → m' = m) →
      ∀ bound, lookup h (.value k) bound s = .ok (some m, s.retain m)) ∧
    (∀ k n m m', s.FirstHit nodes (.value k) n → s.Selects n (.value k) m →
      s.Selects n (.value k) m' →
      m ≠ m' → ∃ lead others, (∀ m, m ∈ lead :: others ↔ s.Selects n (.value k) m) ∧
        ((lookup h (.value k)).Ends s ↔
          (union (s.node lead).kind (s.node lead).label (lead :: others)).Ends s) ∧
        ∀ bound found t, lookup h (.value k) bound s = .ok (found, t) →
          ∃ u, found = some u ∧ u ∉ s ∧ t.live u ∧ s.PreservedIn t ∧
            ∀ tag, tag ∈ (t.node u).types ↔ ∃ m, s.Selects n (.value k) m ∧
              tag ∈ (s.node m).types) ∧
    (∀ key slot, Property.Foreign key slot → ∀ a w found, (∀ m ∈ found, m ∈ s) →
      ((∃ bound t, lookup h key bound (s.storeMember a slot w) = .ok (found, t)) ↔
        ∃ bound t, lookup h key bound s = .ok (found, t))) := by
  have single : ∀ {key n m}, s.FirstHit (s.lookupChain h) key n → s.Selects n key m →
      (∀ m', s.Selects n key m' → m' = m) →
      ∀ bound, lookup h key bound s = .ok (some m, s.retain m) := by
    intro key n m first here only bound
    exact lookup_of_hits_one
      ((Store.hits_of_firstHit first).trans (Store.selected_eq_singleton here only)) bound
  refine ⟨s.lookupChain h, Store.lineage_lookupChain s h,
    fun others lineage => lineage.unique (Store.lineage_lookupChain s h),
    fun key => ⟨exists_lookup_none_iff, ?_⟩,
    ?_, fun k n m => single, ?_,
    fun key slot foreign a w found => exists_lookup_storeMember foreign a w⟩
  · intro empty
    exact lookup_of_hits_nil (Store.hits_eq_nil_iff.2 empty)
  · intro name n m first here
    exact single first here fun m' there => Option.some.inj (there.symm.trans here)
  · intro k n m m' first
    exact lookup_of_several sound alive first

/-- Two maps that are prototypes of each other. Both have a member `a`, and only the second has
members under type keys. -/
def heirs : Store where
  nodes := #[
    { Entity.ofType .map Tag.map with
      members := .ofList [(.identifier "a", ⟨2⟩)], isa := some ⟨⟨1⟩, false⟩ },
    { Entity.ofType .map Tag.map with
      members := .ofList [(.identifier "a", ⟨3⟩), (.identifier "b", ⟨3⟩), (.type "number", ⟨2⟩),
        (.type "list", ⟨3⟩), (.type "string", ⟨3⟩)]
      isa := some ⟨⟨0⟩, false⟩ },
    Entity.ofType .literal "number",
    Entity.ofType .literal "string",
    Entity.any,
    { Entity.ofType .literal "list" with types := .ofList ["list", "string"] }]
  holders := #[1, 1, 2, 4, 1, 1]

theorem lookup_takes_first_hit_heirs :
    heirs.Sound ∧ heirs.live ⟨0⟩ ∧ heirs.Lineage ⟨0⟩ [⟨0⟩, ⟨1⟩] ∧
    (∀ bound, lookup ⟨0⟩ (.identifier "a") bound heirs = .ok (some ⟨2⟩, heirs.retain ⟨2⟩)) ∧
    (∀ bound, lookup ⟨0⟩ (.identifier "b") bound heirs = .ok (some ⟨3⟩, heirs.retain ⟨3⟩)) ∧
    (∀ bound, lookup ⟨0⟩ (.identifier "number") bound heirs = .ok (none, heirs)) ∧
    (∀ bound, lookup ⟨0⟩ (.value ⟨5⟩) bound heirs = .ok (some ⟨3⟩, heirs.retain ⟨3⟩)) ∧
    ∃ u t, lookup ⟨0⟩ (.value ⟨4⟩) 9 heirs = .ok (some u, t) ∧ u ∉ heirs ∧ heirs.PreservedIn t ∧
      "number" ∈ (t.node u).types ∧ "list" ∉ (t.node u).types := by
  have sound : heirs.Sound := by decide
  have alive : heirs.live ⟨0⟩ := by decide
  have chain : heirs.lookupChain ⟨0⟩ = [⟨0⟩, ⟨1⟩] := by decide +kernel
  have lineage := Store.lineage_lookupChain heirs ⟨0⟩
  rw [chain] at lineage
  obtain ⟨nodes, -, unique, empty, named, single, several, -⟩ := lookup_takes_first_hit sound alive
  obtain rfl := unique _ lineage
  -- what is selected on the two maps can be computed
  have inherited : ∀ key, heirs.selected ⟨0⟩ key = [] → heirs.selected ⟨1⟩ key ≠ [] →
      heirs.FirstHit [⟨0⟩, ⟨1⟩] key ⟨1⟩ := by
    intro key none found
    refine ⟨[⟨0⟩], [], rfl, List.forall_mem_singleton.2 (Store.selected_eq_nil_iff.1 none), ?_⟩
    obtain ⟨m, hm⟩ := List.exists_mem_of_ne_nil _ found
    exact ⟨m, Store.mem_selected_iff.1 hm⟩
  have selects : ∀ {m}, heirs.Selects ⟨1⟩ (.value ⟨4⟩) m ↔ m ∈ [⟨3⟩, ⟨2⟩] := by
    intro m
    rw [← Store.mem_selected_iff, show heirs.selected ⟨1⟩ (.value ⟨4⟩) = [⟨3⟩, ⟨2⟩] by decide]
  have same : ∀ {m}, heirs.Selects ⟨1⟩ (.value ⟨5⟩) m ↔ m = ⟨3⟩ := by
    intro m
    rw [← Store.mem_selected_iff, show heirs.selected ⟨1⟩ (.value ⟨5⟩) =
      [⟨3⟩] by decide, List.mem_singleton]
  refine ⟨sound, alive, lineage, ?_, ?_, ?_, ?_, ?_⟩
  · exact named "a" ⟨0⟩ ⟨2⟩ ⟨[], [⟨1⟩], rfl, by simp, ⟨2⟩, by decide⟩ (by decide)
  · exact named "b" ⟨1⟩ ⟨3⟩ (inherited _ (by decide) (by decide)) (by decide)
  · refine (empty (.identifier "number")).2 fun n hn => Store.selected_eq_nil_iff.1 ?_
    revert n
    decide
  · exact single ⟨5⟩ ⟨1⟩ ⟨3⟩ (inherited _ (by decide) (by decide)) (same.2 rfl) fun m => same.1
  · obtain ⟨lead, others, -, -, answer⟩ :=
      several ⟨4⟩ ⟨1⟩ ⟨3⟩ ⟨2⟩ (inherited _ (by decide) (by decide))
      (selects.2 (by simp)) (selects.2 (by simp)) (by decide)
    obtain ⟨found, t, ran⟩ : ∃ found t, lookup ⟨0⟩ (.value ⟨4⟩) 9 heirs = .ok (found, t) :=
      ⟨_, _, rfl⟩
    obtain ⟨u, rfl, new, -, kept, types⟩ := answer 9 found t ran
    refine ⟨u, t, ran, new, kept, (types "number").2 ⟨⟨2⟩, selects.2 (by simp), by decide⟩, ?_⟩
    rw [types]
    simp only [selects]
    decide

end Infer

end ScriptInference
