import Mathlib.Data.List.Forall2
import ScriptInference.Proofs.Resolution.Inheritance

/-!
# How a property of several types is settled

A query asks the registered types among a set of types, in the order of their names, and collects
copies of what reading the property on each of them gives. A single candidate decides; after it the
type `any`, then the general type, then the only match. Otherwise the answer is the union of the
copies. Whatever the answer is, it is a new entity, and everything that was stored stays as it was.
-/

namespace ScriptInference

variable {bound : Nat} {α β : Type} {first : String × Handle}

theorem findSome?_congr {f g : α → Option β} {l : List α} (agree : ∀ a ∈ l, f a = g a) :
    l.findSome? f = l.findSome? g := by
  induction l with
  | nil => rfl
  | cons a rest ih =>
    rw [List.findSome?_cons, List.findSome?_cons, agree a List.mem_cons_self,
      ih fun b hb => agree b (List.mem_cons_of_mem a hb)]

theorem exists_of_mem_right {R : α → β → Prop} {l : List α} {l' : List β}
    (all : List.Forall₂ R l l') {b : β} (hb : b ∈ l') : ∃ a ∈ l, R a b := by
  induction all with
  | nil => cases hb
  | cons head _ ih =>
    rcases List.mem_cons.1 hb with rfl | hb
    · exact ⟨_, List.mem_cons_self, head⟩
    · obtain ⟨a, ha, related⟩ := ih hb
      exact ⟨a, List.mem_cons_of_mem _ ha, related⟩

namespace Store
variable {s t : Store} {h m : Handle}

/-- What a call returns. -/
def returned (s : Store) (m : Handle) : Entity :=
  match (s.node m).result with
  | some r => (s.node r).override { kind := some .expression }
  | none =>
    { kind := .expression, label := (s.node m).label
      types := if (s.node m).returnTypes.isEmpty then .ofList [Tag.any]
      else (s.node m).returnTypes }

theorem kind_returned (s : Store) (m : Handle) : (s.returned m).kind = .expression := by
  unfold returned
  split <;> rfl

/-- What reading a member gives. -/
def reading (s : Store) (m : Handle) (suppress : Bool) : Entity :=
  if !suppress && (s.node m).isCallable then s.returned m else s.node m

namespace PreservedIn

theorem lookupChain (kept : s.PreservedIn t) (closed : s.Closed) (alive : s.live h) :
    t.lookupChain h = s.lookupChain h := by
  refine lookupChain_congr fun n hn => ?_
  have stored := mem_of_live (live_of_mem_isaFrom alive hn)
  rw [kept.isa? closed stored, kept.node n stored]
  exact ⟨rfl, rfl, rfl⟩

theorem findName? (kept : s.PreservedIn t) (closed : s.Closed) (alive : s.live h) (name : String) :
    t.findName? h name = s.findName? h name := by
  rw [Store.findName?, Store.findName?, kept.lookupChain closed alive]
  refine findSome?_congr fun n hn => ?_
  rw [member?, member?, kept.node n (mem_of_live (live_of_mem_lookupChain alive hn))]

theorem reading (kept : s.PreservedIn t) (closed : s.Closed) (hm : m ∈ s) (suppress : Bool) :
    t.reading m suppress = s.reading m suppress := by
  have returned : t.returned m = s.returned m := by
    unfold Store.returned
    rw [kept.node m hm]
    split
    · rename_i r result
      rw [kept.node r (closed.links m (Entity.mem_links_iff.2 (.inr (.inl result))))]
    · rfl
  rw [Store.reading, Store.reading, kept.node m hm, returned]

end PreservedIn

end Store

namespace Infer
variable {s : Store} {h m : Handle} {property : String} {suppress : Bool}

/-! ## The definition on one type -/

theorem invoke_eq (m : Handle) (bound : Nat) (s : Store) :
    invoke m bound s = .ok (s.alloc (s.returned m)) := by
  have read : node m bound s = .ok (s.node m, s) := rfl
  rw [invoke, bind_of_ok read, Store.returned]
  cases (s.node m).result with
  | some r | none => rfl

theorem readMember_eq (m : Handle) (suppress : Bool) (bound : Nat) (s : Store) :
    readMember m suppress bound s =
      if !suppress && (s.node m).isCallable then
        .ok ((s.alloc (s.returned m)).1, (s.alloc (s.returned m)).2.release m)
      else .ok (m, s) := by
  have read : node m bound s = .ok (s.node m, s) := rfl
  rw [readMember, bind_of_ok read]
  split
  · rw [bind_of_ok (invoke_eq m bound s)]
    rfl
  · rfl

theorem readMember_reads (m : Handle) (suppress : Bool) (s : Store) :
    ∃ d t, (∀ bound, readMember m suppress bound s = .ok (d, t)) ∧ s.size ≤ t.size ∧
      t.node d = s.reading m suppress := by
  by_cases called : (!suppress && (s.node m).isCallable) = true
  · have nodes := Store.nodes_release m (s.alloc (s.returned m)).2
    refine ⟨_, _, fun bound => (readMember_eq m suppress bound s).trans (if_pos called), ?_, ?_⟩
    · rw [Store.size_eq nodes, Store.size_alloc]
      exact Nat.le_succ s.size
    · rw [Store.node_eq nodes, Store.node_alloc, Store.reading, if_pos called]
  · refine ⟨m, s,
      fun bound => (readMember_eq m suppress bound s).trans (if_neg called), Nat.le_refl _, ?_⟩
    rw [Store.reading, if_neg called]

theorem detach_copies (d : Handle) (t : Store) :
    ∃ d' t', (∀ bound, detach d bound t = .ok (d', t')) ∧ d' ∉ t ∧ t'.node d' = t.node d := by
  refine ⟨(t.copy d {}).1, (t.copy d {}).2.release d, fun _ => rfl, Nat.lt_irrefl t.size, ?_⟩
  rw [Store.node_eq (Store.nodes_release d _)]
  exact Store.node_alloc _ t

theorem resolveMember_of_none (missing : s.findName? h property = none) (suppress : Bool)
    (bound : Nat) : resolveMember h (.identifier property) suppress bound s = .ok (none, s) := by
  have empty : s.hits h (.identifier property) = [] := by
    rw [← Store.toList_findName?, missing]; rfl
  rw [resolveMember, bind_of_ok (lookup_of_hits_nil empty bound)]
  rfl

theorem resolveMember_of_read (found : s.findName? h property = some m) {d : Handle} {t : Store}
    (read : readMember m suppress bound (s.retain m) = .ok (d, t)) :
    resolveMember h (.identifier property) suppress bound s = .ok (some d, t) := by
  have one : s.hits h (.identifier property) = [m] := by rw [← Store.toList_findName?, found]; rfl
  rw [resolveMember, bind_of_ok (lookup_of_hits_one one bound)]
  simp only []
  rw [bind_of_ok read]
  rfl

/-- The computation always returns a new entity, with the given contents. -/
def Makes (x : Infer (Option Handle)) (s : Store) (e : Entity) : Prop :=
  ∃ d t, (∀ bound, x bound s = .ok (some d, t)) ∧ d ∉ s ∧ t.node d = e

theorem definedOn_of_none (missing : s.findName? h property = none) (suppress : Bool)
    (bound : Nat) : definedOn h property suppress bound s = .ok (none, s) := by
  rw [definedOn, bind_of_ok (resolveMember_of_none missing suppress bound)]
  rfl

theorem makes_definedOn (found : s.findName? h property = some m) (suppress : Bool) :
    Makes (definedOn h property suppress) s (s.reading m suppress) := by
  obtain ⟨d, t, read, larger, contents⟩ := readMember_reads m suppress (s.retain m)
  obtain ⟨d', t', copied, fresh, same⟩ := detach_copies d t
  refine ⟨d', t', fun bound => ?_,
    fun old => fresh (Nat.lt_of_lt_of_le old larger), same.trans contents⟩
  rw [definedOn, bind_of_ok (resolveMember_of_read found (read bound))]
  simp only []
  rw [bind_of_ok (copied bound)]
  rfl

end Infer

/-! ## The matches -/

namespace TypeRegistry
variable {r : TypeRegistry} {s : Store} {types : SortedSet String} {property name : String}
  {h m : Handle}

/-- The members that are found under the property, each with the name of its type. -/
def matchesAmong (candidates : List (String × Handle)) (s : Store) (property : String) :
    List (String × Handle) :=
  candidates.filterMap fun c => (s.findName? c.2 property).map fun m => (c.1, m)

/-- The matches of a query. -/
abbrev found (r : TypeRegistry) (s : Store) (types : SortedSet String) (property : String) :
    List (String × Handle) :=
  matchesAmong (r.candidates types) s property

/-- The member of the general type. -/
def general? (r : TypeRegistry) (s : Store) (property : String) : Option Handle :=
  (r.type? Tag.general).bind fun h => s.findName? h property

theorem mem_candidates_iff :
    (name, h) ∈ r.candidates types ↔ r.type? name = some h ∧ (Tag.any ∈ types ∨ name ∈ types) := by
  unfold candidates
  split
  · rename_i any
    rw [← SortedMap.get?_eq_some_iff]
    exact (and_iff_left (.inl any)).symm
  · rename_i plain
    simp only [plain, false_or, List.mem_filterMap, Option.map_eq_some_iff, Prod.mk.injEq]
    constructor
    · rintro ⟨_, listed, _, registered, rfl, rfl⟩
      exact ⟨registered, listed⟩
    · rintro ⟨registered, listed⟩
      exact ⟨name, listed, h, registered, rfl, rfl⟩

theorem sorted_candidates (r : TypeRegistry) (types : SortedSet String) :
    (r.candidates types).Pairwise fun a b => a.1 < b.1 := by
  unfold candidates
  split
  · exact r.types.sorted
  · refine types.sorted.filterMap _ fun a a' lt b hb b' hb' => ?_
    obtain ⟨_, -, rfl⟩ := Option.map_eq_some_iff.1 hb
    obtain ⟨_, -, rfl⟩ := Option.map_eq_some_iff.1 hb'
    exact lt

theorem mem_matchesAmong_iff {candidates : List (String × Handle)} :
    (name, m) ∈ matchesAmong candidates s property ↔ ∃ h, (name, h) ∈ candidates ∧
      s.findName? h property = some m := by
  simp only [matchesAmong, List.mem_filterMap, Option.map_eq_some_iff, Prod.mk.injEq]
  constructor
  · rintro ⟨⟨_, h⟩, listed, _, found, rfl, rfl⟩
    exact ⟨h, listed, found⟩
  · rintro ⟨h, listed, found⟩
    exact ⟨(name, h), listed, m, found, rfl, rfl⟩

/-- A type has one member of a name. -/
theorem eq_of_mem_matchesAmong {k : Handle} (one : (name, k) ∈ r.found s types property)
    (two : (name, m) ∈ r.found s types property) : k = m := by
  obtain ⟨h, listed, found⟩ := mem_matchesAmong_iff.1 one
  obtain ⟨h', listed', found'⟩ := mem_matchesAmong_iff.1 two
  obtain rfl :=
    Option.some.inj ((mem_candidates_iff.1 listed).1.symm.trans (mem_candidates_iff.1 listed').1)
  exact Option.some.inj (found.symm.trans found')

theorem sorted_matchesAmong {candidates : List (String × Handle)}
    (sorted : candidates.Pairwise fun a b => a.1 < b.1) (s : Store) (property : String) :
    (matchesAmong candidates s property).Pairwise fun a b => a.1 < b.1 := by
  refine sorted.filterMap _ fun a a' lt b hb b' hb' => ?_
  obtain ⟨_, -, rfl⟩ := Option.map_eq_some_iff.1 hb
  obtain ⟨_, -, rfl⟩ := Option.map_eq_some_iff.1 hb'
  exact lt

end TypeRegistry

namespace Infer
variable {s t : Store} {property : String} {suppress : Bool}

/-- The entry is a copy, made since `t`, of what reading a match gives. -/
structure CopiesMatch (s t u : Store) (suppress : Bool) (found copy : String × Handle) : Prop where
  name : copy.1 = found.1
  new : copy.2 ∉ t
  stored : copy.2 ∈ u
  contents : u.node copy.2 = s.reading found.2 suppress

theorem matching_of_no_match {candidates : List (String × Handle)}
    (missing : ∀ c ∈ candidates, s.findName? c.2 property = none) (suppress : Bool) (bound : Nat) :
    matching (fun _ h => definedOn h property suppress) candidates bound s = .ok ([], s) := by
  induction candidates with
  | nil => rfl
  | cons c rest ih =>
    rw [matching, bind_of_ok (definedOn_of_none (missing c List.mem_cons_self) suppress bound),
      bind_of_ok (ih fun c' hc' => missing c' (List.mem_cons_of_mem c hc'))]
    rfl

theorem matching_definedOn (closed : s.Closed) {candidates : List (String × Handle)}
    (alive : ∀ c ∈ candidates, s.live c.2) (kept : s.PreservedIn t) (sound : t.Sound)
    (property : String) (suppress : Bool) :
    ∃ copies u, (∀ bound, matching (fun _ h => definedOn h property suppress) candidates bound t =
      .ok (copies, u)) ∧ t.PreservedIn u ∧ u.Sound ∧
      List.Forall₂ (CopiesMatch s t u suppress) (TypeRegistry.matchesAmong candidates s property)
        copies := by
  induction candidates generalizing t with
  | nil => exact ⟨[], t, fun _ => rfl, .refl t, sound, .nil⟩
  | cons c rest ih =>
    have living : s.live c.2 := alive c List.mem_cons_self
    have others := fun c' hc' => alive c' (List.mem_cons_of_mem c hc')
    have same : t.findName? c.2 property = s.findName? c.2 property :=
      kept.findName? closed living property
    cases found : s.findName? c.2 property with
    | none =>
      obtain ⟨copies, u, ran, kept', sound', copied⟩ := ih others kept sound
      refine ⟨copies, u, fun bound => ?_, kept', sound', ?_⟩
      · rw [matching, bind_of_ok (definedOn_of_none (same.trans found) suppress bound),
          bind_of_ok (ran bound)]
        rfl
      · rw [TypeRegistry.matchesAmong, List.filterMap_cons, found]
        exact copied
    | some m =>
      obtain ⟨d, t', made, fresh, contents⟩ := makes_definedOn (same.trans found) suppress
      have living' : t.live c.2 := (kept.live c.2 (Store.mem_of_live living)).trans living
      have ledger : t.Ledger True (holding [d] 0) t' :=
        ((balanced_definedOn (D := .ledger t True) (.start sound True) living' property
          suppress).runs 0 (some d) t' (made 0)).1
      have step := ledger.preservedIn
      obtain ⟨copies, u, ran, kept', sound', copied⟩ := ih others (kept.trans step) ledger.sound
      refine ⟨(c.1, d) :: copies, u, fun bound => ?_, step.trans kept', sound', ?_⟩
      · rw [matching, bind_of_ok (made bound), bind_of_ok (ran bound)]
        rfl
      · rw [TypeRegistry.matchesAmong, List.filterMap_cons, found]
        have stored : d ∈ t' :=
          Store.mem_of_live (ledger.live_of_mem (mem_holding.2 (.inl List.mem_cons_self)))
        have read := kept.reading closed (closed.findName? found) suppress
        refine .cons ⟨rfl, fresh, kept'.mem stored, ?_⟩ (copied.imp fun found copy pair => ?_)
        · rw [kept'.node d stored, contents, read]
        · exact ⟨pair.name, fun old => pair.new (step.mem old), pair.stored, pair.contents⟩

/-! ## The order of precedence -/

/-- The member that decides a query, by the order of precedence. -/
inductive Settles (candidates found : List (String × Handle)) (general : Option Handle) :
    Handle → Prop
  | candidate {name : String} {m : Handle} : candidates.length = 1 → (name, m) ∈ found →
      Settles candidates found general m
  | any {m : Handle} : candidates.length ≠ 1 →
      (Tag.any, m) ∈ found → Settles candidates found general m
  | general {m : Handle} : candidates.length ≠ 1 → found ≠ [] → Tag.any ∉ found.map Prod.fst →
      general = some m → Settles candidates found general m
  | only {name : String} {m : Handle} : candidates.length ≠ 1 → found = [(name, m)] →
      name ≠ Tag.any → general = none → Settles candidates found general m

/-- No single member decides a query: there are several matches, and none takes precedence. -/
structure Divided (candidates found : List (String × Handle)) (general : Option Handle) : Prop where
  candidates : candidates.length ≠ 1
  several : 2 ≤ found.length
  any : Tag.any ∉ found.map Prod.fst
  general : general = none

theorem settles_cases (candidates found : List (String × Handle)) (general : Option Handle) :
    found = [] ∨ (∃ m, Settles candidates found general m) ∨ Divided candidates found general := by
  cases found with
  | nil => exact .inl rfl
  | cons first rest =>
    right
    by_cases one : candidates.length = 1
    · exact .inl ⟨first.2, .candidate one List.mem_cons_self⟩
    by_cases any : Tag.any ∈ (first :: rest).map Prod.fst
    · obtain ⟨⟨_, k⟩, listed, rfl⟩ := List.mem_map.1 any
      exact .inl ⟨k, .any one listed⟩
    cases general with
    | some m => exact .inl ⟨m, .general one (List.cons_ne_nil _ _) any rfl⟩
    | none =>
      cases rest with
      | nil =>
        refine .inl ⟨first.2, .only one rfl (fun same => any ?_) rfl⟩
        rw [← same]
        exact List.mem_cons_self
      | cons second others => exact .inr ⟨one, by simp, any, rfl⟩

theorem Settles.ne_nil {candidates found : List (String × Handle)} {general : Option Handle}
    {m : Handle} (decided : Settles candidates found general m) : found ≠ [] := by
  cases decided with
  | candidate _ listed | any _ listed => exact List.ne_nil_of_mem listed
  | general _ occupied => exact occupied
  | only _ single =>
    rw [single]
    exact List.cons_ne_nil _ []

theorem definition_eq (r : TypeRegistry) (types : SortedSet String) (property : String)
    (suppress : Bool) :
    definition r types property suppress =
      matching (fun _ h => definedOn h property suppress) (r.candidates types) >>= fun found =>
        settle (r.candidates types).length found property
          (generalDefinition r property suppress) := rfl

section Settle
variable {count : Nat} {copies : List (String × Handle)} {label : String}
  {general : Infer (Option Handle)} {copy : String × Handle} {u : Store}

theorem settle_of_one (one : count = 1) (copy : String × Handle) (rest : List (String × Handle))
    (label : String) (general : Infer (Option Handle)) (bound : Nat) (t : Store) :
    settle count (copy :: rest) label general bound t =
      .ok (some copy.2, t.releaseAll ((matched (copy :: rest)).erase copy.2)) := by
  rw [settle]
  simp only [one, if_true]
  rfl

theorem settle_of_any (many : count ≠ 1) (found : copies.find? (fun c => c.1 = Tag.any) = some copy)
    (label : String) (general : Infer (Option Handle)) (bound : Nat) (t : Store) :
    settle count copies label general bound t =
      .ok (some copy.2, t.releaseAll ((matched copies).erase copy.2)) := by
  cases copies with
  | nil => cases found
  | cons first rest =>
    rw [settle]
    simp only [many, if_false, found]
    rfl

theorem settle_of_general (many : count ≠ 1) (occupied : copies ≠ [])
    (plain : copies.find? (fun c => c.1 = Tag.any) = none) {g : Handle}
    (ran : general bound t = .ok (some g, u)) (label : String) :
    settle count copies label general bound t = .ok (some g, u.releaseAll (matched copies)) := by
  cases copies with
  | nil => exact absurd rfl occupied
  | cons first rest =>
    rw [settle]
    simp only [many, if_false, plain]
    rw [bind_of_ok ran]
    rfl

theorem settle_of_only (many : count ≠ 1) (plain : copy.1 ≠ Tag.any)
    (ran : general bound t = .ok (none, t)) (label : String) :
    settle count [copy] label general bound t = .ok (some copy.2, t) := by
  have none : [copy].find? (fun c => c.1 = Tag.any) = none := by simp [plain]
  rw [settle]
  simp only [many, if_false, none]
  rw [bind_of_ok ran]
  rfl

theorem settle_of_several (many : count ≠ 1) {second : String × Handle}
    {rest : List (String × Handle)}
    (plain : (first :: second :: rest).find? (fun c => c.1 = Tag.any) = none)
    (ran : general bound t = .ok (none, t)) (label : String) :
    settle count (first :: second :: rest) label general bound t =
      (union (t.node first.2).kind label (matched (first :: second :: rest)) >>= fun merged => do
        releaseAll (matched (first :: second :: rest))
        return some merged) bound t := by
  rw [settle]
  simp only [many, if_false, plain]
  rw [bind_of_ok ran]
  simp only [List.isEmpty_cons]
  rfl

end Settle

section General
variable {r : TypeRegistry} {m : Handle}

theorem generalDefinition_of_none (missing : r.general? s property = none) (suppress : Bool)
    (bound : Nat) : generalDefinition r property suppress bound s = .ok (none, s) := by
  unfold TypeRegistry.general? at missing
  unfold generalDefinition
  cases registered : r.type? Tag.general with
  | none => rfl
  | some h =>
    rw [registered, Option.bind_some] at missing
    exact definedOn_of_none missing suppress bound

theorem makes_generalDefinition (found : r.general? s property = some m) (suppress : Bool) :
    Makes (generalDefinition r property suppress) s (s.reading m suppress) := by
  unfold TypeRegistry.general? at found
  unfold generalDefinition
  cases registered : r.type? Tag.general with
  | none =>
    rw [registered] at found
    cases found
  | some h =>
    rw [registered, Option.bind_some] at found
    exact makes_definedOn found suppress

end General

section Definition
variable {r : TypeRegistry} {types : SortedSet String} {m : Handle}

/-- The copies among which a query settles, and the store with these copies. -/
structure Gathered (r : TypeRegistry) (types : SortedSet String) (property : String)
    (suppress : Bool) (s : Store) (copies : List (String × Handle)) (u : Store) : Prop where
  ran : ∀ bound, definition r types property suppress bound s =
    settle (r.candidates types).length copies property
    (generalDefinition r property suppress) bound u
  kept : s.PreservedIn u
  sound : u.Sound
  copied : List.Forall₂ (CopiesMatch s s u suppress) (r.found s types property) copies

theorem exists_gathered (sound : s.Sound) (alive : ∀ h ∈ r.holds, s.live h)
    (types : SortedSet String) (property : String) (suppress : Bool) :
    ∃ copies u, Gathered r types property suppress s copies u := by
  have living : ∀ c ∈ r.candidates types, s.live c.2 := fun c hc =>
    alive c.2 (TypeRegistry.mem_holds_of_mem_candidates hc)
  obtain ⟨copies, u, ran, kept, sound', copied⟩ :=
    matching_definedOn sound.closed living (.refl s) sound property suppress
  refine ⟨copies, u, fun bound => ?_, kept, sound', copied⟩
  rw [definition_eq, bind_of_ok (ran bound)]

namespace Gathered
variable {copies : List (String × Handle)} {u : Store}

theorem find?_any_eq_none (gathered : Gathered r types property suppress s copies u)
    (plain : Tag.any ∉ (r.found s types property).map Prod.fst) :
    copies.find? (fun c => c.1 = Tag.any) = none := by
  refine List.find?_eq_none.2 fun copy hc named => plain ?_
  obtain ⟨found, listed, copied⟩ := exists_of_mem_right gathered.copied hc
  rw [← of_decide_eq_true named, copied.name]
  exact List.mem_map_of_mem listed

theorem general?_eq (gathered : Gathered r types property suppress s copies u) (sound : s.Sound)
    (alive : ∀ h ∈ r.holds, s.live h) : r.general? u property = r.general? s property := by
  unfold TypeRegistry.general?
  cases registered : r.type? Tag.general with
  | none => rfl
  | some h =>
    exact gathered.kept.findName? sound.closed
      (alive h (TypeRegistry.mem_holds_of_type? registered)) property

/-- The copy of a match answers the query, if settling comes down to it. -/
theorem makes (gathered : Gathered r types property suppress s copies u) {copy : String × Handle}
    (listed : copy ∈ copies) (hs : List Handle)
    (settled : ∀ bound, settle (r.candidates types).length copies property
      (generalDefinition r property suppress) bound u = .ok (some copy.2, u.releaseAll hs))
    (same : ∀ k, (copy.1, k) ∈ r.found s types property → k = m) :
    Makes (definition r types property suppress) s (s.reading m suppress) := by
  obtain ⟨found, hf, copied⟩ := exists_of_mem_right gathered.copied listed
  refine ⟨copy.2, u.releaseAll hs,
    fun bound => (gathered.ran bound).trans (settled bound), copied.new, ?_⟩
  rw [Store.node_eq (Store.nodes_releaseAll hs u), copied.contents, same found.2 (copied.name ▸ hf)]

end Gathered

theorem makes_definition (sound : s.Sound) (alive : ∀ h ∈ r.holds, s.live h)
    (decided : Settles (r.candidates types) (r.found s types property) (r.general? s property) m)
    (suppress : Bool) : Makes (definition r types property suppress) s (s.reading m suppress) := by
  obtain ⟨copies, u, gathered⟩ := exists_gathered sound alive types property suppress
  have copied := gathered.copied
  cases decided with
  | candidate one listed =>
    obtain ⟨c, single⟩ := List.length_eq_one_iff.1 one
    have all : ∀ p ∈ r.candidates types, p = c := by
      rw [single]
      exact fun p hp => List.mem_singleton.1 hp
    obtain ⟨h, candidate, found⟩ := TypeRegistry.mem_matchesAmong_iff.1 listed
    cases copies with
    | nil =>
      rw [List.forall₂_nil_right_iff.1 copied] at listed
      cases listed
    | cons copy rest =>
      refine gathered.makes List.mem_cons_self _
        (fun bound => settle_of_one one copy rest _ _ bound u) fun k hk => ?_
      obtain ⟨h', candidate', found'⟩ := TypeRegistry.mem_matchesAmong_iff.1 hk
      obtain ⟨-, rfl⟩ := Prod.mk.inj ((all _ candidate').trans (all _ candidate).symm)
      exact Option.some.inj (found'.symm.trans found)
  | any many listed =>
    have named : (copies.find? fun c => c.1 = Tag.any).isSome = true := by
      rw [List.find?_isSome]
      obtain ⟨copy, hc, copied⟩ := exists_of_mem_right copied.flip listed
      exact ⟨copy, hc, decide_eq_true copied.name⟩
    obtain ⟨copy, found⟩ := Option.isSome_iff_exists.1 named
    refine gathered.makes (List.mem_of_find?_eq_some found) _
      (fun bound => settle_of_any many found _ _ bound u) fun k hk => ?_
    have any : copy.1 = Tag.any := by simpa using List.find?_some found
    rw [any] at hk
    exact TypeRegistry.eq_of_mem_matchesAmong hk listed
  | general many occupied plain found =>
    obtain ⟨g, v, ran, fresh, contents⟩ :=
      makes_generalDefinition ((gathered.general?_eq sound alive).trans found) suppress
    have occupied' : copies ≠ [] := by
      rintro rfl
      exact occupied (List.forall₂_nil_right_iff.1 copied)
    have stored : m ∈ s := by
      obtain ⟨h, -, named⟩ := Option.bind_eq_some_iff.1 found
      exact sound.closed.findName? named
    refine ⟨g, v.releaseAll (matched copies), fun bound => ?_,
      fun old => fresh (gathered.kept.mem old), ?_⟩
    · rw [gathered.ran,
        settle_of_general many occupied' (gathered.find?_any_eq_none plain) (ran bound)]
    · rw [Store.node_eq (Store.nodes_releaseAll _ v), contents,
        gathered.kept.reading sound.closed stored]
  | only many single plain missing =>
    rw [single] at copied
    obtain ⟨copy, rest, pair, none, rfl⟩ := List.forall₂_cons_left_iff.1 copied
    obtain rfl := List.forall₂_nil_left_iff.1 none
    have quiet := fun bound =>
      generalDefinition_of_none ((gathered.general?_eq sound alive).trans missing) suppress bound
    refine gathered.makes List.mem_cons_self []
      (fun bound => settle_of_only many (pair.name ▸ plain) (quiet bound) property) fun k hk => ?_
    rw [single] at hk
    exact congrArg Prod.snd (List.mem_singleton.1 hk)

/-- A union keeps the kind and the label that it is made with. -/
theorem style_union {kind : EntityKind} {label : String} {members : List Handle}
    (inside : ∀ b ∈ members, b ∈ s) (h : union kind label members bound s = .ok (m, t)) :
    (t.node m).kind = kind ∧ (t.node m).label = label := by
  obtain ⟨rfl, joined⟩ := union_ok h
  have new : (s.alloc { kind, label }).1 ∉ s := Nat.lt_irrefl s.size
  have styled : ((s.alloc { kind, label }).2.node (s.alloc { kind, label }).1).kind = kind ∧
      ((s.alloc { kind, label }).2.node (s.alloc { kind, label }).1).label = label := by
    rw [Store.node_alloc]
    exact ⟨rfl, rfl⟩
  have all := @joinAll_induction _ _ _ _ _ [] _ _
    (fun _ t => s.Tops (s.alloc { kind, label }).1 t ∧
      (t.node (s.alloc { kind, label }).1).kind = kind ∧
      (t.node (s.alloc { kind, label }).1).label = label)
    (· ∈ s) ?_ inside ⟨.alloc s rfl, styled⟩ joined
  · exact all.2
  · rintro done b t u hb ⟨tops, styled⟩ first
    have crowned := crowned_join rfl tops new hb first
    have contents : u.node (s.alloc { kind, label }).1 =
      { (t.absorb { deepCopy := true } (s.alloc { kind, label }).1 b).node
          (s.alloc { kind, label }).1 with
        members := (u.node (s.alloc { kind, label }).1).members } := crowned.contents
    refine ⟨crowned.tops, ?_⟩
    rw [contents, Store.node_absorb _ b tops.stored]
    exact styled

/-- The new entity that several matches without precedence are answered by. -/
theorem definition_of_divided (sound : s.Sound) (alive : ∀ h ∈ r.holds, s.live h)
    (divided : Divided (r.candidates types) (r.found s types property) (r.general? s property))
    (suppress : Bool) (head : (r.found s types property).head? = some first) :
    ∃ copies u, s.PreservedIn u ∧ u.Sound ∧ (∀ copy ∈ copies, copy ∈ u) ∧
      List.Forall₂ (fun found copy => u.node copy = s.reading found.2 suppress)
        (r.found s types property) copies ∧
      ((definition r types property suppress).Ends s ↔
        (union (s.reading first.2 suppress).kind property copies).Ends u) ∧
      ∀ bound d t, definition r types property suppress bound s = .ok (d, t) →
        ∃ merged, d = some merged ∧ merged ∉ s ∧ (t.node merged).label = property ∧
          (t.node merged).kind = (s.reading first.2 suppress).kind ∧
          ∀ tag, tag ∈ (t.node merged).types ↔
            ∃ found ∈ r.found s types property, tag ∈ (s.reading found.2 suppress).types := by
  obtain ⟨copies, u, gathered⟩ := exists_gathered sound alive types property suppress
  have copied := gathered.copied
  have quiet := fun bound =>
    generalDefinition_of_none ((gathered.general?_eq sound alive).trans divided.general)
      suppress bound
  have plain := gathered.find?_any_eq_none divided.any
  have inside : ∀ b ∈ matched copies, b ∈ u := by
    intro b hb
    obtain ⟨copy, hc, rfl⟩ := List.mem_map.1 hb
    obtain ⟨found, -, pair⟩ := exists_of_mem_right copied hc
    exact pair.stored
  have union_eq : ∀ bound, definition r types property suppress bound s =
      (union (s.reading first.2 suppress).kind property (matched copies) >>= fun merged => do
        releaseAll (matched copies)
        return some merged) bound u := by
    intro bound
    rw [gathered.ran]
    obtain ⟨rest, matches_eq⟩ := List.head?_eq_some_iff.1 head
    rw [matches_eq] at copied
    obtain ⟨copy, others, pair, copied', rfl⟩ := List.forall₂_cons_left_iff.1 copied
    cases others with
    | nil =>
      have several := divided.several
      rw [matches_eq, List.forall₂_nil_right_iff.1 copied'] at several
      exact absurd several (Nat.not_succ_le_self 1)
    | cons copy' others =>
      rw [settle_of_several divided.candidates plain (quiet bound), pair.contents]
  refine ⟨matched copies, u, gathered.kept, gathered.sound, inside, ?_, ⟨?_, ?_⟩,
    fun bound d t ran => ?_⟩
  · rw [List.forall₂_map_right_iff]
    exact copied.imp fun found copy pair => pair.contents
  · rintro ⟨bound, result, ran⟩
    rw [union_eq] at ran
    obtain ⟨merged, v, made, -⟩ := bind_ok ran
    exact ⟨bound, (merged, v), made⟩
  · rintro ⟨bound, ⟨merged, v⟩, made⟩
    refine ⟨bound, (some merged, v.releaseAll (matched copies)), ?_⟩
    rw [union_eq, bind_of_ok made]
    rfl
  · rw [union_eq] at ran
    obtain ⟨merged, v, made, ran⟩ := bind_ok ran
    cases ran
    obtain ⟨-, gathers⟩ := gathers_union inside made
    obtain ⟨kind, label⟩ := style_union inside made
    have nodes := Store.nodes_releaseAll (matched copies) v
    refine ⟨merged, rfl, ?_, ?_, ?_, fun tag => ?_⟩
    · rw [(union_ok made).1]
      exact Nat.not_lt.2 gathered.kept.size_le
    · rw [Store.node_eq nodes, label]
    · rw [Store.node_eq nodes, kind]
    · rw [Store.node_eq nodes, gathers.types]
      constructor
      · rintro ⟨b, hb, tagged⟩
        obtain ⟨copy, hc, rfl⟩ := List.mem_map.1 hb
        obtain ⟨found, hf, pair⟩ := exists_of_mem_right copied hc
        exact ⟨found, hf, pair.contents ▸ tagged⟩
      · rintro ⟨found, hf, tagged⟩
        obtain ⟨copy, hc, pair⟩ := exists_of_mem_right copied.flip hf
        exact ⟨copy.2, List.mem_map_of_mem hc, pair.contents.symm ▸ tagged⟩

theorem definition_of_no_match (missing : r.found s types property = []) (suppress : Bool)
    (bound : Nat) : definition r types property suppress bound s = .ok (none, s) := by
  have absent : ∀ c ∈ r.candidates types, s.findName? c.2 property = none := fun c hc =>
    Option.map_eq_none_iff.1 (List.filterMap_eq_nil_iff.1 missing c hc)
  rw [definition_eq, bind_of_ok (matching_of_no_match absent suppress bound)]
  rfl

/-- A query has no answer exactly if there is no match, and its answer is a new entity. -/
theorem definition_answers (sound : s.Sound) (alive : ∀ h ∈ r.holds, s.live h)
    {answer : Option Handle}
    (ran : definition r types property suppress bound s = .ok (answer, t)) :
    (answer = none ↔ r.found s types property = []) ∧ ∀ d ∈ answer, d ∉ s := by
  rcases settles_cases (r.candidates types) (r.found s types property) (r.general? s property) with
    missing | ⟨m, decided⟩ | divided
  · rw [definition_of_no_match missing] at ran
    cases ran
    exact ⟨iff_of_true rfl missing, fun d hd => by cases hd⟩
  · obtain ⟨d, u, ran', new, -⟩ := makes_definition sound alive decided suppress
    rw [ran'] at ran
    cases ran
    refine ⟨iff_of_false (Option.some_ne_none d) decided.ne_nil, ?_⟩
    rintro _ ⟨rfl⟩
    exact new
  · have occupied := List.length_pos_iff.1 (Nat.lt_of_lt_of_le Nat.two_pos divided.several)
    obtain ⟨first, head⟩ := Option.ne_none_iff_exists'.1 (mt List.head?_eq_none_iff.1 occupied)
    obtain ⟨-, -, -, -, -, -, -, made⟩ := definition_of_divided sound alive divided suppress head
    obtain ⟨merged, rfl, new, -⟩ := made bound answer t ran
    refine ⟨iff_of_false (Option.some_ne_none merged) occupied, ?_⟩
    rintro _ ⟨rfl⟩
    exact new

/-- The candidates of a query are the registered types among the given ones, and the matches are the
members that lookups find on them, both in the order of the names. Without a match there is no
definition. If a single member decides by the order of precedence, the definition is a copy of what
reading it gives. If there are several matches and none has precedence, the definition is a new
entity with the types of all their readings, provided that the union of these ends. A definition is
never an entity of the store, and no entity of the registry leads to it. -/
theorem definition_by_precedence (sound : s.Sound) (alive : ∀ h ∈ r.holds, s.live h)
    (types : SortedSet String) (property : String) (suppress : Bool) :
    ((r.candidates types).Pairwise (fun a b => a.1 < b.1) ∧
      ∀ name h, (name, h) ∈ r.candidates types ↔ r.type? name = some h ∧
        (Tag.any ∈ types ∨ name ∈ types)) ∧
    ((r.found s types property).Pairwise (fun a b => a.1 < b.1) ∧
      ∀ name m, (name, m) ∈ r.found s types property ↔ ∃ h, (name, h) ∈ r.candidates types ∧
        ∃ bound t, lookup h (.identifier property) bound s = .ok (some m, t)) ∧
    ((∃ bound t, definition r types property suppress bound s = .ok (none, t)) ↔
      r.found s types property = []) ∧
    (r.found s types property = [] →
      ∀ bound, definition r types property suppress bound s = .ok (none, s)) ∧
    (∀ m, Settles (r.candidates types) (r.found s types property) (r.general? s property) m →
      ∃ d t, (∀ bound, definition r types property suppress bound s = .ok (some d, t)) ∧
        t.node d = s.reading m suppress) ∧
    (Divided (r.candidates types) (r.found s types property) (r.general? s property) →
      ∀ first, (r.found s types property).head? = some first →
        ∃ copies u, s.PreservedIn u ∧ u.Sound ∧ (∀ copy ∈ copies, copy ∈ u) ∧
        List.Forall₂ (fun found copy => u.node copy = s.reading found.2 suppress)
          (r.found s types property) copies ∧
        ((definition r types property suppress).Ends s ↔
          (union (s.reading first.2 suppress).kind property copies).Ends u) ∧
        ∀ bound d t, definition r types property suppress bound s = .ok (d, t) →
          ∃ merged, d = some merged ∧ merged ∉ s ∧ (t.node merged).label = property ∧
            (t.node merged).kind = (s.reading first.2 suppress).kind ∧
            ∀ tag, tag ∈ (t.node merged).types ↔
              ∃ found ∈ r.found s types property, tag ∈ (s.reading found.2 suppress).types) ∧
    ∀ bound d t, definition r types property suppress bound s = .ok (some d, t) →
      d ∉ s ∧ t.live d ∧ s.PreservedIn t ∧ d ∉ t.reach r.holds := by
  have sorted := r.sorted_candidates types
  refine ⟨⟨sorted, fun _ _ => TypeRegistry.mem_candidates_iff⟩,
    ⟨TypeRegistry.sorted_matchesAmong sorted s property, fun name m => ?_⟩, ⟨?_, fun missing => ?_⟩,
    fun missing => definition_of_no_match missing suppress, fun m decided => ?_,
    fun divided first => definition_of_divided sound alive divided suppress,
    fun bound d t ran => ?_⟩
  · simp only [exists_lookup_identifier_iff]
    exact TypeRegistry.mem_matchesAmong_iff
  · rintro ⟨bound, t, ran⟩
    exact (definition_answers sound alive ran).1.1 rfl
  · exact ⟨0, s, definition_of_no_match missing suppress 0⟩
  · obtain ⟨d, t, ran, -, contents⟩ := makes_definition sound alive decided suppress
    exact ⟨d, t, ran, contents⟩
  · have known : r.Known (.ledger s True) 0 :=
      fun h hh => (Discipline.Anchored.of_live (alive h hh)).known
    have ledger : s.Ledger True (holding [d] 0) t :=
      ((balanced_definition known (.start sound True) types property suppress).runs bound _ t ran).1
    have new := (definition_answers sound alive ran).2 d rfl
    have inside : ∀ h ∈ r.holds, h ∈ s := fun h hh => Store.mem_of_live (alive h hh)
    refine ⟨new, ledger.live_of_mem (mem_holding.2 (.inl List.mem_cons_self)), ledger.preservedIn,
      fun reached => new ?_⟩
    rw [ledger.preservedIn.reach sound.closed inside] at reached
    exact Store.mem_of_mem_reach sound.closed inside reached

/-- Two types that both have a host, one of them registered while running, and the general type. -/
def ports : Store where
  nodes := #[
    { Entity.ofType .internal "Computer" with
      members := .ofList [(.identifier "host", ⟨3⟩), (.identifier "name", ⟨3⟩)], shaped := true },
    { Entity.ofType .map Tag.map with members := .ofList [(.identifier "host", ⟨4⟩)] },
    { Entity.ofType .internal Tag.general with
      members := .ofList [(.identifier "name", ⟨5⟩)], shaped := true },
    Entity.ofType .property "number",
    Entity.ofType .property "string",
    Entity.ofType .property "list"]
  holders := #[1, 1, 1, 2, 1, 1]

def portTypes : TypeRegistry where
  catalog := {}
  types := .ofList [("Computer", ⟨0⟩), ("Shell", ⟨1⟩), (Tag.general, ⟨2⟩)]
  customs := .ofList ["Shell"]

theorem definition_by_precedence_ports :
    ports.Sound ∧ (∀ h ∈ portTypes.holds, ports.live h) ∧
    (∀ bound, definition portTypes (.ofList ["Shell"]) "name" true bound ports =
      .ok (none, ports)) ∧
    (∃ d t, (∀ bound, definition portTypes (.ofList ["Shell"]) "host" true bound ports =
      .ok (some d, t)) ∧ t.node d = Entity.ofType .property "string") ∧
    (∃ d t, (∀ bound, definition portTypes (.ofList ["Computer", "Shell"]) "name" true bound ports =
      .ok (some d, t)) ∧ t.node d = Entity.ofType .property "list") ∧
    ∃ d t, definition portTypes (.ofList ["Computer", "Shell"]) "host" true 9 ports =
      .ok (some d, t) ∧
      (t.node d).label = "host" ∧ (t.node d).kind = .property ∧ "number" ∈ (t.node d).types ∧
      "list" ∉ (t.node d).types ∧ d ∉ ports ∧ d ∉ t.reach portTypes.holds := by
  have sound : ports.Sound := by decide
  have alive : ∀ h ∈ portTypes.holds, ports.live h := by decide
  refine ⟨sound, alive, ?_, ?_, ?_, ?_⟩
  · obtain ⟨-, -, -, none, -⟩ :=
      definition_by_precedence sound alive (.ofList ["Shell"]) "name" true
    exact none (by decide +kernel)
  · obtain ⟨-, -, -, -, settled, -⟩ :=
      definition_by_precedence sound alive (.ofList ["Shell"]) "host" true
    have listed : ("Shell", ⟨4⟩) ∈ portTypes.found ports (.ofList ["Shell"]) "host" := by
      decide +kernel
    exact settled ⟨4⟩ (.candidate (by decide +kernel) listed)
  · obtain ⟨-, -, -, -, settled, -⟩ :=
      definition_by_precedence sound alive (.ofList ["Computer", "Shell"]) "name" true
    exact settled ⟨5⟩
      (.general (by decide +kernel) (by decide +kernel) (by decide +kernel) (by decide +kernel))
  · obtain ⟨-, -, -, -, -, divided, new⟩ :=
      definition_by_precedence sound alive (.ofList ["Computer", "Shell"]) "host" true
    obtain ⟨-, -, -, -, -, -, -, merges⟩ := divided
      ⟨by decide +kernel, by decide +kernel, by decide +kernel, by decide +kernel⟩ ("Computer", ⟨3⟩)
      (by decide +kernel)
    obtain ⟨found, t, ran⟩ : ∃ found t,
        definition portTypes (.ofList ["Computer", "Shell"]) "host" true 9 ports = .ok (found, t) :=
        ⟨_, _, rfl⟩
    obtain ⟨d, rfl, -, label, kind, types⟩ := merges 9 found t ran
    obtain ⟨fresh, -, -, apart⟩ := new 9 d t ran
    refine ⟨d, t, ran, label, kind, ?_, ?_, fresh, apart⟩
    · exact (types "number").2 (by decide +kernel)
    · rw [types]
      decide +kernel

end Definition

end Infer

end ScriptInference
