import ScriptInference.Proofs.Entity.Union

/-!
# Unions that end

A union can be made without end only if it joins member cycles into what it has already. Its first
entity is never followed: the new node has no members, so it takes over a copy of each. The entities
after it are followed along their members, and nothing they lead to changes meanwhile; so if no
cycle can be reached from them, the union ends, whatever the first entity looks like.
-/

namespace ScriptInference

variable {s : Store} {j : Joining} {mode : JoinMode} {rest : List PendingEntry}

/-- No path of members from the node goes on for ever. -/
def Store.Grounded (s : Store) (h : Handle) : Prop :=
  Acc (fun m n => m ∈ (s.node n).members.values) h

/-- The members of a grounded node are grounded. -/
theorem Store.Grounded.member {s : Store} {h m : Handle} (grounded : s.Grounded h)
    (hm : m ∈ (s.node h).members.values) : s.Grounded m :=
  Acc.inv grounded hm

/-- What is reached from a grounded node stays so where nodes keep their members. -/
theorem Store.Grounded.of_kept {t : Store} (closed : s.Closed)
    (kept : ∀ n ∈ s, (t.node n).members = (s.node n).members) {h : Handle} (grounded : s.Grounded h)
    (hh : h ∈ s) : t.Grounded h := by
  induction grounded with
  | intro h _ ih =>
    refine Acc.intro h fun m hm => ?_
    rw [kept h hh] at hm
    exact ih m hm (closed.links h (Entity.mem_links_iff.2 (.inl hm)))

theorem Store.member?_adopt_of_ne (mode : JoinMode) {a : Handle} (ha : a ∈ s) {key other : EntryKey}
    (ne : other ≠ key) (value : Handle) :
    (s.adopt mode a key value).member? a other = s.member? a other := by
  rw [adopt_eq]
  split
  · rw [member?, node_modifyNode_eq, if_pos ⟨rfl, (grows_copyGraph [value] s).mem ha⟩,
      Entity.member?, SortedMap.get?_insert, if_neg ne, node_copyGraph_of_mem ha]
    rfl
  · have stored : a ∈ s.retain value := ha
    rw [member?, node_modifyNode_eq, if_pos ⟨rfl, stored⟩, Entity.member?, SortedMap.get?_insert,
      if_neg ne]
    rfl

namespace Joining

def Ends (mode : JoinMode) (j : Joining) : Prop := ∃ bound t, j.run mode bound = .ok t

theorem ends_of_idle (idle : j.pending = []) : j.Ends mode := by
  obtain ⟨seen, pending, store⟩ := j
  obtain rfl : pending = [] := idle
  exact ⟨0, store, rfl⟩

theorem Ends.of_bring {seen : Std.TreeSet (Handle × Handle) pairOrder} {e : PendingEntry}
    {store : Store} (later : Ends mode (bring mode e ⟨seen, rest, store⟩)) :
    Ends mode ⟨seen, e :: rest, store⟩ := by
  obtain ⟨bound, t, ht⟩ := later
  exact ⟨bound + 1, t, ht⟩

/-- A node that has none of the members takes them over one by one. -/
theorem ends_of_free {m : Handle} {entries : List (EntryKey × Handle)}
    {seen : Std.TreeSet (Handle × Handle) pairOrder} {store : Store} (stored : m ∈ store)
    (distinct : (entries.map Prod.fst).Nodup) (free : ∀ e ∈ entries, store.member? m e.1 = none) :
    Ends mode ⟨seen, entries.map fun e => ⟨m, e.1, e.2⟩, store⟩ := by
  induction entries generalizing store with
  | nil => exact ends_of_idle rfl
  | cons e rest ih =>
    obtain ⟨fresh, distinct⟩ := List.nodup_cons.1 distinct
    refine Ends.of_bring (e := ⟨m, e.1, e.2⟩) ?_
    have absent := free e List.mem_cons_self
    rcases bring_cases mode ⟨m, e.1, e.2⟩ ⟨seen, rest.map fun e => ⟨m, e.1, e.2⟩, store⟩ with
      ⟨mine, hmine, -⟩ | ⟨mine, hmine, -⟩ | ⟨-, step⟩
    · rw [absent] at hmine
      cases hmine
    · rw [absent] at hmine
      cases hmine
    · rw [step]
      refine ih ((Store.grows_adopt mode e.2 absent).mem stored) distinct fun e' he' => ?_
      have ne : e'.1 ≠ e.1 := fun same => fresh (same ▸ List.mem_map_of_mem he')
      rw [Store.member?_adopt_of_ne mode stored ne e.2]
      exact free e' (List.mem_cons_of_mem e he')

/-- The entry can be brought in, and then there is only the rest to do. -/
def Clears (mode : JoinMode) (s : Store) (value : Handle) : Prop :=
  ∀ (seen : Std.TreeSet (Handle × Handle) pairOrder) (e : PendingEntry) (rest : List PendingEntry)
    (store : Store), e.value = value → Apart s ⟨seen, e :: rest, store⟩ →
    Inside ⟨seen, e :: rest, store⟩ →
    (∀ j : Joining, j.pending = rest → j.Apart s → j.Inside → j.Ends mode) →
    Ends mode ⟨seen, e :: rest, store⟩

theorem ends_of_clears {entries : List PendingEntry} (clears : ∀ e ∈ entries, Clears mode s e.value)
    (after : ∀ j : Joining, j.pending = rest → j.Apart s → j.Inside → j.Ends mode)
    (pending : j.pending = entries ++ rest) (apart : j.Apart s) (inside : j.Inside) :
    j.Ends mode := by
  induction entries generalizing j with
  | nil => exact after j pending apart inside
  | cons e entries ih =>
    obtain ⟨seen, _, store⟩ := j
    obtain rfl := pending
    refine clears e List.mem_cons_self seen e (entries ++ rest) store rfl apart inside ?_
    exact fun j => ih fun e' he' => clears e' (List.mem_cons_of_mem e he')

/-- A pair that has just been begun ends if the members of its second node clear. -/
theorem ends_opened (closed : s.Closed) {a b : Handle} (hb : b ∈ s)
    (clears : ∀ m ∈ (s.node b).members.values, m ∈ s → Clears mode s m) (store : s.Extends j.store)
    (after : ∀ k : Joining, k.pending = j.pending → k.Apart s → k.Inside → k.Ends mode)
    (apart : (j.opened mode a b).Apart s) (inside : (j.opened mode a b).Inside) :
    (j.opened mode a b).Ends mode := by
  refine ends_of_clears (fun e he => ?_) after rfl apart inside
  obtain ⟨entry, hentry, rfl⟩ := List.mem_map.1 he
  -- the members are those that the node has in `s`
  have member : entry.2 ∈ (s.node b).members.values := by
    rw [← store.kept b hb]
    exact List.mem_map_of_mem hentry
  exact clears entry.2 member (closed.links b (Entity.mem_links_iff.2 (.inl member)))

/-- What no member cycle can be reached from clears. -/
theorem clears_of_grounded (deep : mode.deepCopy = true) (closed : s.Closed) {value : Handle}
    (grounded : s.Grounded value) (hv : value ∈ s) : Clears mode s value := by
  induction grounded with
  | intro value _ ih =>
    rintro seen e rest store rfl apart inside after
    have apart' := apart.step deep
    have inside' : (bring mode e ⟨seen, rest, store⟩).Inside := inside.step
    refine Ends.of_bring ?_
    rcases bring_cases mode e ⟨seen, rest, store⟩ with
      ⟨mine, -, -, step⟩ | ⟨mine, -, -, -, step⟩ | ⟨-, step⟩
    · rw [step] at apart' inside' ⊢
      exact after _ rfl apart' inside'
    · rw [step] at apart' inside' ⊢
      exact ends_opened closed hv ih apart.store after apart' inside'
    · rw [step] at apart' inside' ⊢
      exact after _ rfl apart' inside'

end Joining

namespace Infer
variable {t : Store} {m b : Handle}

theorem join_ends {a b : Handle} (h : (Joining.enter mode a b { store := s }).Ends mode) :
    (join mode a b).Ends s := by
  obtain ⟨bound, t, ht⟩ := h
  exact ⟨bound, ((), t), join_of_ok ht⟩

/-- Joining anything into a node without members ends. -/
theorem join_ends_of_bare (mode : JoinMode) (stored : m ∈ t) (bare : (t.node m).members = ∅)
    (b : Handle) : (join mode m b).Ends t := by
  refine join_ends ?_
  rcases Joining.enter_cases mode m b { store := t } with ⟨-, step⟩ | ⟨-, -, step⟩
  · rw [step]
    exact Joining.ends_of_idle rfl
  · have stored' : m ∈ t.absorb mode m b := (Store.grows_absorb mode m b t).mem stored
    have free : ∀ e ∈ (t.node b).members.toList, (t.absorb mode m b).member? m e.1 = none := by
      intro e _
      rw [Store.member?, Entity.member?, Store.members_absorb, bare]
      rfl
    rw [step, Joining.opened, List.append_nil]
    exact Joining.ends_of_free stored' (SortedMap.nodup_keys (t.node b).members) free

/-- Joining what no member cycle can be reached from ends, as long as it is kept apart. -/
theorem join_ends_of_grounded (deep : mode.deepCopy = true) (closed : s.Closed)
    (store : s.Extends t) (closed' : t.Closed) (new : m ∉ s) (stored : m ∈ t) (hb : b ∈ s)
    (grounded : s.Grounded b) : (join mode m b).Ends t := by
  refine join_ends ?_
  have apart : Joining.Apart s { store := t } := ⟨store, fun e he => absurd he List.not_mem_nil⟩
  have inside : Joining.Inside { store := t } := ⟨closed', fun e he => absurd he List.not_mem_nil⟩
  have apart' : (Joining.enter mode m b { store := t }).Apart s := apart.enter new b
  have inside' : (Joining.enter mode m b { store := t }).Inside := inside.enter stored
  rcases Joining.enter_cases mode m b { store := t } with ⟨-, step⟩ | ⟨-, -, step⟩
  · rw [step]
    exact Joining.ends_of_idle rfl
  · rw [step] at apart' inside' ⊢
    refine Joining.ends_opened closed hb (fun m hm hm' => ?_) store
      (fun j idle _ _ => Joining.ends_of_idle idle) apart' inside'
    exact Joining.clears_of_grounded deep closed (grounded.member hm) hm'

theorem joinAll_ends_of_grounded (deep : mode.deepCopy = true) (closed : s.Closed)
    (store : s.Extends t) (closed' : t.Closed) (new : m ∉ s) (stored : m ∈ t)
    {members : List Handle} (inside : ∀ b ∈ members, b ∈ s)
    (grounded : ∀ b ∈ members, s.Grounded b) : (joinAll mode m members).Ends t := by
  induction members generalizing t with
  | nil => exact ⟨0, ((), t), rfl⟩
  | cons b rest ih =>
    have hb := inside b List.mem_cons_self
    refine (settlesAt_join mode m b t).bind_ends
      (fun _ _ u _ => settlesAt_joinAll mode m rest u) ?_ ?_
    · exact join_ends_of_grounded deep closed store closed' new stored hb
        (grounded b List.mem_cons_self)
    · intro bound _ u first
      have joined := joined_join deep store closed' new stored (store.mem hb) first
      exact ih joined.store joined.closed (joined.grown.mem stored)
        (fun b' hb' => inside b' (List.mem_cons_of_mem b hb'))
        (fun b' hb' => grounded b' (List.mem_cons_of_mem b hb'))

/-- A union ends if no member cycle can be reached from its entities after the first. -/
theorem union_ends_of_grounded (closed : s.Closed) (kind : EntityKind) (label : String)
    {members : List Handle} (inside : ∀ b ∈ members, b ∈ s)
    (grounded : ∀ b ∈ members.tail, s.Grounded b) : (union kind label members).Ends s := by
  let t := (s.alloc { kind, label }).2
  let m := (s.alloc { kind, label }).1
  have store : s.Extends t := .alloc s rfl
  have closed' : t.Closed := closed.alloc fun k hk => by cases hk
  have new : m ∉ s := Nat.lt_irrefl s.size
  have stored : m ∈ t := Store.mem_alloc { kind, label } s
  have bare : (t.node m).members = ∅ := by rw [Store.node_alloc]
  have joined : (joinAll { deepCopy := true } m members).Ends t := by
    cases members with
    | nil => exact ⟨0, ((), t), rfl⟩
    | cons first rest =>
      refine (settlesAt_join _ m first t).bind_ends
        (fun _ _ u _ => settlesAt_joinAll _ m rest u) ?_ ?_
      · exact join_ends_of_bare _ stored bare first
      · intro bound _ u h
        have hfirst := store.mem (inside first List.mem_cons_self)
        have one := joined_join rfl store closed' new stored hfirst h
        exact joinAll_ends_of_grounded rfl closed one.store one.closed new (one.grown.mem stored)
          (fun b hb => inside b (List.mem_cons_of_mem first hb)) grounded
  obtain ⟨bound, ⟨_, u⟩, hu⟩ := joined
  refine ⟨bound, (m, u), ?_⟩
  have made : alloc { kind, label } bound s = .ok (m, t) := rfl
  rw [union, bind_of_ok made, bind_of_ok hu]
  rfl

end Infer

end ScriptInference
