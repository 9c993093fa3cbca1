import ScriptInference.Entity.Snapshot
import ScriptInference.Proofs.Entity.Ledger

/-!
# What a deep copy shares with its original

A deep copy follows members and results, but what can be reached from a node also includes its
prototype and its context. A link of either kind that leads out of the copied part is kept as it is.
Its target is an escape: from the copies and from the originals alike, everything that an escape
reaches can be reached. Nothing else is common to both. So a copy is independent of its original
exactly if the original has no escapes, and then no write to a node of either side shows on the
other.
-/

namespace ScriptInference

variable {h n : Handle}

section Paths
variable {edges : Handle → List Handle} {roots : List Handle} {k : Handle}

theorem ReachedFrom.trans (hk : ReachedFrom edges roots k) (hh : ReachedFrom edges [k] h) :
    ReachedFrom edges roots h := by
  induction hh with
  | root listed => exact List.mem_singleton.1 listed ▸ hk
  | edge _ step ih => exact .edge ih step

theorem reachedFrom_iff : ReachedFrom edges roots h ↔ ∃ r ∈ roots, ReachedFrom edges [r] h := by
  constructor
  · intro reached
    induction reached with
    | root listed => exact ⟨_, listed, .root List.mem_cons_self⟩
    | edge _ step ih =>
      obtain ⟨r, hr, path⟩ := ih
      exact ⟨r, hr, .edge path step⟩
  · rintro ⟨r, hr, path⟩
    exact ReachedFrom.trans (.root hr) path

/-- A change of edges outside the reached part changes nothing. -/
theorem ReachedFrom.congr {edges' : Handle → List Handle}
    (agree : ∀ n, ReachedFrom edges roots n → edges' n = edges n) :
    ReachedFrom edges' roots h ↔ ReachedFrom edges roots h := by
  constructor
  · intro reached
    induction reached with
    | root listed => exact .root listed
    | edge _ step ih => exact .edge ih (agree _ ih ▸ step)
  · intro reached
    induction reached with
    | root listed => exact .root listed
    | edge path step ih => exact .edge ih ((agree _ path).symm ▸ step)

end Paths

namespace Store

/-- Everything that can be reached from the roots through members, results and live links. -/
def reach (s : Store) (roots : List Handle) : Set Handle := {h | ReachedFrom s.edges roots h}

/-- The targets of live links that lead out of the span of the roots. -/
def escapes (s : Store) (roots : List Handle) : Set Handle :=
  {k | k ∉ s.span roots ∧ ∃ n ∈ s.span roots, s.isa? n = some k ∨ s.context? n = some k}

/-- Everything that can be reached from an escape. -/
def beyond (s : Store) (roots : List Handle) : Set Handle :=
  {h | ∃ k ∈ s.escapes roots, h ∈ s.reach [k]}

section Reach
variable {s : Store} {roots : List Handle} {k : Handle}

theorem mem_edges_iff :
    k ∈ s.edges h ↔ k ∈ (s.node h).parts ∨ s.isa? h = some k ∨ s.context? h = some k := by
  simp only [edges, Entity.parts, List.mem_append, Option.mem_toList]
  tauto

theorem mem_reach_iff : h ∈ s.reach roots ↔ ∃ r ∈ roots, h ∈ s.reach [r] := reachedFrom_iff

theorem reach_trans (hk : k ∈ s.reach roots) (hh : h ∈ s.reach [k]) : h ∈ s.reach roots :=
  ReachedFrom.trans hk hh

theorem isa?_eq_some_iff :
    s.isa? h = some k ↔ (∃ p, (s.node h).isa = some p ∧ p.target = k) ∧ s.live k = true := by
  rw [isa?, Option.filter_eq_some_iff, Option.map_eq_some_iff]

theorem context?_eq_some_iff :
    s.context? h = some k ↔ (s.node h).context = some k ∧ s.live k = true := by
  rw [context?, Option.filter_eq_some_iff]

theorem mem_links_of_mem_edges (hk : k ∈ s.edges h) : k ∈ (s.node h).links := by
  rcases mem_edges_iff.1 hk with part | isa | context
  · exact Entity.mem_links_of_mem_parts part
  · exact Entity.mem_links_iff.2 (.inr (.inr (.inl (isa?_eq_some_iff.1 isa).1)))
  · exact Entity.mem_links_iff.2 (.inr (.inr (.inr (context?_eq_some_iff.1 context).1)))

theorem mem_of_mem_reach (closed : s.Closed) (inside : ∀ r ∈ roots, r ∈ s)
    (hh : h ∈ s.reach roots) : h ∈ s := by
  induction hh with
  | root hr => exact inside _ hr
  | edge _ step ih => exact closed _ ih _ (mem_links_of_mem_edges step)

theorem mem_reach_iff_mem_discover (closed : s.Closed) (inside : ∀ r ∈ roots, r ∈ s) :
    h ∈ s.reach roots ↔ h ∈ (s.discover s.edges roots).toList :=
  (mem_discover_iff fun _ => mem_of_mem_reach closed inside).symm

theorem live_of_mem_reach (sound : s.Sound) (alive : ∀ r ∈ roots, s.live r)
    (hh : h ∈ s.reach roots) : s.live h := by
  induction hh with
  | root hr => exact alive _ hr
  | edge _ step ih =>
    rcases mem_edges_iff.1 step with part | isa | context
    · exact sound.held _ ih _ (List.mem_append_left _ part)
    · exact (isa?_eq_some_iff.1 isa).2
    · exact (context?_eq_some_iff.1 context).2

/-- What a living node holds can be reached from it. -/
theorem mem_edges_of_mem_holds (sound : s.Sound) (alive : s.live h) (hk : k ∈ (s.node h).holds) :
    k ∈ s.edges h := by
  rcases List.mem_append.1 hk with part | owned
  · exact mem_edges_iff.2 (.inl part)
  · have target : ∃ p, (s.node h).isa = some p ∧ p.target = k := by
      obtain ⟨p, hp, rfl⟩ := List.mem_map.1 owned
      exact ⟨p, (Option.filter_eq_some_iff.1 (Option.mem_toList.1 hp)).1, rfl⟩
    exact mem_edges_iff.2 (.inr (.inl (isa?_eq_some_iff.2 ⟨target, sound.held h alive k hk⟩)))

theorem mem_reach_of_mem_span (hh : h ∈ s.span roots) : h ∈ s.reach roots := by
  induction hh with
  | root hr => exact .root hr
  | edge _ part ih => exact .edge ih (mem_edges_iff.2 (.inl part))

theorem mem_reach_of_mem_escapes (hk : k ∈ s.escapes roots) : k ∈ s.reach roots := by
  obtain ⟨-, n, hn, link⟩ := hk
  exact .edge (mem_reach_of_mem_span hn) (mem_edges_iff.2 (.inr link))

theorem beyond_subset_reach : s.beyond roots ⊆ s.reach roots := by
  rintro h ⟨k, hk, hh⟩
  exact reach_trans (mem_reach_of_mem_escapes hk) hh

theorem beyond_eq_empty_iff : s.beyond roots = ∅ ↔ s.escapes roots = ∅ := by
  simp only [Set.eq_empty_iff_forall_notMem]
  constructor
  · exact fun none k hk => none k ⟨k, hk, .root List.mem_cons_self⟩
  · rintro none h ⟨k, hk, -⟩
    exact none k hk

end Reach

/-- Every node of `s` is in `t`, with the contents that it had, and alive exactly if it was. -/
structure PreservedIn (s t : Store) : Prop where
  size_le : s.size ≤ t.size
  node : ∀ n ∈ s, t.node n = s.node n
  live : ∀ n ∈ s, t.live n = s.live n

theorem Ledger.preservedIn {s t : Store} {own : Multiset Handle} (l : Ledger s True own t) :
    s.PreservedIn t :=
  ⟨l.size_le, l.same trivial, fun _ => l.live_eq⟩

namespace PreservedIn
variable {s t u : Store} {roots : List Handle}

theorem refl (s : Store) : s.PreservedIn s := ⟨Nat.le_refl _, fun _ _ => rfl, fun _ _ => rfl⟩

theorem mem (kept : s.PreservedIn t) (hn : n ∈ s) : n ∈ t := Nat.lt_of_lt_of_le hn kept.size_le

theorem trans (h : s.PreservedIn t) (k : t.PreservedIn u) : s.PreservedIn u where
  size_le := h.size_le.trans k.size_le
  node n hn := (k.node n (h.mem hn)).trans (h.node n hn)
  live n hn := (k.live n (h.mem hn)).trans (h.live n hn)

section
variable (kept : s.PreservedIn t)

include kept

theorem filter_live {o : Option Handle} (inside : ∀ k, o = some k → k ∈ s) :
    o.filter t.live = o.filter s.live := by
  cases o with
  | none => rfl
  | some k => simp only [Option.filter_some, kept.live k (inside k rfl)]

theorem isa? (closed : s.Closed) (hn : n ∈ s) : t.isa? n = s.isa? n := by
  rw [Store.isa?, Store.isa?, kept.node n hn]
  refine kept.filter_live fun k hk => closed n hn k ?_
  exact Entity.mem_links_iff.2 (.inr (.inr (.inl (Option.map_eq_some_iff.1 hk))))

theorem context? (closed : s.Closed) (hn : n ∈ s) : t.context? n = s.context? n := by
  rw [Store.context?, Store.context?, kept.node n hn]
  exact kept.filter_live fun k hk => closed n hn k (Entity.mem_links_iff.2 (.inr (.inr (.inr hk))))

theorem edges (closed : s.Closed) (hn : n ∈ s) : t.edges n = s.edges n := by
  rw [Store.edges, Store.edges, kept.node n hn, kept.isa? closed hn, kept.context? closed hn]

end

theorem reach (kept : s.PreservedIn t) (closed : s.Closed) (inside : ∀ r ∈ roots, r ∈ s) :
    t.reach roots = s.reach roots :=
  Set.ext fun _ => ReachedFrom.congr
    fun _ hn => kept.edges closed (mem_of_mem_reach closed inside hn)

theorem span (kept : s.PreservedIn t) (closed : s.Closed) (inside : ∀ r ∈ roots, r ∈ s) :
    t.span roots = s.span roots :=
  Set.ext fun _ => ReachedFrom.congr fun n hn => by
    rw [kept.node n (mem_of_mem_span closed inside hn)]

theorem escapes (kept : s.PreservedIn t) (closed : s.Closed) (inside : ∀ r ∈ roots, r ∈ s) :
    t.escapes roots = s.escapes roots := by
  ext k
  unfold Store.escapes
  rw [kept.span closed inside]
  refine and_congr_right fun _ => exists_congr fun n => and_congr_right fun hn => ?_
  have stored := mem_of_mem_span closed inside hn
  rw [kept.isa? closed stored, kept.context? closed stored]

theorem beyond (kept : s.PreservedIn t) (closed : s.Closed) (inside : ∀ r ∈ roots, r ∈ s) :
    t.beyond roots = s.beyond roots := by
  ext h
  unfold Store.beyond
  rw [kept.escapes closed inside]
  refine exists_congr fun k => and_congr_right fun hk => ?_
  have stored : k ∈ s := mem_of_mem_reach closed inside (mem_reach_of_mem_escapes hk)
  rw [kept.reach closed fun r hr => List.mem_singleton.1 hr ▸ stored]

end PreservedIn

section Copies
variable {s : Store} {roots : List Handle}

variable (sound : s.Sound)

include sound

variable (alive : ∀ r ∈ roots, s.live r)

include alive

theorem preservedIn_copyGraph : s.PreservedIn (s.copyGraph roots).2 :=
  ((Ledger.start sound True).copyGraph alive).preservedIn

/-- An edge out of a copy leads to a copy or to an escape. -/
theorem mem_edges_copy {k : Handle} (hn : n ∈ s.span roots)
    (hk : k ∈ (s.copyGraph roots).2.edges (s.image (s.copied roots) n)) :
    (∃ m ∈ s.span roots, k = s.image (s.copied roots) m) ∨ k ∈ s.escapes roots := by
  have mirror := mirrors_copyGraph sound alive hn
  have linked : ∀ q, s.isa? n = some q ∨ s.context? n = some q →
      relinked (s.span roots) (s.image (s.copied roots)) q = k →
      (∃ m ∈ s.span roots, k = s.image (s.copied roots) m) ∨ k ∈ s.escapes roots := by
    rintro q link rfl
    by_cases spanned : q ∈ s.span roots
    · rw [relinked, if_pos spanned]
      exact .inl ⟨q, spanned, rfl⟩
    · rw [relinked, if_neg spanned]
      exact .inr ⟨spanned, n, hn, link⟩
  rcases mem_edges_iff.1 hk with part | isa | context
  · rw [Entity.parts, mirror.members, mirror.result, SortedMap.values_mapValues,
      Option.toList_map, ← List.map_append] at part
    obtain ⟨m, hm, rfl⟩ := List.mem_map.1 part
    exact .inl ⟨m, .edge hn hm, rfl⟩
  · rw [mirror.isa, Option.map_eq_some_iff] at isa
    obtain ⟨q, hq, target⟩ := isa
    exact linked q (.inl hq) target
  · rw [mirror.context, Option.map_eq_some_iff] at context
    obtain ⟨q, hq, target⟩ := context
    exact linked q (.inr hq) target

theorem image_mem_reach (hn : n ∈ s.span roots) :
    s.image (s.copied roots) n ∈ (s.copyGraph roots).2.reach (s.copyGraph roots).1 := by
  induction hn with
  | root hr =>
    rw [copyGraph_fst]
    exact .root (List.mem_map_of_mem hr)
  | edge hn part ih =>
    have mirror := mirrors_copyGraph sound alive hn
    refine .edge ih (mem_edges_iff.2 (.inl ?_))
    rw [Entity.parts, mirror.members, mirror.result, SortedMap.values_mapValues, Option.toList_map,
      ← List.map_append]
    exact List.mem_map_of_mem part

/-- From the copies one reaches the copies, and whatever can be reached from an escape. -/
theorem mem_reach_copies_iff :
    h ∈ (s.copyGraph roots).2.reach (s.copyGraph roots).1 ↔
      (∃ n ∈ s.span roots, h = s.image (s.copied roots) n) ∨ h ∈ s.beyond roots := by
  have inside : ∀ r ∈ roots, r ∈ s := fun r hr => mem_of_live (alive r hr)
  have kept := preservedIn_copyGraph sound alive
  constructor
  · intro reached
    induction reached with
    | root listed =>
      rw [copyGraph_fst] at listed
      obtain ⟨r, hr, rfl⟩ := List.mem_map.1 listed
      exact .inl ⟨r, .root hr, rfl⟩
    | edge _ step ih =>
      rcases ih with ⟨n, hn, rfl⟩ | ⟨k, hk, path⟩
      · rcases mem_edges_copy sound alive hn step with copy | escape
        · exact .inl copy
        · exact .inr ⟨_, escape, .root List.mem_cons_self⟩
      · have old := mem_of_mem_reach sound.closed inside (beyond_subset_reach ⟨k, hk, path⟩)
        rw [kept.edges sound.closed old] at step
        exact .inr ⟨k, hk, .edge path step⟩
  · rintro (⟨n, hn, rfl⟩ | ⟨k, hk, path⟩)
    · exact image_mem_reach sound alive hn
    · have stored := mem_of_mem_reach sound.closed inside (mem_reach_of_mem_escapes hk)
      have step : k ∈ (s.copyGraph roots).2.reach (s.copyGraph roots).1 := by
        obtain ⟨outside, n, hn, link⟩ := hk
        have mirror := mirrors_copyGraph sound alive hn
        have same : relinked (s.span roots) (s.image (s.copied roots)) k = k := if_neg outside
        refine .edge (image_mem_reach sound alive hn) (mem_edges_iff.2 (.inr ?_))
        rw [mirror.isa, mirror.context]
        rcases link with isa | context
        · exact .inl (by rw [isa, Option.map_some, same])
        · exact .inr (by rw [context, Option.map_some, same])
      refine reach_trans step ?_
      rw [kept.reach sound.closed fun r hr => List.mem_singleton.1 hr ▸ stored]
      exact path

/-- What copies have in common with the store that they were made from is what the escapes reach. -/
theorem mem_reach_copies_iff_of_mem (old : h ∈ s) :
    h ∈ (s.copyGraph roots).2.reach (s.copyGraph roots).1 ↔ h ∈ s.beyond roots := by
  have inside : ∀ r ∈ roots, r ∈ s := fun r hr => mem_of_live (alive r hr)
  rw [mem_reach_copies_iff sound alive]
  refine or_iff_right ?_
  rintro ⟨n, hn, rfl⟩
  exact image_not_mem (mem_copied_iff.2 hn) old

theorem reach_copies_inter :
    (s.copyGraph roots).2.reach (s.copyGraph roots).1 ∩ (s.copyGraph roots).2.reach roots =
      s.beyond roots := by
  have inside : ∀ r ∈ roots, r ∈ s := fun r hr => mem_of_live (alive r hr)
  rw [(preservedIn_copyGraph sound alive).reach sound.closed inside]
  ext h
  constructor
  · rintro ⟨copied, original⟩
    exact (mem_reach_copies_iff_of_mem sound alive
      (mem_of_mem_reach sound.closed inside original)).1 copied
  · intro shared
    exact ⟨(mem_reach_copies_iff sound alive).2 (.inr shared), beyond_subset_reach shared⟩

end Copies

end Store

end ScriptInference
