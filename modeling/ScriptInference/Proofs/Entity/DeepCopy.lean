import ScriptInference.Proofs.Entity.Copying

/-!
# Deep copies are isomorphic

A deep copy of some roots gives every node of their span, that is every node reachable from them
through members and results, one fresh counterpart. Counterparts carry the same data and their
members and results are the counterparts of the members and results. A live prototype or context
inside the span is replaced by its counterpart, and one outside is kept. Nothing that was there
before changes.

The contents of the copies and the holds on them are those of `duplicate`, which the search and the
pass over the links come to on any store. That dead links stay dead, and so that a link is
redirected exactly if it leads into the span, rests on the store being sound.
-/

namespace ScriptInference.Store

variable {n : Handle}

section Domain
variable {s : Store} {roots : List Handle}

theorem mem_of_mem_span (closed : s.Closed) (inside : ∀ r ∈ roots, r ∈ s) (hn : n ∈ s.span roots) :
    n ∈ s := by
  induction hn with
  | root hr => exact inside _ hr
  | edge _ hk ih => exact closed _ ih _ (Entity.mem_links_of_mem_parts hk)

theorem span_member {m : Handle} {key : EntryKey} (hn : n ∈ s.span roots)
    (hm : s.member? n key = some m) : m ∈ s.span roots := by
  have listed : m ∈ (s.node n).members.values := SortedMap.mem_values_iff.2 ⟨key, hm⟩
  exact .edge hn (List.mem_append_left _ listed)

theorem live_of_mem_span (sound : s.Sound) (alive : ∀ r ∈ roots, s.live r) (hn : n ∈ s.span roots) :
    s.live n := by
  induction hn with
  | root hr => exact alive _ hr
  | edge _ hk ih => exact sound.held _ ih _ (List.mem_append_left _ hk)

end Domain

section Contents
variable (s : Store) (roots : List Handle)

/-- The contents of the copies, in the order of their discovery. -/
def copiedContents : List Entity :=
  (s.copied roots).toList.map fun h => s.redirect (s.copied roots) (s.node h)

/-- A deep copy appends the contents of the copies and then takes the holds on them. -/
theorem copyGraph_eq :
    s.copyGraph roots = (roots.map (s.image (s.copied roots)),
      ((s.copiedContents roots).foldl (fun t e => t.push e) s).retainAll
        ((s.copiedContents roots).flatMap Entity.holds ++ roots.map (s.image (s.copied roots)))) :=
  copyGraph_eq_duplicate roots s

theorem copyGraph_fst : (s.copyGraph roots).1 = roots.map (s.image (s.copied roots)) := by
  rw [copyGraph_eq]

theorem nodes_copyGraph :
    (s.copyGraph roots).2.nodes = s.nodes ++ (s.copiedContents roots).toArray := by
  rw [copyGraph_eq, nodes_retainAll, nodes_pushAll]

theorem size_copyGraph : (s.copyGraph roots).2.size = s.size + (s.copied roots).toList.length := by
  simp [size, nodes_copyGraph, copiedContents]

variable {s roots}

theorem node_copyGraph_of_mem (hn : n ∈ s) : (s.copyGraph roots).2.node n = s.node n :=
  (node_of_append (s.nodes_copyGraph roots)).1 n hn

theorem image_mem_copyGraph (hn : n ∈ (s.copied roots).toList) :
    s.image (s.copied roots) n ∈ (s.copyGraph roots).2 := by
  obtain ⟨i, hi, place⟩ := exists_place (s := s) hn
  have bounded : i < (s.copied roots).toList.length := (List.getElem?_eq_some_iff.1 hi).1
  rw [place, mem_iff, size_copyGraph]
  exact Nat.add_lt_add_left bounded s.size

theorem node_copyGraph_image (hn : n ∈ (s.copied roots).toList) :
    (s.copyGraph roots).2.node (s.image (s.copied roots) n) =
      s.redirect (s.copied roots) (s.node n) :=
  (node_of_append (s.nodes_copyGraph roots)).2 n hn

theorem exists_image_eq (hn : n ∈ (s.copyGraph roots).2) (fresh : n ∉ s) :
    ∃ m ∈ (s.copied roots).toList, s.image (s.copied roots) m = n :=
  exists_image_of_lt (by rwa [mem_iff, size_copyGraph] at hn) fresh

theorem image_eq_self {m : Handle} (unlisted : m ∉ (s.copied roots).toList) :
    s.image (s.copied roots) m = m := by
  simp [image, ((s.copied roots).rank?_eq_none_iff m).2 unlisted]

theorem image_eq_or_mem (m : Handle) :
    s.image (s.copied roots) m = m ∨ s.image (s.copied roots) m ∈ (s.copyGraph roots).2 := by
  by_cases hm : m ∈ (s.copied roots).toList
  · exact .inr (image_mem_copyGraph hm)
  · exact .inl (image_eq_self hm)

end Contents

section Counts
variable {s : Store} {roots : List Handle}

/-- What the copies hold of the old store was held, and is alive. -/
theorem live_of_mem_holds_copied (sound : s.Sound) (alive : ∀ r ∈ roots, s.live r) {e : Entity}
    (he : e ∈ s.copiedContents roots) {k : Handle} (hk : k ∈ e.holds) (old : k ∈ s) : s.live k := by
  obtain ⟨n, hn, rfl⟩ := List.mem_map.1 he
  have spanned : n ∈ s.span roots := mem_copied_iff.1 hn
  have copied_part : ∀ m ∈ (s.node n).parts, s.image (s.copied roots) m ∉ s := fun m hm =>
    image_not_mem (mem_copied_iff.2 (.edge spanned hm))
  rcases List.mem_append.1 hk with hpart | howned
  · rw [parts_redirect] at hpart
    obtain ⟨m, hm, rfl⟩ := List.mem_map.1 hpart
    exact absurd old (copied_part m hm)
  · -- a link that the copy holds was not redirected, so the node itself holds it
    obtain ⟨p, hp, rfl⟩ := List.mem_map.1 howned
    obtain ⟨hisa, owned⟩ := Option.filter_eq_some_iff.1 (Option.mem_toList.1 hp)
    obtain ⟨q, hq, hqp⟩ := Option.map_eq_some_iff.1 hisa
    split at hqp
    · rw [← hqp] at owned
      cases owned
    · subst hqp
      have holds : q.target ∈ (s.node n).holds := by
        refine List.mem_append_right _ (List.mem_map_of_mem ?_)
        exact Option.mem_toList.2 (Option.filter_eq_some_iff.2 ⟨hq, owned⟩)
      exact sound.held n (live_of_mem_span sound alive spanned) _ holds

theorem live_copyGraph_of_mem (sound : s.Sound) (alive : ∀ r ∈ roots, s.live r) (hn : n ∈ s) :
    (s.copyGraph roots).2.live n = s.live n := by
  rw [copyGraph_eq]
  have kept : ((s.copiedContents roots).foldl (fun t e => t.push e) s).live n = s.live n := by
    simp [live, count_pushAll]
  have stored : n ∈ (s.copiedContents roots).foldl (fun t e => t.push e) s := by
    rw [mem_iff, size, nodes_pushAll, Array.size_append]
    exact Nat.lt_add_right _ hn
  by_cases hlive : s.live n
  · rw [hlive]
    exact live_retainAll (kept.trans hlive) _
  · rw [← kept]
    refine live_retainAll_of_not_mem stored fun hmem => hlive ?_
    rcases List.mem_append.1 hmem with hheld | hroot
    · obtain ⟨e, he, hk⟩ := List.mem_flatMap.1 hheld
      exact live_of_mem_holds_copied sound alive he hk hn
    · obtain ⟨r, hr, rfl⟩ := List.mem_map.1 hroot
      exact absurd hn (image_not_mem (mem_copied_iff.2 (.root hr)))

/-- Throughout the second pass the old nodes that are alive are those that were alive at first. -/
theorem live_settling (sound : s.Sound) (alive : ∀ r ∈ roots, s.live r) (hn : n ∈ s) :
    let c := ((roots.mapM (copyNode s (s.size + 1))).run { store := s }).2
    ∀ settled, settled <+: c.memo.toList →
      (settled.foldl (fun t e => t.settle s.live c.memo e.2) c.store).live n = s.live n := by
  rintro c settled ⟨pending, split⟩
  obtain ⟨-, -, adds⟩ := run_roots 0 roots s
  rw [Bool.eq_iff_iff]
  constructor
  · intro now
    have done : (s.copyGraph roots).2.live n := by
      change (c.memo.toList.foldl (fun t e => t.settle s.live c.memo e.2) c.store).live n
      rw [← split, List.foldl_append]
      exact live_settle_all Prod.snd now pending
    rwa [live_copyGraph_of_mem sound alive hn] at done
  · intro before
    refine live_settle_all Prod.snd (live_iff.2 ?_) settled
    rw [adds.count, Nat.add_assoc]
    exact Nat.lt_add_right _ (live_iff.1 before)

/-- Every copy is held: by the copy of a node that held the original, or by the caller. -/
theorem live_copyGraph_image (hn : n ∈ s.span roots) :
    (s.copyGraph roots).2.live (s.image (s.copied roots) n) := by
  have listed := mem_copied_iff.2 hn
  have stored : s.image (s.copied roots) n ∈
      (s.copiedContents roots).foldl (fun t e => t.push e) s := by
    have hmem := image_mem_copyGraph listed
    rw [mem_iff, size, nodes_copyGraph] at hmem
    rwa [mem_iff, size, nodes_pushAll]
  rw [copyGraph_eq]
  refine live_retainAll_of_mem stored (List.mem_append.2 ?_)
  cases hn with
  | root hr => exact .inr (List.mem_map_of_mem hr)
  | @edge h _ hh hk =>
    refine .inl (List.mem_flatMap.2 ⟨_, List.mem_map_of_mem (mem_copied_iff.2 hh), ?_⟩)
    refine List.mem_append_left _ ?_
    rw [parts_redirect]
    exact List.mem_map_of_mem hk

end Counts

section Links
variable {s : Store} {roots : List Handle}

open Classical in
/-- Where a link leads after a copy: into the copies, if it led into the copied part. -/
noncomputable def relinked (domain : Set Handle) (φ : Handle → Handle) (q : Handle) : Handle :=
  if q ∈ domain then φ q else q

theorem image_eq_relinked (q : Handle) :
    s.image (s.copied roots) q = relinked (s.span roots) (s.image (s.copied roots)) q := by
  unfold relinked
  split
  · rfl
  · rename_i outside
    exact image_eq_self (mt mem_copied_iff.1 outside)

/-- A live link is redirected and stays alive; a dead one stays dead. -/
theorem filter_live_relinked (sound : s.Sound) (alive : ∀ r ∈ roots, s.live r) {q : Handle}
    (hq : q ∈ s) :
    (some (if s.live q then s.image (s.copied roots) q else q)).filter (s.copyGraph roots).2.live =
      ((some q).filter s.live).map (relinked (s.span roots) (s.image (s.copied roots))) := by
  by_cases hlive : s.live q
  · have still : (s.copyGraph roots).2.live (s.image (s.copied roots) q) := by
      by_cases spanned : q ∈ s.span roots
      · exact live_copyGraph_image spanned
      · rw [image_eq_relinked, relinked, if_neg spanned,
          live_copyGraph_of_mem sound alive hq]
        exact hlive
    simp only [Option.filter_some, hlive, still, if_true, Option.map_some,
      ← image_eq_relinked]
  · have dead : (s.copyGraph roots).2.live q = false := by
      rw [live_copyGraph_of_mem sound alive hq]
      simpa using hlive
    simp [Option.filter_some, hlive, dead]

theorem isa?_copyGraph_image (sound : s.Sound) (alive : ∀ r ∈ roots, s.live r)
    (hn : n ∈ s.span roots) :
    (s.copyGraph roots).2.isa? (s.image (s.copied roots) n) =
      (s.isa? n).map (relinked (s.span roots) (s.image (s.copied roots))) := by
  have inside : ∀ r ∈ roots, r ∈ s := fun r hr => mem_of_live (alive r hr)
  rw [isa?, isa?, node_copyGraph_image (mem_copied_iff.2 hn)]
  cases hisa : (s.node n).isa with
  | none => simp [redirect, hisa]
  | some p =>
    have target_mem : p.target ∈ s := by
      refine sound.closed n (mem_of_mem_span sound.closed inside hn) _ ?_
      simp [Entity.links, hisa]
    have target_eq : (if (s.live p.target && ((s.copied roots).rank? p.target).isSome) = true
        then (⟨s.image (s.copied roots) p.target, false⟩ : Prototype) else p).target =
        if s.live p.target then s.image (s.copied roots) p.target else p.target := by
      cases hrank : (s.copied roots).rank? p.target <;> by_cases hlive : s.live p.target <;>
        simp [image, hrank, hlive]
    rw [Option.map_some, ← filter_live_relinked sound alive target_mem, ← target_eq]
    simp [redirect, hisa]

theorem context?_copyGraph_image (sound : s.Sound) (alive : ∀ r ∈ roots, s.live r)
    (hn : n ∈ s.span roots) :
    (s.copyGraph roots).2.context? (s.image (s.copied roots) n) =
      (s.context? n).map (relinked (s.span roots) (s.image (s.copied roots))) := by
  have inside : ∀ r ∈ roots, r ∈ s := fun r hr => mem_of_live (alive r hr)
  rw [context?, context?, node_copyGraph_image (mem_copied_iff.2 hn)]
  cases hcontext : (s.node n).context with
  | none => simp [redirect, hcontext]
  | some c =>
    have context_mem : c ∈ s := by
      refine sound.closed n (mem_of_mem_span sound.closed inside hn) _ ?_
      simp [Entity.links, hcontext]
    rw [← filter_live_relinked sound alive context_mem]
    simp [redirect, hcontext]

end Links

/-- In `t`, the fresh node `φ n` stands for the node `n` of `s`, where `φ` takes the nodes of
`domain` to their counterparts. -/
structure Mirrors (s t : Store) (domain : Set Handle) (φ : Handle → Handle) (n : Handle) :
    Prop where
  fresh : φ n ∉ s
  alive : t.live (φ n)
  kind : (t.node (φ n)).kind = (s.node n).kind
  label : (t.node (φ n)).label = (s.node n).label
  types : (t.node (φ n)).types = (s.node n).types
  signatures : (t.node (φ n)).signatures = (s.node n).signatures
  source : (t.node (φ n)).source = (s.node n).source
  line : (t.node (φ n)).line = (s.node n).line
  shaped : (t.node (φ n)).shaped = (s.node n).shaped
  members : (t.node (φ n)).members = (s.node n).members.mapValues φ
  result : (t.node (φ n)).result = (s.node n).result.map φ
  isa : t.isa? (φ n) = (s.isa? n).map (relinked domain φ)
  context : t.context? (φ n) = (s.context? n).map (relinked domain φ)

theorem mirrors_copyGraph {s : Store} (sound : s.Sound) {roots : List Handle}
    (alive : ∀ r ∈ roots, s.live r) (hn : n ∈ s.span roots) :
    s.Mirrors (s.copyGraph roots).2 (s.span roots) (s.image (s.copied roots)) n := by
  have listed := mem_copied_iff.2 hn
  have contents := node_copyGraph_image listed
  exact
    { fresh := image_not_mem listed
      alive := live_copyGraph_image hn
      kind := by rw [contents]; rfl
      label := by rw [contents]; rfl
      types := by rw [contents]; rfl
      signatures := by rw [contents]; rfl
      source := by rw [contents]; rfl
      line := by rw [contents]; rfl
      shaped := by rw [contents]; rfl
      members := by rw [contents]; rfl
      result := by rw [contents]; rfl
      isa := isa?_copyGraph_image sound alive hn
      context := context?_copyGraph_image sound alive hn }

/-- A deep copy is an isomorphism from the span of its roots onto fresh nodes, and changes nothing
else. No larger bound on the depth of its search would make it come out differently. -/
theorem copyGraph_isomorphism {s : Store} (sound : s.Sound) {roots : List Handle}
    (alive : ∀ r ∈ roots, s.live r) :
    (∀ more, s.copyGraphWithin (s.size + 1 + more) roots = s.copyGraph roots) ∧
    ∃ φ : Handle → Handle,
      Set.InjOn φ (s.span roots) ∧
      (s.copyGraph roots).1 = roots.map φ ∧
      (∀ n ∈ s.span roots, s.Mirrors (s.copyGraph roots).2 (s.span roots) φ n) ∧
      ∀ n ∈ s, (s.copyGraph roots).2.node n = s.node n ∧
        (s.copyGraph roots).2.live n = s.live n := by
  refine ⟨fun more => ?_, s.image (s.copied roots), ?_, s.copyGraph_fst roots, ?_, ?_⟩
  · rw [copyGraphWithin_eq_duplicate, copyGraph_eq_duplicate]
  · intro n hn m hm
    exact image_injOn _ (mem_copied_iff.2 hn) (mem_copied_iff.2 hm)
  · exact fun n hn => mirrors_copyGraph sound alive hn
  · exact fun n hn => ⟨node_copyGraph_of_mem hn, live_copyGraph_of_mem sound alive hn⟩

/-- Two nodes in a cycle of a member and a result; the first has the second as its prototype and
itself as its context, the second a context outside. -/
def knot : Store where
  nodes := #[
    { kind := .map, members := .ofList [(.identifier "next", ⟨1⟩)], isa := some ⟨⟨1⟩, true⟩
      context := some ⟨0⟩ },
    { kind := .function, result := some ⟨0⟩, context := some ⟨2⟩ },
    { kind := .map }]
  holders := #[2, 2, 1]

theorem copyGraph_isomorphism_knot :
    (∀ more, knot.copyGraphWithin (knot.size + 1 + more) [⟨1⟩, ⟨0⟩, ⟨1⟩] =
      knot.copyGraph [⟨1⟩, ⟨0⟩, ⟨1⟩]) ∧
    ∃ φ : Handle → Handle,
      Set.InjOn φ (knot.span [⟨1⟩, ⟨0⟩, ⟨1⟩]) ∧
      (knot.copyGraph [⟨1⟩, ⟨0⟩, ⟨1⟩]).1 = [φ ⟨1⟩, φ ⟨0⟩, φ ⟨1⟩] ∧
      (∀ n ∈ knot.span [⟨1⟩, ⟨0⟩, ⟨1⟩],
        knot.Mirrors (knot.copyGraph [⟨1⟩, ⟨0⟩, ⟨1⟩]).2 (knot.span [⟨1⟩, ⟨0⟩, ⟨1⟩]) φ n) ∧
      ∀ n ∈ knot, (knot.copyGraph [⟨1⟩, ⟨0⟩, ⟨1⟩]).2.node n = knot.node n ∧
        (knot.copyGraph [⟨1⟩, ⟨0⟩, ⟨1⟩]).2.live n = knot.live n :=
  copyGraph_isomorphism (by decide) (by decide)

end ScriptInference.Store
