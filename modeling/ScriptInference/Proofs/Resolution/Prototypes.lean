import ScriptInference.Proofs.Resolution.Inheritance

/-!
# Where prototype chains are cut

The loop that lists the prototypes of an entity has no bound of its own: it follows the live links
and keeps the entities it has met. It ends at an entity without a live link, or before an entity
that it has met, wherever the chain enters the cycle. On every store it ends, and what it lists is
the longest sequence along the links in which nothing occurs twice: every other such sequence is one
of its prefixes.
-/

namespace ScriptInference.Store
variable {s : Store} {h : Handle}

/-- The loop, when it has come to `h` and the entities met so far, `h` among them, are `seen`: what
it lists from `h` on until it ends. -/
inductive Lists (s : Store) : List Handle → Handle → List Handle → Prop
  | root {seen h} (link : s.isa? h = none) : Lists s seen h [h]
  | again {seen h p} (link : s.isa? h = some p) (met : p ∈ seen) : Lists s seen h [h]
  | next {seen h p rest} (link : s.isa? h = some p) (new : p ∉ seen)
      (later : Lists s (seen ++ [p]) p rest) : Lists s seen h (h :: rest)

/-- A sequence along the live prototype links from `h`, in which no entity occurs twice. -/
structure Descent (s : Store) (h : Handle) (l : List Handle) : Prop where
  head : l.head? = some h
  linked : l.IsChain fun a b => s.isa? a = some b
  nodup : l.Nodup

/-- The invariant of the loop: the entities met are distinct. -/
theorem Lists.prototypeChain {front chain : List Handle} (lists : s.Lists (front ++ [h]) h chain)
    (nodup : (front ++ [h]).Nodup) : s.PrototypeChain front h chain := by
  generalize seen_eq : front ++ [h] = seen at lists
  induction lists generalizing front with
  | root link =>
    subst seen_eq
    exact .stop nodup fun p link' => by rw [link] at link'; cases link'
  | again link met =>
    subst seen_eq
    refine .stop nodup fun q link' => ?_
    rw [link] at link'
    cases link'
    exact met
  | next link new later ih =>
    subst seen_eq
    refine .step link (ih ?_ rfl)
    exact nodup.append (List.nodup_singleton _) (List.disjoint_singleton.2 new)

/-- The loop lists a chain item by item: the next item is new, and behind the last one there is
nothing new. -/
theorem PrototypeChain.lists {front chain : List Handle}
    (follows : s.PrototypeChain front h chain) : s.Lists (front ++ [h]) h chain := by
  induction chain generalizing front h with
  | nil => cases follows.head
  | cons first rest ih =>
    obtain rfl : first = h := by simpa using follows.head
    cases rest with
    | nil =>
      cases link : s.isa? first with
      | none => exact .root link
      | some p => exact .again link (follows.complete first rfl p link)
    | cons p rest =>
      have apart : (front ++ [first] ++ p :: rest).Nodup := by simpa using follows.nodup
      refine .next (List.isChain_cons_cons.1 follows.linked).1 ?_
        (ih ⟨rfl, follows.linked.tail, apart, ?_⟩)
      · exact fun met => absurd rfl ((List.nodup_append.1 apart).2.2 p met p List.mem_cons_self)
      · simpa using follows.complete

theorem lists_iff {chain : List Handle} : s.Lists [h] h chain ↔ chain = s.isaChain h := by
  have chain_h := prototypeChain_isaChain s h
  constructor
  · intro lists
    have follows : s.PrototypeChain [] h chain :=
      Lists.prototypeChain lists (List.nodup_singleton h)
    exact follows.unique chain_h
  · rintro rfl
    exact chain_h.lists

/-- Nothing can be added behind the chain, and the links leave no choice before. -/
theorem Descent.prefix_isaChain {l : List Handle} (descent : s.Descent h l) :
    l <+: s.isaChain h := by
  have chain := prototypeChain_isaChain s h
  rcases prefix_or_prefix (descent.head.trans chain.head.symm) descent.linked chain.linked with
    starts | starts
  · exact starts
  · exact (chain.eq_of_prefix descent.linked descent.nodup starts) ▸ List.prefix_refl _

/-- The loop ends with the longest sequence from the entity along live prototype links without a
repetition. Behind its last entity there is no live link, or one that leads back into the
sequence. -/
theorem isaChain_longest (s : Store) (h : Handle) :
    (∀ chain, s.Lists [h] h chain ↔ chain = s.isaChain h) ∧
      s.Descent h (s.isaChain h) ∧
      (∀ l, s.Descent h l → l <+: s.isaChain h) ∧
      ∃ front last, s.isaChain h = front ++ [last] ∧
        (s.isa? last = none ∨ ∃ p ∈ s.isaChain h, s.isa? last = some p) := by
  have chain := prototypeChain_isaChain s h
  refine ⟨fun _ => lists_iff, ⟨chain.head, chain.linked, chain.nodup⟩,
    fun _ => Descent.prefix_isaChain, ?_⟩
  rcases List.eq_nil_or_concat' (s.isaChain h) with empty | ⟨front, last, split⟩
  · have head := chain.head
    rw [empty] at head
    cases head
  · refine ⟨front, last, split, ?_⟩
    cases link : s.isa? last with
    | none => exact .inl rfl
    | some p => exact .inr ⟨p, chain.complete last (by simp [split]) p link, rfl⟩

/-- The links of the first three entities lead into a cycle of the second and the third; the fourth
is its own prototype; the prototype of the fifth, the last one, is dead. -/
def coiled : Store where
  nodes := #[{ Entity.any with isa := some ⟨⟨1⟩, false⟩ },
    { Entity.any with isa := some ⟨⟨2⟩, false⟩ },
    { Entity.any with isa := some ⟨⟨1⟩, false⟩ }, { Entity.any with isa := some ⟨⟨3⟩, false⟩ },
    { Entity.any with isa := some ⟨⟨5⟩, false⟩ }, Entity.any]
  holders := #[1, 1, 1, 1, 1, 0]

theorem isaChain_longest_coiled :
    coiled.isaChain ⟨0⟩ = [⟨0⟩, ⟨1⟩, ⟨2⟩] ∧ coiled.isaChain ⟨3⟩ = [⟨3⟩] ∧
      coiled.isaChain ⟨4⟩ = [⟨4⟩] ∧
      coiled.Lists [⟨0⟩] ⟨0⟩ [⟨0⟩, ⟨1⟩, ⟨2⟩] ∧ coiled.Lists [⟨3⟩] ⟨3⟩ [⟨3⟩] ∧
        coiled.Lists [⟨4⟩] ⟨4⟩ [⟨4⟩] ∧
      coiled.Descent ⟨0⟩ [⟨0⟩, ⟨1⟩] ∧ [⟨0⟩, ⟨1⟩] <+: coiled.isaChain ⟨0⟩ := by
  have tail : coiled.isaChain ⟨0⟩ = [⟨0⟩, ⟨1⟩, ⟨2⟩] := by decide +kernel
  have own : coiled.isaChain ⟨3⟩ = [⟨3⟩] := by decide +kernel
  have dead : coiled.isaChain ⟨4⟩ = [⟨4⟩] := by decide +kernel
  have short : coiled.Descent ⟨0⟩ [⟨0⟩, ⟨1⟩] := by
    refine ⟨rfl, ?_, by decide⟩
    exact List.isChain_cons_cons.2 ⟨by decide, .singleton _⟩
  exact ⟨tail, own, dead, ((isaChain_longest coiled ⟨0⟩).1 _).2 tail.symm,
    ((isaChain_longest coiled ⟨3⟩).1 _).2 own.symm, ((isaChain_longest coiled ⟨4⟩).1 _).2 dead.symm,
    short, (isaChain_longest coiled ⟨0⟩).2.2.1 _ short⟩

end ScriptInference.Store
