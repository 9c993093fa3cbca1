import ScriptInference.Proofs.Resolution.Inheritance
import ScriptInference.Proofs.Resolution.ReadBack

/-!
# Copies of scopes

The entities of a scope are listed frame by frame, copied as one graph, and the copies are read back
in the same order. The copy of a chain is therefore its image under one injective map. A lookup in
the copy may run through other nodes than the lookup in the original: a prototype outside the copied
part is shared, and from there the search may come back to original nodes whose copies it has
already asked. Such a detour finds nothing new. To see this, a lookup is described without the chain
that it follows, as the nearest inheritance of a name, and this notion is kept by every relation
that matches members with members and prototypes with prototypes.
-/

namespace ScriptInference

section Related
variable {α β : Type} {R : α → β → Prop}

theorem exists_of_rel_some {a : α} {o : Option β} (rel : Option.Rel R (some a) o) :
    ∃ b, o = some b ∧ R a b := by
  cases rel with
  | some related => exact ⟨_, rfl, related⟩

theorem eq_none_of_rel_none {o : Option β} (rel : Option.Rel R none o) : o = none := by
  cases rel with
  | none => rfl

theorem rel_flip {o : Option α} {o' : Option β} (rel : Option.Rel R o o') :
    Option.Rel (flip R) o' o := by
  cases rel with
  | some related => exact .some related
  | none => exact .none

theorem rel_imp {R' : α → β → Prop} {o : Option α} {o' : Option β} (rel : Option.Rel R o o')
    (implies : ∀ {a b}, R a b → R' a b) : Option.Rel R' o o' := by
  cases rel with
  | some related => exact .some (implies related)
  | none => exact .none

theorem rel_map {o : Option α} {f : α → β} (related : ∀ a, o = some a → R a (f a)) :
    Option.Rel R o (o.map f) := by
  cases o with
  | none => exact .none
  | some a => exact .some (related a rfl)

theorem rel_findSome? {γ : Type} {f : γ → Option α} {f' : γ → Option β} {l : List γ}
    (rel : ∀ x ∈ l, Option.Rel R (f x) (f' x)) : Option.Rel R (l.findSome? f) (l.findSome? f') := by
  induction l with
  | nil => exact .none
  | cons x rest ih =>
    obtain ⟨first, others⟩ := List.forall_mem_cons.1 rel
    rw [List.findSome?_cons, List.findSome?_cons]
    generalize f x = o at first
    generalize f' x = o' at first
    cases first with
    | some related => exact .some related
    | none => exact ih others

end Related

namespace Store
variable {s t : Store} {h n m k p : Handle} {name : String}

/-! ## Names are inherited from the nearest owner -/

/-- The name that `n` has of its own, or else inherits, stands for `m`. Unlike a chain, the search
may come back to a node. -/
inductive Inherits (s : Store) (name : String) : Handle → Handle → Prop where
  | own {n m : Handle} (stored : s.member? n (.identifier name) = some m) : Inherits s name n m
  | inherit {n p m : Handle} (missing : s.member? n (.identifier name) =
      none) (link : s.isa? n = some p)
      (inheritable : (s.node p).isInheritable = true) (above : Inherits s name p m) :
        Inherits s name n m

theorem Inherits.unique (one : s.Inherits name n m) (two : s.Inherits name n k) : m = k := by
  induction one with
  | own stored =>
    cases two with
    | own stored' => exact Option.some.inj (stored.symm.trans stored')
    | inherit missing _ _ _ => exact absurd (missing.symm.trans stored) (by simp)
  | inherit missing link _ _ ih =>
    cases two with
    | own stored => exact absurd (missing.symm.trans stored) (by simp)
    | inherit _ link' _ above =>
      obtain rfl := Option.some.inj (link.symm.trans link')
      exact ih above

theorem inherits_of_findSome? {nodes : List Handle}
    (linked : (n :: nodes).IsChain fun a b => s.isa? a = some b)
    (later : ∀ p ∈ nodes, (s.node p).isInheritable = true)
    (found : (n :: nodes).findSome? (fun x => s.member? x (.identifier name)) = some m) :
    s.Inherits name n m := by
  induction nodes generalizing n with
  | nil =>
    cases stored : s.member? n (.identifier name) with
    | none => simp [stored] at found
    | some k =>
      obtain rfl : k = m := by simpa [stored] using found
      exact .own stored
  | cons p rest ih =>
    cases stored : s.member? n (.identifier name) with
    | none =>
      obtain ⟨link, linked⟩ := List.isChain_cons_cons.1 linked
      obtain ⟨inheritable, later⟩ := List.forall_mem_cons.1 later
      rw [List.findSome?_cons, stored] at found
      exact .inherit stored link inheritable (ih linked later found)
    | some k =>
      obtain rfl : k = m := by simpa [stored] using found
      exact .own stored

theorem eq_getLast_or_next {α : Type} {R : α → α → Prop} {l : List α} (linked : l.IsChain R) {a : α}
    (ha : a ∈ l) : l.getLast? = some a ∨ ∃ b ∈ l, R a b := by
  obtain ⟨front, back, rfl⟩ := List.append_of_mem ha
  cases back with
  | nil => exact .inl (by simp)
  | cons b rest =>
    refine .inr ⟨b, by simp, ?_⟩
    exact (List.isChain_cons_cons.1 (List.isChain_append.1 linked).2.1).1

/-- The nodes that answer a lookup are closed under inheritable prototypes. -/
theorem mem_lookupChain_of_isa? (answers : n ∈ s.lookupChain h) (link : s.isa? n = some p)
    (inheritable : (s.node p).isInheritable = true) : p ∈ s.lookupChain h := by
  obtain ⟨chain, follows, ⟨rest, rfl⟩, eligible, longest⟩ := lineage_lookupChain s h
  obtain last | ⟨q, hq, next⟩ := eq_getLast_or_next (List.isChain_append.1 follows.linked).1 answers
  · cases rest with
    | nil =>
      rw [List.append_nil] at follows
      exact follows.complete n last p link
    | cons q rest =>
      -- the chain goes on to the prototype, so that stopping here was not the longest choice
      have next : s.isa? n = some q := (List.isChain_append.1 follows.linked).2.2 n last q rfl
      obtain rfl : p = q := Option.some.inj (link.symm.trans next)
      have longer : s.Eligible (s.lookupChain h ++ [p]) := by
        obtain ⟨first, others, split⟩ := List.exists_cons_of_ne_nil (List.ne_nil_of_mem answers)
        rw [split] at eligible ⊢
        obtain ⟨shaped, later⟩ := eligible_cons_iff.1 eligible
        refine eligible_cons_iff.2 ⟨shaped, fun x hx => ?_⟩
        rcases List.mem_append.1 hx with hx | hx
        · exact later x hx
        · exact List.mem_singleton.1 hx ▸ inheritable
      have short := (longest _ ⟨rest, by simp⟩ longer).length_le
      simp at short
  · obtain rfl : p = q := Option.some.inj (link.symm.trans next)
    exact hq

theorem inherits_of_findName? (found : s.findName? h name = some m) :
    (s.node h).isMapShaped = true ∧ s.Inherits name h m := by
  obtain ⟨chain, follows, starts, eligible, -⟩ := lineage_lookupChain s h
  unfold findName? at found
  cases split : s.lookupChain h with
  | nil => simp [split] at found
  | cons first nodes =>
    rw [split] at found starts eligible
    obtain ⟨rest, rfl⟩ := starts
    obtain rfl : first = h := by simpa using follows.head
    obtain ⟨shaped, later⟩ := eligible_cons_iff.1 eligible
    exact ⟨shaped, inherits_of_findSome? (List.isChain_append.1 follows.linked).1 later found⟩

/-- Where nobody has the name of its own, nobody inherits it. -/
theorem Inherits.not_mem_lookupChain (inherits : s.Inherits name n m)
    (empty : ∀ k ∈ s.lookupChain h, s.member? k (.identifier name) = none) :
    n ∉ s.lookupChain h := by
  induction inherits with
  | own stored =>
    intro answers
    rw [empty _ answers] at stored
    cases stored
  | inherit _ link inheritable _ ih =>
    exact fun answers => ih (mem_lookupChain_of_isa? answers link inheritable)

/-- A lookup finds what is inherited, if the entity can have members at all. -/
theorem findName?_eq_some_iff :
    s.findName? h name = some m ↔ (s.node h).isMapShaped = true ∧ s.Inherits name h m := by
  refine ⟨inherits_of_findName?, fun ⟨shaped, inherits⟩ => ?_⟩
  cases found : s.findName? h name with
  | some k => rw [(inherits_of_findName? found).2.unique inherits]
  | none =>
    obtain ⟨rest, chain⟩ := exists_lookupChain_eq shaped
    have first : h ∈ s.lookupChain h := chain ▸ List.mem_cons_self
    exact absurd first (inherits.not_mem_lookupChain (List.findSome?_eq_none_iff.1 found))

/-! ## Relations that lookups cannot see through -/

/-- Related entities can hold the same and are looked up alike, and what they lead to is related
again. -/
structure Matching (s t : Store) (R : Handle → Handle → Prop) : Prop where
  types : ∀ {n k}, R n k → (t.node k).types = (s.node n).types
  shaped : ∀ {n k}, R n k → (t.node k).shaped = (s.node n).shaped
  member : ∀ {n k}, R n k → ∀ key, Option.Rel R (s.member? n key) (t.member? k key)
  isa : ∀ {n k}, R n k → Option.Rel R (s.isa? n) (t.isa? k)

namespace Matching
variable {R : Handle → Handle → Prop}

variable (matching : Matching s t R)

include matching

theorem symm : Matching t s (flip R) where
  types related := (matching.types related).symm
  shaped related := (matching.shaped related).symm
  member related key := rel_flip (matching.member related key)
  isa related := rel_flip (matching.isa related)

theorem inherits (inherits : s.Inherits name n m) (related : R n k) :
    ∃ m', t.Inherits name k m' ∧ R m m' := by
  induction inherits generalizing k with
  | own stored =>
    have member := matching.member related (.identifier name)
    rw [stored] at member
    obtain ⟨m', stored', related'⟩ := exists_of_rel_some member
    exact ⟨m', .own stored', related'⟩
  | inherit missing link inheritable _ ih =>
    have member := matching.member related (.identifier name)
    have isa := matching.isa related
    rw [missing] at member
    rw [link] at isa
    obtain ⟨p', link', above⟩ := exists_of_rel_some isa
    obtain ⟨m', inherits', related'⟩ := ih above
    refine ⟨m', .inherit (eq_none_of_rel_none member) link' ?_ inherits', related'⟩
    rwa [Entity.isInheritable, matching.types above]

theorem findName?_eq_some (related : R n k) (found : s.findName? n name = some m) :
    ∃ m', t.findName? k name = some m' ∧ R m m' := by
  obtain ⟨shaped, inherits⟩ := findName?_eq_some_iff.1 found
  obtain ⟨m', inherits', related'⟩ := matching.inherits inherits related
  refine ⟨m', findName?_eq_some_iff.2 ⟨?_, inherits'⟩, related'⟩
  rwa [Entity.isMapShaped, matching.shaped related, matching.types related]

/-- Lookups of a name in related entities fail together or find related entities. -/
theorem findName? (related : R n k) (name : String) :
    Option.Rel R (s.findName? n name) (t.findName? k name) := by
  cases found : s.findName? n name with
  | some m =>
    obtain ⟨m', found', related'⟩ := matching.findName?_eq_some related found
    rw [found']
    exact .some related'
  | none =>
    cases found' : t.findName? k name with
    | none => exact .none
    | some m' =>
      obtain ⟨m, back, _⟩ := matching.symm.findName?_eq_some related found'
      rw [found] at back
      cases back

end Matching

/-! ## Originals and copies -/

section Copies
variable {roots : List Handle}

/-- After a copy, an entity of the old store is stood for by itself and, if it has been copied, by
its copy. -/
def Stands (s : Store) (roots : List Handle) (n k : Handle) : Prop :=
  n ∈ s ∧ (k = n ∨ n ∈ s.span roots ∧ k = s.image (s.copied roots) n)

theorem stands_self (hn : n ∈ s) : s.Stands roots n n := ⟨hn, .inl rfl⟩

theorem stands_image (closed : s.Closed) (inside : ∀ r ∈ roots, r ∈ s) (hn : n ∈ s.span roots) :
    s.Stands roots n (s.image (s.copied roots) n) :=
  ⟨mem_of_mem_span closed inside hn, .inr ⟨hn, rfl⟩⟩

/-- Wherever a link of a copy leads, that stands for where the link of the original leads. -/
theorem stands_relinked (closed : s.Closed) (inside : ∀ r ∈ roots, r ∈ s) (hn : n ∈ s) :
    s.Stands roots n (relinked (s.span roots) (s.image (s.copied roots)) n) := by
  unfold relinked
  split
  · exact stands_image closed inside (by assumption)
  · exact stands_self hn

theorem matching_copyGraph (sound : s.Sound) (alive : ∀ r ∈ roots, s.live r) :
    Matching s (s.copyGraph roots).2 (s.Stands roots) := by
  have inside : ∀ r ∈ roots, r ∈ s := fun r hr => mem_of_live (alive r hr)
  have kept := preservedIn_copyGraph sound alive
  have rel_self : ∀ {o : Option Handle}, (∀ k, o = some k → k ∈ s) →
      Option.Rel (s.Stands roots) o o := by
    intro o stored
    have rel := rel_map (R := s.Stands roots) fun k listed => stands_self (stored k listed)
    rwa [Option.map_id'] at rel
  have mem_isa : ∀ {n p}, s.isa? n = some p → p ∈ s :=
    fun link => mem_of_live (Option.filter_eq_some_iff.1 link).2
  constructor
  case types =>
    rintro n k ⟨hn, rfl | ⟨spanned, rfl⟩⟩
    · rw [kept.node k hn]
    · exact (mirrors_copyGraph sound alive spanned).types
  case shaped =>
    rintro n k ⟨hn, rfl | ⟨spanned, rfl⟩⟩
    · rw [kept.node k hn]
    · exact (mirrors_copyGraph sound alive spanned).shaped
  case member =>
    rintro n k ⟨hn, rfl | ⟨spanned, rfl⟩⟩ key
    · rw [member?, member?, kept.node k hn]
      refine rel_self fun m stored => sound.closed k hn m (Entity.mem_links_of_mem_parts ?_)
      exact List.mem_append_left _ (SortedMap.mem_values_iff.2 ⟨key, stored⟩)
    · have copied : (s.copyGraph roots).2.member? (s.image (s.copied roots) n) key =
          (s.member? n key).map (s.image (s.copied roots)) := by
        rw [member?, Entity.member?, (mirrors_copyGraph sound alive spanned).members,
          SortedMap.get?_mapValues]
        rfl
      rw [copied]
      exact rel_map fun m stored => stands_image sound.closed inside (span_member spanned stored)
  case isa =>
    rintro n k ⟨hn, rfl | ⟨spanned, rfl⟩⟩
    · rw [kept.isa? sound.closed hn]
      exact rel_self fun p => mem_isa
    · rw [(mirrors_copyGraph sound alive spanned).isa]
      exact rel_map fun p link => stands_relinked sound.closed inside (mem_isa link)

/-- Two entities show the same on their face. -/
structure Resembles (s t : Store) (n k : Handle) : Prop where
  kind : (t.node k).kind = (s.node n).kind
  label : (t.node k).label = (s.node n).label
  types : (t.node k).types = (s.node n).types
  line : (t.node k).line = (s.node n).line

theorem Resembles.retainAll (same : s.Resembles t n k) (hs ks : List Handle) :
    (s.retainAll hs).Resembles (t.retainAll ks) n k := by
  obtain ⟨kind, label, types, line⟩ := same
  constructor <;> simpa

theorem Stands.resembles (stands : s.Stands roots n k) (sound : s.Sound)
    (alive : ∀ r ∈ roots, s.live r) : s.Resembles (s.copyGraph roots).2 n k := by
  obtain ⟨hn, rfl | ⟨spanned, rfl⟩⟩ := stands
  · have same := (preservedIn_copyGraph sound alive).node k hn
    exact ⟨by rw [same], by rw [same], by rw [same], by rw [same]⟩
  · have mirror := mirrors_copyGraph sound alive spanned
    exact ⟨mirror.kind, mirror.label, mirror.types, mirror.line⟩

theorem image_injOn_store (roots : List Handle) :
    Set.InjOn (s.image (s.copied roots)) {n | n ∈ s} := by
  intro n hn m hm same
  have fresh : ∀ k, k ∈ s.span roots → s.image (s.copied roots) k ∉ s := fun k spanned =>
    image_not_mem (mem_copied_iff.2 spanned)
  have fixed : ∀ k, k ∉ s.span roots → s.image (s.copied roots) k = k := fun k outside =>
    image_eq_self (mt mem_copied_iff.1 outside)
  by_cases inN : n ∈ s.span roots <;> by_cases inM : m ∈ s.span roots
  · exact image_injOn _ (mem_copied_iff.2 inN) (mem_copied_iff.2 inM) same
  · rw [fixed m inM] at same
    exact absurd hm (same ▸ fresh n inN)
  · rw [fixed n inN] at same
    exact absurd hn (same ▸ fresh m inM)
  · rwa [fixed n inN, fixed m inM] at same

end Copies

end Store

namespace Scope

/-! ## Chains of scopes -/

/-- Two chains of the same depth are related frame by frame, from the innermost outwards. -/
inductive Pairs (R : Scope → Scope → Prop) : Scope → Scope → Prop where
  | root {c c' : Scope} (here : R c c') (outermost : c.parent? = none) (outermost' : c'.parent? =
      none) : Pairs R c c'
  | nested {c c' p p' : Scope} (here : R c c') (parent : c.parent? = some p) (parent' : c'.parent? =
      some p') (outwards : Pairs R p p') : Pairs R c c'

theorem pairs_mapFrames {R : Scope → Scope → Prop} {f : Handle → Handle} {P : Handle → Prop}
    (related : ∀ d : Scope, (∀ h ∈ d.holds, P h) → R d (d.mapFrames f)) (c : Scope)
    (all : ∀ h ∈ c.holds, P h) : Pairs R c (c.mapFrames f) := by
  obtain ⟨frame, enclosing, globals⟩ := c
  induction enclosing generalizing frame with
  | nil => exact .root (related _ all) rfl rfl
  | cons g rest ih =>
    refine .nested (related _ all) rfl rfl (ih g fun h hh => all h ?_)
    simp only [holds, frameEntities, frames, List.flatMap_cons, List.mem_cons,
      List.mem_append] at hh ⊢
    tauto

theorem frames_copy (c : Scope) (s : Store) :
    ∃ globals flat, (s.copyGraph c.holds).1 = globals :: flat ∧ (c.copy s).1.globals = globals ∧
      (c.copy s).1.frames = readBack c.frames flat := by
  rw [copy_eq]
  exact ⟨_, c.frameEntities.map (s.image (s.copied c.holds)), s.copyGraph_fst c.holds, rfl,
    (readBack_flatMap _ c.frames).symm⟩

/-- In `t` the scope `c'` has the counterparts of what `c` has in `s`, and names are found alike in
it. -/
structure Counterpart (φ : Handle → Handle) (s t : Store) (c c' : Scope) : Prop where
  locals : c'.locals = φ c.locals
  globals : c'.globals = φ c.globals
  context : c'.context? = c.context?.map φ
  lookups : ∀ name bound, ∃ found u found' u', Infer.lookupName c name bound s = .ok (found, u) ∧
    Infer.lookupName c' name bound t = .ok (found', u') ∧ Option.Rel (u.Resembles u') found found'

theorem rel_find?_mapFrames {s t : Store} {R : Handle → Handle → Prop}
    (matching : Store.Matching s t R) {f : Handle → Handle} {c : Scope}
    (related : ∀ h ∈ c.holds, R h (f h)) (name : String) :
    Option.Rel R (c.find? s name) ((c.mapFrames f).find? t name) := by
  have tables : (c.mapFrames f).frames.map Frame.locals ++ [(c.mapFrames f).globals] =
      (c.frames.map Frame.locals ++ [c.globals]).map f := by
    simp [frames, mapFrames]
  rw [find?, find?, tables, List.findSome?_map]
  refine rel_findSome? fun h hh => matching.findName? (related h ?_) name
  rcases List.mem_append.1 hh with hh | hh
  · obtain ⟨x, hx, rfl⟩ := List.mem_map.1 hh
    exact List.mem_cons_of_mem _ (List.mem_flatMap.2 ⟨x, hx, List.mem_cons_self⟩)
  · exact List.mem_singleton.1 hh ▸ List.mem_cons_self

/-- A copy of a scope is the image of the whole chain under one injective map, read back in the
order in which the entities of the frames were listed. The copy is apart from what was there before,
nothing of which changes, and finds under every name and from every frame what the original finds,
or its copy. -/
theorem copy_mirrors_chain {s : Store} (sound : s.Sound) {c : Scope}
    (alive : ∀ h ∈ c.holds, s.live h) :
    ∃ φ : Handle → Handle, Set.InjOn φ {h | h ∈ s} ∧ (∀ h ∈ c.holds, φ h ∉ s) ∧
      Pairs (Counterpart φ s (c.copy s).2) c (c.copy s).1 ∧
      (∃ globals flat, (s.copyGraph c.holds).1 = globals :: flat ∧ (c.copy s).1.globals = globals ∧
        (c.copy s).1.frames = readBack c.frames flat) ∧
      s.PreservedIn (c.copy s).2 := by
  have inside : ∀ h ∈ c.holds, h ∈ s := fun h hh => Store.mem_of_live (alive h hh)
  refine ⟨s.image (s.copied c.holds), Store.image_injOn_store c.holds, ?_, ?_, c.frames_copy s, ?_⟩
  · exact fun h hh => Store.image_not_mem (Store.mem_copied_iff.2 (.root hh))
  · rw [copy_eq]
    refine pairs_mapFrames (P := (· ∈ c.holds)) (fun d held => ⟨rfl, rfl, rfl,
      fun name bound => ?_⟩) c fun h hh => hh
    have related : ∀ h ∈ d.holds, s.Stands c.holds h (s.image (s.copied c.holds) h) := fun h hh =>
      Store.stands_image sound.closed inside (.root (held h hh))
    have found := rel_find?_mapFrames (Store.matching_copyGraph sound alive) related name
    refine ⟨_, _, _, _, Infer.lookupName_eq _ _ _ _, Infer.lookupName_eq _ _ _ _, ?_⟩
    exact rel_imp found fun stands => (stands.resembles sound alive).retainAll _ _
  · rw [copy_snd]
    exact Store.preservedIn_copyGraph sound alive

/-- A method in a document: the locals inherit from a map that is not copied and whose own prototype
leads back to them, and the context is a member of the globals. -/
def methodStore : Store where
  nodes := #[
    { kind := .map, types := .ofList [Tag.map], members := .ofList [(.identifier "receiver", ⟨2⟩)]
    }, { kind := .map, types := .ofList [Tag.map], isa := some ⟨⟨3⟩, false⟩ },
    { kind := .map, types := .ofList [Tag.map], line := some 4 },
    { kind := .map, types := .ofList [Tag.map], members := .ofList [(.identifier "shared", ⟨2⟩)]
      isa := some ⟨⟨1⟩, false⟩ }]
  holders := #[3, 1, 3, 1]

def methodScope : Scope := ⟨⟨⟨1⟩, some ⟨2⟩⟩, [⟨⟨0⟩, none⟩], ⟨0⟩⟩

theorem copy_mirrors_chain_method :
    ∃ φ : Handle → Handle, Set.InjOn φ {h | h ∈ methodStore} ∧
      (∀ h ∈ methodScope.holds, φ h ∉ methodStore) ∧
      Pairs (Counterpart φ methodStore (methodScope.copy methodStore).2) methodScope
        (methodScope.copy methodStore).1 ∧
      (∃ globals flat, (methodStore.copyGraph methodScope.holds).1 = globals :: flat ∧
        (methodScope.copy methodStore).1.globals = globals ∧
        (methodScope.copy methodStore).1.frames = readBack methodScope.frames flat) ∧
      methodStore.PreservedIn (methodScope.copy methodStore).2 :=
  copy_mirrors_chain (by decide) (by decide)

end Scope

end ScriptInference
