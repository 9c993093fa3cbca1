import Mathlib.Data.List.Nodup
import ScriptInference.Proofs.Syntax.Places

/-!
# Blocks partition a program

Every place but the root of a program belongs to its home. The list of all blocks and the contents
of each block are read off the walk in two different ways: one keeps the ids of the blocks around
it, the other counts how deep it is inside nested functions. Both agree with the homes of the
places: the list has every block once, in the order of the places and with the id of its home, and
the bindings and functions of a block are those at the places that belong to it.
-/

namespace ScriptInference

variable {α β : Type} {n : Node} {q : Place} {ms : List Node} {i : Nat}

section Contents

def Event.binding? : Event → Option Binding
  | binding b => some b
  | _ => none

def Event.function? : Event → Option FunctionDecl
  | enter f => some f
  | _ => none

theorem Block.bindings_eq (b : Block) :
    b.bindings = (surface 0 b.interior).filterMap Event.binding? := rfl

theorem Block.functions_eq (b : Block) :
    b.functions = (surface 0 b.interior).filterMap Event.function? := rfl

end Contents

namespace Node

/-- Events that neither begin nor end a function change nothing in the count of nested functions and
in the blocks around. -/
structure Passive (es : List Event) : Prop where
  kept : ∀ rest, surface 0 (es ++ rest) = es ++ surface 0 rest
  skipped : ∀ d rest, surface (d + 1) (es ++ rest) = surface (d + 1) rest
  unnoticed : ∀ around rest, nestedBlocks around (es ++ rest) = nestedBlocks around rest

theorem passive_events (h : n.block? = none) : Passive n.events ∧ n.closing = [] := by
  cases n with
  | stmt s => cases s <;> exact ⟨⟨fun _ => rfl, fun _ _ => rfl, fun _ _ => rfl⟩, rfl⟩
  | expr e => exact ⟨⟨fun _ => rfl, fun _ _ => rfl, fun _ _ => rfl⟩, rfl⟩
  | param p => exact ⟨⟨fun _ => rfl, fun _ _ => rfl, fun _ _ => rfl⟩, rfl⟩
  | chunk c => cases h
  | function f => cases h

/-- A node inside a program is a function, or no block at all. -/
theorem inner_cases (inner : ∀ c, n ≠ chunk c) : n.block? = none ∨ ∃ f, n = function f := by
  cases n with
  | chunk c => exact absurd rfl (inner c)
  | function f => exact .inr ⟨f, rfl⟩
  | _ => exact .inl rfl

/-- A reader that turns the walk over each tree into a part of its result reads the trees one by
one. -/
theorem read_flatMap_walk {read : List Event → List β} {result : Node → List β}
    (each : ∀ m ∈ ms, ∀ rest, read (m.walk ++ rest) = result m ++ read rest) (rest : List Event) :
    read (ms.flatMap walk ++ rest) = ms.flatMap result ++ read rest := by
  induction ms with
  | nil => rfl
  | cons m ms ih =>
    rw [List.flatMap_cons, List.append_assoc, each m List.mem_cons_self,
      ih fun m hm => each m (List.mem_cons_of_mem _ hm), List.flatMap_cons, List.append_assoc]

section Surface

theorem surface_flatMap_skip {d : Nat}
    (each : ∀ m ∈ ms, ∀ rest, surface (d + 1) (m.walk ++ rest) = surface (d + 1) rest)
    (rest : List Event) : surface (d + 1) (ms.flatMap walk ++ rest) = surface (d + 1) rest := by
  have read : _ = ms.flatMap (fun _ => []) ++ surface (d + 1) rest :=
    read_flatMap_walk (by simpa using each) rest
  rwa [List.flatMap_eq_nil_iff.2 fun _ _ => rfl, List.nil_append] at read

theorem surface_walk_skip (n : Node) (inner : ∀ c, n ≠ chunk c) (d : Nat) (rest : List Event) :
    surface (d + 1) (n.walk ++ rest) = surface (d + 1) rest := by
  induction n using below_induction generalizing d rest with
  | step n ih =>
    have below (d : Nat) := surface_flatMap_skip fun m hm => ih m hm (ne_chunk_of_mem_children hm) d
    rw [walk_eq, List.append_assoc, List.append_assoc]
    rcases inner_cases inner with plain | ⟨f, rfl⟩
    · obtain ⟨passive, closed⟩ := passive_events plain
      rw [passive.skipped, closed, below]
      rfl
    · exact below (d + 1) _

/-- What the walk meets outside the functions below a node. -/
def surfaceEvents (n : Node) : List Event :=
  n.places.flatMap fun p => if n.home? p = none then n.eventsAt p else []

theorem surfaceEvents_eq (n : Node) : n.surfaceEvents =
    n.events ++ if n.block? = none then n.children.flatMap surfaceEvents else [] := by
  have here : (if n.home? [] = none then n.eventsAt [] else []) = n.events := rfl
  unfold surfaceEvents
  split
  · rename_i plain
    rw [flatMap_places_below (fun m p => if m.home? p = none then m.eventsAt p else []), here]
    intro i m p child
    simp [home?_cons child, eventsAt_cons child, plain]
  · rename_i block
    rw [flatMap_places_below (fun m p => []), here]
    · simp
    · intro i m p child
      simp [home?_cons child, block]

theorem surface_walk (n : Node) (inner : ∀ c, n ≠ chunk c) (rest : List Event) :
    surface 0 (n.walk ++ rest) = n.surfaceEvents ++ surface 0 rest := by
  induction n using below_induction generalizing rest with
  | step n ih =>
    rw [walk_eq, List.append_assoc, List.append_assoc, surfaceEvents_eq]
    rcases inner_cases inner with plain | ⟨f, rfl⟩
    · obtain ⟨passive, closed⟩ := passive_events plain
      rw [passive.kept, closed, if_pos plain, List.append_assoc]
      exact congrArg _ (read_flatMap_walk (fun m hm => ih m hm (ne_chunk_of_mem_children hm)) _)
    · -- the interior is skipped, up to the end of the function
      have below (m : Node) (hm : m ∈ (function f).children) :=
        surface_walk_skip m (ne_chunk_of_mem_children hm) 0
      exact congrArg (.enter f :: ·) (surface_flatMap_skip below (.leave :: rest))

/-- What the walk meets inside a block and outside the functions nested in it. -/
theorem surface_interior {b : Block} (block : n.block? = some b) :
    surface 0 b.interior = n.children.flatMap surfaceEvents := by
  have inside : b.interior = n.children.flatMap walk := by
    cases n with
    | chunk c =>
      obtain rfl : Block.chunk c = b := Option.some.inj block
      simp [Block.interior, Block.parameters, Block.body, walkParams, walkStmts_eq, children,
        List.flatMap_map, walk]
    | function f =>
      obtain rfl : Block.function f = b := Option.some.inj block
      simp [Block.interior, Block.parameters, Block.body, walkParams_eq, walkStmts_eq, children,
        List.flatMap_map, walk]
    | _ => cases block
  have below (m : Node) (hm : m ∈ n.children) := surface_walk m (ne_chunk_of_mem_children hm)
  have read := read_flatMap_walk below []
  simpa [inside, surface] using read

end Surface

section Belonging

/-- The places that belong to the block at `q`. -/
def belongings (n : Node) (q : Place) : List Place := n.places.filter (fun p => n.home? p = some q)

theorem flatMap_filter_eq (l : List α) (keep : α → Bool) (f : α → List β) :
    (l.filter keep).flatMap f = l.flatMap fun a => if keep a then f a else [] := by
  induction l with
  | nil => rfl
  | cons a l ih => cases h : keep a <;> simp [h, ih]

theorem flatMap_zipIdx_single {l : List α} {f : α × Nat → List β} {k : Nat} {a : α}
    (here : l[i]? = some a) (others : ∀ x ∈ l.zipIdx k, x.2 ≠ k + i → f x = []) :
    (l.zipIdx k).flatMap f = f (a, k + i) := by
  induction l generalizing i k with
  | nil => simp at here
  | cons b l ih =>
    rw [List.zipIdx_cons] at others ⊢
    rw [List.flatMap_cons]
    cases i with
    | zero =>
      obtain rfl : b = a := by simpa using here
      have rest : (l.zipIdx (k + 1)).flatMap f = [] := by
        rw [List.flatMap_eq_nil_iff]
        intro x hx
        have later := List.le_snd_of_mem_zipIdx hx
        exact others x (List.mem_cons_of_mem _ hx) (by omega)
      simp [rest]
    | succ i =>
      have first : f (b, k) = [] := others _ List.mem_cons_self (by simp)
      have rest := ih (i := i) (k := k + 1) (by simpa using here) fun x hx differs =>
        others x (List.mem_cons_of_mem _ hx) (by omega)
      rw [first, rest, List.nil_append, Nat.add_assoc, Nat.add_comm 1 i]

/-- The events at the places that belong to a block are what the walk meets at its surface. -/
theorem flatMap_belongings {m : Node} {b : Block} (found : n.at? q = some m)
    (block : m.block? = some b) : (n.belongings q).flatMap n.eventsAt = surface 0 b.interior := by
  rw [belongings, flatMap_filter_eq]
  induction q generalizing n with
  | nil =>
    obtain rfl : n = m := Option.some.inj found
    rw [surface_interior block,
      flatMap_places_below (fun m p => if m.home? p = none then m.eventsAt p else [])]
    · rfl
    · intro i m p child
      simp [home?_cons_eq_nil_iff child, eventsAt_cons child, block]
  | cons i q ih =>
    cases child : n.children[i]? with
    | none => simp [at?, child] at found
    | some c =>
      rw [at?_cons child] at found
      rw [← ih found, flatMap_places, flatMap_zipIdx_single child]
      · simp [home?_cons_eq_cons_iff child, eventsAt_cons child]
      · intro x hx differs
        have there := List.mem_zipIdx_iff_getElem?.1 hx
        rw [Nat.zero_add] at differs
        simp [home?_cons_eq_cons_iff there, differs]

end Belonging

section Listing

/-- The id of the block to which a place belongs. -/
def homeId? (n : Node) (p : Place) : Option String :=
  (n.home? p).bind fun q => (n.blockAt? q).map Block.id

theorem homeId?_cons {m : Node} (child : n.children[i]? = some m) (p : Place) :
    n.homeId? (i :: p) = (m.homeId? p).or (n.block?.map Block.id) := by
  unfold homeId?
  rw [home?_cons child]
  cases home : m.home? p with
  | none => cases block : n.block? <;> simp [blockAt?, at?, block]
  | some q =>
    obtain ⟨b, block⟩ := Option.isSome_iff_exists.1 (innermost_of_home? home).block
    simp [blockAt?_cons child, block]

/-- The blocks at the places of a tree, with the ids of the blocks to which they belong. -/
def listing (n : Node) (around : Option String) : List (Block × Option String) :=
  n.places.flatMap fun p => ((n.blockAt? p).map fun b => (b, (n.homeId? p).or around)).toList

theorem listing_eq (n : Node) (around : Option String) :
    n.listing around =
    (n.block?.map fun b => (b, around)).toList ++
      n.children.flatMap fun m => m.listing ((n.block?.map Block.id).or around) := by
  unfold listing
  rw [flatMap_places_below fun m p =>
    ((m.blockAt? p).map fun b => (b, (m.homeId? p).or ((n.block?.map Block.id).or around))).toList]
  · rfl
  · intro i m p child
    rw [blockAt?_cons child, homeId?_cons child, Option.or_assoc]

theorem nestedBlocks_walk (n : Node) (inner : ∀ c, n ≠ chunk c) (around : List String)
    (rest : List Event) :
    nestedBlocks around (n.walk ++ rest) = n.listing around.head? ++ nestedBlocks around rest := by
  induction n using below_induction generalizing around rest with
  | step n ih =>
    have below (around : List String) := read_flatMap_walk fun m hm =>
      ih m hm (ne_chunk_of_mem_children hm) around
    rw [walk_eq, List.append_assoc, List.append_assoc, listing_eq]
    rcases inner_cases inner with plain | ⟨f, rfl⟩
    · obtain ⟨passive, closed⟩ := passive_events plain
      rw [passive.unnoticed, closed, below, plain]
      rfl
    · have inside := below (f.id :: around) (.leave :: rest)
      exact congrArg ((.function f, around.head?) :: ·) inside

end Listing

section Gathered

/-- The places at which blocks stand. -/
def blockPlaces (n : Node) : List Place := n.places.filter (fun p => (n.blockAt? p).isSome)

theorem listing_eq_filterMap (n : Node) :
    n.listing none =
    n.blockPlaces.filterMap fun p => (n.blockAt? p).map fun b => (b, n.homeId? p) := by
  rw [blockPlaces, List.filterMap_filter, List.filterMap_eq_flatMap_toList]
  apply List.flatMap_congr
  intro p _
  cases n.blockAt? p <;> simp

theorem filterMap_belongings {pick : Event → Option β} {choose : Node → Option β}
    (same : ∀ m : Node, m.events.filterMap pick = (choose m).toList) {m : Node} {b : Block}
    (found : n.at? q = some m) (block : m.block? = some b) :
    (surface 0 b.interior).filterMap pick = (n.belongings q).filterMap fun p =>
      (n.at? p).bind choose := by
  rw [← flatMap_belongings found block, List.filterMap_flatMap, List.filterMap_eq_flatMap_toList]
  apply List.flatMap_congr
  intro p _
  cases here : n.at? p <;> simp [eventsAt, here, same]

theorem mem_blockPlaces : q ∈ n.blockPlaces ↔ (n.blockAt? q).isSome := by
  rw [blockPlaces, List.mem_filter, mem_places_iff, and_iff_right_iff_imp, blockAt?]
  cases n.at? q <;> simp

theorem exists_home (block : n.block?.isSome) {p : Place} (below : p ≠ []) :
    ∃ q, n.home? p = some q :=
  Option.isSome_iff_exists.1 (home?_isSome_of_block (q := []) block List.nil_prefix below.symm)

theorem nodup_places (n : Node) : n.places.Nodup := by
  refine n.pairwise_lt_places.imp ?_
  rintro p q lt rfl
  exact List.lt_irrefl p lt

/-- Every place below a block belongs to one block. -/
theorem perm_belongings (block : n.block?.isSome) :
    (n.blockPlaces.flatMap n.belongings).Perm n.places.tail := by
  have once := n.nodup_places
  have rest : ∀ p, p ∈ n.places.tail ↔ p ∈ n.places ∧ p ≠ [] := by
    intro p
    rw [places_eq] at once ⊢
    rw [List.nodup_cons] at once
    rw [List.tail_cons, List.mem_cons]
    constructor
    · exact fun hp => ⟨.inr hp, fun same => once.1 (same ▸ hp)⟩
    · exact fun hp => hp.1.resolve_left hp.2
  rw [List.perm_ext_iff_of_nodup]
  · intro p
    rw [rest, List.mem_flatMap]
    constructor
    · rintro ⟨q, -, hp⟩
      rw [belongings, List.mem_filter, decide_eq_true_eq] at hp
      refine ⟨hp.1, ?_⟩
      rintro rfl
      cases hp.2
    · rintro ⟨hp, below⟩
      obtain ⟨q, home⟩ := exists_home block below
      refine ⟨q, mem_blockPlaces.2 (innermost_of_home? home).block, ?_⟩
      rw [belongings, List.mem_filter]
      exact ⟨hp, by simpa using home⟩
  · rw [List.nodup_flatMap]
    constructor
    · exact fun q _ => once.filter _
    · refine (once.filter _).imp fun differ p hp hp' => differ ?_
      rw [belongings, List.mem_filter, decide_eq_true_eq] at hp hp'
      exact Option.some.inj (hp.2.symm.trans hp'.2)
  · exact once.tail

theorem lt_of_proper_start {p : Place} (above : q <+: p) (proper : q ≠ p) : q < p := by
  induction q generalizing p with
  | nil =>
    cases p with
    | nil => exact absurd rfl proper
    | cons i p => exact List.nil_lt_cons _ _
  | cons j q ih =>
    cases p with
    | nil => exact absurd (List.prefix_nil.1 above) proper
    | cons i p =>
      obtain ⟨rfl, rest⟩ := List.cons_prefix_cons.1 above
      exact List.cons_lt_cons_iff.2 (.inr ⟨rfl, ih rest fun same => proper (by rw [same])⟩)

/-- A block is listed before the blocks below it. -/
theorem idxOf_blockPlaces_lt {p : Place} (hq : q ∈ n.blockPlaces) (hp : p ∈ n.blockPlaces)
    (lt : q < p) : n.blockPlaces.idxOf q < n.blockPlaces.idxOf p := by
  have sorted : n.blockPlaces.Pairwise (· < ·) := n.pairwise_lt_places.filter _
  have hq' := List.idxOf_lt_length_of_mem hq
  have hp' := List.idxOf_lt_length_of_mem hp
  rcases Nat.lt_trichotomy (n.blockPlaces.idxOf q) (n.blockPlaces.idxOf p) with
    earlier | same | later
  · exact earlier
  · have equal : q = p := by
      rw [← List.getElem_idxOf hq', ← List.getElem_idxOf hp']; simp only [same]
    exact absurd (equal ▸ lt) (List.lt_irrefl _)
  · have swapped := List.pairwise_iff_getElem.1 sorted _ _ hp' hq' later
    rw [List.getElem_idxOf, List.getElem_idxOf] at swapped
    exact absurd swapped (List.lt_asymm lt)

end Gathered

end Node

section Contents

theorem Chunk.blocks_eq_listing (c : Chunk) : c.blocks = (Node.chunk c).listing none := by
  have below (m : Node) (hm : m ∈ (Node.chunk c).children) :=
    Node.nestedBlocks_walk m (Node.ne_chunk_of_mem_children hm) [c.span.id]
  have nested := Node.read_flatMap_walk below []
  have walked : c.walk = (Node.chunk c).children.flatMap Node.walk ++ [] := (Node.chunk c).walk_eq
  rw [Chunk.blocks, walked, nested, Node.listing_eq]
  simp [Node.block?, Block.id, Block.span, nestedBlocks]

variable {b : Block}

theorem Block.bindings_eq_filterMap (here : n.blockAt? q = some b) :
    b.bindings = (n.belongings q).filterMap n.bindingAt? := by
  obtain ⟨m, found, block⟩ := Option.bind_eq_some_iff.1 here
  rw [Block.bindings_eq]
  refine Node.filterMap_belongings (fun m => ?_) found block
  cases m with
  | stmt s => cases s <;> rfl
  | _ => rfl

theorem Block.functions_eq_filterMap (here : n.blockAt? q = some b) :
    b.functions = (n.blockPlaces.filter fun p => n.home? p = some q).filterMap n.functionAt? := by
  obtain ⟨m, found, block⟩ := Option.bind_eq_some_iff.1 here
  have events : ∀ m : Node, m.events.filterMap Event.function? = m.function?.toList := by
    intro m
    cases m with
    | stmt s => cases s <;> rfl
    | _ => rfl
  rw [Block.functions_eq, Node.filterMap_belongings events found block, Node.blockPlaces,
    Node.belongings, List.filter_filter, List.filterMap_filter, List.filterMap_filter]
  apply List.filterMap_congr
  intro p _
  -- where a function stands, a block stands
  unfold Node.functionAt? Node.blockAt?
  cases n.at? p with
  | none => simp
  | some m => cases m <;> simp [Node.function?, Node.block?]

end Contents

/-- Blocks partition the program. The walk meets the nodes in the order of their places; the list of
blocks has the blocks in this order, each with the id of the innermost block around it, which is
listed before it; every other node belongs to the innermost block around it and to no other; and the
bindings and functions of a block are those that belong to it, in order. -/
theorem Chunk.blocks_partition (c : Chunk) :
    let root := Node.chunk c
    (root.places.Pairwise (· < ·) ∧ (∀ p, p ∈ root.places ↔ (root.at? p).isSome) ∧
      c.walk.filter (fun e => !e.isLeave) = root.places.flatMap root.eventsAt) ∧
    (c.blocks.head? = some (.chunk c, none) ∧
      c.blocks = root.blockPlaces.filterMap fun p => (root.blockAt? p).map fun b =>
      (b, root.homeId? p)) ∧
    (∀ p ∈ root.places, p ≠ [] → ∃ q, root.home? p = some q ∧ root.Innermost q p ∧
      q ∈ root.blockPlaces ∧
      (p ∈ root.blockPlaces → root.blockPlaces.idxOf q < root.blockPlaces.idxOf p)) ∧
    (root.blockPlaces.flatMap root.belongings).Perm root.places.tail ∧
    ∀ q b, root.blockAt? q = some b →
      b.bindings = (root.belongings q).filterMap root.bindingAt? ∧
      b.functions =
        (root.blockPlaces.filter fun p => root.home? p = some q).filterMap root.functionAt? := by
  intro root
  have block : root.block?.isSome := rfl
  refine ⟨⟨root.pairwise_lt_places, fun p => Node.mem_places_iff, root.walk_filter_eq⟩,
    ⟨rfl, c.blocks_eq_listing.trans root.listing_eq_filterMap⟩, ?_, Node.perm_belongings block,
    fun q b here => ⟨Block.bindings_eq_filterMap here, Block.functions_eq_filterMap here⟩⟩
  intro p hp below
  obtain ⟨q, home⟩ := Node.exists_home block below
  have inner := Node.innermost_of_home? home
  have listed := Node.mem_blockPlaces.2 inner.block
  exact ⟨q, home, inner, listed, fun hp => Node.idxOf_blockPlaces_lt listed hp
    (Node.lt_of_proper_start inner.above inner.proper)⟩

end ScriptInference
