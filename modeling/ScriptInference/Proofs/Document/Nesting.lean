import Mathlib.Data.List.Nodup
import Mathlib.Data.Nat.Init
import ScriptInference.Document.Basic

/-!
# Blocks and the blocks around them

The chain of a block lists its id and then the ids of the blocks around it, innermost first. If no
two blocks of a program share an id, every block has exactly one chain, an enclosing block is listed
before every block inside it, and the search for the enclosing blocks finds the chain.
-/

namespace ScriptInference

variable {chain : List String} {around : Option String} {before : List (Block × Option String)}
  {bound : Nat}

namespace Document

section Enclosing

/-- A nested block lies in one of the blocks around the walk, or in one that was begun before it. -/
theorem enclosing_mem {around : List String} {events : List Event}
    {after : List (Block × Option String)} {b : Block} {id : String}
    (h : nestedBlocks around events = before ++ (b, some id) :: after) :
    id ∈ around ∨ id ∈ before.map (·.1.id) := by
  induction events generalizing around before with
  | nil => simp [nestedBlocks] at h
  | cons event rest ih =>
    cases event with
    | enter f =>
      cases before with
      | nil =>
        simp only [nestedBlocks, List.nil_append, List.cons.injEq, Prod.mk.injEq] at h
        exact .inl (List.mem_of_mem_head? h.1.2)
      | cons first before =>
        simp only [nestedBlocks, List.cons_append, List.cons.injEq] at h
        obtain ⟨rfl, h⟩ := h
        rcases ih h with outer | earlier
        · rcases List.mem_cons.1 outer with rfl | outer
          · exact .inr List.mem_cons_self
          · exact .inl outer
        · exact .inr (List.mem_cons_of_mem _ earlier)
    | leave =>
      rcases ih h with outer | earlier
      · exact .inl (List.mem_of_mem_tail outer)
      · exact .inr earlier
    | _ => exact ih h

variable {d : Document}

theorem block?_eq_some {id : String} {b : Block} (h : d.block? id = some (b, around)) :
    (b, around) ∈ d.chunk.blocks ∧ b.id = id := by
  unfold block? at h
  have listed := List.mem_of_find?_eq_some h
  have found := List.find?_some h
  exact ⟨List.mem_reverse.1 listed, by simpa using found⟩

/-- A block is listed after the block around it. -/
theorem enclosing_listed_before {c : Chunk} {after : List (Block × Option String)} {b : Block}
    {around : String} (split : c.blocks = before ++ (b, some around) :: after) :
    around ∈ before.map (·.1.id) := by
  cases before with
  | nil => simp [Chunk.blocks] at split
  | cons first before =>
    obtain ⟨rfl, nested⟩ := List.cons.inj split
    rcases enclosing_mem nested with outer | earlier
    · exact List.mem_singleton.1 outer ▸ List.mem_cons_self
    · exact List.mem_cons_of_mem _ earlier

/-- If the ids are distinct, the id of a block comes after that of the block around it. -/
theorem idxOf_enclosing_lt (distinct : d.blockIds.Nodup) {id around : String} {b : Block}
    (h : d.block? id = some (b, some around)) :
    around ∈ d.blockIds ∧ d.blockIds.idxOf around < d.blockIds.idxOf id := by
  obtain ⟨listed, rfl⟩ := block?_eq_some h
  obtain ⟨before, after, split⟩ := List.append_of_mem listed
  have ids : d.blockIds = before.map (·.1.id) ++ b.id :: after.map (·.1.id) := by
    rw [blockIds, Chunk.blockIds, split, List.map_append, List.map_cons]
  have earlier := enclosing_listed_before split
  have fresh : b.id ∉ before.map (·.1.id) := by
    rw [ids] at distinct
    exact fun hb => (List.nodup_append.1 distinct).2.2 _ hb _ List.mem_cons_self rfl
  rw [ids, List.idxOf_append_of_mem earlier, List.idxOf_append_of_notMem fresh,
    List.idxOf_cons_self]
  exact ⟨List.mem_append_left _ earlier, List.idxOf_lt_length_iff.2 earlier⟩

/-- If the ids are distinct, the search for the blocks around a block is over before its bound. -/
theorem ancestorsWithin_add (distinct : d.blockIds.Nodup) {id : String} (positive : 0 < bound)
    (enough : id ∈ d.blockIds → d.blockIds.idxOf id < bound) (more : Nat) :
    d.ancestorsWithin (bound + more) id = d.ancestorsWithin bound id := by
  induction bound generalizing id with
  | zero => omega
  | succ bound ih =>
    rw [Nat.add_right_comm, ancestorsWithin, ancestorsWithin]
    cases found : d.block? id with
    | none => simp [block, found, Bind.bind, Except.bind]
    | some p =>
      obtain ⟨b, around⟩ := p
      cases around with
      | none => simp [block, found, Bind.bind, Except.bind]
      | some around =>
        obtain ⟨listed, earlier⟩ := idxOf_enclosing_lt distinct found
        obtain ⟨here, rfl⟩ := block?_eq_some found
        have within := enough (List.mem_map.2 ⟨_, here, rfl⟩)
        have outer := ih (by omega) fun _ => Nat.lt_of_lt_of_le earlier (Nat.le_of_lt_succ within)
        simp [block, found, Bind.bind, Except.bind, outer]

end Enclosing

end Document

namespace Chunk
variable {c : Chunk}

/-- The ids from a block outwards. -/
inductive Outward (c : Chunk) : String → List String → Prop
  | root {b : Block} : (b, none) ∈ c.blocks → Outward c b.id [b.id]
  | nested {b : Block} {around : String} {chain : List String} :
      (b, some around) ∈ c.blocks → Outward c around chain → Outward c b.id (b.id :: chain)

/-- The block `id` lies inside the block `outer`, at whatever depth. -/
def Encloses (c : Chunk) (outer id : String) : Prop :=
  ∃ chain, c.Outward id (id :: chain) ∧ outer ∈ chain

theorem mem_blockIds_of_mem_blocks {b : Block} (h : (b, around) ∈ c.blocks) : b.id ∈ c.blockIds :=
  List.mem_map_of_mem (f := fun x => x.1.id) h

namespace Outward

theorem cons_eq {id : String} (h : c.Outward id chain) : ∃ rest, chain = id :: rest := by
  cases h with
  | root _ => exact ⟨[], rfl⟩
  | nested _ _ => exact ⟨_, rfl⟩

theorem mem_blockIds {id a : String} (h : c.Outward id chain) (ha : a ∈ chain) :
    a ∈ c.blockIds := by
  induction h with
  | root listed =>
    rw [List.mem_singleton.1 ha]
    exact mem_blockIds_of_mem_blocks listed
  | nested listed _ ih =>
    rcases List.mem_cons.1 ha with rfl | ha
    · exact mem_blockIds_of_mem_blocks listed
    · exact ih ha

/-- What follows a block in a chain is the chain of that block. -/
theorem of_mem {id a : String} (h : c.Outward id chain) (ha : a ∈ chain) :
    ∃ rest, c.Outward a (a :: rest) ∧ rest ⊆ chain := by
  induction h with
  | @root b listed =>
    rw [List.mem_singleton.1 ha]
    exact ⟨[], .root listed, List.nil_subset _⟩
  | @nested b around chain listed tail ih =>
    rcases List.mem_cons.1 ha with rfl | ha
    · exact ⟨chain, .nested listed tail, List.subset_cons_self _ _⟩
    · obtain ⟨rest, here, sub⟩ := ih ha
      exact ⟨rest, here, List.subset_cons_of_subset _ sub⟩

end Outward

end Chunk

namespace Document
variable {d : Document}

theorem block?_of_mem (distinct : d.blockIds.Nodup) {b : Block}
    (listed : (b, around) ∈ d.chunk.blocks) : d.block? b.id = some (b, around) := by
  cases found : d.block? b.id with
  | none =>
    have none_here := List.find?_eq_none.1 found (b, around) (List.mem_reverse.2 listed)
    simp at none_here
  | some other =>
    obtain ⟨b', around'⟩ := other
    obtain ⟨listed', same⟩ := block?_eq_some found
    exact congrArg some (List.inj_on_of_nodup_map distinct listed' listed same)

theorem block?_eq_none_iff {id : String} : d.block? id = none ↔ id ∉ d.blockIds := by
  unfold block? blockIds Chunk.blockIds
  rw [List.find?_eq_none]
  simp only [List.mem_reverse, decide_eq_true_eq, List.mem_map, not_exists, not_and]

section
variable (distinct : d.blockIds.Nodup)

include distinct

theorem outward_unique {id : String} {chain' : List String} (h : d.chunk.Outward id chain)
    (h' : d.chunk.Outward id chain') : chain = chain' := by
  induction h generalizing chain' with
  | @root b listed =>
    generalize same : b.id = id at h'
    cases h' with
    | root listed' => rfl
    | nested listed' tail =>
      have both := List.inj_on_of_nodup_map distinct listed listed' same
      cases both
  | @nested b around chain listed tail ih =>
    generalize same : b.id = id at h'
    cases h' with
    | root listed' =>
      have both := List.inj_on_of_nodup_map distinct listed listed' same
      cases both
    | nested listed' tail' =>
      have both := List.inj_on_of_nodup_map distinct listed listed' same
      cases both
      rw [ih tail']

/-- Every block has a chain. The induction is on the place of the block in the list of all blocks,
where the block around it comes earlier. -/
theorem exists_outward {id : String} (known : id ∈ d.blockIds) :
    ∃ chain, d.chunk.Outward id chain := by
  induction place : d.blockIds.idxOf id using Nat.strong_induction_on generalizing id with
  | _ n ih =>
    obtain ⟨⟨b, around⟩, listed, rfl⟩ := List.mem_map.1 known
    cases around with
    | none => exact ⟨_, .root listed⟩
    | some around =>
      obtain ⟨known', earlier⟩ := idxOf_enclosing_lt distinct (block?_of_mem distinct listed)
      rw [place] at earlier
      obtain ⟨chain, outward⟩ := ih _ earlier known' rfl
      exact ⟨_, .nested listed outward⟩

/-- A block is listed after the blocks around it. -/
theorem idxOf_lt_of_mem_outward {id a : String} (h : d.chunk.Outward id (id :: chain))
    (ha : a ∈ chain) : d.blockIds.idxOf a < d.blockIds.idxOf id := by
  generalize whole : id :: chain = l at h
  induction h generalizing chain with
  | root listed =>
    cases whole
    cases ha
  | @nested b around rest listed tail ih =>
    cases whole
    have earlier := (idxOf_enclosing_lt distinct (block?_of_mem distinct listed)).2
    obtain ⟨outer, rfl⟩ := tail.cons_eq
    rcases List.mem_cons.1 ha with rfl | ha
    · exact earlier
    · have further := ih ha rfl
      omega

theorem not_mem_of_outward {id : String} (h : d.chunk.Outward id (id :: chain)) : id ∉ chain := by
  intro hid
  have before := idxOf_lt_of_mem_outward distinct h hid
  omega

end

section Search

theorem ancestorsWithin_of_outward (distinct : d.blockIds.Nodup) {id : String}
    (h : d.chunk.Outward id chain) (enough : d.blockIds.idxOf id < bound) :
    d.ancestorsWithin bound id = .ok chain := by
  induction h generalizing bound with
  | root listed =>
    obtain ⟨n, rfl⟩ := Nat.exists_eq_add_of_lt enough
    simp [ancestorsWithin, block, block?_of_mem distinct listed, Bind.bind, Except.bind, Pure.pure,
      Except.pure]
  | @nested b around chain listed tail ih =>
    obtain ⟨n, rfl⟩ := Nat.exists_eq_add_of_lt enough
    have earlier := (idxOf_enclosing_lt distinct (block?_of_mem distinct listed)).2
    have reached : d.blockIds.idxOf around < d.blockIds.idxOf b.id + n := by omega
    have rest := ih reached
    simp [ancestorsWithin, block, block?_of_mem distinct listed, rest, Bind.bind, Except.bind,
      Pure.pure, Except.pure]

theorem ancestors_of_outward (distinct : d.blockIds.Nodup) {id : String}
    (h : d.chunk.Outward id chain) : d.ancestors id = .ok chain := by
  obtain ⟨rest, rfl⟩ := h.cons_eq
  have known : id ∈ d.blockIds := h.mem_blockIds List.mem_cons_self
  have within := List.idxOf_lt_length_of_mem known
  rw [blockIds, Chunk.blockIds, List.length_map] at within
  exact ancestorsWithin_of_outward distinct h within

theorem ancestors_of_unknown {id : String} (unknown : id ∉ d.blockIds) :
    d.ancestors id = .error (.unknownBlock id) := by
  have missing := block?_eq_none_iff.2 unknown
  have some_block : d.chunk.blocks.length =
      (nestedBlocks [d.chunk.span.id] d.chunk.walk).length + 1 :=
    rfl
  rw [ancestors, some_block, ancestorsWithin, block, missing]
  rfl

end Search

end Document

end ScriptInference
