import ScriptInference.Proofs.Document.Driver
import ScriptInference.Proofs.Hashing.Transparency

/-!
# Definitions that are found

While blocks are run, the targets of their bindings are appended to one list, in the order in which
the blocks happen to be run, and keyed by their hashes. A search regroups this list by visibility.
The main statement says that it gives what a plain walk over the program gives: the chain of the
block outwards, of every analyzed block on it the targets in source order, and of these the ones
with the hash and the id of the expression.
-/

namespace ScriptInference

/-- Where a target of a block stands. -/
def Expr.site (t : Expr) (block : String) : DefinitionSite := ⟨t.id, block, t.span⟩

/-- The assignment targets and loop variables of a block, in source order. -/
def Block.targets (b : Block) : List Expr := b.bindings.map Binding.target

/-- The targets of the blocks with this id. -/
def Chunk.targets (c : Chunk) (id : String) : List Expr :=
  c.blocks.flatMap fun b => if b.1.id = id then b.1.targets else []

namespace Document

/-- The targets with the hash and the id of the expression, along a chain of blocks and as far as
these are analyzed. -/
def definitionsAlong (d : Document) (chain : List String) (e : Expr) : List DefinitionSite :=
  chain.flatMap fun id =>
    if d.isAnalyzed id then
      ((d.chunk.targets id).filter fun t => t.hash = e.hash ∧ t.id = e.id).map (·.site id)
    else []

/-- The hasher is faithful, and the targets of the blocks of the log are recorded, in this order. -/
structure Recorded (d : Document) (log : List String) : Prop where
  faithful : d.hasher.Faithful
  definitions : d.definitions =
    log.flatMap fun id => (d.chunk.targets id).map fun t => (t.hash, t.site id)

/-- Only one entry of a list with distinct keys adds to the result. -/
theorem flatMap_eq_of_nodup {α β κ : Type} {key : α → κ} {l : List α} (distinct : (l.map key).Nodup)
    {a : α} (ha : a ∈ l) {f : α → List β} (others : ∀ x ∈ l, key x ≠ key a → f x = []) :
    l.flatMap f = f a := by
  induction l with
  | nil => cases ha
  | cons x rest ih =>
    rw [List.map_cons, List.nodup_cons] at distinct
    rw [List.flatMap_cons]
    rcases List.mem_cons.1 ha with rfl | ha
    · have none_later : rest.flatMap f = [] := by
        rw [List.flatMap_eq_nil_iff]
        intro y hy
        refine others y (List.mem_cons_of_mem _ hy) fun same => distinct.1 ?_
        exact same ▸ List.mem_map_of_mem hy
      rw [none_later, List.append_nil]
    · have none_here : f x = [] := by
        refine others x List.mem_cons_self fun same => distinct.1 ?_
        exact same ▸ List.mem_map_of_mem ha
      rw [none_here, List.nil_append]
      exact ih distinct.2 ha fun y hy => others y (List.mem_cons_of_mem _ hy)

section Recording
variable {d d' : Document} {log : List String} {bound : Nat} {s t : Store}

theorem targets_of_mem (distinct : d.blockIds.Nodup) {b : Block} {around : Option String}
    (listed : (b, around) ∈ d.chunk.blocks) : d.chunk.targets b.id = b.targets := by
  refine (flatMap_eq_of_nodup distinct listed fun x _ other => if_neg other).trans ?_
  exact if_pos rfl

theorem record_eq (faithful : d.hasher.Faithful) (block : String) (t : Expr) :
    ∃ hasher : Hasher, hasher.Faithful ∧
      d.record block t =
        { d with hasher, definitions := d.definitions ++ [(t.hash, t.site block)] } := by
  obtain ⟨h₁, first, faithful₁⟩ := Hasher.computes_id t d.hasher faithful
  obtain ⟨h₂, second, faithful₂⟩ := Hasher.computes_hash t h₁ faithful₁
  refine ⟨h₂, faithful₂, ?_⟩
  rw [record, first]
  dsimp only
  rw [second]
  rfl

theorem recordAll_eq (faithful : d.hasher.Faithful) (block : String) (targets : List Expr) :
    (d.recordAll block targets).hasher.Faithful ∧
      (d.recordAll block targets).definitions =
        d.definitions ++ targets.map fun t => (t.hash, t.site block) := by
  induction targets generalizing d with
  | nil => exact ⟨faithful, (List.append_nil _).symm⟩
  | cons t rest ih =>
    obtain ⟨hasher, faithful₁, recorded⟩ := record_eq faithful block t
    have later := ih (d := d.record block t) (by rw [recorded]; exact faithful₁)
    refine ⟨later.1, later.2.trans ?_⟩
    rw [recorded, List.map_cons, List.append_assoc]
    rfl

theorem Recorded.run (h : d.Recorded log) (distinct : d.blockIds.Nodup) {b : Block}
    {around : Option String} {chain : List String} (listed : (b, around) ∈ d.chunk.blocks)
    (ran : d.Ran b chain d') : d'.Recorded (log ++ [b.id]) := by
  obtain ⟨faithful, definitions⟩ := recordAll_eq h.faithful b.id b.targets
  constructor
  · rw [ran.hasher]
    exact faithful
  · rw [ran.definitions, ran.chunk, List.flatMap_append, List.flatMap_singleton,
      targets_of_mem distinct listed, ← h.definitions]
    exact definitions

theorem Recorded.runBlocks (h : d.Recorded log) (tracks : d.Tracks log) {ids : List String}
    (orderly : d.chunk.Orderly (log ++ ids))
    (run : Document.runBlocks ids d bound s = .ok (d', t)) : d'.Recorded (log ++ ids) := by
  induction ids generalizing d log s with
  | nil =>
    cases run
    rw [List.append_nil]
    exact h
  | cons id rest ih =>
    obtain ⟨block, around, chain, d₁, t₁, listed, rfl, ran, tracks₁, orderly₁, later⟩ :=
      tracks.runBlocks_cons orderly run
    rw [List.append_cons]
    exact ih (h.run tracks.distinct listed ran) tracks₁ orderly₁ later

theorem Recorded.serve (h : d.Recorded log) (tracks : d.Tracks log) {r : Request}
    (served : d.serve r bound s = .ok (.ok d', t)) : d'.Recorded (log ++ d.due r) := by
  rw [serve_eq tracks (known_of_served served), map_eq_pure_bind] at served
  obtain ⟨ran, t₁, run, later⟩ := Infer.bind_ok served
  cases later
  exact h.runBlocks tracks (tracks.orderly_due r) run

theorem Session.recorded {d₀ : Document} {s₀ : Store} (start : d₀.Tracks []) (h : d₀.Recorded [])
    {log : List LogEntry} (session : Session d₀ s₀ log d s) : d.Recorded (log.map Prod.fst) := by
  induction session with
  | start => exact h
  | served earlier traced ih =>
    have tracks := (earlier.continues start).tracks
    rw [List.map_append, tracks.map_fst_trace traced]
    exact ih.serve tracks (serve_of_trace traced)
  | refused earlier traced ih =>
    have tracks := (earlier.continues start).tracks
    rw [List.map_append, tracks.map_fst_trace traced, tracks.due_of_refused (serve_of_trace traced),
      List.append_nil]
    exact ih

end Recording

section Search
variable {d : Document} {log : List String}

/-- The part of the record that belongs to one block of the log. -/
theorem filter_sites (targets : List Expr) (e : Expr) (id block : String) :
    (((targets.map fun t => (t.hash, t.site block)).filter fun x => x.1 = e.hash).map (·.2)).filter
        (fun x => x.block = id && x.id = e.id) =
      if block = id then (targets.filter fun t => t.hash = e.hash ∧ t.id = e.id).map (·.site id)
      else [] := by
  rw [List.filter_map, List.filter_filter, List.filter_map, List.map_map]
  split
  · rename_i same
    subst same
    refine congrArg (List.map _) (List.filter_congr fun t _ => ?_)
    simp [Expr.site, Bool.and_comm]
  · rename_i other
    rw [List.map_eq_nil_iff, List.filter_eq_nil_iff]
    intro t _
    simp [Expr.site, other]

theorem Recorded.filter_block (h : d.Recorded log) (tracks : d.Tracks log) (e : Expr)
    (id : String) :
    ((d.definitions.filter fun x => x.1 = e.hash).map (·.2)).filter
      (fun x => x.block = id && x.id = e.id) = if d.isAnalyzed id then
        ((d.chunk.targets id).filter fun t => t.hash = e.hash ∧ t.id = e.id).map (·.site id)
      else [] := by
  rw [h.definitions, List.filter_flatMap, List.map_flatMap, List.filter_flatMap]
  simp only [filter_sites]
  by_cases analyzed : d.isAnalyzed id
  · have logged : id ∈ log := (tracks.analyzed id).1 (isAnalyzed_iff.1 analyzed)
    have distinct : (log.map fun x => x).Nodup := by
      rw [List.map_id']
      exact tracks.orderly.once
    rw [if_pos analyzed, flatMap_eq_of_nodup distinct logged fun x _ other => if_neg other,
      if_pos rfl]
  · have unlogged : id ∉ log :=
      fun logged => analyzed (isAnalyzed_iff.2 ((tracks.analyzed id).2 logged))
    rw [if_neg analyzed, List.flatMap_eq_nil_iff]
    intro block hblock
    exact if_neg fun same : block = id => unlogged (same ▸ hblock)

/-- With a faithful hasher a search compares true hashes and ids. -/
theorem findDefinitions_eq (faithful : d.hasher.Faithful) {id : String} {chain : List String}
    (visible : d.ancestors id = .ok chain) (e : Expr) :
    ∃ hasher : Hasher, hasher.Faithful ∧
      d.findDefinitions id e = (.ok (chain.flatMap fun b =>
        ((d.definitions.filter fun x => x.1 = e.hash).map (·.2)).filter
          fun x => x.block = b && x.id = e.id), { d with hasher }) := by
  obtain ⟨h₁, first, faithful₁⟩ := Hasher.computes_hash e d.hasher faithful
  obtain ⟨h₂, second, faithful₂⟩ := Hasher.computes_id e h₁ faithful₁
  rw [Document.findDefinitions, visible, first]
  dsimp only
  split
  · rename_i empty
    refine ⟨h₁, faithful₁, ?_⟩
    rw [List.isEmpty_iff.1 empty]
    simp
  · refine ⟨h₂, faithful₂, ?_⟩
    rw [second]

/-- A search in the chain of a known block. -/
theorem Recorded.findDefinitions (h : d.Recorded log) (tracks : d.Tracks log) {id : String}
    {chain : List String} (outward : d.chunk.Outward id chain) (e : Expr) :
    ∃ hasher : Hasher, hasher.Faithful ∧
      d.findDefinitions id e = (.ok (d.definitionsAlong chain e), { d with hasher }) := by
  have regrouped : d.definitionsAlong chain e = chain.flatMap fun b =>
      ((d.definitions.filter fun x => x.1 = e.hash).map (·.2)).filter
        fun x => x.block = b && x.id = e.id :=
    List.flatMap_congr fun b _ => (h.filter_block tracks e b).symm
  rw [regrouped]
  exact findDefinitions_eq h.faithful (ancestors_of_outward tracks.distinct outward) e

end Search

/-- In every session a search fails exactly for an unknown block. Otherwise it gives what a walk
over the chain of the block gives, and all that it changes is the hasher. -/
theorem findDefinitions_eq_walk {chunk : Chunk} {registry : TypeRegistry} {options : Options}
    {hasher : Hasher} {d : Document} {log : List LogEntry} {s₀ s : Store}
    (distinct : chunk.blockIds.Nodup) (faithful : hasher.Faithful)
    (session : Session (new chunk registry options hasher s₀).1
      (new chunk registry options hasher s₀).2 log d s)
    (id : String) (e : Expr) :
    (id ∉ chunk.blockIds → d.findDefinitions id e = (.error (.unknownBlock id), d)) ∧
    (id ∈ chunk.blockIds → ∃ chain after, chunk.Outward id chain ∧ Hasher.Faithful after ∧
      d.findDefinitions id e = (.ok (d.definitionsAlong chain e), { d with hasher := after })) := by
  have start := tracks_new distinct registry options hasher s₀
  have continued := session.continues start
  have recorded := session.recorded start ⟨faithful, rfl⟩
  have same : d.chunk = chunk := continued.chunk
  subst same
  constructor
  · intro unknown
    rw [findDefinitions, ancestors_of_unknown unknown]
  · intro known
    obtain ⟨chain, outward⟩ := exists_outward distinct known
    obtain ⟨after, faithful_after, found⟩ := recorded.findDefinitions continued.tracks outward e
    exact ⟨chain, after, outward, faithful_after, found⟩

theorem findDefinitions_eq_walk_nested :
    ∃ log d s, log.map Prod.fst = ["root", "f"] ∧ Session nestedStart.1 nestedStart.2 log d s ∧
      (d.findDefinitions "g" (.identifier "f" default)).1 = .ok [⟨"f", "root", default⟩] ∧
      (d.findDefinitions "h" (.identifier "f" default)).1 = .error (.unknownBlock "h") := by
  obtain ⟨log, d, s, ids, session⟩ := exists_session_nested
  have distinct : nestedProgram.blockIds.Nodup := by decide
  have continued := session.continues (tracks_new distinct _ _ _ _)
  have chunk : d.chunk = nestedProgram := continued.chunk
  have analyzed : ∀ id, d.isAnalyzed id = true ↔ id ∈ ["root", "f"] := fun id =>
    ids ▸ isAnalyzed_iff.trans (continued.tracks.analyzed id)
  have search := findDefinitions_eq_walk distinct (Hasher.faithful_new 1) session
  refine ⟨log, d, s, ids, session, ?_, ?_⟩
  · obtain ⟨chain, after, outward, -, found⟩ := (search "g" (.identifier "f" default)).2 (by decide)
    have walked : nestedStart.1.ancestors "g" = .ok ["g", "f", "root"] := rfl
    rw [ancestors_of_outward (d := nestedStart.1) distinct outward, Except.ok.injEq] at walked
    have root_targets : nestedProgram.targets "root" = [.identifier "f" default] := rfl
    have f_targets : nestedProgram.targets "f" = [.identifier "g" default] := rfl
    rw [found, walked, definitionsAlong, chunk]
    simp [analyzed, root_targets, f_targets, Expr.id, Expr.site, Expr.span]
  · rw [(search "h" (.identifier "f" default)).1 (by decide)]

end Document

end ScriptInference
