import ScriptInference.Proofs.Document.BlockRun

/-!
# Sessions with a document

A document is driven by requests to analyze a block or all blocks, in any order and as often as one
likes. A traced run answers a request in the same way and returns the blocks that it runs, each with
the bindings that were made. A session is a sequence of requests that have been answered, and its
log is what the traced runs returned. The main statement says what holds in every session over a
program whose block ids are distinct: the log is orderly, that is without repetitions and with every
block after those around it; it lists exactly the analyzed blocks; every scope stands where its
block stands; and a request runs exactly the blocks that are due, so that nothing happens once they
all have been run.
-/

namespace ScriptInference

variable {chain before : List String} {r : Request} {α β : Type} {ran : List LogEntry}
  {entry : LogEntry} {around : Option String} {e : DocumentError} {d₀ : Document}

/-- What a document can be asked to analyze. -/
inductive Request where
  | all
  | block (id : String)

/-- The ids were given to blocks of the program. -/
def Request.Known (c : Chunk) : Request → Prop
  | all => True
  | block id => id ∈ c.blockIds

/-- A log of blocks without repetitions, in which every block comes after those around it. -/
structure Chunk.Orderly (c : Chunk) (log : List String) : Prop where
  once : log.Nodup
  known : ∀ id ∈ log, id ∈ c.blockIds
  closed : ∀ id ∈ log, ∀ outer, c.Encloses outer id → outer ∈ log
  inward : log.Pairwise fun a b => ¬ c.Encloses b a

namespace Chunk.Orderly
variable {c : Chunk} {log : List String}

theorem nil (c : Chunk) : c.Orderly [] := by
  constructor <;> simp

/-- A block stands after every block around it. -/
theorem mem_before (orderly : c.Orderly log) {after : List String} {id outer : String}
    (split : log = before ++ id :: after) (encloses : c.Encloses outer id) (ne : outer ≠ id) :
    outer ∈ before := by
  have listed := orderly.closed id (by simp [split]) outer encloses
  have inward := orderly.inward
  rw [split] at listed inward
  rcases List.mem_append.1 listed with here | later
  · exact here
  rcases List.mem_cons.1 later with same | later
  · exact absurd same ne
  · have tail := (List.pairwise_append.1 inward).2.1
    exact absurd encloses ((List.pairwise_cons.1 tail).1 outer later)

/-- A log may be continued by blocks that are not in it, as long as these come after those around
them. -/
theorem append (orderly : c.Orderly log) {ids : List String} (once : ids.Nodup)
    (known : ∀ id ∈ ids, id ∈ c.blockIds) (fresh : ∀ id ∈ ids, id ∉ log)
    (closed : ∀ id ∈ ids, ∀ outer, c.Encloses outer id → outer ∈ log ∨ outer ∈ ids)
    (inward : ids.Pairwise fun a b => ¬ c.Encloses b a) : c.Orderly (log ++ ids) where
  once := by
    rw [List.nodup_append]
    refine ⟨orderly.once, once, ?_⟩
    rintro a ha b hb rfl
    exact fresh a hb ha
  known id hid := (List.mem_append.1 hid).elim (orderly.known id) (known id)
  closed id hid outer encloses := by
    rcases List.mem_append.1 hid with hid | hid
    · exact List.mem_append_left _ (orderly.closed id hid outer encloses)
    · exact List.mem_append.2 (closed id hid outer encloses)
  inward := by
    rw [List.pairwise_append]
    refine ⟨orderly.inward, inward, fun a ha b hb encloses => ?_⟩
    exact fresh b hb (orderly.closed a ha b encloses)

/-- A log that is orderly to its end was orderly when its first part had been run. -/
theorem of_append {ids : List String} (orderly : c.Orderly (log ++ ids))
    (closed : ∀ id ∈ log, ∀ outer, c.Encloses outer id → outer ≠ id) : c.Orderly log where
  once := (List.nodup_append.1 orderly.once).1
  known id hid := orderly.known id (List.mem_append_left _ hid)
  closed id hid outer encloses := by
    obtain ⟨before, after, split⟩ := List.append_of_mem hid
    have whole : log ++ ids = before ++ id :: (after ++ ids) := by simp [split]
    have earlier := orderly.mem_before whole encloses (closed id hid outer encloses)
    rw [split]
    exact List.mem_append_left _ earlier
  inward := (List.pairwise_append.1 orderly.inward).1

end Chunk.Orderly

namespace Document

open Infer

def serve (d : Document) : Request → Infer (Except DocumentError Document)
  | .all => d.analyze
  | .block id => d.analyzeBlock id

/-- Runs blocks one after the other, whether they are analyzed or not. -/
def runBlocks : List String → Document → Infer Document
  | [], d => return d
  | id :: rest, d =>
    match d.block? id, d.ancestors id with
    | some (block, _), .ok chain => do runBlocks rest (← d.runBlock block chain)
    | _, _ => runBlocks rest d

/-- The blocks that are still to be run for a request, in order. -/
def due (d : Document) : Request → List String
  | .all => d.blockIds.filter fun id => !d.isAnalyzed id
  | .block id =>
    match d.ancestors id with
    | .ok chain => (chain.filter fun id => !d.isAnalyzed id).reverse
    | .error _ => []

/-- Makes bindings, and returns them as they are made. -/
def traceBindings (env : Env) : List Binding → Resolve (List Binding)
  | [] => return []
  | b :: rest => do
    let _ ← env.run b
    return b :: (← traceBindings env rest)

/-- A block that was run, with the bindings that were made in it. -/
abbrev LogEntry := String × List Binding

def traceBlock (d : Document) (block : Block) (chain : List String) :
    Infer (LogEntry × Document) := do
  let (scope, d) ← scopeFor chain d
  let env := d.env scope
  let (made, functions) ← (do
    env.defineParameters block.parameters
    traceBindings env block.bindings : Resolve (List Binding)).run ∅
  let d := (block.bindings.map Binding.target).foldl (fun d t => d.record block.id t) d
  let d ← d.addFunctions functions.toList
  return ((block.id, made), { d with analyzed := d.analyzed.insert block.id })

def traceChain : List String → Document → Infer (List LogEntry × Document)
  | [], d => return ([], d)
  | id :: around, d => do
    let (log, ran) ← traceChain around d
    if d.isAnalyzed id then return (log, ran)
    else
      match d.block? id with
      | none => return (log, ran)
      | some (block, _) =>
        let (entry, ran) ← ran.traceBlock block (id :: around)
        return (log ++ [entry], ran)

def traceAnalysis (d : Document) (id : String) :
    Infer (List LogEntry × Except DocumentError Document) :=
  match d.ancestors id with
  | .error e => return ([], .error e)
  | .ok chain => do
    let (log, ran) ← traceChain chain d
    return (log, .ok ran)

def traceAll : List String → Document → Infer (List LogEntry × Except DocumentError Document)
  | [], d => return ([], .ok d)
  | id :: rest, d => do
    match ← d.traceAnalysis id with
    | (log, .error e) => return (log, .error e)
    | (log, .ok d) =>
      let (more, answer) ← traceAll rest d
      return (log ++ more, answer)

/-- Answers a request, and returns what was run for it. -/
def trace (d : Document) : Request → Infer (List LogEntry × Except DocumentError Document)
  | .all => traceAll d.blockIds d
  | .block id => d.traceAnalysis id

/-- The states of a document in the course of answered requests, with the log of what was run. Every
request has steps of its own. -/
inductive Session (d₀ : Document) (s₀ : Store) : List LogEntry → Document → Store → Prop
  | start : Session d₀ s₀ [] d₀ s₀
  | served {log ran : List LogEntry} {d d' : Document} {s t : Store} {r : Request} {bound : Nat} :
      Session d₀ s₀ log d s → d.trace r bound s = .ok ((ran, .ok d'), t) →
      Session d₀ s₀ (log ++ ran) d' t
  | refused {log ran : List LogEntry} {d : Document} {s t : Store} {r : Request} {bound : Nat}
      {e : DocumentError} :
      Session d₀ s₀ log d s → d.trace r bound s = .ok ((ran, .error e), t) →
      Session d₀ s₀ (log ++ ran) d t

section Traces
variable {d : Document}

/-- Each binding is made once and in order. -/
theorem traceBindings_eq (env : Env) (bindings : List Binding) :
    traceBindings env bindings = (fun _ => bindings) <$> runBindings env bindings := by
  induction bindings with
  | nil => simp [traceBindings, runBindings]
  | cons b rest ih => simp [traceBindings, runBindings, ih]

/-- A block is run by making each of its bindings once and in order. -/
theorem traceBlock_eq (d : Document) (block : Block) (chain : List String) :
    d.traceBlock block chain =
      (fun ran => ((block.id, block.bindings), ran)) <$> d.runBlock block chain := by
  simp [traceBlock, runBlock, traceBindings_eq]

/-- What the log says of blocks that are run. -/
def entries (d : Document) (ids : List String) : List LogEntry :=
  ids.filterMap fun id => (d.block? id).map fun b => (b.1.id, b.1.bindings)

theorem traceChain_eq (d : Document) (chain : List String) :
    traceChain chain d =
      (fun ran => (d.entries (chain.filter fun id => !d.isAnalyzed id).reverse, ran)) <$>
        runChain chain d := by
  induction chain with
  | nil => simp [traceChain, runChain, entries]
  | cons id around ih =>
    by_cases done : d.isAnalyzed id
    · simp [traceChain, runChain, ih, done]
    · cases found : d.block? id with
      | none => simp [traceChain, runChain, ih, done, found, entries]
      | some b => simp [traceChain, runChain, ih, done, found, entries, traceBlock_eq]

theorem traceAnalysis_eq (d : Document) (id : String) :
    d.traceAnalysis id =
      (fun answer => (d.entries (d.due (.block id)), answer)) <$> d.analyzeBlock id := by
  unfold traceAnalysis analyzeBlock due
  cases found : d.ancestors id with
  | error e => simp [found, entries]
  | ok chain => simp [found, traceChain_eq]

theorem snd_traceAll (ids : List String) (d : Document) :
    Prod.snd <$> traceAll ids d = analyzeAll ids d := by
  induction ids generalizing d with
  | nil => simp [traceAll, analyzeAll]
  | cons id rest ih =>
    simp only [traceAll, analyzeAll, traceAnalysis_eq, map_bind, bind_map_left]
    refine congrArg _ (funext fun answer => ?_)
    cases answer with
    | error e => simp
    | ok d' => simp [← ih d']

/-- Without what it returns besides, a traced run is the request itself. -/
theorem snd_trace (d : Document) (r : Request) : Prod.snd <$> d.trace r = d.serve r := by
  cases r with
  | all => exact snd_traceAll d.blockIds d
  | block id => simp [trace, serve, traceAnalysis_eq]

theorem serve_of_trace {bound : Nat} {s t : Store} {answer : Except DocumentError Document}
    (traced : d.trace r bound s = .ok ((ran, answer), t)) :
    d.serve r bound s = .ok (answer, t) := by
  rw [← snd_trace, map_eq_pure_bind, bind_of_ok traced]
  rfl

theorem entries_congr {d' : Document} (same : d'.chunk = d.chunk) (ids : List String) :
    d'.entries ids = d.entries ids := by
  simp [entries, block?, same]

theorem exists_block_of_mem_entries {ids : List String} (listed : entry ∈ d.entries ids) :
    ∃ block around, (block, around) ∈ d.chunk.blocks ∧ entry = (block.id, block.bindings) := by
  obtain ⟨id, -, found⟩ := List.mem_filterMap.1 listed
  obtain ⟨⟨block, around⟩, here, rfl⟩ := Option.map_eq_some_iff.1 found
  exact ⟨block, around, (block?_eq_some here).1, rfl⟩

theorem map_fst_entries (distinct : d.blockIds.Nodup) {ids : List String}
    (known : ∀ id ∈ ids, id ∈ d.blockIds) : (d.entries ids).map Prod.fst = ids := by
  induction ids with
  | nil => rfl
  | cons id rest ih =>
    obtain ⟨here, later⟩ := List.forall_mem_cons.1 known
    obtain ⟨⟨block, around⟩, listed, rfl⟩ := List.mem_map.1 here
    rw [entries, List.filterMap_cons, block?_of_mem distinct listed]
    exact congrArg _ (ih later)

end Traces

/-- What is known of a document in a session with the given log. -/
structure Tracks (d : Document) (log : List String) : Prop where
  distinct : d.blockIds.Nodup
  orderly : d.chunk.Orderly log
  analyzed : ∀ id, id ∈ d.analyzed ↔ id ∈ log
  present : ∀ id ∈ log, (d.scopes.get? id).isSome
  placed : d.WellPlaced

section Chains
variable {d : Document} {log : List String}

theorem ne_of_encloses (distinct : d.blockIds.Nodup) {outer id : String}
    (h : d.chunk.Encloses outer id) : outer ≠ id := by
  obtain ⟨chain, outward, inside⟩ := h
  rintro rfl
  exact not_mem_of_outward distinct outward inside

theorem idxOf_lt_of_encloses (distinct : d.blockIds.Nodup) {outer id : String}
    (h : d.chunk.Encloses outer id) : d.blockIds.idxOf outer < d.blockIds.idxOf id := by
  obtain ⟨chain, outward, inside⟩ := h
  exact idxOf_lt_of_mem_outward distinct outward inside

theorem mem_blockIds_of_encloses {outer id : String} (h : d.chunk.Encloses outer id) :
    outer ∈ d.blockIds := by
  obtain ⟨chain, outward, inside⟩ := h
  exact outward.mem_blockIds (List.mem_cons_of_mem _ inside)

variable (distinct : d.blockIds.Nodup)

include distinct

/-- Whatever encloses a block of a chain is in the chain. -/
theorem mem_of_encloses {id a outer : String} (outward : d.chunk.Outward id chain) (ha : a ∈ chain)
    (h : d.chunk.Encloses outer a) : outer ∈ chain := by
  obtain ⟨rest, here, sub⟩ := outward.of_mem ha
  obtain ⟨rest', here', inside⟩ := h
  have same := outward_unique distinct here here'
  rw [List.cons.injEq] at same
  rw [← same.2] at inside
  exact sub inside

/-- In a chain no block encloses one that comes after it. -/
theorem pairwise_outward {id : String} (outward : d.chunk.Outward id chain) :
    chain.Pairwise fun a b => d.blockIds.idxOf b < d.blockIds.idxOf a := by
  induction outward with
  | root listed => exact List.pairwise_singleton _ _
  | nested listed tail ih =>
    rw [List.pairwise_cons]
    exact ⟨fun a ha => idxOf_lt_of_mem_outward distinct (.nested listed tail) ha, ih⟩

theorem pairwise_blockIds : d.blockIds.Pairwise fun a b => ¬ d.chunk.Encloses b a := by
  rw [List.pairwise_iff_getElem]
  intro i j hi hj hij encloses
  have earlier := idxOf_lt_of_encloses distinct encloses
  rw [distinct.idxOf_getElem, distinct.idxOf_getElem] at earlier
  omega

end Chains

section Due
variable {d : Document} {log : List String}

theorem isAnalyzed_iff {id : String} : d.isAnalyzed id = true ↔ id ∈ d.analyzed := by
  simp [isAnalyzed]

namespace Tracks

theorem mem_filter (h : d.Tracks log) {l : List String} {id : String} :
    id ∈ l.filter (fun id => !d.isAnalyzed id) ↔ id ∈ l ∧ id ∉ log := by
  rw [List.mem_filter, Bool.not_eq_true', ← Bool.not_eq_true, isAnalyzed_iff, h.analyzed]

/-- A log may be continued by the blocks that are due. -/
theorem orderly_due (h : d.Tracks log) (r : Request) : d.chunk.Orderly (log ++ d.due r) := by
  cases r with
  | all =>
    rw [due]
    refine h.orderly.append (h.distinct.filter _) (fun id hid => (h.mem_filter.1 hid).1)
      (fun id hid => (h.mem_filter.1 hid).2) (fun id hid outer encloses => ?_)
      ((pairwise_blockIds h.distinct).filter _)
    by_cases logged : outer ∈ log
    · exact .inl logged
    · exact .inr (h.mem_filter.2 ⟨mem_blockIds_of_encloses encloses, logged⟩)
  | block id =>
    by_cases known : id ∈ d.blockIds
    · obtain ⟨chain, outward⟩ := exists_outward h.distinct known
      have decreasing := pairwise_outward h.distinct outward
      rw [due, ancestors_of_outward h.distinct outward]
      have listed : ∀ {a}, a ∈ (chain.filter fun id => !d.isAnalyzed id).reverse ↔
          a ∈ chain ∧ a ∉ log := by
        intro a
        rw [List.mem_reverse, h.mem_filter]
      refine h.orderly.append ?_ (fun a ha => outward.mem_blockIds (listed.1 ha).1)
        (fun a ha => (listed.1 ha).2) (fun a ha outer encloses => ?_) ?_
      · rw [List.nodup_reverse]
        exact (decreasing.imp fun lt same => by rw [same] at lt; omega).filter _
      · by_cases logged : outer ∈ log
        · exact .inl logged
        · exact .inr (listed.2 ⟨mem_of_encloses h.distinct outward (listed.1 ha).1 encloses,
            logged⟩)
      · rw [List.pairwise_reverse]
        refine (decreasing.imp fun lt encloses => ?_).filter _
        have gt := idxOf_lt_of_encloses h.distinct encloses
        omega
    · rw [due, ancestors_of_unknown known, List.append_nil]
      exact h.orderly

end Tracks

end Due

section Runs
variable {d d' : Document} {log : List String} {bound : Nat} {s t : Store}

theorem bind_congr_left {x y : Infer α} {f : α → Infer β} (agree : x bound s = y bound s) :
    (x >>= f) bound s = (y >>= f) bound s := by
  rw [bind_apply, bind_apply, agree]

/-- Sequences agree where their first parts are the same and their second parts agree on its
results. -/
theorem bind_congr_ok {x : Infer α} {f g : α → Infer β}
    (agree : ∀ a t, x bound s = .ok (a, t) → f a bound t = g a bound t) :
    (x >>= f) bound s = (x >>= g) bound s := by
  rw [bind_apply, bind_apply]
  cases hx : x bound s with
  | error t => rfl
  | ok r => exact agree r.1 r.2 hx

theorem runBlocks_append (first second : List String) (d : Document) :
    runBlocks (first ++ second) d = runBlocks first d >>= runBlocks second := by
  induction first generalizing d with
  | nil => simp [runBlocks]
  | cons id rest ih =>
    rw [List.cons_append, runBlocks, runBlocks]
    split
    · rw [bind_assoc]
      exact congrArg _ (funext fun d' => ih d')
    · exact ih d

/-- One block more. -/
theorem Tracks.run (h : d.Tracks log) {id : String} {chain : List String} {block : Block}
    (outward : d.chunk.Outward id chain) (orderly : d.chunk.Orderly (log ++ [id]))
    (here : block.id = id) (run : d.runBlock block chain bound s = .ok (d', t)) :
    d'.Tracks (log ++ [id]) := by
  have ran := ran_runBlock h.distinct outward h.placed run
  have chunk := ran.chunk
  refine ⟨?_, ?_, fun a => ?_, fun a ha => ?_, ran.placed⟩
  · rw [blockIds, chunk]
    exact h.distinct
  · rw [chunk]
    exact orderly
  · rw [ran.analyzed, SortedSet.mem_insert, h.analyzed, here, List.mem_append, List.mem_singleton,
      or_comm]
  · rcases List.mem_append.1 ha with ha | ha
    · obtain ⟨c, hc⟩ := Option.isSome_iff_exists.1 (h.present a ha)
      exact Option.isSome_iff_exists.2 ⟨c, ran.kept a c hc⟩
    · obtain ⟨rest, rfl⟩ := outward.cons_eq
      rw [List.mem_singleton.1 ha]
      exact ran.made

/-- What a run of several blocks keeps. -/
structure Continues (d : Document) (log : List String) (d' : Document) : Prop where
  tracks : d'.Tracks log
  chunk : d'.chunk = d.chunk
  globals : d'.globals = d.globals
  kept : ∀ id c, d.scopes.get? id = some c → d'.scopes.get? id = some c

/-- The first of several blocks is run, and then the others. -/
theorem Tracks.runBlocks_cons (h : d.Tracks log) {id : String} {rest : List String}
    (orderly : d.chunk.Orderly (log ++ id :: rest))
    (run : Document.runBlocks (id :: rest) d bound s = .ok (d', t)) :
    ∃ block around chain d₁ t₁, (block, around) ∈ d.chunk.blocks ∧ block.id = id ∧
      d.Ran block chain d₁ ∧ d₁.Tracks (log ++ [id]) ∧ d₁.chunk.Orderly (log ++ [id] ++ rest) ∧
      Document.runBlocks rest d₁ bound t₁ = .ok (d', t) := by
  have known : id ∈ d.blockIds := orderly.known id (by simp)
  obtain ⟨chain, outward⟩ := exists_outward h.distinct known
  obtain ⟨⟨block, around⟩, listed, here⟩ := List.mem_map.1 known
  have found : d.block? id = some (block, around) := here ▸ block?_of_mem h.distinct listed
  rw [Document.runBlocks, found, ancestors_of_outward h.distinct outward] at run
  obtain ⟨d₁, t₁, first, later⟩ := bind_ok run
  have ran := ran_runBlock h.distinct outward h.placed first
  rw [List.append_cons] at orderly
  have first_orderly : d.chunk.Orderly (log ++ [id]) :=
    orderly.of_append fun a _ outer encloses => ne_of_encloses h.distinct encloses
  refine ⟨block, around, chain, d₁, t₁, listed, here, ran, h.run outward first_orderly here first,
    ?_, later⟩
  rw [ran.chunk]
  exact orderly

theorem Tracks.runBlocks (h : d.Tracks log) {ids : List String}
    (orderly : d.chunk.Orderly (log ++ ids))
    (run : Document.runBlocks ids d bound s = .ok (d', t)) : d.Continues (log ++ ids) d' := by
  induction ids generalizing d log s with
  | nil =>
    cases run
    rw [List.append_nil]
    exact ⟨h, rfl, rfl, fun _ _ hc => hc⟩
  | cons id rest ih =>
    obtain ⟨block, around, chain, d₁, t₁, -, -, ran, tracks, orderly₁, later⟩ :=
      h.runBlocks_cons orderly run
    have continued := ih tracks orderly₁ later
    rw [List.append_cons]
    exact ⟨continued.tracks, continued.chunk.trans ran.chunk, continued.globals.trans ran.globals,
      fun a c hc => continued.kept a c (ran.kept a c hc)⟩

end Runs

section Requests
variable {d d' : Document} {log : List String} {bound : Nat} {s t : Store}

/-- A block that is not analyzed, run after those around it. -/
theorem runBlocks_singleton (distinct : d.blockIds.Nodup) {b : Block}
    (listed : (b, around) ∈ d.chunk.blocks) (outward : d.chunk.Outward b.id chain) :
    runBlocks [b.id] d = d.runBlock b chain := by
  rw [runBlocks, block?_of_mem distinct listed, ancestors_of_outward distinct outward]
  simp [runBlocks]

/-- One step outwards along a chain. -/
theorem runChain_cons (h : d.Tracks log) {b : Block} {ids : List String}
    (listed : (b, around) ∈ d.chunk.blocks) (outward : d.chunk.Outward b.id (b.id :: chain))
    (orderly : d.chunk.Orderly (log ++ ids))
    (outer : ∀ bound s, runChain chain d bound s = runBlocks ids d bound s) (bound : Nat)
    (s : Store) :
    runChain (b.id :: chain) d bound s =
      runBlocks (ids ++ [b.id].filter fun id => !d.isAnalyzed id) d bound s := by
  rw [runChain, bind_congr_left (outer bound s), runBlocks_append]
  refine bind_congr_ok fun ran t hran => ?_
  have continued := h.runBlocks orderly hran
  by_cases done : d.isAnalyzed b.id
  · simp [done, runBlocks]
  · rw [block?_of_mem h.distinct listed]
    simp only [done, Bool.not_false, List.filter_cons_of_pos, List.filter_nil]
    rw [runBlocks_singleton continued.tracks.distinct (continued.chunk ▸ listed)
      (continued.chunk ▸ outward)]
    rfl

/-- Running along a chain runs the blocks that are due, from the outermost inwards. -/
theorem runChain_eq (h : d.Tracks log) {id : String} (outward : d.chunk.Outward id chain)
    (bound : Nat) (s : Store) :
    runChain chain d bound s =
      runBlocks (chain.filter fun id => !d.isAnalyzed id).reverse d bound s := by
  induction outward generalizing bound s with
  | @root b listed =>
    have orderly : d.chunk.Orderly (log ++ []) := by
      rw [List.append_nil]
      exact h.orderly
    rw [runChain_cons h listed (.root listed) orderly (fun _ _ => rfl)]
    by_cases done : d.isAnalyzed b.id <;> simp [done]
  | @nested b around chain listed tail ih =>
    have orderly := h.orderly_due (.block around)
    rw [due, ancestors_of_outward h.distinct tail] at orderly
    rw [runChain_cons h listed (.nested listed tail) orderly ih]
    by_cases done : d.isAnalyzed b.id <;> simp [done]

theorem analyzeBlock_of_unknown {id : String} (unknown : id ∉ d.blockIds) :
    d.analyzeBlock id = pure (.error (.unknownBlock id)) := by
  rw [analyzeBlock, ancestors_of_unknown unknown]

section
variable (h : d.Tracks log)

include h

theorem analyzeBlock_eq {id : String} (known : id ∈ d.blockIds) (bound : Nat) (s : Store) :
    d.analyzeBlock id bound s = (.ok <$> runBlocks (d.due (.block id)) d) bound s := by
  obtain ⟨chain, outward⟩ := exists_outward h.distinct known
  rw [analyzeBlock, due, ancestors_of_outward h.distinct outward, map_eq_pure_bind]
  exact bind_congr_left (runChain_eq h outward bound s)

/-- Where the blocks listed before a block have been run, no other block is due for it. -/
theorem due_of_listed {after : List String} {id : String}
    (split : d.blockIds = before ++ id :: after) (done : ∀ a ∈ before, a ∈ log) :
    d.due (.block id) = [id].filter fun id => !d.isAnalyzed id := by
  have known : id ∈ d.blockIds := by simp [split]
  obtain ⟨chain, outward⟩ := exists_outward h.distinct known
  obtain ⟨outer, rfl⟩ := outward.cons_eq
  have run : ∀ a ∈ outer, a ∈ log := by
    intro a ha
    have earlier := idxOf_lt_of_mem_outward h.distinct outward ha
    have here : d.blockIds.idxOf id = before.length := by
      have fresh : id ∉ before := by
        intro hid
        have distinct := h.distinct
        rw [split] at distinct
        exact (List.nodup_append.1 distinct).2.2 id hid id List.mem_cons_self rfl
      rw [split, List.idxOf_append_of_notMem fresh, List.idxOf_cons_self, Nat.add_zero]
    rw [here] at earlier
    by_contra unlogged
    have outside : a ∉ before := fun hb => unlogged (done a hb)
    rw [split, List.idxOf_append_of_notMem outside] at earlier
    omega
  have none_due : outer.filter (fun id => !d.isAnalyzed id) = [] := by
    rw [List.filter_eq_nil_iff]
    intro a ha
    simp [isAnalyzed_iff.2 ((h.analyzed a).2 (run a ha))]
  rw [due, ancestors_of_outward h.distinct outward]
  by_cases analyzed : d.isAnalyzed id <;> simp [analyzed, none_due]

/-- Analyzing the blocks in the order of their list runs those that are due, each at its turn. -/
theorem traceAll_eq {ids : List String} (split : d.blockIds = before ++ ids)
    (done : ∀ a ∈ before, a ∈ log) (bound : Nat) (s : Store) :
    traceAll ids d bound s =
      ((fun ran => (d.entries (ids.filter fun id => !d.isAnalyzed id), .ok ran)) <$>
        runBlocks (ids.filter fun id => !d.isAnalyzed id) d) bound s := by
  induction ids generalizing d log before s with
  | nil => rfl
  | cons id rest ih =>
    have known : id ∈ d.blockIds := by simp [split]
    have orderly := h.orderly_due (.block id)
    rw [due_of_listed h split done] at orderly
    have parts : (id :: rest).filter (fun id => !d.isAnalyzed id) =
        [id].filter (fun id => !d.isAnalyzed id) ++ rest.filter fun id => !d.isAnalyzed id := by
      rw [← List.filter_append, List.singleton_append]
    rw [traceAll, traceAnalysis_eq, bind_map_left,
      bind_congr_left (analyzeBlock_eq h known bound s),
      due_of_listed h split done, parts, runBlocks_append, map_bind, map_eq_pure_bind, bind_assoc]
    refine bind_congr_ok fun d₁ t first => ?_
    have continued := h.runBlocks orderly first
    have logged : ∀ a, a ∈ log ++ [id].filter (fun id => !d.isAnalyzed id) ↔ a ∈ log ∨ a = id := by
      intro a
      rw [List.mem_append, h.mem_filter, List.mem_singleton]
      tauto
    have split₁ : d₁.blockIds = before ++ [id] ++ rest := by
      rw [blockIds, continued.chunk, List.append_assoc]
      exact split
    have done₁ : ∀ a ∈ before ++ [id], a ∈ log ++ [id].filter fun id => !d.isAnalyzed id := by
      intro a ha
      rw [logged]
      exact (List.mem_append.1 ha).imp (done a) List.mem_singleton.1
    have fresh : id ∉ rest := by
      have distinct := h.distinct
      rw [split] at distinct
      exact (List.nodup_cons.1 (List.nodup_append.1 distinct).2.1).1
    have same : rest.filter (fun id => !d₁.isAnalyzed id) = rest.filter
        fun id => !d.isAnalyzed id := by
      refine List.filter_congr fun a ha => ?_
      have ne : a ≠ id := fun same => fresh (same ▸ ha)
      have agree : d₁.isAnalyzed a = true ↔ d.isAnalyzed a = true := by
        rw [isAnalyzed_iff, isAnalyzed_iff, continued.tracks.analyzed, h.analyzed, logged]
        tauto
      rw [Bool.eq_iff_iff.2 agree]
    rw [pure_bind]
    dsimp only
    rw [bind_congr_left (ih continued.tracks split₁ done₁ t), same, entries_congr continued.chunk,
      bind_map_left]
    simp [entries]

/-- A request for known blocks runs the blocks that are due and is granted. -/
theorem serve_eq (known : r.Known d.chunk) (bound : Nat) (s : Store) :
    d.serve r bound s = (.ok <$> runBlocks (d.due r) d) bound s := by
  cases r with
  | all =>
    have traced := traceAll_eq h (List.nil_append _).symm (fun _ ha => by cases ha) bound s
    rw [← snd_trace, trace, map_eq_pure_bind, bind_congr_left traced]
    simp [due]
  | block id => exact analyzeBlock_eq h known bound s

/-- What a traced run returns are the blocks that are due. -/
theorem Tracks.trace {answer : Except DocumentError Document}
    (traced : d.trace r bound s = .ok ((ran, answer), t)) : ran = d.entries (d.due r) := by
  cases r with
  | all =>
    rw [Document.trace, traceAll_eq h (List.nil_append _).symm (fun _ ha => by cases ha),
      map_eq_pure_bind] at traced
    obtain ⟨_, _, -, later⟩ := bind_ok traced
    cases later
    rfl
  | block id =>
    rw [Document.trace, traceAnalysis_eq, map_eq_pure_bind] at traced
    obtain ⟨_, _, -, later⟩ := bind_ok traced
    cases later
    rfl

theorem Tracks.map_fst_trace {answer : Except DocumentError Document}
    (traced : d.trace r bound s = .ok ((ran, answer), t)) : ran.map Prod.fst = d.due r := by
  rw [h.trace traced]
  exact map_fst_entries h.distinct fun id hid =>
    (h.orderly_due r).known id (List.mem_append_right _ hid)

end

theorem serve_unknown {id : String} (unknown : id ∉ d.blockIds) (bound : Nat) (s : Store) :
    d.serve (.block id) bound s = .ok (.error (.unknownBlock id), s) := by
  rw [serve, analyzeBlock_of_unknown unknown]
  rfl

/-- Nothing is due for any request once all blocks have been run. -/
theorem due_of_complete (h : d.Tracks log) (complete : ∀ id ∈ d.blockIds, id ∈ log) (r : Request) :
    d.due r = [] := by
  have orderly := h.orderly_due r
  rw [List.eq_nil_iff_forall_not_mem]
  intro id hid
  have known := orderly.known id (List.mem_append_right _ hid)
  exact (List.nodup_append.1 orderly.once).2.2 id (complete id known) id hid rfl

/-- What a request for known blocks leaves behind. -/
theorem Tracks.serve (h : d.Tracks log) (known : r.Known d.chunk)
    (served : d.serve r bound s = .ok (.ok d', t)) : d.Continues (log ++ d.due r) d' := by
  rw [serve_eq h known, map_eq_pure_bind] at served
  obtain ⟨ran, t₁, run, later⟩ := bind_ok served
  cases later
  exact h.runBlocks (h.orderly_due r) run

/-- A request that is granted was for known blocks. -/
theorem known_of_served (served : d.serve r bound s = .ok (.ok d', t)) : r.Known d.chunk := by
  cases r with
  | all => trivial
  | block id =>
    by_contra unknown
    rw [serve_unknown unknown] at served
    cases served

theorem unknown_of_refused (h : d.Tracks log) (refused : d.serve r bound s = .ok (.error e, t)) :
    ¬ r.Known d.chunk := by
  intro known
  rw [serve_eq h known, map_eq_pure_bind] at refused
  obtain ⟨ran, t₁, run, later⟩ := bind_ok refused
  cases later

/-- A request that is refused runs nothing. -/
theorem Tracks.due_of_refused (h : d.Tracks log) (refused : d.serve r bound s = .ok (.error e, t)) :
    d.due r = [] := by
  have unknown := unknown_of_refused h refused
  cases r with
  | all => exact absurd trivial unknown
  | block id => rw [due, ancestors_of_unknown unknown]

end Requests

section Sessions
variable {d : Document} {log : List LogEntry} {s₀ s : Store}

theorem tracks_new {chunk : Chunk} (distinct : chunk.blockIds.Nodup) (registry : TypeRegistry)
    (options : Options)
    (hasher : Hasher) (s₀ : Store) : (new chunk registry options hasher s₀).1.Tracks [] where
  distinct := distinct
  orderly := .nil chunk
  analyzed id := by simpa [new] using SortedSet.not_mem_empty id
  present _ hid := by cases hid
  placed _ _ hc := by cases hc

/-- The document and its log at every point of a session. The induction is on the requests
answered. -/
theorem Session.continues (start : d₀.Tracks []) (session : Session d₀ s₀ log d s) :
    d₀.Continues (log.map Prod.fst) d := by
  induction session with
  | start => exact ⟨start, rfl, rfl, fun _ _ hc => hc⟩
  | served _ traced ih =>
    have served := serve_of_trace traced
    have next := ih.tracks.serve (known_of_served served) served
    rw [List.map_append, ih.tracks.map_fst_trace traced]
    exact ⟨next.tracks, next.chunk.trans ih.chunk, next.globals.trans ih.globals,
      fun id c hc => next.kept id c (ih.kept id c hc)⟩
  | refused _ traced ih =>
    rw [List.map_append, ih.tracks.map_fst_trace traced,
      ih.tracks.due_of_refused (serve_of_trace traced), List.append_nil]
    exact ih

/-- Every entry of the log has the bindings of its block. -/
theorem Session.exists_block (start : d₀.Tracks []) (session : Session d₀ s₀ log d s)
    (listed : entry ∈ log) :
    ∃ block around, (block, around) ∈ d₀.chunk.blocks ∧ entry = (block.id, block.bindings) := by
  have more : ∀ {log ran d s t r bound answer}, Session d₀ s₀ log d s →
      d.trace r bound s = .ok ((ran, answer), t) → entry ∈ ran →
      ∃ block around, (block, around) ∈ d₀.chunk.blocks ∧ entry = (block.id, block.bindings) := by
    intro log ran d s t r bound answer before traced listed
    have continued := before.continues start
    rw [continued.tracks.trace traced] at listed
    exact continued.chunk ▸ exists_block_of_mem_entries listed
  induction session with
  | start => cases listed
  | served before traced ih | refused before traced ih =>
    exact (List.mem_append.1 listed).elim ih (more before traced)

end Sessions

/-- What holds at every point of a session with a new document. Blocks are run once, with all their
bindings in order, and after those around them; the analyzed blocks are the blocks that were run.
Every scope shares the globals and lies in the scope of the block around it, the root scope has the
globals as its locals, and analyzed blocks have scopes. A request fails only for an unknown id, and
then leaves everything as it is; otherwise it runs the blocks that are due and keeps all scopes.
After a request for all blocks every block is analyzed, and then a request for known blocks does
nothing. -/
theorem session_invariant {chunk : Chunk} {registry : TypeRegistry} {options : Options}
    {hasher : Hasher} {d : Document} {log : List LogEntry} {s₀ s : Store}
    (distinct : chunk.blockIds.Nodup)
    (session : Session (new chunk registry options hasher s₀).1
      (new chunk registry options hasher s₀).2 log d s) :
    d.chunk = chunk ∧ d.globals = (new chunk registry options hasher s₀).1.globals ∧
    (log.map Prod.fst).Nodup ∧ (∀ id, d.isAnalyzed id ↔ id ∈ log.map Prod.fst) ∧
    (∀ before id made after, log = before ++ (id, made) :: after →
      (∃ block around, (block, around) ∈ chunk.blocks ∧ block.id = id ∧ made = block.bindings) ∧
      ∀ outer, chunk.Encloses outer id → outer ∈ before.map Prod.fst) ∧
    (∀ id outer, d.isAnalyzed id → chunk.Encloses outer id → d.isAnalyzed outer) ∧
    (∀ id, d.isAnalyzed id → ∃ c, d.scopes.get? id = some c) ∧
    (∀ id c, d.scopes.get? id = some c → d.Placed id c) ∧
    (∀ id, id ∉ chunk.blockIds → ∀ bound,
      d.serve (.block id) bound s = .ok (.error (.unknownBlock id), s)) ∧
    (∀ r, Prod.snd <$> d.trace r = d.serve r) ∧
    (∀ r bound ran answer t, d.trace r bound s = .ok ((ran, answer), t) →
      ran.map Prod.fst = d.due r) ∧
    (∀ r : Request, r.Known chunk → ∀ bound,
      d.serve r bound s = (.ok <$> runBlocks (d.due r) d) bound s ∧
      (∀ e t, d.serve r bound s ≠ .ok (.error e, t)) ∧
      ∀ d' t, d.serve r bound s = .ok (.ok d', t) →
        (∀ id c, d.scopes.get? id = some c → d'.scopes.get? id = some c) ∧
        (∀ id, d'.isAnalyzed id ↔ d.isAnalyzed id ∨ id ∈ d.due r)) ∧
    (∀ bound d' t, d.serve .all bound s = .ok (.ok d', t) →
      ∀ id ∈ chunk.blockIds, d'.isAnalyzed id) ∧
    ((∀ id ∈ chunk.blockIds, d.isAnalyzed id) → ∀ r : Request, r.Known chunk → ∀ bound,
      d.serve r bound s = .ok (.ok d, s)) := by
  have start := tracks_new distinct registry options hasher s₀
  have continued := session.continues start
  have tracks := continued.tracks
  have same : d.chunk = chunk := continued.chunk
  subst same
  have analyzed_iff : ∀ id, d.isAnalyzed id ↔ id ∈ log.map Prod.fst := fun id =>
    isAnalyzed_iff.trans (tracks.analyzed id)
  have grown : ∀ {r : Request} {bound d' t}, r.Known d.chunk → d.serve r bound s = .ok (.ok d', t) →
      ∀ id, d'.isAnalyzed id ↔ d.isAnalyzed id ∨ id ∈ d.due r := by
    intro r bound d' t known served id
    rw [isAnalyzed_iff, (tracks.serve known served).tracks.analyzed, List.mem_append, analyzed_iff]
  refine ⟨rfl, continued.globals, tracks.orderly.once, analyzed_iff, ?_, ?_, ?_, tracks.placed,
    fun id unknown bound => serve_unknown unknown bound s, d.snd_trace,
    fun r bound ran answer t traced => tracks.map_fst_trace traced, ?_, ?_, ?_⟩
  · intro before id made after split
    have logged : (id, made) ∈ log := by simp [split]
    obtain ⟨block, around, listed, same⟩ := session.exists_block start logged
    obtain ⟨rfl, rfl⟩ := Prod.mk.inj same
    refine ⟨⟨block, around, continued.chunk ▸ listed, rfl, rfl⟩, fun outer encloses => ?_⟩
    have split' : log.map Prod.fst = before.map Prod.fst ++ block.id :: after.map Prod.fst := by
      simp [split]
    exact tracks.orderly.mem_before split' encloses (ne_of_encloses distinct encloses)
  · intro id outer analyzed encloses
    rw [analyzed_iff] at analyzed ⊢
    exact tracks.orderly.closed id analyzed outer encloses
  · intro id analyzed
    exact Option.isSome_iff_exists.1 (tracks.present id ((analyzed_iff id).1 analyzed))
  · intro r known bound
    refine ⟨serve_eq tracks known bound s, fun e t refused => ?_, fun d' t served => ?_⟩
    · exact unknown_of_refused tracks refused known
    · exact ⟨(tracks.serve known served).kept, grown known served⟩
  · intro bound d' t served id known
    rw [grown (r := .all) trivial served]
    by_cases analyzed : d.isAnalyzed id
    · exact .inl analyzed
    · rw [analyzed_iff] at analyzed
      exact .inr (tracks.mem_filter.2 ⟨known, analyzed⟩)
  · intro complete r known bound
    have logged : ∀ id ∈ d.blockIds, id ∈ log.map Prod.fst :=
      fun id hid => (analyzed_iff id).1 (complete id hid)
    rw [serve_eq tracks known, due_of_complete tracks logged]
    rfl

/-- The program `f = function; g = function; end; end`, with ids of its own for the three blocks. -/
def nestedProgram : Chunk :=
  let g := .mk [] [] { (default : Span) with id := "g" }
  let f := .mk [] [.assign (.identifier "g" default) (.function g default) default]
    { (default : Span) with id := "f" }
  { body := [.assign (.identifier "f" default) (.function f default) default]
    span := { (default : Span) with id := "root" } }

/-- A new document over the program, in a store of its own. -/
def nestedStart : Document × Store := new nestedProgram { catalog := {} } {} (.new 1) .empty

theorem exists_session_nested :
    ∃ log d s, log.map Prod.fst = ["root", "f"] ∧ Session nestedStart.1 nestedStart.2 log d s := by
  have granted : ∃ log d s, log.map Prod.fst = ["root", "f"] ∧
      nestedStart.1.trace (.block "f") 0 nestedStart.2 = .ok ((log, .ok d), s) :=
      ⟨_, _, _, rfl, rfl⟩
  obtain ⟨log, d, s, ids, traced⟩ := granted
  exact ⟨log, d, s, ids, .served .start traced⟩

theorem session_invariant_nested :
    ∃ log d s, log.map Prod.fst = ["root", "f"] ∧ Session nestedStart.1 nestedStart.2 log d s ∧
      d.isAnalyzed "root" ∧ ¬ d.isAnalyzed "g" ∧
      d.serve (.block "h") 0 s = .ok (.error (.unknownBlock "h"), s) ∧
      ∀ e t, d.serve .all 0 s ≠ .ok (.error e, t) := by
  obtain ⟨log, d, s, ids, session⟩ := exists_session_nested
  have distinct : nestedProgram.blockIds.Nodup := by decide
  obtain ⟨-, -, -, analyzed, -, -, -, -, unknown, -, -, known, -, -⟩ :=
    session_invariant distinct session
  refine ⟨log, d, s, ids, session, ?_, ?_, unknown "h" (by decide) 0, (known .all trivial 0).2.1⟩
  · simp [analyzed, ids]
  · simp [analyzed, ids]

end Document

end ScriptInference
