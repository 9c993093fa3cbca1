import ScriptInference.Proofs.Document.Appearance
import ScriptInference.Proofs.Registry.Seeding

/-!
# Conversations

A client of a document asks it to analyze blocks, and asks it what names and expressions mean, which
names are visible and where an expression is defined, in any order. It keeps the entities that it is
given until it drops them. Of an entity it sees the graph that can be reached from it.

Two programs that differ in places only are told apart by no conversation. As long as corresponding
blocks and expressions are asked for, the replies are the same up to places, and one conversation
comes to an end within a number of steps exactly if the other does.
-/

namespace ScriptInference

/-- What a client can ask of a document, and dropping an entity that it was given. -/
inductive Call where
  | request (r : Request)
  | resolve (id name : String)
  | resolveExpression (id : String) (e : Expr)
  | completions (id : String)
  | findDefinitions (id : String) (e : Expr)
  | drop (position : Nat)

inductive Reply where
  | done (r : Except DocumentError Unit)
  | entity (r : Except DocumentError Snapshot)
  | names (r : Except DocumentError Completions)
  | sites (r : Except DocumentError (List DefinitionSite))
  | dropped

/-- A client of a document, with the entities that it has been given and has not dropped. -/
structure Client where
  document : Document
  held : List Handle := []

namespace Client

open Infer

/-- Keeps an entity that was found, and looks at what can be reached from it. -/
def keep (k : Client) (r : Except DocumentError Handle) : Infer (Reply × Client) := do
  let s ← get
  return (.entity (r.map fun h => s.snapshot [h]), { k with held := Document.answer r ++ k.held })

def perform (k : Client) : Call → Infer (Reply × Client)
  | .request r => do
    let r ← k.document.serve r
    return (.done (r.map fun _ => ()), { k with document := k.document.after r })
  | .resolve id name => do k.keep (← k.document.resolve id name)
  | .resolveExpression id e => do k.keep (← k.document.resolveExpression id e)
  | .completions id => do return (.names (k.document.completions (← get) id), k)
  | .findDefinitions id e =>
    let found := k.document.findDefinitions id e
    return (.sites found.1, { k with document := found.2 })
  | .drop position => do
    releaseAll k.held[position]?.toList
    return (.dropped, { k with held := k.held.eraseIdx position })

def converse (k : Client) : List Call → Infer (List Reply × Client)
  | [] => return ([], k)
  | call :: rest => do
    let r ← k.perform call
    let rs ← r.2.converse rest
    return (r.1 :: rs.1, rs.2)

end Client

/-- The same call about corresponding blocks, and about expressions that differ in places only. -/
inductive Call.Parallel (N : Naming) : Call → Call → Prop
  | all : Parallel N (.request .all) (.request .all)
  | block {i i'} : N.tracked i i' → Parallel N (.request (.block i)) (.request (.block i'))
  | resolve {i i'} (name : String) : N.tracked i i' →
      Parallel N (.resolve i name) (.resolve i' name)
  | resolveExpression {i i' e e'} : N.tracked i i' → e.Parallel Naming.free.declared e' →
      Parallel N (.resolveExpression i e) (.resolveExpression i' e')
  | completions {i i'} : N.tracked i i' → Parallel N (.completions i) (.completions i')
  | findDefinitions {i i' e e'} : N.tracked i i' → e.Parallel Naming.free.declared e' →
      Parallel N (.findDefinitions i e) (.findDefinitions i' e')
  | drop (position : Nat) : Parallel N (.drop position) (.drop position)

/-- Replies that differ in lines and sources only. -/
inductive Reply.Alike (N : Naming) (c c' : Chunk) : Reply → Reply → Prop
  | done {r r'} : Document.Answers N (fun _ _ => True) r r' → Alike N c c' (.done r) (.done r')
  | entity {r r'} : Document.Answers N (fun g g' => g'.unplaced = g.unplaced) r r' →
      Alike N c c' (.entity r) (.entity r')
  | names {r r'} : Document.Answers N (fun m m' => m'.unlined = m.unlined) r r' →
      Alike N c c' (.names r) (.names r')
  | sites {r r'} : Document.Answers N (List.Forall₂ (Document.SameTarget c c')) r r' →
      Alike N c c' (.sites r) (.sites r')
  | dropped : Alike N c c' .dropped .dropped

namespace Document
variable {N : Naming} {c c' : Chunk} {z : Zone} {s s' : Store} {d d' : Document}

theorem answers_completions (aligned : N.Matches c c') (mirrors : Mirrors N c c' z s s' d d')
    {i i' : String} (tracked : N.tracked i i') :
    Answers N (fun m m' => m'.unlined = m.unlined) (d.completions s i) (d'.completions s' i') := by
  refine (answers_scope aligned mirrors tracked).map ?_
  rintro scope _ ⟨rfl, -⟩
  rw [mirrors.registry]
  exact mirrors.stores.unlined_completions _ _

end Document

namespace Client
variable {N : Naming} {c c' : Chunk} {z : Zone} {s s' : Store} {k k' : Client}

open Infer

/-- Clients that hold the same entities, of documents that know the same. -/
structure Mirrors (N : Naming) (c c' : Chunk) (z : Zone) (s s' : Store) (k k' : Client) : Prop where
  document : Document.Mirrors N c c' z s s' k.document k'.document
  held : k'.held = k.held
  made : ∀ h ∈ k.held, s.Made z h

/-- What a call or a conversation promises: replies that are alike, and clients that mirror each
other. -/
def Goes {α : Type} (N : Naming) (c c' : Chunk) (z : Zone) (s : Store) (alike : α → α → Prop)
    (r r' : α × Client) (t t' : Store) : Prop :=
  alike r.1 r'.1 ∧ ∃ z₁, z.Onward s z₁ t ∧ Mirrors N c c' z₁ t t' r.2 r'.2

theorem lockstep_keep (mirrors : Mirrors N c c' z s s' k k')
    {x x' : Infer (Except DocumentError Handle)}
    (hx : Lockstep s s' x x' (Document.Finds N c c' z s k.document k'.document)) :
    Lockstep s s' (x >>= k.keep) (x' >>= k'.keep) (Goes N c c' z s (Reply.Alike N c c')) := by
  refine hx.bind ?_
  rintro r r' t t' ⟨z₁, onward, document, answers⟩
  have held : Document.answer r' ++ k'.held = Document.answer r ++ k.held := by
    rw [mirrors.held]
    cases answers with
    | given both => rw [both.1]
    | _ => rfl
  refine .of_steps (fun _ => rfl) (fun _ => rfl) ⟨.entity ?_, z₁, onward, document, held,
    fun h hh => ?_⟩
  · refine answers.map ?_
    rintro h _ ⟨rfl, -⟩
    exact document.stores.unplaced_snapshot _
  · rcases List.mem_append.1 hh with hh | hh
    · cases answers with
      | given both =>
        obtain rfl := List.mem_singleton.1 hh
        exact both.2
      | _ => cases hh
    · exact onward.made (mirrors.made h hh)

theorem lockstep_perform (aligned : N.Matches c c') (mirrors : Mirrors N c c' z s s' k k')
    {call call' : Call} (h : call.Parallel N call') :
    Lockstep s s' (k.perform call) (k'.perform call') (Goes N c c' z s (Reply.Alike N c c')) := by
  have served : ∀ {r r' : Request}, Lockstep s s' (k.document.serve r) (k'.document.serve r')
      (Document.Ends N c c' z s k.document k'.document) →
      Lockstep s s' (k.perform (.request r)) (k'.perform (.request r'))
      (Goes N c c' z s (Reply.Alike N c c')) := by
    intro r r' hx
    refine hx.bind ?_
    rintro a a' t t' ⟨answers, z₁, onward, document⟩
    refine .of_steps (fun _ => rfl) (fun _ => rfl) ⟨.done (answers.map fun _ _ _ => trivial), z₁,
      onward, ?_⟩
    exact ⟨document, mirrors.held, fun h hh => onward.made (mirrors.made h hh)⟩
  cases h with
  | all => exact served (Document.lockstep_analyze aligned mirrors.document)
  | block tracked => exact served (Document.lockstep_analyzeBlock aligned mirrors.document tracked)
  | resolve name tracked =>
    exact lockstep_keep mirrors (Document.lockstep_resolve aligned mirrors.document tracked name)
  | resolveExpression tracked e =>
    exact lockstep_keep mirrors
      (Document.lockstep_resolveExpression aligned mirrors.document tracked e)
  | completions tracked =>
    have names := Document.answers_completions aligned mirrors.document tracked
    exact .of_steps (fun _ => rfl) (fun _ => rfl) ⟨.names names, z, .refl z s, mirrors⟩
  | findDefinitions tracked e =>
    obtain ⟨sites, document⟩ := Document.answers_findDefinitions aligned mirrors.document tracked e
    exact .of_steps (fun _ => rfl) (fun _ => rfl)
      ⟨.sites sites, z, .refl z s, document, mirrors.held, mirrors.made⟩
  | drop position =>
    have later : s.Later z.base (s.releaseAll k.held[position]?.toList) :=
      .of_nodes_eq (Store.nodes_releaseAll _ s)
    have twin := mirrors.document.stores.releaseAll k.held[position]?.toList
    unfold perform
    rw [mirrors.held]
    refine .bind_modify (.of_steps (fun _ => rfl) (fun _ => rfl) ⟨.dropped, z, .of_later later, ?_⟩)
    refine ⟨mirrors.document.mono (.of_later later) twin, rfl, fun h hh => ?_⟩
    exact (Zone.Onward.of_later later).made (mirrors.made h (List.mem_of_mem_eraseIdx hh))

theorem lockstep_converse (aligned : N.Matches c c') (mirrors : Mirrors N c c' z s s' k k')
    {calls calls' : List Call} (h : List.Forall₂ (Call.Parallel N) calls calls') :
    Lockstep s s' (k.converse calls) (k'.converse calls')
      (Goes N c c' z s (List.Forall₂ (Reply.Alike N c c'))) := by
  induction h generalizing z s s' k k' with
  | nil => exact .of_steps (fun _ => rfl) (fun _ => rfl) ⟨.nil, z, .refl z s, mirrors⟩
  | cons first _ ih =>
    refine (lockstep_perform aligned mirrors first).bind ?_
    rintro r r' t t' ⟨alike, z₁, onward, mirrors₁⟩
    refine (ih mirrors₁).bind ?_
    rintro rs rs' u u' ⟨others, z₂, onward', mirrors₂⟩
    exact .of_steps (fun _ => rfl) (fun _ => rfl) ⟨.cons alike others, z₂, onward.trans onward',
      mirrors₂⟩

end Client

/-- Documents of two programs over one catalog mirror each other when they are opened, and one is
opened exactly if the other is. -/
theorem Client.mirrors_ofCatalog {c : Chunk} {catalog : Catalog} {options : Options} {s₀ s : Store}
    {d : Document} (closed : s₀.Closed)
    (opened : Document.ofCatalog c (.ok catalog) options s₀ = .ok (d, s)) (N : Naming)
    (c' : Chunk) :
    (TypeRegistry.new catalog s₀).2.Later (TypeRegistry.new catalog s₀).2.size s ∧
      ∃ d' s', Document.ofCatalog c' (.ok catalog) options s₀ = .ok (d', s') ∧
        Mirrors N c c' ⟨(TypeRegistry.new catalog s₀).2.size, ∅⟩ s s' ⟨d, []⟩ ⟨d', []⟩ := by
  obtain ⟨read, hasher, same, faithful, opens⟩ := Document.exists_ofCatalog_eq opened
  cases same
  have here := opens c
  rw [opened] at here
  cases here
  have founded := TypeRegistry.founded_new catalog closed
  refine ⟨.alloc (Nat.le_refl _) Scope.newGlobals, _, _, opens c', ?_⟩
  exact ⟨Document.mirrors_new founded N c c' options faithful, rfl, fun h hh => nomatch hh⟩

/-- No conversation tells two programs apart that differ only in offsets, lines and ids. Given are a
catalog, options and a store to begin in, in which a document over the first program can be opened.
Then the second one can be opened too. Calls on corresponding blocks go in step, within any number
of steps: both conversations run out of them, or both end and their replies are alike. -/
theorem conversations_alike_of_parallel {c c' : Chunk} (same : c.Parallel c')
    (distinct : c.blockIds.Nodup) (distinct' : c'.blockIds.Nodup) {catalog : Catalog}
    {options : Options} {s₀ s : Store} {d : Document} (closed : s₀.Closed)
    (opened : Document.ofCatalog c (.ok catalog) options s₀ = .ok (d, s)) :
    ∃ d' s', Document.ofCatalog c' (.ok catalog) options s₀ = .ok (d', s') ∧ ∀ calls calls',
      List.Forall₂ (Call.Parallel (.zipped c.blockIds c'.blockIds distinct distinct')) calls
        calls' →
      Infer.Lockstep s s' (Client.converse ⟨d, []⟩ calls) (Client.converse ⟨d', []⟩ calls')
        fun r r' _ _ =>
        List.Forall₂ (Reply.Alike (.zipped c.blockIds c'.blockIds distinct distinct') c c') r.1
          r'.1 := by
  obtain ⟨-, d', s', opened', mirrors⟩ :=
    Client.mirrors_ofCatalog closed opened (.zipped c.blockIds c'.blockIds distinct distinct') c'
  refine ⟨d', s', opened', fun calls calls' parallel => ?_⟩
  have aligned := Naming.matches_zipped same distinct distinct'
  exact (Client.lockstep_converse aligned mirrors parallel).weaken fun _ _ _ _ goes => goes.1

/-- The program `a = {"k": true}; f = function(x = a) y = x end`, with ids and a line. -/
def placedProgram (root inner : String) (line : UInt64) : Chunk :=
  let p := { (default : Span) with line }
  let f := .mk [.withDefault "x" (.identifier "a" p) p]
    [.assign (.identifier "y" p) (.identifier "x" p) p] { p with id := inner }
  { body := [.assign (.identifier "a" p) (.map [(.string "k" p, .boolean true p)] p) p,
      .assign (.identifier "f" p) (.function f p) p]
    span := { p with id := root } }

theorem parallel_placedProgram (root root' inner inner' : String) (line line' : UInt64) :
    (placedProgram root inner line).Parallel (placedProgram root' inner' line') := by
  refine .cons (.assign _ _ (.identifier _ _ _) ?_)
    (.cons (.assign _ _ (.identifier _ _ _) ?_) .nil)
  · exact .map _ _ (.cons (.string _ _ _) (.boolean _ _ _) .nil)
  · refine .function _ _ (.mk trivial ?_ ?_)
    · exact .cons (.withDefault _ _ _ (.identifier _ _ _)) .nil
    · exact .cons (.assign _ _ (.identifier _ _ _) (.identifier _ _ _)) .nil

/-- The whole program is analyzed. Then it is asked, inside the function, what `y` and `a.k` mean,
which names are visible, and where `a` is defined. At last the entity of `y` is dropped. -/
def placedCalls (inner : String) (line : UInt64) : List Call :=
  let p := { (default : Span) with line }
  [.request .all, .resolve inner "y", .resolveExpression inner (.member (.identifier "a" p) "k" p),
    .completions inner, .findDefinitions inner (.identifier "a" p), .drop 1]

def Reply.isGranted : Reply → Bool
  | done r | entity r | names r | sites r => r.isOk
  | dropped => true

theorem conversations_alike_placed : ∃ d s d' s' r r' t t',
    Document.ofCatalog (placedProgram "root" "f" 1) (.ok {}) {} .empty = .ok (d, s) ∧
    Document.ofCatalog (placedProgram "main" "g" 7) (.ok {}) {} .empty = .ok (d', s') ∧
    Client.converse ⟨d, []⟩ (placedCalls "f" 1) 0 s = .ok (r, t) ∧
    Client.converse ⟨d', []⟩ (placedCalls "g" 7) 0 s' = .ok (r', t') ∧
      (r.1.take 4).all Reply.isGranted ∧
    List.Forall₂ (Reply.Alike
      (.zipped (placedProgram "root" "f" 1).blockIds (placedProgram "main" "g" 7).blockIds
        (by decide) (by decide))
      (placedProgram "root" "f" 1) (placedProgram "main" "g" 7)) r.1 r'.1 := by
  obtain ⟨d, s, opened⟩ : ∃ d s,
      Document.ofCatalog (placedProgram "root" "f" 1) (.ok {}) {} .empty = .ok (d, s) :=
    ⟨_, _, rfl⟩
  obtain ⟨d', s', opened', alike⟩ := conversations_alike_of_parallel
    (parallel_placedProgram "root" "main" "f" "g" 1 7) (by decide) (by decide) (by decide) opened
  have yields : (Client.converse ⟨d, []⟩ (placedCalls "f" 1)).yields 0 s fun r _ =>
      (r.1.take 4).all Reply.isGranted := by
    cases opened
    decide +kernel
  obtain ⟨r, t, ran, granted⟩ := Infer.exists_of_yields yields
  have parallel : List.Forall₂ (Call.Parallel (.zipped (placedProgram "root" "f" 1).blockIds
      (placedProgram "main" "g" 7).blockIds (by decide) (by decide)))
      (placedCalls "f" 1) (placedCalls "g" 7) := by
    have inside : ("f", "g") ∈ (placedProgram "root" "f" 1).blockIds.zip
        (placedProgram "main" "g" 7).blockIds := by
      decide
    exact .cons .all (.cons (.resolve "y" inside)
      (.cons (.resolveExpression inside (.member _ _ _ (.identifier _ _ _)))
        (.cons (.completions inside) (.cons (.findDefinitions inside (.identifier _ _ _))
          (.cons (.drop 1) .nil)))))
  rcases alike _ _ parallel 0 with ⟨u, u', failed, -⟩ | ⟨q, r', u, t', first, second, replies⟩
  · rw [ran] at failed
    cases failed
  · rw [ran] at first
    cases first
    exact ⟨d, s, d', s', r, r', t, t', opened, opened', ran, second, granted, replies⟩

end ScriptInference
