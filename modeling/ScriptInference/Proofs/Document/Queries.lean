import ScriptInference.Proofs.Document.Workspace

/-!
# What a query leaves as it was

Resolving an expression in a document runs the same code as its analysis, and it hands out stored
entities, not copies. No member, type or signature of a stored entity is ever changed by it, nor
does any entity die. But a constructor of a map prepares what is stored in its fields: a map or list
without a label is labelled with the name of the field, and a function gets the new map as its
context, even if it belongs to the document. Expressions that store nothing but what they construct
themselves leave the store as it was, and so does the resolution of a name. The definitions of an
expression are read off the document, and completions are read off the store.
-/

namespace ScriptInference

namespace Document

open Infer Store

/-- In every workspace, a query to a document leaves each entity of the store as it was, up to empty
labels of maps and lists and the contexts of functions. If it is a name or a quiet expression that
is resolved, each entity stays the same. The search for definitions does not even read the store. -/
theorem queries_restyle_at_most {d : Document} {ds : Multiset Document} {held : Multiset Handle}
    {s : Store} (w : Workspace (d ::ₘ ds) held s) (id : String) (e : Expr) (name : String) :
    (∀ bound r t, d.resolveExpression id e bound s = .ok (r, t) →
      (∀ n ∈ s, (s.node n).Restyled (t.node n) ∧ t.live n = s.live n) ∧
      (e.quiet → s.PreservedIn t)) ∧
    (∀ bound r t, d.resolve id name bound s = .ok (r, t) → s.PreservedIn t) ∧
    (d.findDefinitions id e).2 = { d with hasher := (d.findDefinitions id e).2.hasher } := by
  have sound := w.accounts.sound
  have alive {strict : Prop} : ∀ h ∈ d.holds, (Discipline.ledger s strict).Anchored 0 h :=
    fun h hh => .of_live (w.live_of_mem_holds hh)
  refine ⟨fun bound r t resolved => ?_,
    fun bound r t resolved => ?_, findDefinitions_document d id e⟩
  · have frame := ((balanced_resolveExpression alive (.start sound (e.quiet = true)) id
      fun quiet => quiet).runs bound r t resolved).1
    refine ⟨fun n hn => ⟨frame.restyled n hn, frame.live_eq hn⟩, fun quiet => ?_⟩
    exact ⟨frame.size_le, frame.same quiet, fun n hn => frame.live_eq hn⟩
  · have frame := ((balanced_resolve alive (.start sound True) id name).runs bound r t resolved).1
    exact frame.preservedIn

end Document

/-- Whether a computation has a result and a store that pass a test. -/
def Infer.yields {α : Type} (x : Infer α) (bound : Nat) (s : Store) (test : α → Store → Bool) :
    Bool :=
  match x bound s with
  | .ok (a, t) => test a t
  | .error _ => false

theorem Infer.exists_of_yields {α : Type} {x : Infer α} {bound : Nat} {s : Store}
    {test : α → Store → Bool} (h : x.yields bound s test) :
    ∃ a t, x bound s = .ok (a, t) ∧ test a t := by
  unfold yields at h
  split at h
  · rename_i a t ran
    exact ⟨a, t, ran, h⟩
  · cases h

namespace Document

open Infer Store

/-- Whether a request is granted with a result and a store that pass a test. -/
def grants {α : Type} (x : Infer (Except DocumentError α)) (s : Store) (test : α → Store → Bool) :
    Bool :=
  match x 0 s with
  | .ok (.ok a, t) => test a t
  | _ => false

theorem exists_of_grants {α : Type} {x : Infer (Except DocumentError α)} {test : α → Store → Bool}
    {s : Store} (h : grants x s test) : ∃ a t, x 0 s = .ok (.ok a, t) ∧ test a t := by
  unfold grants at h
  split at h
  · rename_i a t granted
    exact ⟨a, t, granted, h⟩
  · cases h

/-- The expression `a[true]`. -/
def shelfEntry : Expr := .index (.identifier "a" default) (.boolean true default) default

/-- The program `a = {}; a[true] = {}; o = {"f": function}`. -/
def shelfProgram : Chunk :=
  let f := .function (.mk [] [] { (default : Span) with id := "f" }) default
  { body := [.assign (.identifier "a" default) (.map [] default) default,
      .assign shelfEntry (.map [] default) default,
      .assign (.identifier "o" default) (.map [(.string "f" default, f)] default) default]
    span := { (default : Span) with id := "root" } }

/-- The expression `{"k": a[true], "g": @o.f}`. -/
def shelfQuery : Expr :=
  let f := .unary .reference (.member (.identifier "o" default) "f" default) default
  .map [(.string "k" default, shelfEntry), (.string "g" default, f)] default

/-- A document over the program has been opened and analysed. The map in `a` is then the third
entity of the store and has no label. The function is the seventh, and belongs to the map in `o`. -/
theorem exists_workspace_shelf :
    ∃ d s, Workspace {d} 0 s ∧
    (∃ t, d.resolveExpression "root" shelfEntry 0 s = .ok (.ok ⟨2⟩, t)) ∧
    ∃ r t, d.resolveExpression "root" shelfQuery 0 s = .ok (.ok r, t) ∧
      (∀ n ∈ ([⟨2⟩, ⟨6⟩] : List Handle), n ∈ (s.discover s.edges d.holds).toList) ∧
      (s.node ⟨2⟩).label = "" ∧ (t.node ⟨2⟩).label = "k" ∧
      s.context? ⟨6⟩ = some ⟨4⟩ ∧ t.context? ⟨6⟩ = some r ∧ r ∉ s := by
  obtain ⟨d₀, s₀, opened⟩ : ∃ d s, ofCatalog shelfProgram (.ok {}) {} .empty = .ok (d, s) :=
    ⟨_, _, rfl⟩
  have granted : grants (d₀.serve (.block "root")) s₀ fun d s =>
      grants (d.resolveExpression "root" shelfEntry) s (fun r _ => r = ⟨2⟩) &&
      grants (d.resolveExpression "root" shelfQuery) s fun r t =>
        (∀ n ∈ ([⟨2⟩, ⟨6⟩] : List Handle), n ∈ (s.discover s.edges d.holds).toList) ∧
        (s.node ⟨2⟩).label = "" ∧ (t.node ⟨2⟩).label = "k" ∧
        s.context? ⟨6⟩ = some ⟨4⟩ ∧ t.context? ⟨6⟩ = some r ∧ r ∉ s := by
    cases opened
    decide +kernel
  obtain ⟨d, s, served, queried⟩ := exists_of_grants granted
  obtain ⟨entry, query⟩ := Bool.and_eq_true_iff.1 queried
  obtain ⟨n, u, found, same⟩ := exists_of_grants entry
  obtain ⟨r, t, resolved, seen⟩ := exists_of_grants query
  have here : n = ⟨2⟩ := of_decide_eq_true same
  rw [here] at found
  have w : Workspace {d} 0 s := .served (.opened .empty opened) served
  exact ⟨d, s, w, ⟨u, found⟩, r, t, resolved, of_decide_eq_true seen⟩

theorem queries_restyle_at_most_shelf :
    ∃ d s, Workspace {d} 0 s ∧
    (∃ r t, d.resolveExpression "root" shelfQuery 0 s = .ok (.ok r, t) ∧
      ∀ n ∈ s, (s.node n).Restyled (t.node n) ∧ t.live n = s.live n) ∧
    ∃ r t, d.resolveExpression "root" shelfEntry 0 s = .ok (.ok r, t) ∧ s.PreservedIn t := by
  obtain ⟨d, s, w, ⟨u, found⟩, r, t, resolved, -⟩ := exists_workspace_shelf
  have query := (queries_restyle_at_most w "root" shelfQuery "a").1 0 _ t resolved
  have entry := (queries_restyle_at_most w "root" shelfEntry "a").1 0 _ u found
  exact ⟨d, s, w, ⟨r, t, resolved, query.1⟩, ⟨2⟩, u, found, entry.2 rfl⟩

/-- A query labels a map of the document, and gives a function of the document another context. -/
theorem query_restyles_shelf :
    ∃ d s r t, Workspace {d} 0 s ∧
    d.resolveExpression "root" shelfQuery 0 s = .ok (.ok r, t) ∧
    (∃ n ∈ s.reach d.holds, (s.node n).label = "" ∧ (t.node n).label = "k") ∧
    ∃ n ∈ s.reach d.holds, s.context? n ≠ t.context? n ∧ t.context? n = some r := by
  obtain ⟨d, s, w, -, r, t, resolved, found, before, after, context, replaced, new⟩ :=
    exists_workspace_shelf
  have inside : ∀ h ∈ d.holds, h ∈ s := fun h hh => mem_of_live (w.live_of_mem_holds hh)
  have reached : ∀ n ∈ ([⟨2⟩, ⟨6⟩] : List Handle), n ∈ s.reach d.holds := fun n hn =>
    (mem_reach_iff_mem_discover w.accounts.closed inside).2 (found n hn)
  refine ⟨d, s, r, t, w, resolved, ⟨⟨2⟩, reached _ (by decide), before, after⟩, ⟨6⟩,
    reached _ (by decide), ?_, replaced⟩
  rw [context, replaced]
  rintro ⟨rfl⟩
  exact new (mem_of_live (context?_eq_some_iff.1 context).2)

end Document

end ScriptInference
