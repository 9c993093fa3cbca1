import ScriptInference.Proofs.Document.Accounting
import ScriptInference.Proofs.Resolution.Effects

/-!
# How an analysis proceeds

The blocks of a document are analyzed one at a time. A block is entered: its scope is found or made,
with those around it. Then its parameters are bound one by one, then its bindings are made in order,
and at last the functions that were met are added to the table of the document. The states that an
analysis passes through are the ones between these steps. Every state that a request leads to is
among them.

In each of them the store accounts for what the document and the table of the running block hold.
-/

namespace ScriptInference

variable {d d' : Document} {s t : Store} {c : Scope} {h : Handle} {bound : Nat}
  {table' : FunctionTable} {bs : List Binding}

/-- Some block of the program makes the binding. -/
def Chunk.Binds (c : Chunk) (b : Binding) : Prop :=
  ∃ block around, (block, around) ∈ c.blocks ∧ b ∈ block.bindings

namespace Document

open Infer

/-- Where an analysis stands: between two blocks, or inside one, with some parameters and bindings
left. -/
inductive Phase where
  | idle
  | busy (scope : Scope) (table : FunctionTable) (block : Block) (parameters : List Param)
      (bindings : List Binding)

namespace Phase

def scope? : Phase → Option Scope
  | idle => none
  | busy c _ _ _ _ => some c

/-- The functions met so far in the running block. -/
def table : Phase → FunctionTable
  | idle => ∅
  | busy _ table _ _ _ => table

def left : Phase → List Binding
  | idle => []
  | busy _ _ _ _ bindings => bindings

end Phase

/-- A state of an analysis: the bindings made so far, the document, where the analysis stands, and
the store. -/
structure Stage where
  log : List Binding
  document : Document
  phase : Phase
  store : Store

/-- The state in which the analysis of a document begins. -/
def Stage.initial (d : Document) (s : Store) : Stage := ⟨[], d, .idle, s⟩

/-- The steps of an analysis. -/
inductive Step : Stage → Stage → Prop
  | entered {log d s block around outer bound c d' t} :
      (block, around) ∈ d.chunk.blocks → scopeFor (block.id :: outer) d bound s = .ok ((c, d'), t) →
      Step ⟨log, d, .idle, s⟩ ⟨log, d', .busy c ∅ block block.parameters block.bindings, t⟩
  | given {log d c table block p parameters bindings s bound table' t} :
      (d.env c).defineParameters [p] table bound s = .ok (((), table'), t) →
      Step ⟨log, d, .busy c table block (p :: parameters) bindings, s⟩
        ⟨log, d, .busy c table' block parameters bindings, t⟩
  | made {log d c table block b bindings s bound taken table' t} :
      (d.env c).run b table bound s = .ok ((taken, table'), t) →
      Step ⟨log, d, .busy c table block [] (b :: bindings), s⟩
        ⟨log ++ [b], d, .busy c table' block [] bindings, t⟩
  | finished {log d c table block s bound d' t} :
      (d.recordAll block.id (block.bindings.map Binding.target)).addFunctions table.toList bound s =
        .ok (d', t) →
      Step ⟨log, d, .busy c table block [] [], s⟩
        ⟨log, { d' with analyzed := d'.analyzed.insert block.id }, .idle, t⟩

/-- Any number of steps. -/
abbrev Stage.Leads : Stage → Stage → Prop := Relation.ReflTransGen Step

end Document

/-- The entities that hold the names of a scope: the locals of its frames and the globals. -/
def Scope.namespaces (c : Scope) : List Handle := c.globals :: c.frames.map Frame.locals

namespace Document

open Infer

/-- The entities that hold the names of the program. -/
def namespaces (d : Document) : List Handle :=
  d.globals :: d.scopes.values.flatMap Scope.namespaces

/-- What entering a block does: scopes are made, over new locals that have no members yet. -/
structure Entered (d : Document) (s : Store) (c : Scope) (d' : Document) (t : Store) : Prop where
  document : d' = { d with scopes := d'.scopes }
  scopes : ∀ id c', d.scopes.get? id = some c' → d'.scopes.get? id = some c'
  size_le : s.size ≤ t.size
  kept : ∀ n ∈ s, t.node n = s.node n
  fresh : ∀ h, h ∈ c.namespaces ∨ h ∈ d'.namespaces →
    h ∈ d.namespaces ∨ (h ∈ t ∧ ∀ key, t.member? h key = none)

section Entering
variable {id : String}

theorem mem_namespaces_insert (hh : h ∈ namespaces { d with scopes := d.scopes.insert id c }) :
    h ∈ c.namespaces ∨ h ∈ d.namespaces := by
  rcases List.mem_cons.1 hh with rfl | hh
  · exact .inr List.mem_cons_self
  · obtain ⟨c', listed, named⟩ := List.mem_flatMap.1 hh
    rcases SortedMap.mem_values_insert listed with rfl | listed
    · exact .inl named
    · exact .inr (List.mem_cons_of_mem _ (List.mem_flatMap.2 ⟨c', listed, named⟩))

theorem mem_namespaces_of_scope (found : d.scopes.get? id = some c) (hh : h ∈ c.namespaces) :
    h ∈ d.namespaces :=
  List.mem_cons_of_mem _
    (List.mem_flatMap.2 ⟨c, SortedMap.mem_values_iff.2 ⟨id, found⟩, hh⟩)

/-- A nested scope has new locals, without members, and the names of the scope around it. -/
theorem made_child (outer : Scope) (context : Option Handle) (u : Store) :
    (∀ h ∈ (outer.child context u).1.namespaces,
      h = (outer.child context u).1.locals ∨ h ∈ outer.namespaces) ∧
    u.size ≤ (outer.child context u).2.size ∧
    (∀ n ∈ u, (outer.child context u).2.node n = u.node n) ∧
    (outer.child context u).1.locals ∈ (outer.child context u).2 ∧
    ∀ key, (outer.child context u).2.member? (outer.child context u).1.locals key = none := by
  have nodes : (outer.child context u).2.nodes = (u.alloc Scope.newLocals).2.nodes :=
    Store.nodes_retainAll _ _
  have locals : (outer.child context u).1.locals = (u.alloc Scope.newLocals).1 := rfl
  refine ⟨fun h hh => ?_, ?_, fun n hn => ?_, ?_, fun key => ?_⟩
  · have names : (outer.child context u).1.namespaces = outer.globals ::
        (outer.child context u).1.locals :: outer.frames.map Frame.locals := rfl
    rw [names] at hh
    rcases List.mem_cons.1 hh with rfl | hh
    · exact .inr List.mem_cons_self
    · exact (List.mem_cons.1 hh).imp_right (List.mem_cons_of_mem _)
  · rw [Store.size_eq nodes, Store.size_alloc]
    exact Nat.le_succ _
  · rw [Store.node_eq nodes, Store.node_alloc_lt _ u n hn]
  · rw [Store.mem_iff, Store.size_eq nodes, locals]
    exact Store.mem_alloc Scope.newLocals u
  · rw [Store.member?, Store.node_eq nodes, locals, Store.node_alloc]
    rfl

/-- A scope that was missing takes the place of none that was there. -/
theorem get?_insert_of_missing (missing : d.scopes.get? id = none) {id' : String} {c' : Scope}
    (found : d.scopes.get? id' = some c') (scopes : SortedMap String Scope) (c : Scope) :
    (scopes.insert id c).get? id' = scopes.get? id' := by
  have other : id' ≠ id := by
    rintro rfl
    rw [missing] at found
    cases found
  rw [SortedMap.get?_insert, if_neg other]

theorem entered_scopeFor {chain : List String} (h : scopeFor chain d bound s = .ok ((c, d'), t)) :
    d.Entered s c d' t := by
  have root_names : ∀ {h}, h ∈ Scope.namespaces ⟨⟨d.globals, none⟩, [], d.globals⟩ →
      h ∈ d.namespaces := by
    intro h hh
    have same : h = d.globals := by simpa [Scope.namespaces, Scope.frames] using hh
    exact same ▸ List.mem_cons_self
  induction chain generalizing c d' t with
  | nil =>
    obtain ⟨g, t₁, retained, h⟩ := bind_ok h
    obtain ⟨root, t₂, made, h⟩ := bind_ok h
    cases retained
    cases made
    cases h
    refine ⟨rfl, fun _ _ h => h, Nat.le_refl _, fun _ _ => rfl, fun h hh => .inl ?_⟩
    exact hh.elim root_names id
  | cons id around ih =>
    rcases scopeFor_steps h with ⟨found, rfl, rfl⟩ | ⟨missing, -, rfl, rfl, nodes⟩ |
      ⟨missing, -, outer, d₁, t₁, context, first, -, child, rfl⟩
    · refine ⟨rfl, fun _ _ h => h, Nat.le_refl _, fun _ _ => rfl, fun h hh => .inl ?_⟩
      exact hh.elim (mem_namespaces_of_scope found) fun h => h
    · refine ⟨rfl, fun id' c' found => ?_, Nat.le_of_eq (Store.size_eq nodes).symm,
        fun n _ => Store.node_eq nodes n, fun h hh => .inl ?_⟩
      · exact (get?_insert_of_missing missing found _ _).trans found
      · rcases hh with hh | hh
        · exact root_names hh
        · exact (mem_namespaces_insert hh).elim root_names fun h => h
    · have before := ih first
      have held := Store.nodes_retainAll context.toList t₁
      have made := made_child outer context (t₁.retainAll context.toList)
      rw [child] at made
      obtain ⟨nested, size, kept, blank⟩ := made
      rw [Store.size_eq held] at size
      have kept₁ : ∀ n ∈ t₁, t.node n = t₁.node n := fun n hn => by
        rw [kept n (by rwa [Store.mem_iff, Store.size_eq held]), Store.node_eq held]
      have later : ∀ {h}, h ∈ outer.namespaces ∨ h ∈ d₁.namespaces →
          h ∈ d.namespaces ∨ (h ∈ t ∧ ∀ key, t.member? h key = none) := by
        intro h hh
        refine (before.fresh h hh).imp_right fun new => ?_
        refine ⟨Nat.lt_of_lt_of_le new.1 size, fun key => ?_⟩
        rw [Store.member?, kept₁ h new.1]
        exact new.2 key
      have here : ∀ {h}, h ∈ c.namespaces →
          h ∈ d.namespaces ∨ (h ∈ t ∧ ∀ key, t.member? h key = none) := by
        intro h hh
        rcases nested h hh with rfl | hh
        · exact .inr blank
        · exact later (.inl hh)
      refine ⟨?_, fun id' c' found => ?_, Nat.le_trans before.size_le size, fun n hn => ?_,
        fun h hh => ?_⟩
      · rw [before.document]
      · exact (get?_insert_of_missing missing found _ _).trans (before.scopes id' c' found)
      · rw [kept₁ n (Nat.lt_of_lt_of_le hn before.size_le), before.kept n hn]
      · rcases hh with hh | hh
        · exact here hh
        · exact (mem_namespaces_insert hh).elim here fun hh => later (.inr hh)

end Entering

theorem namespaces_recordAll (d : Document) (block : String) (targets : List Expr) :
    (d.recordAll block targets).namespaces = d.namespaces := by
  induction targets generalizing d with
  | nil => rfl
  | cons target rest ih => exact ih (d.record block target)

theorem mem_holds_of_mem_namespaces (hh : h ∈ d.namespaces) : h ∈ d.holds := by
  rcases List.mem_cons.1 hh with rfl | hh
  · exact List.mem_cons_self
  · obtain ⟨c, listed, named⟩ := List.mem_flatMap.1 hh
    obtain ⟨id, found⟩ := SortedMap.mem_values_iff.1 listed
    refine mem_holds_of_scope found ?_
    rcases List.mem_cons.1 named with rfl | named
    · exact List.mem_cons_self
    · obtain ⟨frame, framed, rfl⟩ := List.mem_map.1 named
      exact List.mem_cons_of_mem _ (List.mem_flatMap.2 ⟨frame, framed, List.mem_cons_self⟩)

/-- What is true in every state of an analysis, whatever else is held. -/
structure Sound (chunk : Chunk) (rest : Multiset Handle) (a : Stage) : Prop where
  accounts : a.store.Accounts (holding a.document.holds rest + ↑a.phase.table.values)
  scope : ∀ c ∈ a.phase.scope?, ∃ id, a.document.scopes.get? id = some c
  chunk_eq : a.document.chunk = chunk
  listed : ∀ b ∈ a.log ++ a.phase.left, chunk.Binds b

section Sound
variable {chunk : Chunk} {rest : Multiset Handle} {a b : Stage}

namespace Sound

theorem closed (sound : Sound chunk rest a) : a.store.Closed := sound.accounts.closed

theorem live (sound : Sound chunk rest a) (hh : h ∈ a.document.holds) : a.store.live h :=
  sound.accounts.live_of_mem (Multiset.mem_add.2 (.inl (mem_holding.2 (.inl hh))))

theorem mem (sound : Sound chunk rest a) (hh : h ∈ a.document.namespaces) : h ∈ a.store :=
  Store.mem_of_live (sound.live (mem_holds_of_mem_namespaces hh))

theorem fits (sound : Sound chunk rest a) (hc : c ∈ a.phase.scope?) :
    (a.document.env c).Fits a.store := by
  intro h hh
  obtain ⟨id, found⟩ := sound.scope c hc
  exact Store.mem_of_live (sound.live (mem_holds_of_scope found hh))

theorem owned (sound : Sound chunk rest a) (hc : c ∈ a.phase.scope?) {more : Multiset Handle} :
    (a.document.env c).Owned .accounts (holding a.document.holds more) := by
  obtain ⟨id, found⟩ := sound.scope c hc
  refine ⟨fun h hh => mem_holding.2 (.inl (mem_holds_of_scope found hh)), fun h hh => ?_⟩
  exact (Discipline.Anchored.of_mem (mem_holding.2 (.inl (mem_holds_of_registry hh)))).known

/-- Between two blocks no table has holds of its own. -/
theorem accounts_idle {log : List Binding} (sound : Sound chunk rest ⟨log, d, .idle, s⟩) :
    s.Accounts (holding d.holds rest) := by
  have held := sound.accounts
  rwa [Phase.table, show (↑(∅ : FunctionTable).values : Multiset Handle) = 0 from rfl,
    add_zero] at held

end Sound

theorem accounts_blank {own : Multiset Handle} (l : s.Accounts own) :
    s.Accounts (own + ↑(∅ : FunctionTable).values) := by
  rwa [show (↑(∅ : FunctionTable).values : Multiset Handle) = 0 from rfl, add_zero]

theorem sound_initial (l : s.Accounts (holding d.holds rest)) : Sound d.chunk rest (.initial d s) :=
  ⟨accounts_blank l, fun c hc => (by cases hc), rfl, fun b hb => (by cases hb)⟩

theorem get?_scopeFor {id : String} {around : List String}
    (h : scopeFor (id :: around) d bound s = .ok ((c, d'), t)) : d'.scopes.get? id = some c := by
  rcases scopeFor_steps h with ⟨found, rfl, -⟩ | ⟨-, -, -, rfl, -⟩ |
    ⟨-, -, outer, d₁, t₁, context, -, -, -, rfl⟩
  · exact found
  · exact (SortedMap.get?_insert ..).trans (if_pos rfl)
  · exact (SortedMap.get?_insert ..).trans (if_pos rfl)

theorem Step.chunk_eq (step : Step a b) : b.document.chunk = a.document.chunk := by
  cases step with
  | entered _ made =>
    have same := congrArg Document.chunk (entered_scopeFor made).document
    exact same
  | given _ => rfl
  | made _ => rfl
  | @finished _ d _ _ block _ _ _ _ added =>
    obtain ⟨table, rfl⟩ := addFunctions_ok added
    exact (d.recorded block.id (block.bindings.map Binding.target)).2

theorem Step.sound (sound : Sound chunk rest a) (step : Step a b) : Sound chunk rest b := by
  have same := step.chunk_eq.trans sound.chunk_eq
  cases step with
  | @entered _ d _ block around _ _ c _ _ member made =>
    refine ⟨accounts_blank ((balanced_scopeFor (D := .accounts) sound.accounts_idle _).runs _ _ _
      made).1, fun c' hc => ?_, same, fun b hb => ?_⟩
    · cases hc
      exact ⟨block.id, get?_scopeFor made⟩
    · rcases List.mem_append.1 hb with hb | hb
      · exact sound.listed b (List.mem_append_left _ hb)
      · exact ⟨block, around, sound.chunk_eq ▸ member, hb⟩
  | given given =>
    have books ps := Env.books_defineParameters Discipline.lax_accounts (sound.owned rfl) ps _ _
      sound.accounts
    exact ⟨((books _).runs _ _ _ given).1, sound.scope, same, sound.listed⟩
  | @made _ _ _ _ _ b _ _ _ _ _ _ ran =>
    have books := Env.books_run Discipline.lax_accounts (sound.owned rfl) b _ _ sound.accounts
    refine ⟨(books.runs _ _ _ ran).1, sound.scope, same, fun b' hb => sound.listed b' ?_⟩
    rwa [List.append_assoc] at hb
  | @finished _ d _ table block s _ _ _ added =>
    have holds := (d.recorded block.id (block.bindings.map Binding.target)).1
    have held : s.Accounts (holding (table.toList.map (·.2))
        (holding (d.recordAll block.id (block.bindings.map Binding.target)).holds rest)) := by
      rw [holding_eq, add_comm, recordAll, holds]
      exact sound.accounts
    exact ⟨accounts_blank
      ((balanced_addFunctions (D := .accounts) table.toList held).runs _ _ _ added).1,
      fun c hc => (by cases hc), same, fun b hb => sound.listed b hb⟩

/-- The entities that exist stay as they are when a block is entered. -/
theorem Entered.amends {slots : Handle → EntryKey → Prop} (entered : d.Entered s c d' t) :
    s.Amends slots t := by
  have keeps : s.Keeps s.size t := by
    refine ⟨entered.size_le, fun n hn => ?_⟩
    rw [entered.kept n hn]
    exact .refl _
  exact keeps.amends

theorem nodes_addFunctions {functions : List (String × Handle)}
    (added : d.addFunctions functions bound s = .ok (d', t)) : t.nodes = s.nodes := by
  induction functions generalizing d s with
  | nil =>
    cases added
    rfl
  | cons f rest ih =>
    obtain ⟨_, u, released, added⟩ := bind_ok added
    cases released
    exact (ih added).trans (Store.nodes_releaseAll _ s)

/-- To the entities that exist a step does no more than to store members. It does this inside a
block, and under a reserved name only for a binding whose target ends in it. -/
theorem Step.amends (sound : Sound chunk rest a) (step : Step a b) :
    ∃ slots, a.store.Amends slots b.store ∧
      (∀ n key, slots n key → a.phase.scope?.isSome ∧ b.phase.scope?.isSome) ∧
      ∀ n name, Scope.isReserved name = true → slots n (.identifier name) →
        ∃ made ∈ b.log, made.target.appointed? = some name := by
  have free : ∀ {env : Env} {n : Handle} {name : String}, Scope.isReserved name = true →
      ¬ env.Local n (.identifier name) := by
    rintro env n name reserved ⟨-, name', key, free⟩
    cases key
    exact absurd (reserved.symm.trans free) (by decide)
  cases step with
  | entered _ made =>
    exact ⟨fun _ _ => False, (entered_scopeFor made).amends, fun _ _ => False.elim,
      fun _ _ _ => False.elim⟩
  | given given =>
    have amends := Env.amends_defineParameters sound.closed (sound.fits rfl) given
    exact ⟨_, amends, fun _ _ _ => ⟨rfl, rfl⟩,
      fun n name reserved stored => absurd stored (free reserved)⟩
  | @made log _ _ _ _ made _ _ _ _ _ _ ran =>
    obtain ⟨container, amends⟩ := Env.amends_run sound.closed (sound.fits rfl) ran
    refine ⟨_, amends, fun _ _ _ => ⟨rfl, rfl⟩, fun n name reserved stored => ?_⟩
    rcases stored with stored | ⟨-, ends⟩
    · exact absurd stored (free reserved)
    · exact ⟨made, List.mem_append_right _ (List.mem_singleton.2 rfl), ends name rfl⟩
  | finished added =>
    exact ⟨fun _ _ => False, .of_nodes_eq (nodes_addFunctions added), fun _ _ => False.elim,
      fun _ _ _ => False.elim⟩

theorem Stage.Leads.sound (leads : a.Leads b) (sound : Sound chunk rest a) :
    Sound chunk rest b := by
  induction leads with
  | refl => exact sound
  | tail _ step ih => exact step.sound ih

end Sound

section Requests
variable {start : Stage} {log : List Binding}

theorem defineParameters_cons (env : Env) (p : Param) (ps : List Param) :
    env.defineParameters (p :: ps) = env.defineParameters [p] >>=
      fun _ => env.defineParameters ps := by
  simp [Env.defineParameters]

namespace Stage.Leads

theorem parameters {table : FunctionTable} {block : Block} {ps : List Param}
    (leads : start.Leads ⟨log, d, .busy c table block ps bs, s⟩)
    (h : (d.env c).defineParameters ps table bound s = .ok (((), table'), t)) :
    start.Leads ⟨log, d, .busy c table' block [] bs, t⟩ := by
  induction ps generalizing table s with
  | nil =>
    cases h
    exact leads
  | cons p ps ih =>
    rw [defineParameters_cons] at h
    obtain ⟨_, table₁, u, first, h⟩ := Resolve.bind_ok h
    exact ih (leads.tail (.given first)) h

theorem bindings {table : FunctionTable} {block : Block}
    (leads : start.Leads ⟨log, d, .busy c table block [] bs, s⟩)
    (h : runBindings (d.env c) bs table bound s = .ok (((), table'), t)) :
    start.Leads ⟨log ++ bs, d, .busy c table' block [] [], t⟩ := by
  induction bs generalizing log table s with
  | nil =>
    cases h
    rw [List.append_nil]
    exact leads
  | cons b bs ih =>
    obtain ⟨taken, table₁, u, first, h⟩ := Resolve.bind_ok h
    have rest := ih (leads.tail (.made first)) h
    rwa [List.append_assoc] at rest

theorem runBlock {block : Block} {around : Option String} {outer : List String}
    (leads : start.Leads ⟨log, d, .idle, s⟩) (listed : (block, around) ∈ d.chunk.blocks)
    (h : d.runBlock block (block.id :: outer) bound s = .ok (d', t)) :
    start.Leads ⟨log ++ block.bindings, d', .idle, t⟩ := by
  obtain ⟨⟨c, d₁⟩, t₁, made, h⟩ := bind_ok h
  obtain ⟨⟨_, table⟩, t₂, ran, h⟩ := bind_ok h
  obtain ⟨d₂, t₃, added, h⟩ := bind_ok h
  cases h
  obtain ⟨_, table₁, u, given, ran⟩ := Resolve.bind_ok ran
  have entered : start.Leads ⟨log, d₁, .busy c ∅ block block.parameters block.bindings, t₁⟩ :=
    leads.tail (.entered listed made)
  exact ((entered.parameters given).bindings ran).tail (.finished added)

theorem chunk_eq {a b : Stage} (leads : a.Leads b) : b.document.chunk = a.document.chunk := by
  induction leads with
  | refl => rfl
  | tail _ step ih => exact step.chunk_eq.trans ih

theorem runChain {chain : List String} (leads : start.Leads ⟨log, d, .idle, s⟩)
    (h : runChain chain d bound s = .ok (d', t)) : ∃ log', start.Leads ⟨log', d', .idle, t⟩ := by
  induction chain generalizing d' t with
  | nil =>
    cases h
    exact ⟨log, leads⟩
  | cons id around ih =>
    obtain ⟨ran, u, first, h⟩ := bind_ok h
    obtain ⟨log₁, outer⟩ := ih first
    split at h
    · cases h
      exact ⟨log₁, outer⟩
    · cases found : d.block? id with
      | none =>
        simp only [found] at h
        cases h
        exact ⟨log₁, outer⟩
      | some b =>
        obtain ⟨block, around'⟩ := b
        simp only [found] at h
        obtain ⟨listed, rfl⟩ := block?_eq_some found
        have same : ran.chunk = d.chunk := outer.chunk_eq.trans leads.chunk_eq.symm
        rw [← same] at listed
        exact ⟨_, outer.runBlock listed h⟩

theorem analyzeBlock {id : String} (leads : start.Leads ⟨log, d, .idle, s⟩)
    (h : d.analyzeBlock id bound s = .ok (.ok d', t)) :
    ∃ log', start.Leads ⟨log', d', .idle, t⟩ := by
  rw [Document.analyzeBlock] at h
  cases around : d.ancestors id with
  | error e =>
    simp only [around] at h
    cases h
  | ok chain =>
    simp only [around] at h
    obtain ⟨ran, u, first, h⟩ := bind_ok h
    cases h
    exact leads.runChain first

theorem analyzeAll {ids : List String} (leads : start.Leads ⟨log, d, .idle, s⟩)
    (h : analyzeAll ids d bound s = .ok (.ok d', t)) :
    ∃ log', start.Leads ⟨log', d', .idle, t⟩ := by
  induction ids generalizing log d s with
  | nil =>
    cases h
    exact ⟨log, leads⟩
  | cons id rest ih =>
    obtain ⟨r, u, first, h⟩ := bind_ok h
    cases r with
    | error e => cases h
    | ok d₁ =>
      obtain ⟨log₁, analyzed⟩ := leads.analyzeBlock first
      exact ih analyzed h

/-- A request that is granted leads through states of the analysis to another one. -/
theorem serve {r : Request} (leads : start.Leads ⟨log, d, .idle, s⟩)
    (h : d.serve r bound s = .ok (.ok d', t)) : ∃ log', start.Leads ⟨log', d', .idle, t⟩ := by
  cases r with
  | all => exact leads.analyzeAll h
  | block id => exact leads.analyzeBlock h

end Stage.Leads

end Requests

end Document

end ScriptInference
