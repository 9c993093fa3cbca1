import ScriptInference.Proofs.Document.Conversations
import ScriptInference.Proofs.Resolution.Verdicts

/-!
# What an analysis reaches

A document is opened above the entities of its catalog. Everything that it makes afterwards lies in
its zone, and so does everything that scopes, tables of functions and clients hold. What lies in the
zone names only what lies there, so that the entities of the catalog are out of reach, and they keep
their contents. What lies in the zone has a type, so that a target is refused only for the reasons
that are stated of targets.

This holds in every state that an analysis passes through, after any conversation with the document.
-/

namespace ScriptInference

/-- What is reached from nodes of the zone lies in the zone. -/
theorem Store.Twin.made_of_mem_reach {z : Zone} {s s' : Store} (twin : s.Twin z s')
    {roots : List Handle} (made : ∀ r ∈ roots, s.Made z r) {h : Handle} (hh : h ∈ s.reach roots) :
    s.Made z h := by
  induction hh with
  | root hr => exact made _ hr
  | edge _ hk ih => exact (twin.links _ ih.base_le _ (mem_links_of_mem_edges hk)).toMade

namespace Env

/-- What happens in a scope: expressions and the elements of loops are resolved, and values are
bound. The results are those that have not been bound. -/
inductive Works (env : Env) (table₀ : FunctionTable) (s₀ : Store) : List Handle → FunctionTable →
    Store → Prop
  | begun : env.Works table₀ s₀ [] table₀ s₀
  | resolved {results table s e bound h table' t} : env.Works table₀ s₀ results table s →
      env.resolve e table bound s = .ok ((h, table'), t) →
        env.Works table₀ s₀ (h :: results) table' t
  | iterated {results table s e bound h table' t} : env.Works table₀ s₀ results table s →
      env.resolveElement e table bound s = .ok ((h, table'), t) →
        env.Works table₀ s₀ (h :: results) table' t
  | defined {results table s target value bound taken table' t} :
      env.Works table₀ s₀ results table s →
      value ∈ results → env.define target value table bound s = .ok ((taken, table'), t) →
      env.Works table₀ s₀ (results.erase value) table' t

theorem Works.made {env : Env} {table₀ table : FunctionTable} {z : Zone} {s₀ s : Store}
    {results : List Handle} (works : env.Works table₀ s₀ results table s)
    (grounded : env.Grounded z s₀) (twin : s₀.Twin z s₀)
    (tables : FunctionTable.Twin .same z table₀ table₀) :
    ∃ z₁, z.Onward s₀ z₁ s ∧ s.Twin z₁ s ∧ FunctionTable.Twin .same z₁ table table ∧
      ∀ h ∈ results, s.Made z₁ h := by
  have reflexive : ∀ e : Expr, e.Parallel Naming.same.declared e := .refl fun _ => rfl
  induction works with
  | begun => exact ⟨z, .refl z s₀, twin, tables, fun h hh => (nomatch hh)⟩
  | @resolved _ _ _ e _ _ _ _ _ ran ih =>
    obtain ⟨z₁, onward, twin₁, tables₁, made⟩ := ih
    have runs := twins_resolve env (reflexive e) (grounded.mono onward) twin₁
    obtain ⟨z₂, onward', twin₂, tables₂, result⟩ := runs.diagonal tables₁ ran
    refine ⟨z₂, onward.trans onward', twin₂, tables₂, ?_⟩
    exact List.forall_mem_cons.2 ⟨result, fun h hh => onward'.made (made h hh)⟩
  | @iterated _ _ _ e _ _ _ _ _ ran ih =>
    obtain ⟨z₁, onward, twin₁, tables₁, made⟩ := ih
    have runs := twins_resolveElement (grounded.mono onward) twin₁ (reflexive e)
    obtain ⟨z₂, onward', twin₂, tables₂, result⟩ := runs.diagonal tables₁ ran
    refine ⟨z₂, onward.trans onward', twin₂, tables₂, ?_⟩
    exact List.forall_mem_cons.2 ⟨result.toMade, fun h hh => onward'.made (made h hh)⟩
  | @defined _ _ _ target value _ _ _ _ _ listed ran ih =>
    obtain ⟨z₁, onward, twin₁, tables₁, made⟩ := ih
    have runs := twins_define (grounded.mono onward) twin₁ (reflexive target) (made value listed)
    obtain ⟨z₂, onward', twin₂, tables₂, -⟩ := runs.diagonal tables₁ ran
    exact ⟨z₂, onward.trans onward', twin₂, tables₂,
      fun h hh => onward'.made (made h (List.mem_of_mem_erase hh))⟩

end Env

namespace Document

open Infer

def Phase.block? : Phase → Option Block
  | idle => none
  | busy _ _ block _ _ => some block

namespace Stage

/-- What a document and the block that is run refer to: the scopes with their contexts, and the
tables of functions. -/
def roots (a : Stage) : List Handle :=
  a.document.globals :: a.document.scopes.values.flatMap Scope.holds ++
    (a.document.functions.values ++ a.phase.table.values)

/-- The document and the block that is run keep to the zone. -/
structure Lawful (c : Chunk) (z : Zone) (a : Stage) : Prop where
  mirrors : Mirrors .same c c z a.store a.store a.document a.document
  scope : ∀ scope ∈ a.phase.scope?, scope.Grounded z a.store
  table : FunctionTable.Twin .same z a.phase.table a.phase.table
  block : ∀ block ∈ a.phase.block?, ∃ around, (block, around) ∈ c.blocks

namespace Lawful
variable {c : Chunk} {z : Zone} {a : Stage}

theorem idle {log : List Binding} {d : Document} {s : Store}
    (mirrors : Mirrors .same c c z s s d d) : Lawful c z ⟨log, d, .idle, s⟩ :=
  ⟨mirrors, fun _ hc => (nomatch hc), .empty .same z, fun _ hb => (nomatch hb)⟩

theorem made_of_mem_roots (lawful : a.Lawful c z) {h : Handle} (hh : h ∈ a.roots) :
    a.store.Made z h := by
  have twin := lawful.mirrors.stores
  have grounded := lawful.mirrors.grounded
  rcases List.mem_append.1 hh with hh | hh
  · rcases List.mem_cons.1 hh with rfl | hh
    · exact grounded.globals.toMade
    · obtain ⟨scope, listed, held⟩ := List.mem_flatMap.1 hh
      obtain ⟨id, found⟩ := SortedMap.mem_values_iff.1 listed
      exact ((grounded.scopes found).linkable h held).toMade
  · rcases List.mem_append.1 hh with hh | hh
    · exact twin.recorded h (lawful.mirrors.functions.left h hh)
    · exact twin.recorded h (lawful.table.left h hh)

end Lawful

end Stage

section Steps
variable {c : Chunk} {z : Zone} {a b : Stage}

theorem Step.lawful (lawful : a.Lawful c z) (step : Step a b) :
    ∃ z₁, z.Onward a.store z₁ b.store ∧ b.Lawful c z₁ := by
  have mirrors := lawful.mirrors
  cases step with
  | @entered _ _ _ block around outer _ _ _ _ listed made =>
    have ids : List.Forall₂ Naming.same.tracked (block.id :: outer) (block.id :: outer) :=
      List.forall₂_same.2 fun _ _ => rfl
    obtain ⟨-, later, mirrors₁, grounded⟩ := (lockstep_scopeFor mirrors ids).diagonal made
    refine ⟨z, .of_later later, mirrors₁, fun _ hc => ?_, .empty .same z, fun _ hb => ?_⟩
    · cases hc
      exact grounded
    · cases hb
      exact ⟨around, mirrors.chunk ▸ listed⟩
  | @given _ _ _ _ _ p _ _ _ _ _ _ given =>
    have scope := lawful.scope _ rfl
    have runs := Env.twins_defineParameters (mirrors.grounded.env scope) mirrors.stores
      (ParallelParams.refl (R := Naming.same.declared) (fun _ => rfl) [p])
    obtain ⟨z₁, onward, twin, table, -⟩ := runs.diagonal lawful.table given
    refine ⟨z₁, onward, mirrors.mono onward twin, fun _ hc => ?_, table, lawful.block⟩
    exact (lawful.scope _ hc).mono onward
  | @made _ _ _ _ _ b _ _ _ _ _ _ ran =>
    have scope := lawful.scope _ rfl
    have runs := Env.twins_run (mirrors.grounded.env scope) mirrors.stores
      (Binding.Parallel.refl (R := Naming.same.declared) (fun _ => rfl) b)
    obtain ⟨z₁, onward, twin, table, -⟩ := runs.diagonal lawful.table ran
    refine ⟨z₁, onward, mirrors.mono onward twin, fun _ hc => ?_, table, lawful.block⟩
    exact (lawful.scope _ hc).mono onward
  | @finished _ _ _ _ block _ _ _ _ added =>
    obtain ⟨around, listed⟩ := lawful.block block rfl
    have recorded := mirrors.recordAll (Naming.corresponding_same listed)
    obtain ⟨later, mirrors₁⟩ := (lockstep_addFunctions recorded lawful.table).diagonal added
    exact ⟨z, .of_later later, .idle (mirrors₁.insertAnalyzed rfl)⟩

theorem Stage.Leads.lawful (leads : a.Leads b) (lawful : a.Lawful c z) :
    ∃ z₁, z.Onward a.store z₁ b.store ∧ b.Lawful c z₁ := by
  induction leads with
  | refl => exact ⟨z, .refl z a.store, lawful⟩
  | tail _ step ih =>
    obtain ⟨z₁, onward, lawful₁⟩ := ih
    obtain ⟨z₂, onward', lawful₂⟩ := step.lawful lawful₁
    exact ⟨z₂, onward.trans onward', lawful₂⟩

end Steps

end Document

theorem Call.Parallel.refl (call : Call) : call.Parallel .same call := by
  have reflexive : ∀ e : Expr, e.Parallel Naming.free.declared e := .refl fun _ => trivial
  cases call with
  | request r =>
    cases r with
    | all => exact .all
    | block id => exact .block rfl
  | resolve id name => exact .resolve name rfl
  | resolveExpression id e => exact .resolveExpression rfl (reflexive e)
  | completions id => exact .completions rfl
  | findDefinitions id e => exact .findDefinitions rfl (reflexive e)
  | drop position => exact .drop position

/-- The states that an analysis passes through after a conversation, in which the client has been
given some entities. The document was opened over a catalog, and has no other types. -/
inductive Attained (c : Chunk) (catalog : Catalog) (options : Options) (s₀ : Store) :
    List Handle → Document.Stage → Prop
  | after {d s calls bound replies k t a} : Document.ofCatalog c (.ok catalog) options s₀ =
      .ok (d, s) → Client.converse ⟨d, []⟩ calls bound s = .ok ((replies, k), t) →
      (Document.Stage.initial k.document t).Leads a → Attained c catalog options s₀ k.held a

namespace Attained
variable {c : Chunk} {catalog : Catalog} {options : Options} {z : Zone} {s₀ : Store}
  {held : List Handle} {a : Document.Stage}

theorem lawful (closed : s₀.Closed) (attained : Attained c catalog options s₀ held a) :
    ∃ z : Zone, z.base = (TypeRegistry.new catalog s₀).2.size ∧
      (TypeRegistry.new catalog s₀).2.Later z.base a.store ∧ a.Lawful c z ∧
        ∀ h ∈ held, a.store.Made z h := by
  cases attained with
  | @after d s calls _ _ _ _ _ opened talked leads =>
    obtain ⟨later, d', s', opened', mirrors⟩ := Client.mirrors_ofCatalog closed opened .same c
    rw [opened] at opened'
    cases opened'
    have parallel : List.Forall₂ (Call.Parallel .same) calls calls :=
      List.forall₂_same.2 fun call _ => .refl call
    obtain ⟨-, z₁, onward, mirrors₁⟩ :=
      (Client.lockstep_converse (Naming.matches_same c) mirrors parallel).diagonal talked
    obtain ⟨z₂, onward', lawful⟩ := leads.lawful (.idle mirrors₁.document)
    have course := onward.trans onward'
    refine ⟨z₂, course.base_eq, ?_, lawful, fun h hh => onward'.made (mirrors₁.made h hh)⟩
    rw [course.base_eq]
    exact later.trans course.later

theorem made_of_mem (lawful : a.Lawful c z) {given : List Handle}
    (made : ∀ h ∈ given, a.store.Made z h) {h : Handle} (hh : h ∈ a.roots ++ given) :
    a.store.Made z h := by
  rcases List.mem_append.1 hh with hh | hh
  · exact lawful.made_of_mem_roots hh
  · exact made h hh

end Attained

/-- The entities of the catalog are out of reach of the scopes, of the tables of functions and of
the entities that were given to the client, and they have the contents that they were made with. -/
theorem seeds_out_of_reach {c : Chunk} {catalog : Catalog} {options : Options} {s₀ : Store}
    (closed : s₀.Closed) {held : List Handle} {a : Document.Stage}
    (attained : Attained c catalog options s₀ held a) {h : Handle}
    (hh : h ∈ (TypeRegistry.new catalog s₀).1.seeds (TypeRegistry.new catalog s₀).2) :
    h ∉ a.store.reach (a.roots ++ held) ∧
      a.store.node h = (TypeRegistry.new catalog s₀).2.node h := by
  have below := (TypeRegistry.founded_new catalog closed).mem_of_mem_seeds hh
  obtain ⟨z, base, later, lawful, given⟩ := attained.lawful closed
  constructor
  · intro reached
    have inside := lawful.mirrors.stores.made_of_mem_reach
      (fun r hr => Attained.made_of_mem lawful given hr) reached
    have base_le := inside.base_le
    rw [base] at base_le
    exact Nat.not_lt.2 base_le below
  · exact later.below h (base ▸ below)

/-- A catalog in which lists have the method `copy`. -/
def listCatalog : Catalog :=
  Catalog.empty.insert
    ((Signature.new Tag.list).withDefinition "copy" { type := Tag.function, returns := [Tag.list] })

/-- The expression `@a.copy`. -/
def listMethod : Expr :=
  .unary .reference (.member (.identifier "a" default) "copy" default) default

/-- The program `a = [true]; o = {}; o.f = @a.copy`. -/
def listProgram : Chunk where
  body := [.assign (.identifier "a" default) (.list [.boolean true default] default) default,
    .assign (.identifier "o" default) (.map [] default) default,
    .assign (.member (.identifier "o" default) "f" default) listMethod default]
  span := { (default : Span) with id := "root" }

/-- The method of lists is the second entity of the store. It is asked for after the analysis. -/
theorem exists_attained_list :
    ∃ held a, Attained listProgram listCatalog {} .empty held a ∧ held ≠ [] ∧
    ∃ scope table t, a.document.scopes.get? "root" = some scope ∧ (⟨2⟩ : Handle) ∈ a.store ∧
      (a.document.env scope).define (.member (.boolean true default) "f" default) ⟨2⟩ ∅ 0 a.store =
        .ok ((false, table), t) := by
  obtain ⟨d, s, opened⟩ : ∃ d s, Document.ofCatalog listProgram (.ok listCatalog) {} .empty =
      .ok (d, s) :=
    ⟨_, _, rfl⟩
  have talks :
      (Client.converse ⟨d, []⟩ [.request .all, .resolveExpression "root" listMethod]).yields 0 s
      fun r t => r.2.held ≠ [] ∧ (⟨2⟩ : Handle) ∈ t ∧
        (r.2.document.scopes.get? "root").any fun scope =>
        Infer.yields
        ((r.2.document.env scope).define (.member (.boolean true default) "f" default) ⟨2⟩ ∅) 0 t
          fun q _ => !q.1 := by
    cases opened
    decide +kernel
  obtain ⟨r, t, talked, seen⟩ := Infer.exists_of_yields talks
  obtain ⟨given, stored, refused⟩ := of_decide_eq_true seen
  obtain ⟨scope, found, refused⟩ := (Option.any_eq_true _ _).1 refused
  obtain ⟨q, u, defined, answer⟩ := Infer.exists_of_yields refused
  obtain ⟨taken, table⟩ := q
  obtain rfl : taken = false := by simpa using answer
  exact ⟨_, _, .after opened talked .refl, given, scope, table, u, found, stored, defined⟩

theorem seeds_out_of_reach_list :
    ∃ held a, Attained listProgram listCatalog {} .empty held a ∧ held ≠ [] ∧
    (⟨1⟩ : Handle) ∈ (TypeRegistry.new listCatalog .empty).1.seeds
      (TypeRegistry.new listCatalog .empty).2 ∧
    (⟨1⟩ : Handle) ∉ a.store.reach (a.roots ++ held) ∧
    a.store.node ⟨1⟩ = (TypeRegistry.new listCatalog .empty).2.node ⟨1⟩ := by
  obtain ⟨held, a, attained, given, -⟩ := exists_attained_list
  have seed : (⟨1⟩ : Handle) ∈ (TypeRegistry.new listCatalog .empty).1.seeds
      (TypeRegistry.new listCatalog .empty).2 :=
    .inr ⟨⟨0⟩, by decide, .identifier "copy", by decide⟩
  exact ⟨held, a, attained, given, seed, seeds_out_of_reach (by decide) attained seed⟩

/-- Whatever can be reached has a type, also while expressions are resolved and values are bound in
a scope. There a value is refused at a target exactly if there is one of the stated reasons. A
refusal is given wherever the prefix of the target and its last index are resolved, and there is
nothing to merge a lone name with. -/
theorem typed_and_refused_for_reasons {c : Chunk} {catalog : Catalog} {options : Options}
    {s₀ : Store} (closed : s₀.Closed) {held : List Handle} {a : Document.Stage}
    (attained : Attained c catalog options s₀ held a) :
    (∀ h ∈ a.store.reach (a.roots ++ held), (a.store.node h).HasType) ∧
    ∀ {id scope}, a.document.scopes.get? id = some scope → ∀ {table₀}, table₀ = ∅ ∨
      table₀ = a.phase.table →
      ∀ {results table s}, (a.document.env scope).Works table₀ a.store results table s →
      (∀ h ∈ s.reach (a.roots ++ (held ++ (results ++ table.values))), (s.node h).HasType) ∧
      ∀ {target value bound}, value ∈ s →
        (∀ {taken table' t}, (a.document.env scope).define target value table bound s =
          .ok ((taken, table'), t) →
          (taken = false ↔ (a.document.env scope).Refuses target table bound s)) ∧
        ((a.document.env scope).Unhindered target table bound s →
          (a.document.env scope).Refuses target table bound s →
          ∃ table' t, (a.document.env scope).define target value table bound s =
            .ok ((false, table'), t)) := by
  obtain ⟨z, -, -, lawful, given⟩ := attained.lawful closed
  have twin := lawful.mirrors.stores
  have roots : ∀ r ∈ a.roots ++ held, a.store.Made z r :=
    fun r hr => Attained.made_of_mem lawful given hr
  refine ⟨fun h hh => twin.typed (twin.made_of_mem_reach roots hh).base_le, ?_⟩
  intro id scope found table₀ known results table s works
  have grounded := lawful.mirrors.grounded.scopes found
  have environment := lawful.mirrors.grounded.env grounded
  have tables : FunctionTable.Twin .same z table₀ table₀ := by
    rcases known with rfl | rfl
    · exact .empty .same z
    · exact lawful.table
  obtain ⟨z₁, onward, twin₁, tables₁, made⟩ := works.made environment twin tables
  constructor
  · intro h hh
    refine twin₁.typed (twin₁.made_of_mem_reach (fun r hr => ?_) hh).base_le
    rw [← List.append_assoc] at hr
    rcases List.mem_append.1 hr with hr | hr
    · exact onward.made (roots r hr)
    · rcases List.mem_append.1 hr with hr | hr
      · exact made r hr
      · exact twin₁.recorded r (tables₁.left r hr)
  · intro target value bound hv
    have environment₁ := environment.mono onward
    have shaped := (grounded.mono onward).shaped
    constructor
    · exact fun defined => Env.define_eq_false_iff environment₁ shaped twin₁ tables₁ hv defined
    · exact fun unhindered refuses =>
        Env.exists_define_of_refuses environment₁ shaped twin₁ tables₁ hv unhindered refuses

theorem typed_and_refused_for_reasons_list :
    ∃ held a, Attained listProgram listCatalog {} .empty held a ∧
    held ≠ [] ∧ (∀ h ∈ a.store.reach (a.roots ++ held), (a.store.node h).HasType) ∧
    ∃ scope table t, a.document.scopes.get? "root" = some scope ∧
      (a.document.env scope).define (.member (.boolean true default) "f" default) ⟨2⟩ ∅ 0 a.store =
        .ok ((false, table), t) ∧
      (a.document.env scope).Refuses (.member (.boolean true default) "f" default) ∅ 0 a.store := by
  obtain ⟨held, a, attained, given, scope, table, t, found, stored, defined⟩ := exists_attained_list
  obtain ⟨typed, bound⟩ := typed_and_refused_for_reasons (by decide) attained
  have refused := ((bound found (.inl rfl) .begun).2 stored).1 defined
  exact ⟨held, a, attained, given, typed, scope, table, t, found, defined, refused.1 rfl⟩

end ScriptInference
