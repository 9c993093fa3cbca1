import ScriptInference.Proofs.Document.Progress
import ScriptInference.Proofs.Document.Queries

/-!
# Reserved names among the bindings

A scope refuses to bind `self`, `locals`, `outer` and `globals`, so that no name on its own, no loop
variable and no parameter stores a member under one of them. The locals and the globals are entities
like any other, however: a target such as `globals.self` leads to them and stores the member there.
This is the only way. A member of the locals of a scope or of the globals under a reserved name
comes from a binding whose target has several hops and ends in that name.
-/

namespace ScriptInference

theorem Store.member?_write_eq {u : Store} {container : Handle} (inside : container ∈ u)
    (value h : Handle)
    (written : List EntryKey) (key : EntryKey) : (u.write container written value).member? h key =
      if h = container ∧ key ∈ written then some value else u.member? h key := by
  by_cases here : h = container
  · subst here
    simp [member?_write inside]
  · rw [if_neg fun both => here both.1, member?, node_write_of_ne here, member?]

namespace Env
variable {env : Env} {target : Expr} {table : FunctionTable} {bound : Nat} {s t : Store}

/-- A definition stores a member under a reserved name exactly if its target leads to the entity and
ends in that name, and if the entity takes it. -/
theorem Outcome.reserved_iff {value : Handle} {taken : Bool}
    (outcome : env.Outcome target value table bound s taken t) {h : Handle} (hh : h ∈ s)
    {name : String} (reserved : Scope.isReserved name = true) :
    (t.member? h (.identifier name)).isSome ↔ (s.member? h (.identifier name)).isSome ∨
      (taken = true ∧ target.appointed? = some name ∧ env.Leads target table bound s h) := by
  cases outcome with
  | refused keeps _ nodes =>
    rw [Store.member?, Store.node_eq nodes, ← Store.member?, keeps.member?_eq hh]
    simp
  | @stored u _ n key _ keeps _ _ aims accepts inside _ nodes =>
    rw [Store.member?, Store.node_eq nodes, ← Store.member?, Store.member?_write_eq inside]
    cases aims with
    | @name name' _ chain =>
      have other : name' ≠ name := by
        rintro rfl
        exact absurd (reserved.symm.trans accepts) (by decide)
      have elsewhere : ¬ (h = env.scope.locals ∧
          EntryKey.identifier name ∈ u.slots (.identifier name')) := by
        rintro ⟨-, listed⟩
        cases List.mem_singleton.1 listed
        exact other rfl
      rw [Namespace.container, if_neg elsewhere, keeps.member?_eq hh]
      simp [not_leads_of_name chain]
    | @member container name' leads appointed =>
      by_cases here : h = container ∧ name' = name
      · obtain ⟨rfl, rfl⟩ := here
        have slot : EntryKey.identifier name' ∈ u.slots (.identifier name') :=
          List.mem_singleton.2 rfl
        rw [Namespace.container, if_pos ⟨rfl, slot⟩]
        simp [appointed, leads]
      · have elsewhere :
            ¬ (h = container ∧ EntryKey.identifier name ∈ u.slots (.identifier name')) := by
          rintro ⟨rfl, listed⟩
          cases List.mem_singleton.1 listed
          exact here ⟨rfl, rfl⟩
        rw [Namespace.container, if_neg elsewhere, keeps.member?_eq hh]
        refine ⟨.inl, fun known => known.resolve_right ?_⟩
        rintro ⟨-, ends, leads'⟩
        exact here ⟨leads'.unique leads, Option.some.inj (appointed.symm.trans ends)⟩
    | @index container key leads unnamed =>
      have elsewhere : ¬ (h = container ∧ EntryKey.identifier name ∈ u.slots (.value key)) := by
        rintro ⟨-, listed⟩
        obtain ⟨tag, -, same⟩ := List.mem_map.1 listed
        cases same
      rw [Namespace.container, if_neg elsewhere, keeps.member?_eq hh]
      simp [unnamed]

/-- Once its value is made, the target of the binding leads to the entity. -/
def Reaches (env : Env) (b : Binding) (table : FunctionTable) (bound : Nat) (s : Store)
    (h : Handle) : Prop :=
  ∃ value table₁ u, env.value b table bound s = .ok ((value, table₁), u) ∧
    env.Leads b.target table₁ bound u h

theorem Reaches.leads {b : Binding} {h value : Handle} {table₁ : FunctionTable} {u : Store}
    (reaches : env.Reaches b table bound s h)
    (made : env.value b table bound s = .ok ((value, table₁), u)) :
    env.Leads b.target table₁ bound u h := by
  obtain ⟨value', table', u', made', leads⟩ := reaches
  cases made.symm.trans made'
  exact leads

/-- The same for a whole binding. -/
theorem run_reserved_iff (closed : s.Closed) (fits : env.Fits s) {b : Binding} {taken : Bool}
    {table' : FunctionTable} (ran : env.run b table bound s = .ok ((taken, table'), t)) {h : Handle}
    (hh : h ∈ s) {name : String} (reserved : Scope.isReserved name = true) :
    (t.member? h (.identifier name)).isSome ↔ (s.member? h (.identifier name)).isSome ∨
      (taken = true ∧ b.target.appointed? = some name ∧ env.Reaches b table bound s h) := by
  obtain ⟨value, table₁, u, table₂, v, made, defined, indexed⟩ := run_steps ran
  obtain ⟨ready, keeps, hv⟩ := (safe_value ⟨closed, Nat.le_refl _⟩ fits b table).runs _ _ _ made
  have outcome := outcome_define ready.closed (fits.mono keeps) hv defined
  have inside : h ∈ v := by
    obtain ⟨container, amends⟩ := outcome.amends
    exact amends.mem (keeps.mem hh)
  have same : t.member? h (.identifier name) = v.member? h (.identifier name) := by
    refine (indexed.members h inside _).resolve_right ?_
    rintro ⟨-, name', key, free⟩
    cases key
    exact absurd (reserved.symm.trans free) (by decide)
  have leads : env.Reaches b table bound s h ↔ env.Leads b.target table₁ bound u h :=
    ⟨fun reaches => reaches.leads made, fun leads => ⟨value, table₁, u, made, leads⟩⟩
  rw [same, outcome.reserved_iff (keeps.mem hh) reserved, keeps.member?_eq hh, leads]

end Env

namespace Document
open Infer
variable {d d₀ : Document} {s s₀ t t₀ : Store}

/-- A document that has just been opened binds no names. -/
theorem member?_of_ofCatalog {chunk : Chunk} {catalog : Except CatalogError Catalog}
    {options : Options} (opened : ofCatalog chunk catalog options s = .ok (d, t)) :
    d.chunk = chunk ∧ ∀ h ∈ d.namespaces, ∀ key, t.member? h key = none := by
  obtain ⟨catalog, hasher, -, made⟩ := new_of_ofCatalog opened
  generalize TypeRegistry.new catalog s = registered at made
  obtain ⟨registry, u⟩ := registered
  obtain ⟨rfl, rfl⟩ := Prod.mk.inj made
  refine ⟨rfl, fun h hh key => ?_⟩
  obtain rfl : h = (u.alloc Scope.newGlobals).1 := List.mem_singleton.1 hh
  change (u.alloc Scope.newGlobals).2.member? _ key = none
  rw [Store.member?, Store.node_alloc]
  rfl

/-- Every member under a reserved name comes from a binding that was made before. -/
def Stage.Explained (a : Stage) : Prop :=
  ∀ h ∈ a.document.namespaces, ∀ name, Scope.isReserved name = true →
    (a.store.member? h (.identifier name)).isSome → ∃ b ∈ a.log, b.target.appointed? = some name

section
variable {chunk : Chunk} {rest : Multiset Handle} {a b : Stage}

/-- The locals and globals after a step are those before it, and new ones without members. -/
theorem Step.namespaces (step : Step a b) {h : Handle} (hh : h ∈ b.document.namespaces) :
    h ∈ a.document.namespaces ∨ ∀ key, b.store.member? h key = none := by
  cases step with
  | entered _ made => exact ((entered_scopeFor made).fresh h (.inr hh)).imp_right fun new => new.2
  | given _ => exact .inl hh
  | made _ => exact .inl hh
  | @finished _ d _ _ block _ _ _ _ added =>
    obtain ⟨table, rfl⟩ := addFunctions_ok added
    exact .inl (namespaces_recordAll d block.id _ ▸ hh)

theorem Step.log_subset (step : Step a b) : ∀ made ∈ a.log, made ∈ b.log := by
  cases step with
  | made _ => exact fun made listed => List.mem_append_left _ listed
  | _ => exact fun made listed => listed

theorem Step.explained (sound : Sound chunk rest a) (step : Step a b) (explained : a.Explained) :
    b.Explained := by
  intro h hh name reserved present
  rcases step.namespaces hh with known | blank
  · obtain ⟨slots, amends, -, appointed⟩ := step.amends sound
    rcases amends.members h (sound.mem known) (.identifier name) with same | stored
    · rw [same] at present
      obtain ⟨made, listed, ends⟩ := explained h known name reserved present
      exact ⟨made, step.log_subset made listed, ends⟩
    · exact appointed h name reserved stored
  · rw [blank] at present
    cases present

theorem Stage.Leads.explained (leads : a.Leads b) (sound : Sound chunk rest a)
    (explained : a.Explained) : b.Explained := by
  induction leads with
  | refl => exact explained
  | tail before step ih => exact step.explained (Stage.Leads.sound before sound) ih

end

/-- Wherever a document is opened and however far its analysis has come: if the locals of a scope or
the globals have a member under a reserved name, then a binding of the program that has been made
has a target of several hops that ends in this name. A binding stores such a member exactly if its
target leads to these locals or globals and ends in the name. -/
theorem reserved_members_iff_appointed {ds : Multiset Document} {held : Multiset Handle}
    {chunk : Chunk} {catalog : Except CatalogError Catalog} {options : Options}
    (w : Workspace ds held s₀) (opened : ofCatalog chunk catalog options s₀ = .ok (d₀, t₀))
    {a : Stage} (reached : (Stage.initial d₀ t₀).Leads a) :
    (∀ h ∈ a.document.namespaces, ∀ name, Scope.isReserved name = true →
      (a.store.member? h (.identifier name)).isSome →
        ∃ b ∈ a.log, chunk.Binds b ∧ b.target.appointed? = some name) ∧
    ∀ c table block b left, a.phase = .busy c table block [] (b :: left) →
      ∀ bound taken table' t,
        (a.document.env c).run b table bound a.store = .ok ((taken, table'), t) →
        ∀ h ∈ a.document.namespaces, ∀ name, Scope.isReserved name = true →
          ((t.member? h (.identifier name)).isSome ↔ (a.store.member? h (.identifier name)).isSome ∨
            (taken = true ∧ b.target.appointed? = some name ∧
              (a.document.env c).Reaches b table bound a.store h)) := by
  obtain ⟨rfl, blank⟩ := member?_of_ofCatalog opened
  have start := sound_initial (accounts_ofCatalog w.accounts opened)
  have sound := reached.sound start
  have fresh : (Stage.initial d₀ t₀).Explained := fun h hh name _ present => by
    rw [Stage.initial, blank h hh] at present
    cases present
  refine ⟨fun h hh name reserved present => ?_, ?_⟩
  · obtain ⟨b, made, appointed⟩ := reached.explained start fresh h hh name reserved present
    exact ⟨b, made, sound.listed b (List.mem_append_left _ made), appointed⟩
  · intro c table block b left busy bound taken table' t ran h hh name reserved
    have scope : c ∈ a.phase.scope? := by rw [busy]; rfl
    exact Env.run_reserved_iff sound.closed (sound.fits scope) ran (sound.mem hh) reserved

/-- The program `self = true; globals.self = true; locals["outer"] = true`. -/
def usurper : Chunk :=
  let yes := .boolean true default
  { body := [.assign (.identifier "self" default) yes default,
      .assign (.member (.identifier "globals" default) "self" default) yes default,
      .assign (.index (.identifier "locals" default) (.string "outer" default) default) yes default]
    span := { (default : Span) with id := "root" } }

/-- The second binding of the program is about to be made, and it stores a member `self` in the
globals. -/
theorem exists_stage_usurper :
    ∃ d₀ s₀ d c s table first second left table' t,
    ofCatalog usurper (.ok {}) {} .empty = .ok (d₀, s₀) ∧
    (Stage.initial d₀ s₀).Leads ⟨[first], d,
      .busy c table (.chunk usurper) [] (second :: left), s⟩ ∧
    (d.env c).run second table 0 s = .ok ((true, table'), t) ∧
    s.member? d.globals (.identifier "self") = none ∧
    (t.member? d.globals (.identifier "self")).isSome := by
  obtain ⟨d₀, s₀, opened⟩ : ∃ d s, ofCatalog usurper (.ok {}) {} .empty = .ok (d, s) := ⟨_, _, rfl⟩
  obtain ⟨first, second, left, bindings⟩ : ∃ first second left,
      (Block.chunk usurper).bindings = first :: second :: left := ⟨_, _, _, rfl⟩
  have found : yields (scopeFor ["root"] d₀) 0 s₀ fun r t =>
      yields ((r.2.env r.1).run first ∅) 0 t fun r₁ u =>
        yields ((r.2.env r.1).run second r₁.2) 0 u fun r₂ v =>
          r₂.1 && (u.member? r.2.globals (.identifier "self")).isNone &&
            (v.member? r.2.globals (.identifier "self")).isSome := by
    cases opened
    cases bindings
    decide +kernel
  have listed : (.chunk usurper, none) ∈ d₀.chunk.blocks := by
    rw [(member?_of_ofCatalog opened).1]
    exact List.mem_cons_self
  obtain ⟨⟨c, d⟩, t, made, found⟩ := exists_of_yields found
  obtain ⟨⟨refused, table⟩, u, ran, found⟩ := exists_of_yields found
  obtain ⟨⟨taken, table'⟩, v, ran', found⟩ := exists_of_yields found
  simp only [Bool.and_eq_true, Option.isNone_iff_eq_none] at found
  obtain ⟨⟨rfl, before⟩, after⟩ := found
  have entered : Step (.initial d₀ s₀)
      ⟨[], d, .busy c ∅ (.chunk usurper) [] (first :: second :: left), t⟩ :=
    bindings ▸ .entered listed made
  exact ⟨d₀, s₀, d, c, u, table, first, second, left, table', v, opened,
    (Relation.ReflTransGen.single entered).tail (.made ran), ran', before, after⟩

theorem reserved_members_iff_appointed_usurper :
    ∃ d₀ s₀ d c s table first second left table' t,
    ofCatalog usurper (.ok {}) {} .empty = .ok (d₀, s₀) ∧
    (Stage.initial d₀ s₀).Leads ⟨[first], d,
      .busy c table (.chunk usurper) [] (second :: left), s⟩ ∧
    (d.env c).run second table 0 s = .ok ((true, table'), t) ∧
    second.target.appointed? = some "self" ∧ (d.env c).Reaches second table 0 s d.globals ∧
    ∃ b ∈ [first] ++ [second], usurper.Binds b ∧ b.target.appointed? = some "self" := by
  obtain ⟨d₀, s₀, d, c, s, table, first, second, left, table', t, opened, reached, ran, before,
      after⟩ :=
    exists_stage_usurper
  have globals : d.globals ∈ d.namespaces := List.mem_cons_self
  have stored :=
    (reserved_members_iff_appointed .empty opened reached).2 c table (.chunk usurper) second
    left rfl 0 true table' t ran d.globals globals "self" (by decide)
  rw [before] at stored
  obtain ⟨-, ends, reaches⟩ := (stored.1 after).resolve_left (by simp)
  have known :=
    (reserved_members_iff_appointed .empty opened (reached.tail (.made ran))).1 d.globals
    globals "self" (by decide) after
  exact ⟨d₀, s₀, d, c, s, table, first, second, left, table', t, opened, reached, ran, ends,
    reaches, known⟩

/-- Two assignments through `globals` and `locals` bind reserved names in the globals. -/
theorem globals_bind_self :
    ∃ d₀ s₀ log d s,
    ofCatalog usurper (.ok {}) {} .empty = .ok (d₀, s₀) ∧ d₀.serve .all 0 s₀ = .ok (.ok d, s) ∧
    (Stage.initial d₀ s₀).Leads ⟨log, d, .idle, s⟩ ∧
    (s.member? d.globals (.identifier "self")).isSome ∧
    (s.member? d.globals (.identifier "outer")).isSome := by
  obtain ⟨d₀, s₀, opened⟩ : ∃ d s, ofCatalog usurper (.ok {}) {} .empty = .ok (d, s) := ⟨_, _, rfl⟩
  have granted : grants (d₀.serve .all) s₀ fun d s =>
      (s.member? d.globals (.identifier "self")).isSome &&
      (s.member? d.globals (.identifier "outer")).isSome := by
    cases opened
    decide +kernel
  obtain ⟨d, s, served, bound⟩ := exists_of_grants granted
  obtain ⟨self, outer⟩ := Bool.and_eq_true_iff.1 bound
  obtain ⟨log, reached⟩ := Stage.Leads.serve .refl served
  exact ⟨d₀, s₀, log, d, s, opened, served, reached, self, outer⟩

end Document

end ScriptInference
