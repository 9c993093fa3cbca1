import ScriptInference.Proofs.Document.Definitions
import ScriptInference.Proofs.Document.Links
import ScriptInference.Proofs.Hashing.Congruence
import ScriptInference.Proofs.Resolution.Positions

/-!
# Documents of parallel programs

Two documents mirror each other if their programs are parallel, their stores are twins, and what
they know of corresponding blocks is the same: the scope, whether the block is analyzed, the
functions and the definitions. Analyzing corresponding blocks goes in step and keeps them mirrors,
and so does every query.

A document mirrors itself if the entities of its scopes and functions were made after its registry
and the registry has not been changed since. What holds of mirrors therefore holds of a single
document, and need not be proved again.
-/

namespace ScriptInference

theorem Expr.Parallel.hash_eq {R : String → String → Prop} {e e' : Expr} (h : e.Parallel R e') :
    e'.hash = e.hash := by
  rw [← e'.keys_normal.1, ← e.keys_normal.1, h.alike.normal_eq]

theorem Expr.Parallel.id_eq {R : String → String → Prop} {e e' : Expr} (h : e.Parallel R e') :
    e'.id = e.id := by
  rw [← e'.keys_normal.2, ← e.keys_normal.2, h.alike.normal_eq]

/-- The entities of the scope may be named, and its names are held by a map. -/
structure Scope.Grounded (c : Scope) (z : Zone) (s : Store) : Prop where
  linkable : c.Linkable z s
  shaped : (s.node c.locals).isMapShaped = true

theorem Scope.Grounded.mono {c : Scope} {z z₁ : Zone} {s t : Store} (grounded : c.Grounded z s)
    (onward : z.Onward s z₁ t) : c.Grounded z₁ t where
  linkable h hh := onward.linkable (grounded.linkable h hh)
  shaped := by
    rw [onward.later.isMapShaped (grounded.linkable _ locals_mem_holds).mem]
    exact grounded.shaped

namespace Document

/-- The same target of two programs: of blocks at the same place, and at the same place in them. -/
inductive SameTarget (c c' : Chunk) : DefinitionSite → DefinitionSite → Prop
  | mk {b b' : Block × Option String} {t t' : Expr} : (b, b') ∈ c.blocks.zip c'.blocks →
      (t, t') ∈ b.1.targets.zip b'.1.targets → SameTarget c c' (t.site b.1.id) (t'.site b'.1.id)

/-- The same target with the same hash and canonical id, recorded for corresponding blocks. -/
structure SameRecord (N : Naming) (c c' : Chunk) (x x' : UInt32 × DefinitionSite) : Prop where
  hash : x'.1 = x.1
  id : x'.2.id = x.2.id
  block : N.tracked x.2.block x'.2.block
  target : SameTarget c c' x.2 x'.2

structure Grounded (d : Document) (z : Zone) (s : Store) : Prop where
  registry : d.registry.Seeded z.base s
  globals : s.Linkable z d.globals
  shaped : (s.node d.globals).isMapShaped = true
  scopes : ∀ {i c}, d.scopes.get? i = some c → c.Grounded z s

theorem Grounded.mono {d : Document} {z z₁ : Zone} {s t : Store} (grounded : d.Grounded z s)
    (onward : z.Onward s z₁ t) : d.Grounded z₁ t where
  registry := onward.base_eq ▸ grounded.registry.mono onward.later
  globals := onward.linkable grounded.globals
  shaped := by
    rw [onward.later.isMapShaped grounded.globals.mem]
    exact grounded.shaped
  scopes found := (grounded.scopes found).mono onward

theorem Grounded.env {d : Document} {z : Zone} {s : Store} (grounded : d.Grounded z s) {c : Scope}
    (scope : c.Grounded z s) : (d.env c).Grounded z s := ⟨grounded.registry, scope.linkable⟩

/-- Documents of two programs that know the same. -/
structure Mirrors (N : Naming) (c c' : Chunk) (z : Zone) (s s' : Store) (d d' : Document) :
    Prop where
  stores : s.Twin z s'
  grounded : d.Grounded z s
  chunk : d.chunk = c
  chunk' : d'.chunk = c'
  registry : d'.registry = d.registry
  options : d'.options = d.options
  globals : d'.globals = d.globals
  faithful : d.hasher.Faithful
  faithful' : d'.hasher.Faithful
  scopes : ∀ {i i'}, N.tracked i i' → d'.scopes.get? i' = d.scopes.get? i
  functions : FunctionTable.Twin N z d.functions d'.functions
  analyzed : ∀ {i i'}, N.tracked i i' → (i' ∈ d'.analyzed ↔ i ∈ d.analyzed)
  definitions : List.Forall₂ (SameRecord N c c') d.definitions d'.definitions

theorem exists_recordAll_eq {d : Document} (faithful : d.hasher.Faithful) (block : String)
    (targets : List Expr) :
    ∃ hasher : Hasher, hasher.Faithful ∧
      d.recordAll block targets = { d with
        hasher, definitions := d.definitions ++ targets.map fun t => (t.hash, t.site block) } := by
  obtain ⟨faithful', definitions⟩ := recordAll_eq faithful block targets
  refine ⟨_, faithful', ?_⟩
  rw [← definitions]
  exact recordAll_with d block targets d.scopes

variable {N : Naming} {c c' : Chunk} {z z₁ : Zone} {s s' t t' : Store} {d d' : Document}

open Infer

namespace Mirrors

variable (mirrors : Mirrors N c c' z s s' d d')

include mirrors

/-- Work that leaves the documents alone. -/
theorem mono (onward : z.Onward s z₁ t) (twin : t.Twin z₁ t') : Mirrors N c c' z₁ t t' d d' :=
  { mirrors with
    stores := twin
    grounded := mirrors.grounded.mono onward
    functions := mirrors.functions.mono onward.kept }

theorem env_eq (scope : Scope) : d'.env scope = d.env scope := by
  rw [env, env, mirrors.registry, mirrors.options]

theorem block? (aligned : N.Matches c c') {i i' : String} (tracked : N.tracked i i') :
    Option.Rel (N.Corresponding c c') (d.block? i) (d'.block? i') := by
  rw [Document.block?, Document.block?, mirrors.chunk, mirrors.chunk']
  exact aligned.block tracked

/-- A scope that is made for corresponding blocks. -/
theorem insertScope {i i' : String} (tracked : N.tracked i i') {scope : Scope}
    (grounded : scope.Grounded z s) :
    Mirrors N c c' z s s' { d with scopes := d.scopes.insert i scope }
      { d' with scopes := d'.scopes.insert i' scope } :=
  { mirrors with
    grounded := { mirrors.grounded with
      scopes := by
        intro j scope' found
        dsimp only at found
        rw [SortedMap.get?_insert] at found
        split at found
        · cases found
          exact grounded
        · exact mirrors.grounded.scopes found }
    scopes := by
      intro j j' known
      have same := N.consistent (N.known tracked) known
      rw [SortedMap.get?_insert, SortedMap.get?_insert, mirrors.scopes known]
      simp only [same] }

theorem insertAnalyzed {i i' : String} (tracked : N.tracked i i') :
    Mirrors N c c' z s s' { d with analyzed := d.analyzed.insert i }
      { d' with analyzed := d'.analyzed.insert i' } :=
  { mirrors with
    grounded := { mirrors.grounded with }
    analyzed := by
      intro j j' known
      rw [SortedSet.mem_insert, SortedSet.mem_insert, mirrors.analyzed known,
        N.consistent (N.known tracked) known] }

/-- Recording corresponding targets of corresponding blocks. -/
theorem recordAll {x x' : Block × Option String} (same : N.Corresponding c c' x x') :
    Mirrors N c c' z s s' (d.recordAll x.1.id x.1.targets) (d'.recordAll x'.1.id x'.1.targets) := by
  have targets : List.Forall₂ (Expr.Parallel N.declared) x.1.targets x'.1.targets :=
    List.forall₂_map_left_iff.2 (List.forall₂_map_right_iff.2 (same.parallel.bindings.imp
      fun _ _ h => h.target))
  have places : ∀ {t t'}, (t, t') ∈ x.1.targets.zip x'.1.targets →
      SameRecord N c c' (t.hash, t.site x.1.id) (t'.hash, t'.site x'.1.id) := by
    intro t t' listed
    have parallel := (List.forall₂_iff_zip.1 targets).2 listed
    exact ⟨parallel.hash_eq, parallel.id_eq, same.ids, .mk same.place listed⟩
  obtain ⟨hasher, faithful, left⟩ := exists_recordAll_eq mirrors.faithful x.1.id x.1.targets
  obtain ⟨hasher', faithful', right⟩ := exists_recordAll_eq mirrors.faithful' x'.1.id x'.1.targets
  rw [left, right]
  refine { mirrors with
    grounded := { mirrors.grounded with }
    faithful := faithful
    faithful' := faithful'
    definitions := List.rel_append mirrors.definitions ?_ }
  rw [List.forall₂_map_left_iff, List.forall₂_map_right_iff]
  exact List.forall₂_iff_zip.2 ⟨targets.length_eq, places⟩

end Mirrors

section Functions
variable {table table' : FunctionTable}

/-- Adding functions to the table gives up the ones that they replace, and does nothing else. -/
theorem addFunctions_eq (d : Document) (functions : List (String × Handle)) :
    ∃ m replaced, (∀ h ∈ replaced, h ∈ d.functions.values ∨ h ∈ functions.map Prod.snd) ∧
      ∀ bound s, d.addFunctions functions bound s =
        .ok ({ d with functions := m }, s.releaseAll replaced) := by
  induction functions generalizing d with
  | nil => exact ⟨d.functions, [], fun h hh => absurd hh List.not_mem_nil, fun _ _ => rfl⟩
  | cons f rest ih =>
    obtain ⟨m, replaced, known, run⟩ := ih { d with functions := d.functions.insert f.1 f.2 }
    refine ⟨m, (d.functions.get? f.1).toList ++ replaced, fun h hh => ?_, fun bound s => ?_⟩
    · rw [List.map_cons, List.mem_cons]
      rcases List.mem_append.1 hh with hh | hh
      · exact .inl (SortedMap.mem_values_iff.2 ⟨f.1, Option.mem_toList.1 hh⟩)
      · rcases known h hh with old | listed
        · rcases SortedMap.mem_values_insert old with rfl | old
          · exact .inr (.inl rfl)
          · exact .inl old
        · exact .inr (.inr listed)
    · have released : (s.releaseAll (d.functions.get? f.1).toList).releaseAll replaced =
          s.releaseAll ((d.functions.get? f.1).toList ++ replaced) := List.foldl_append.symm
      rw [← released]
      exact run bound _

/-- A function that is added is found, and any other is found as before. -/
theorem get?_addTable {d₁ : Document} {bound : Nat}
    (added : d.addFunctions table.toList bound s = .ok (d₁, t)) (i : String) :
    d₁.functions.get? i = (table.get? i).or (d.functions.get? i) := by
  cases found : table.get? i with
  | some f => exact (get?_addFunctions
    table.nodup_keys added).1 f (SortedMap.get?_eq_some_iff.1 found)
  | none =>
    refine (get?_addFunctions table.nodup_keys added).2 fun key => ?_
    obtain ⟨entry, here, rfl⟩ := List.mem_map.1 key
    rw [SortedMap.get?_eq_some_iff.2 here] at found
    cases found

theorem mem_values_of_or {m n : FunctionTable} (get : ∀ i, m.get? i = (table.get? i).or (n.get? i))
    {h : Handle} (hh : h ∈ m.values) : h ∈ table.values ∨ h ∈ n.values := by
  obtain ⟨i, found⟩ := SortedMap.mem_values_iff.1 hh
  rw [get, Option.or_eq_some_iff] at found
  rcases found with added | ⟨-, old⟩
  · exact .inl (SortedMap.mem_values_iff.2 ⟨i, added⟩)
  · exact .inr (SortedMap.mem_values_iff.2 ⟨i, old⟩)

theorem lockstep_addFunctions (mirrors : Mirrors N c c' z s s' d d')
    (tables : FunctionTable.Twin N z table table') :
    Lockstep s s' (d.addFunctions table.toList) (d'.addFunctions table'.toList)
      fun d₁ d₁' t t' => s.Later z.base t ∧ Mirrors N c c' z t t' d₁ d₁' := by
  obtain ⟨m, replaced, known, run⟩ := d.addFunctions_eq table.toList
  obtain ⟨m', replaced', known', run'⟩ := d'.addFunctions_eq table'.toList
  have get : ∀ i, m.get? i = (table.get? i).or (d.functions.get? i) := get?_addTable (run 0 .empty)
  have get' : ∀ i, m'.get? i = (table'.get? i).or (d'.functions.get? i) :=
    get?_addTable (run' 0 .empty)
  have left : ∀ h ∈ replaced, h ∈ z.recorded := fun h hh =>
    (known h hh).elim (mirrors.functions.left h) (tables.left h)
  have right : ∀ h ∈ replaced', h ∈ z.recorded := fun h hh =>
    (known' h hh).elim (mirrors.functions.right h) (tables.right h)
  have later : s.Later z.base (s.releaseAll replaced) :=
    .of_nodes_eq (Store.nodes_releaseAll replaced s)
  have held := mirrors.mono (.of_later later) (mirrors.stores.releaseAll_recorded left right)
  refine .of_steps (fun bound => run bound s) (fun bound => run' bound s') ⟨later, ?_⟩
  refine { held with
    grounded := { held.grounded with }
    functions := ⟨fun h hh => ?_, fun h hh => ?_, fun tracked => ?_⟩ }
  · exact (mem_values_of_or get hh).elim (tables.left h) (mirrors.functions.left h)
  · exact (mem_values_of_or get' hh).elim (tables.right h) (mirrors.functions.right h)
  · rw [get, get', tables.agree tracked, mirrors.functions.agree tracked]

end Functions

section Scopes

/-- The root scope names the globals only. -/
theorem Grounded.root (grounded : d.Grounded z s) : (Scope.root d.globals s).1.Grounded z s where
  linkable h hh := by
    rcases List.mem_cons.1 hh with rfl | hh
    · exact grounded.globals
    · obtain rfl := List.mem_singleton.1 hh
      exact grounded.globals
  shaped := grounded.shaped

theorem later_child (base_le : z.base ≤ s.size) (outer : Scope) (context : Option Handle) :
    s.Later z.base (outer.child context s).2 :=
  .trans (.alloc base_le Scope.newLocals) (.of_nodes_eq (Store.nodes_retainAll outer.holds _))

/-- The locals of a nested scope are a new map. -/
theorem grounded_child (twin : s.Twin z s') {outer : Scope} (grounded : outer.Grounded z s)
    {context : Option Handle} (linkable : ∀ h ∈ context, s.Linkable z h) :
    (outer.child context s).1.Grounded z (outer.child context s).2 := by
  have later := later_child twin.base_le outer context
  have nodes : (outer.child context s).2.nodes = (s.alloc Scope.newLocals).2.nodes :=
    Store.nodes_retainAll outer.holds _
  constructor
  · intro h hh
    rw [Scope.holds_child] at hh
    rcases List.mem_cons.1 hh with rfl | hh
    · exact (grounded.linkable _ List.mem_cons_self).mono later
    rcases List.mem_cons.1 hh with rfl | hh
    · refine twin.linkable_new ?_ (Nat.lt_irrefl s.size)
      rw [Store.mem_iff, Store.size_eq nodes]
      exact Store.mem_alloc Scope.newLocals s
    rcases List.mem_append.1 hh with hh | hh
    · exact (linkable h (Option.mem_toList.1 hh)).mono later
    · exact (grounded.linkable h (List.mem_cons_of_mem _ hh)).mono later
  · have locals : (outer.child context s).2.node (outer.child context s).1.locals =
        Scope.newLocals :=
      (Store.node_eq nodes _).trans (Store.node_alloc Scope.newLocals s)
    rw [locals]
    decide

theorem lockstep_child (twin : s.Twin z s') {outer : Scope} (grounded : outer.Grounded z s)
    {context : Option Handle} (linkable : ∀ h ∈ context, s.Linkable z h) :
    Lockstep s s' (modifyGet (outer.child context)) (modifyGet (outer.child context))
      fun scope scope' t t' => scope' = scope ∧ s.Later z.base t ∧ t.Twin z t' ∧
        scope.Grounded z t := by
  have typed : Scope.newLocals.HasType := hasType_ofType .map Tag.map
  have made := twin.alloc (e := Scope.newLocals) rfl (fun k hk => nomatch hk) (typed.formed rfl)
  have same : (outer.child context s').1 = (outer.child context s).1 := by
    have locals : (s'.alloc Scope.newLocals).1 = (s.alloc Scope.newLocals).1 :=
      congrArg Handle.mk twin.size_eq
    simp only [Scope.child, locals]
  have later := later_child twin.base_le outer context
  have step : ∀ s bound, (modifyGet (outer.child context) : Infer Scope) bound s =
      .ok ((outer.child context s).1, (outer.child context s).2) := fun _ _ => rfl
  exact .of_steps (step s) (step s')
    ⟨same, later, made.retainAll outer.holds, grounded_child twin grounded linkable⟩

theorem scopeFor_found {id : String} {scope : Scope} (found : d.scopes.get? id = some scope)
    (around : List String) : scopeFor (id :: around) d = pure (scope, d) := by
  cases around with
  | nil => rw [scopeFor, found]
  | cons outer rest => rw [scopeFor.eq_3 _ _ _ (List.cons_ne_nil _ _), found]

theorem lockstep_root (mirrors : Mirrors N c c' z s s' d d') {f f' : Scope → Document}
    (next : ∀ {t t' scope}, Mirrors N c c' z t t' d d' → scope.Grounded z t →
      Mirrors N c c' z t t' (f scope) (f' scope)) :
    Lockstep s s'
      (do let scope ← modifyGet (Scope.root (← retain d.globals)); return (scope, f scope))
      (do let scope ← modifyGet (Scope.root (← retain d'.globals)); return (scope, f' scope))
      fun r r' t t' => r'.1 = r.1 ∧ s.Later z.base t ∧ Mirrors N c c' z t t' r.2 r'.2 ∧
        r.1.Grounded z t := by
  have later : s.Later z.base ((s.retain d.globals).retain d.globals) := .of_nodes_eq rfl
  have twin : ((s.retain d.globals).retain d.globals).Twin z
      ((s'.retain d.globals).retain d.globals) :=
    (mirrors.stores.retainAll [d.globals]).retainAll [d.globals]
  have held := mirrors.mono (.of_later later) twin
  have grounded := mirrors.grounded.root.mono (.of_later later)
  rw [mirrors.globals]
  exact .of_steps (fun _ => rfl) (fun _ => rfl) ⟨rfl, later, next held grounded, grounded⟩

/-- Scopes of corresponding blocks are found or made in step. -/
theorem lockstep_scopeFor (mirrors : Mirrors N c c' z s s' d d') {chain chain' : List String}
    (ids : List.Forall₂ N.tracked chain chain') :
    Lockstep s s' (scopeFor chain d) (scopeFor chain' d') fun r r' t t' => r'.1 = r.1 ∧
      s.Later z.base t ∧ Mirrors N c c' z t t' r.2 r'.2 ∧ r.1.Grounded z t := by
  induction ids with
  | nil => exact lockstep_root mirrors fun held _ => held
  | @cons id id' around around' first rest ih =>
    cases found : d.scopes.get? id with
    | some scope =>
      have found' := (mirrors.scopes first).trans found
      rw [scopeFor_found found, scopeFor_found found']
      exact .of_steps (fun _ => rfl) (fun _ => rfl)
        ⟨rfl, .refl _ s, mirrors, mirrors.grounded.scopes found⟩
    | none =>
      have found' := (mirrors.scopes first).trans found
      cases rest with
      | nil =>
        rw [scopeFor, scopeFor, found, found']
        exact lockstep_root mirrors fun held grounded => held.insertScope first grounded
      | @cons outer outer' more more' second others =>
        rw [scopeFor.eq_3 _ _ _ (List.cons_ne_nil _ _), scopeFor.eq_3 _ _ _ (List.cons_ne_nil _ _),
          found, found']
        refine ih.bind ?_
        rintro ⟨scope, d₁⟩ ⟨_, d₁'⟩ t t' ⟨rfl, later, mirrors₁, grounded⟩
        have context : (d₁'.functions.get? id').bind t'.context? =
            (d₁.functions.get? id).bind t.context? := by
          rw [mirrors₁.functions.agree first, funext mirrors₁.stores.context?_eq]
        have linkable : ∀ h ∈ (d₁.functions.get? id).bind t.context?, t.Linkable z h := by
          intro h hh
          obtain ⟨f, listed, owner⟩ := Option.bind_eq_some_iff.1 hh
          have recorded := mirrors₁.functions.mem_recorded_left (Option.mem_toList.2 listed)
          exact mirrors₁.stores.linkable_context?
            (mirrors₁.stores.recorded f recorded).base_le owner
        refine .bind_get (.bind_modify ?_)
        rw [context]
        generalize (d₁.functions.get? id).bind t.context? = owner at linkable ⊢
        have retained : t.Later z.base (t.retainAll owner.toList) :=
          .of_nodes_eq (Store.nodes_retainAll _ t)
        have mirrors₂ := mirrors₁.mono (.of_later retained) (mirrors₁.stores.retainAll owner.toList)
        refine (lockstep_child mirrors₂.stores (grounded.mono (.of_later retained))
          fun h hh => (linkable h hh).mono retained).bind ?_
        rintro made _ u u' ⟨rfl, later', twin, grounded'⟩
        have mirrors₃ := mirrors₂.mono (.of_later later') twin
        exact .of_steps (fun _ => rfl) (fun _ => rfl)
          ⟨rfl, (later.trans retained).trans later', mirrors₃.insertScope first grounded',
          grounded'⟩

end Scopes

section Analysis

theorem twins_runBindings {env : Env} (grounded : env.Grounded z s) (twin : s.Twin z s')
    {bindings bindings' : List Binding}
    (h : List.Forall₂ (Binding.Parallel N.declared) bindings bindings') :
    Resolve.Twins N z s s' (runBindings env bindings) (runBindings env bindings')
      fun _ _ _ => True := by
  induction h generalizing z s s' with
  | nil => exact .pure twin trivial
  | cons first _ ih =>
    refine (Env.twins_run grounded twin first).bind fun z₁ t t' _ onward twin₁ _ => ?_
    exact ih (grounded.mono onward) twin₁

theorem lockstep_runBlock (mirrors : Mirrors N c c' z s s' d d') {x x' : Block × Option String}
    (same : N.Corresponding c c' x x') {chain chain' : List String}
    (ids : List.Forall₂ N.tracked chain chain') :
    Lockstep s s' (d.runBlock x.1 chain) (d'.runBlock x'.1 chain')
      fun d₁ d₁' t t' => ∃ z₁, z.Onward s z₁ t ∧ Mirrors N c c' z₁ t t' d₁ d₁' := by
  refine (lockstep_scopeFor mirrors ids).bind ?_
  rintro ⟨_, d₁⟩ ⟨scope, d₁'⟩ t t' ⟨rfl, later, mirrors₁, grounded⟩
  have environment := mirrors₁.grounded.env grounded
  have runs : Resolve.Twins N z t t' (do
        (d₁.env scope).defineParameters x.1.parameters
        runBindings (d₁.env scope) x.1.bindings) (do
        (d₁.env scope).defineParameters x'.1.parameters
        runBindings (d₁.env scope) x'.1.bindings) fun _ _ _ => True := by
    refine (Env.twins_defineParameters environment mirrors₁.stores same.parallel.parameters).bind ?_
    intro z₁ u u' _ onward twin _
    exact twins_runBindings (environment.mono onward) twin same.parallel.bindings
  dsimp only
  rw [mirrors₁.env_eq]
  refine (runs ∅ ∅ (.empty N z)).bind ?_
  rintro ⟨_, table⟩ ⟨_, table'⟩ u u' ⟨-, z₁, onward, twin, tables, -⟩
  have mirrors₂ := (mirrors₁.mono onward twin).recordAll same
  refine (lockstep_addFunctions mirrors₂ tables).bind ?_
  rintro d₂ d₂' v v' ⟨later', mirrors₃⟩
  refine .of_steps (fun _ => rfl) (fun _ => rfl) ⟨z₁, ?_, mirrors₃.insertAnalyzed same.ids⟩
  exact .trans (.of_later later) (onward.trans (.of_later later'))

/-- The blocks of two corresponding chains are run in step. -/
theorem lockstep_runChain (aligned : N.Matches c c') (mirrors : Mirrors N c c' z s s' d d')
    {chain chain' : List String} (ids : List.Forall₂ N.tracked chain chain') :
    Lockstep s s' (runChain chain d) (runChain chain' d')
      fun d₁ d₁' t t' => ∃ z₁, z.Onward s z₁ t ∧ Mirrors N c c' z₁ t t' d₁ d₁' := by
  induction ids with
  | nil => exact .of_steps (fun _ => rfl) (fun _ => rfl) ⟨z, .refl z s, mirrors⟩
  | @cons id id' around around' first rest ih =>
    rw [runChain, runChain]
    refine ih.bind ?_
    rintro d₁ d₁' t t' ⟨z₁, onward, mirrors₁⟩
    have analyzed : d'.isAnalyzed id' = d.isAnalyzed id :=
      decide_eq_decide.2 (mirrors.analyzed first)
    have ran : Lockstep t t' (pure d₁) (pure d₁')
        fun d₁ d₁' t t' => ∃ z₁, z.Onward s z₁ t ∧ Mirrors N c c' z₁ t t' d₁ d₁' :=
      .of_steps (fun _ => rfl) (fun _ => rfl) ⟨z₁, onward, mirrors₁⟩
    rw [analyzed]
    split
    · exact ran
    · have blocks := mirrors.block? aligned first
      generalize d.block? id = found at blocks ⊢
      generalize d'.block? id' = found' at blocks ⊢
      cases blocks with
      | none => exact ran
      | some same =>
        refine (lockstep_runBlock mirrors₁ same (.cons first rest)).weaken ?_
        rintro d₂ d₂' u u' ⟨z₂, onward', mirrors₂⟩
        exact ⟨z₂, onward.trans onward', mirrors₂⟩

theorem forall₂_sites (mirrors : Mirrors N c c' z s s' d d') (hash : UInt32) (id : String)
    {chain chain' : List String} (ids : List.Forall₂ N.tracked chain chain') :
    List.Forall₂ (SameTarget c c')
      (chain.flatMap fun b => ((d.definitions.filter fun x => x.1 = hash).map (·.2)).filter
        fun x => x.block = b && x.id = id)
      (chain'.flatMap fun b => ((d'.definitions.filter fun x => x.1 = hash).map (·.2)).filter
        fun x => x.block = b && x.id = id) := by
  have hashed : List.Forall₂ (SameRecord N c c') (d.definitions.filter fun x => x.1 = hash)
      (d'.definitions.filter fun x => x.1 = hash) := by
    refine List.rel_filter (fun x x' same => ?_) mirrors.definitions
    simp only [decide_eq_true_eq, same.hash]
  have sites : List.Forall₂ (fun x x' => x'.id = x.id ∧ N.tracked x.block x'.block ∧
      SameTarget c c' x x') ((d.definitions.filter fun x => x.1 = hash).map (·.2))
      ((d'.definitions.filter fun x => x.1 = hash).map (·.2)) :=
    List.rel_map (fun x x' same => ⟨same.id, same.block, same.target⟩) hashed
  refine List.rel_flatMap ids fun b b' tracked => ?_
  have visible := List.rel_filter (p := fun x => x.block = b && x.id = id)
    (q := fun x => x.block = b' && x.id = id) (fun x x' same => ?_) sites
  · exact visible.imp fun x x' same => same.2.2
  · have blocks : x.block = b ↔ x'.block = b' := N.consistent (N.known tracked) same.2.1
    simp only [Bool.and_eq_true, decide_eq_true_eq, blocks, same.1]

end Analysis

section Answers

/-- Two answers: both are given, or both are refused for the same reason about corresponding
blocks. -/
inductive Answers {α β : Type} (N : Naming) (related : α → β → Prop) :
    Except DocumentError α → Except DocumentError β → Prop
  | given {a b} : related a b → Answers N related (.ok a) (.ok b)
  | unknown {i i'} : N.tracked i i' →
      Answers N related (.error (.unknownBlock i)) (.error (.unknownBlock i'))
  | unanalyzed {i i'} : N.tracked i i' →
      Answers N related (.error (.blockNotAnalyzed i)) (.error (.blockNotAnalyzed i'))

theorem Answers.map {α β γ δ : Type} {related : α → β → Prop} {other : γ → δ → Prop}
    {r : Except DocumentError α} {r' : Except DocumentError β} (answers : Answers N related r r')
    {f : α → γ} {f' : β → δ} (implies : ∀ a b, related a b → other (f a) (f' b)) :
    Answers N other (r.map f) (r'.map f') := by
  cases answers with
  | given both => exact .given (implies _ _ both)
  | unknown tracked => exact .unknown tracked
  | unanalyzed tracked => exact .unanalyzed tracked

variable {i i' : String} (aligned : N.Matches c c') (mirrors : Mirrors N c c' z s s' d d')

include aligned mirrors

theorem answers_block (tracked : N.tracked i i') :
    Answers N (N.Corresponding c c') (d.block i) (d'.block i') := by
  unfold block
  have blocks := mirrors.block? aligned tracked
  generalize d.block? i = found at blocks ⊢
  generalize d'.block? i' = found' at blocks ⊢
  cases blocks with
  | none => exact .unknown tracked
  | some same => exact .given same

theorem answers_ancestors (tracked : N.tracked i i') :
    Answers N (List.Forall₂ N.tracked) (d.ancestors i) (d'.ancestors i') := by
  have length : d'.chunk.blocks.length = d.chunk.blocks.length := by
    have ids := aligned.ids.length_eq
    rw [Chunk.blockIds, Chunk.blockIds, List.length_map, List.length_map] at ids
    rw [mirrors.chunk, mirrors.chunk', ids]
  rw [ancestors, ancestors, length]
  generalize d.chunk.blocks.length = bound
  induction bound generalizing i i' with
  | zero => exact .given .nil
  | succ bound ih =>
    rw [ancestorsWithin, ancestorsWithin]
    have blocks := answers_block aligned mirrors tracked
    generalize d.block i = found at blocks ⊢
    generalize d'.block i' = found' at blocks ⊢
    cases blocks with
    | unknown h => exact .unknown h
    | unanalyzed h => exact .unanalyzed h
    | @given x x' same =>
      obtain ⟨b, around⟩ := x
      obtain ⟨b', around'⟩ := x'
      have outer := same.around
      dsimp only at outer
      cases outer with
      | none => exact .given (.cons tracked .nil)
      | some outer =>
        exact (ih outer).map fun _ _ ids => .cons tracked ids

/-! ### Requests -/

/-- Mirrors, with answers that correspond, that have come from the stores by work in the zone. -/
def Ends (N : Naming) (c c' : Chunk) (z : Zone) (s : Store) (d d' : Document)
    (r r' : Except DocumentError Document) (t t' : Store) : Prop :=
  Answers N (fun _ _ => True) r r' ∧
    ∃ z₁, z.Onward s z₁ t ∧ Mirrors N c c' z₁ t t' (d.after r) (d'.after r')

theorem lockstep_analyzeBlock (tracked : N.tracked i i') :
    Lockstep s s' (d.analyzeBlock i) (d'.analyzeBlock i') (Ends N c c' z s d d') := by
  unfold analyzeBlock
  have chains := answers_ancestors aligned mirrors tracked
  generalize d.ancestors i = chain at chains ⊢
  generalize d'.ancestors i' = chain' at chains ⊢
  cases chains with
  | unknown h => exact .of_steps (fun _ => rfl) (fun _ => rfl) ⟨.unknown h, z, .refl z s, mirrors⟩
  | unanalyzed h =>
    exact .of_steps (fun _ => rfl) (fun _ => rfl) ⟨.unanalyzed h, z, .refl z s, mirrors⟩
  | given ids =>
    refine (lockstep_runChain aligned mirrors ids).bind ?_
    rintro d₁ d₁' t t' ⟨z₁, onward, mirrors₁⟩
    exact .of_steps (fun _ => rfl) (fun _ => rfl) ⟨.given trivial, z₁, onward, mirrors₁⟩

theorem lockstep_analyzeAll {ids ids' : List String} (tracked : List.Forall₂ N.tracked ids ids') :
    Lockstep s s' (analyzeAll ids d) (analyzeAll ids' d') (Ends N c c' z s d d') := by
  induction tracked generalizing z s s' d d' with
  | nil => exact .of_steps (fun _ => rfl) (fun _ => rfl) ⟨.given trivial, z, .refl z s, mirrors⟩
  | cons first _ ih =>
    refine (lockstep_analyzeBlock aligned mirrors first).bind ?_
    rintro r r' t t' ⟨answers, z₁, onward, mirrors₁⟩
    cases answers with
    | unknown h => exact .of_steps (fun _ => rfl) (fun _ => rfl) ⟨.unknown h, z₁, onward, mirrors₁⟩
    | unanalyzed h =>
      exact .of_steps (fun _ => rfl) (fun _ => rfl) ⟨.unanalyzed h, z₁, onward, mirrors₁⟩
    | given _ =>
      refine (ih mirrors₁).weaken ?_
      rintro r r' u u' ⟨answers, z₂, onward', mirrors₂⟩
      refine ⟨answers, z₂, onward.trans onward', ?_⟩
      cases answers with
      | given _ => exact mirrors₂
      | unknown _ | unanalyzed _ => exact mirrors.mono (onward.trans onward') mirrors₂.stores

theorem lockstep_analyze : Lockstep s s' d.analyze d'.analyze (Ends N c c' z s d d') := by
  unfold analyze
  rw [blockIds, blockIds, mirrors.chunk, mirrors.chunk']
  exact lockstep_analyzeAll aligned mirrors aligned.ids

/-! ### Queries -/

theorem answers_scope (tracked : N.tracked i i') :
    Answers N (fun scope scope' => scope' = scope ∧
      scope.Grounded z s) (d.scope i) (d'.scope i') := by
  unfold scope
  have blocks := answers_block aligned mirrors tracked
  generalize d.block i = found at blocks ⊢
  generalize d'.block i' = found' at blocks ⊢
  cases blocks with
  | unknown h => exact .unknown h
  | unanalyzed h => exact .unanalyzed h
  | given _ =>
    have analyzed : d'.isAnalyzed i' = d.isAnalyzed i :=
      decide_eq_decide.2 (mirrors.analyzed tracked)
    have scopes := mirrors.scopes tracked
    rw [analyzed, scopes]
    cases known : d.scopes.get? i with
    | none => exact .unanalyzed tracked
    | some scope =>
      cases d.isAnalyzed i with
      | true => exact .given ⟨rfl, mirrors.grounded.scopes known⟩
      | false => exact .unanalyzed tracked

/-- The same entity, with the documents still mirrors. -/
def Finds (N : Naming) (c c' : Chunk) (z : Zone) (s : Store) (d d' : Document)
    (r r' : Except DocumentError Handle) (t t' : Store) : Prop :=
  ∃ z₁, z.Onward s z₁ t ∧ Mirrors N c c' z₁ t t' d d' ∧
    Answers N (fun h h' => h' = h ∧ t.Made z₁ h) r r'

theorem lockstep_resolve (tracked : N.tracked i i') (name : String) :
    Lockstep s s' (d.resolve i name) (d'.resolve i' name) (Finds N c c' z s d d') := by
  unfold resolve
  have scopes := answers_scope aligned mirrors tracked
  generalize d.scope i = found at scopes ⊢
  generalize d'.scope i' = found' at scopes ⊢
  cases scopes with
  | unknown h => exact .of_steps (fun _ => rfl) (fun _ => rfl) ⟨z, .refl z s, mirrors, .unknown h⟩
  | unanalyzed h =>
    exact .of_steps (fun _ => rfl) (fun _ => rfl) ⟨z, .refl z s, mirrors, .unanalyzed h⟩
  | given same =>
    obtain ⟨rfl, grounded⟩ := same
    dsimp only
    rw [mirrors.registry]
    refine Lockstep.bind
      (twins_resolveName mirrors.stores mirrors.grounded.registry grounded.linkable name false) ?_
    rintro h _ t t' ⟨rfl, later, twin, linkable⟩
    exact .of_steps (fun _ => rfl) (fun _ => rfl)
      ⟨z, .of_later later, mirrors.mono (.of_later later) twin, .given ⟨rfl, linkable.toMade⟩⟩

/-- Functions that are met in a query are recorded, and given up in the end. -/
theorem lockstep_resolveExpression (tracked : N.tracked i i') {e e' : Expr}
    (h : e.Parallel Naming.free.declared e') :
    Lockstep s s' (d.resolveExpression i e) (d'.resolveExpression i' e')
      (Finds N c c' z s d d') := by
  unfold resolveExpression
  have scopes := answers_scope aligned mirrors tracked
  generalize d.scope i = found at scopes ⊢
  generalize d'.scope i' = found' at scopes ⊢
  cases scopes with
  | unknown h => exact .of_steps (fun _ => rfl) (fun _ => rfl) ⟨z, .refl z s, mirrors, .unknown h⟩
  | unanalyzed h =>
    exact .of_steps (fun _ => rfl) (fun _ => rfl) ⟨z, .refl z s, mirrors, .unanalyzed h⟩
  | @given scope _ same =>
    obtain ⟨rfl, grounded⟩ := same
    dsimp only
    rw [mirrors.env_eq]
    refine (Env.twins_resolve _ h (mirrors.grounded.env grounded) mirrors.stores ∅ ∅
      (.empty _ z)).bind ?_
    rintro ⟨_, table⟩ ⟨h, table'⟩ t t' ⟨rfl, z₁, onward, twin, tables, made⟩
    have later : t.Later z₁.base (t.releaseAll table.values) :=
      .of_nodes_eq (Store.nodes_releaseAll table.values t)
    have released := twin.releaseAll_recorded tables.left tables.right
    have arrived := onward.trans (.of_later later)
    exact .of_steps (fun _ => rfl) (fun _ => rfl)
      ⟨z₁, arrived, mirrors.mono arrived released, .given ⟨rfl, made.mono later⟩⟩

/-- A search finds the same targets in the same order. -/
theorem answers_findDefinitions (tracked : N.tracked i i') {R : String → String → Prop}
    {e e' : Expr} (h : e.Parallel R e') :
    Answers N (List.Forall₂ (SameTarget c c'))
      (d.findDefinitions i e).1 (d'.findDefinitions i' e').1 ∧
      Mirrors N c c' z s s' (d.findDefinitions i e).2 (d'.findDefinitions i' e').2 := by
  have chains := answers_ancestors aligned mirrors tracked
  generalize found : d.ancestors i = chain at chains
  generalize found' : d'.ancestors i' = chain' at chains
  cases chains with
  | unknown h =>
    rw [findDefinitions, findDefinitions, found, found']
    exact ⟨.unknown h, mirrors⟩
  | unanalyzed h =>
    rw [findDefinitions, findDefinitions, found, found']
    exact ⟨.unanalyzed h, mirrors⟩
  | given ids =>
    obtain ⟨hasher, faithful, left⟩ := findDefinitions_eq mirrors.faithful found e
    obtain ⟨hasher', faithful', right⟩ := findDefinitions_eq mirrors.faithful' found' e'
    rw [left, right, h.hash_eq, h.id_eq]
    exact ⟨.given (forall₂_sites mirrors e.hash e.id ids),
      { mirrors with
        grounded := { mirrors.grounded with }, faithful := faithful, faithful' := faithful' }⟩

end Answers

end Document

end ScriptInference
