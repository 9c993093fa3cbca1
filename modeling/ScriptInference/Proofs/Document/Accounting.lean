import ScriptInference.Proofs.Document.Driver
import ScriptInference.Proofs.Resolution.Bindings

/-!
# Documents account for what they hold

A document holds its globals, the entities of its scopes, the functions of its table and its
registry. If the store accounts for these holds and some others, that is, if each node is held at
least as often as the document, the others and the living nodes hold it together, then it does so
after every request to analyse the document, whether the request is granted or refused. A registry
that has just been made is accounted for, and so is a new document over it.
-/

namespace ScriptInference

/-- The same with less at hand. -/
theorem Infer.Balanced.regive {α : Type} {D : Discipline} {s : Store} {x : Infer α}
    {give give' : α → Multiset Handle} {post : α → Prop} (hx : Balanced D s x give post)
    (le : ∀ a, post a → give' a ≤ give a) : Balanced D s x give' post where
  settles := hx.settles
  runs bound a t h := by
    obtain ⟨l, result⟩ := hx.runs bound a t h
    exact ⟨D.mono l (le a result), result⟩

section Seeding
variable {g s : Store} {strict : Prop} {own : Multiset Handle}

open Store

/-- The entity that stands for a definition of a type. -/
def Definition.entity (name : String) (d : Definition) : Entity :=
  let kind := if d.isFunction then EntityKind.function else .property
  { Entity.ofType kind d.type with label := name, signatures := .ofList [d] }

theorem Store.Ledger.insertSignature (l : g.Ledger strict own s) {h : Handle} (new : h ∉ g)
    (hh : h ∈ own) (signature : Signature) :
    g.Ledger strict own (s.insertSignature h signature) := by
  have seeded : ∀ (entries : List (String × Definition)) {s : Store}, g.Ledger strict own s →
      g.Ledger strict own (entries.foldl (fun s entry =>
        (s.alloc (entry.2.entity entry.1)).2.putMember h (.identifier entry.1)
          (s.alloc (entry.2.entity entry.1)).1) s) := by
    intro entries
    induction entries with
    | nil => exact fun l => l
    | cons entry rest ih =>
      intro s l
      have made := l.alloc (e := entry.2.entity entry.1) (fun k hk => by cases hk) fun k hk => by
        cases hk
      exact ih (made.putMember new hh _)
  have filled := seeded signature.definitions.toList l
  refine filled.modify new (filled.live_of_mem hh) ?_ (le_refl _)
  exact filled.closed.modifyNode fun k hk => filled.closed.links h hk

theorem Store.Ledger.ofSignature (l : g.Ledger strict own s) (signature : Signature) :
    g.Ledger strict ((s.ofSignature signature).1 ::ₘ own) (s.ofSignature signature).2 := by
  have made := l.alloc (e := { Entity.ofType .internal signature.typeName with
    label := signature.typeName }) (fun k hk => by cases hk) fun k hk => by cases hk
  exact made.insertSignature l.fresh (Multiset.mem_cons_self _ _) signature

namespace TypeRegistry
variable {r : TypeRegistry} {rest : Multiset Handle}

/-- A registry holds what is inserted, and at most what it held before. -/
theorem values_insert_le (m : SortedMap String Handle) (name : String) (h : Handle) :
    (↑(m.insert name h).values : Multiset Handle) ≤ h ::ₘ ↑m.values := by
  rw [Multiset.cons_coe, ← Multiset.coe_eq_coe.2 (m.values_insert_perm name h)]
  exact Multiset.coe_le.2 (List.sublist_append_left _ _).subperm

theorem accounts_seedType (l : s.Accounts (holding r.holds rest)) (signature : Signature) :
    (r.seedType signature s).2.Accounts (holding (r.seedType signature s).1.holds rest) := by
  have made := l.ofSignature signature
  have holds_seeded : (r.seedType signature s).1.holds = r.primitives.values ++
      (r.types.insert signature.typeName (s.ofSignature signature).1).values := rfl
  refine made.mono ?_
  rw [holding_eq, holding_eq, ← Multiset.cons_add, holds_seeded, holds, ← Multiset.coe_add,
    ← Multiset.coe_add, ← Multiset.add_cons]
  refine add_le_add_left (add_le_add_right ?_ _) rest
  exact values_insert_le r.types signature.typeName _

theorem accounts_seedPrimitive (l : s.Accounts (holding r.holds rest)) (signature : Signature) :
    (r.seedPrimitive signature s).2.Accounts
      (holding (r.seedPrimitive signature s).1.holds rest) := by
  have made := l.ofSignature signature
  have again := made.retain (made.live_of_mem (Multiset.mem_cons_self _ _))
  have holds_seeded : (r.seedPrimitive signature s).1.holds =
      (r.primitives.insert signature.typeName (s.ofSignature signature).1).values ++
        (r.types.insert signature.typeName (s.ofSignature signature).1).values := rfl
  refine again.mono ?_
  rw [holding_eq, holding_eq, ← Multiset.cons_add, ← Multiset.cons_add, holds_seeded, holds,
    ← Multiset.coe_add, ← Multiset.coe_add, ← Multiset.add_cons, ← Multiset.cons_add]
  refine add_le_add_left (add_le_add ?_ ?_) rest
  · exact values_insert_le r.primitives signature.typeName _
  · exact values_insert_le r.types signature.typeName _

/-- A new registry holds the entities that were made for it. -/
theorem accounts_new (catalog : Catalog) (l : s.Accounts rest) :
    (TypeRegistry.new catalog s).2.Accounts
      (holding (TypeRegistry.new catalog s).1.holds rest) := by
  have seeded : ∀ (f : TypeRegistry → Signature → Store → TypeRegistry × Store),
      (∀ {r : TypeRegistry} {s : Store} signature, s.Accounts (holding r.holds rest) →
        (f r signature s).2.Accounts (holding (f r signature s).1.holds rest)) →
      ∀ (signatures : List Signature) (now : TypeRegistry × Store),
        now.2.Accounts (holding now.1.holds rest) →
        (signatures.foldl (fun now signature => f now.1 signature now.2) now).2.Accounts
          (holding (signatures.foldl (fun now signature => f now.1 signature now.2) now).1.holds
            rest) := by
    intro f step signatures
    induction signatures with
    | nil => exact fun _ l => l
    | cons signature others ih => exact fun now l => ih _ (step signature l)
  refine seeded seedType (fun signature l => accounts_seedType l signature) _ _ ?_
  exact seeded seedPrimitive (fun signature l => accounts_seedPrimitive l signature) _ _ l

end TypeRegistry

end Seeding

namespace Scope
variable {D : Discipline} {s : Store} {own : Multiset Handle}

open Infer

theorem balanced_root {globals : Handle} (l : D.InOrder (globals ::ₘ own) s) :
    Balanced D s (modifyGet (root globals)) (fun c => holding c.holds own)
      fun c => c.holds = [globals, globals] :=
  .of_step (fun _ => rfl) (D.retain l (D.live_head l)) rfl

theorem holds_child (outer : Scope) (context : Option Handle) (s : Store) :
    (outer.child context s).1.holds =
      outer.globals :: (s.alloc newLocals).1 :: (context.toList ++ outer.frameEntities) := rfl

theorem balanced_child {outer : Scope} {context : Option Handle}
    (l : D.InOrder (holding context.toList own) s) (held : ∀ h ∈ outer.holds, h ∈ own) :
    Balanced D s (modifyGet (outer.child context)) (fun c => holding c.holds own)
      fun _ => True := by
  have all := D.retainAll (D.make l (e := newLocals) rfl) fun h hh =>
    Multiset.mem_cons_of_mem (mem_holding.2 (.inr (held h hh)))
  refine .of_step (a := (outer.child context s).1) (t := (outer.child context s).2)
    (fun _ => rfl) ?_ trivial
  have same : holding (outer.child context s).1.holds own =
      holding outer.holds ((s.alloc newLocals).1 ::ₘ holding context.toList own) := by
    rw [holds_child, holding_eq, holding_eq, holding_eq, holds]
    simp only [← Multiset.cons_coe, ← Multiset.coe_add, ← Multiset.singleton_add]
    ac_rfl
  rw [same]
  exact all

end Scope

namespace Document

/-- The handles that a document holds. -/
def holds (d : Document) : List Handle :=
  d.globals :: (d.scopes.values.flatMap Scope.holds ++ d.functions.values ++ d.registry.holds)

section
variable {d : Document} {D : Discipline} {s : Store} {rest : Multiset Handle}

open Infer

theorem mem_holds_of_scope {id : String} {c : Scope} (hc : d.scopes.get? id = some c) {h : Handle}
    (hh : h ∈ c.holds) : h ∈ d.holds := by
  have listed : c ∈ d.scopes.values := SortedMap.mem_values_iff.2 ⟨id, hc⟩
  have held : h ∈ d.scopes.values.flatMap Scope.holds := List.mem_flatMap.2 ⟨c, listed, hh⟩
  exact List.mem_cons_of_mem _ (List.mem_append_left _ (List.mem_append_left _ held))

theorem mem_holds_of_registry {h : Handle} (hh : h ∈ d.registry.holds) : h ∈ d.holds :=
  List.mem_cons_of_mem _ (List.mem_append_right _ hh)

theorem mem_holds_of_function {id : String} {f : Handle} (hf : d.functions.get? id = some f) :
    f ∈ d.holds :=
  List.mem_cons_of_mem _ (List.mem_append_left _
    (List.mem_append_right _ (SortedMap.mem_values_iff.2 ⟨id, hf⟩)))

/-- A scope that is inserted brings what it holds. -/
theorem holds_insert_scope_le (d : Document) (id : String) (c : Scope) :
    holding { d with scopes := d.scopes.insert id c }.holds rest ≤
      holding c.holds (holding d.holds rest) := by
  have scopes : (↑((d.scopes.insert id c).values.flatMap Scope.holds) : Multiset Handle) ≤
      ↑c.holds + ↑(d.scopes.values.flatMap Scope.holds) := by
    have perm := (d.scopes.values_insert_perm id c).flatMap_right Scope.holds
    rw [List.flatMap_append, List.flatMap_cons] at perm
    rw [Multiset.coe_add, ← Multiset.coe_eq_coe.2 perm]
    exact Multiset.coe_le.2 (List.sublist_append_left _ _).subperm
  simp only [holding_eq, holds, ← Multiset.cons_coe, ← Multiset.coe_add, ← Multiset.singleton_add]
  calc _ = ↑((d.scopes.insert id c).values.flatMap Scope.holds) +
        ({d.globals} + ↑d.functions.values + ↑d.registry.holds + rest) := by ac_rfl
    _ ≤ ↑c.holds + ↑(d.scopes.values.flatMap Scope.holds) +
        ({d.globals} + ↑d.functions.values + ↑d.registry.holds + rest) := add_le_add_left scopes _
    _ = _ := by ac_rfl

/-- A function that is inserted takes the place of the one with the same id. -/
theorem holds_insert_function (d : Document) (id : String) (h : Handle) (more : Multiset Handle) :
    h ::ₘ holding d.holds more = holding (d.functions.get? id).toList
      (holding { d with functions := d.functions.insert id h }.holds more) := by
  have values := Multiset.coe_eq_coe.2 (d.functions.values_insert_perm id h)
  rw [← Multiset.coe_add, ← Multiset.cons_coe, ← Multiset.singleton_add] at values
  simp only [holding_eq, holds, ← Multiset.cons_coe, ← Multiset.coe_add, ← Multiset.singleton_add]
  calc _ = ({h} + ↑d.functions.values) + ({d.globals} + ↑(d.scopes.values.flatMap Scope.holds) +
        ↑d.registry.holds + more) := by ac_rfl
    _ = _ := by
      rw [← values]
      ac_rfl

theorem balanced_scopeFor (l : D.InOrder (holding d.holds rest) s) (chain : List String) :
    Balanced D s (scopeFor chain d) (fun r => holding r.2.holds rest)
      fun r => (∀ h ∈ r.1.holds, h ∈ r.2.holds) ∧ r.2.chunk = d.chunk := by
  have globals : d.globals ∈ d.holds := List.mem_cons_self
  induction chain generalizing s d with
  | nil =>
    refine (balanced_retain l (D.live_of_mem l (mem_holding.2 (.inl globals)))).bind
      fun t h l' same => ?_
    refine (Scope.balanced_root l').bind fun u c l'' holds => .pure ?_ ⟨fun k hk => ?_, rfl⟩
    · exact D.mono l'' (le_holding _ _)
    · rw [holds, same] at hk
      have root : k = d.globals := by simpa using hk
      exact root ▸ globals
  | cons id around ih =>
    have placed : ∀ {d₁ : Document} {t : Store} {c : Scope}, d₁.chunk = d.chunk →
        D.InOrder (holding c.holds (holding d₁.holds rest)) t →
        Balanced D t (pure (c, { d₁ with scopes := d₁.scopes.insert id c }))
          (fun r => holding r.2.holds rest)
          fun r => (∀ h ∈ r.1.holds, h ∈ r.2.holds) ∧ r.2.chunk = d.chunk := by
      intro d₁ t c chunk l'
      refine .pure (D.mono l' (holds_insert_scope_le d₁ id c)) ⟨fun h hh => ?_, chunk⟩
      have inserted : (d₁.scopes.insert id c).get? id = some c := by simp
      exact mem_holds_of_scope (d := { d₁ with scopes := d₁.scopes.insert id c }) inserted hh
    unfold scopeFor
    split
    · rename_i c hc
      exact .pure l ⟨fun h hh => mem_holds_of_scope hc hh, rfl⟩
    · split
      · refine (balanced_retain l (D.live_of_mem l (mem_holding.2 (.inl globals)))).bind ?_
        intro t h l' _
        exact (Scope.balanced_root l').bind fun u c l'' _ => placed rfl l''
      · refine (ih l globals).bind fun t r l' made => ?_
        obtain ⟨outer, d₁⟩ := r
        obtain ⟨held, chunk⟩ := made
        dsimp only at l' held chunk
        have retained : D.InOrder
            (holding ((d₁.functions.get? id).bind t.context?).toList (holding d₁.holds rest))
            (t.retainAll ((d₁.functions.get? id).bind t.context?).toList) := by
          cases context : (d₁.functions.get? id).bind t.context? with
          | none => exact l'
          | some h =>
            obtain ⟨f, found, hf⟩ := Option.bind_eq_some_iff.1 context
            obtain ⟨named, alive⟩ := Option.filter_eq_some_iff.1 hf
            have held := D.live_of_mem l' (mem_holding.2 (.inl (mem_holds_of_function found)))
            exact D.retain l' (D.linked l' (D.open_of_live held)
              (Entity.mem_links_iff.2 (.inr (.inr (.inr named)))) alive)
        have step : Balanced D t
            (modify (Store.retainAll ((d₁.functions.get? id).bind t.context?).toList))
            (fun _ => holding ((d₁.functions.get? id).bind t.context?).toList
              (holding d₁.holds rest)) fun _ => True :=
          .of_step (fun _ => rfl) retained trivial
        refine .bind_get (step.bind fun u _ l'' _ => ?_)
        have kept : ∀ h ∈ outer.holds, h ∈ holding d₁.holds rest := fun h hh =>
          mem_holding.2 (.inl (held h hh))
        exact (Scope.balanced_child l'' kept).bind fun v c l₃ _ => placed chunk l₃

theorem balanced_addFunctions (functions : List (String × Handle))
    (l : D.InOrder (holding (functions.map (·.2)) (holding d.holds rest)) s) :
    Balanced D s (d.addFunctions functions) (fun d' => holding d'.holds rest)
      fun d' => d'.chunk = d.chunk := by
  induction functions generalizing s d with
  | nil => exact .pure l rfl
  | cons f others ih =>
    obtain ⟨id, h⟩ := f
    rw [List.map_cons, holding, List.foldr_cons, ← holding, cons_holding,
      holds_insert_function d id h,
      ← holding_append, holding_perm List.perm_append_comm, holding_append] at l
    exact (balanced_releaseAll l).bind fun t _ l' _ => ih l'

/-- Recording definitions changes neither the program nor what is held. -/
theorem recorded (d : Document) (block : String) (targets : List Expr) :
    (targets.foldl (fun d t => d.record block t) d).holds = d.holds ∧
      (targets.foldl (fun d t => d.record block t) d).chunk = d.chunk := by
  induction targets generalizing d with
  | nil => exact ⟨rfl, rfl⟩
  | cons target others ih => exact ih (d.record block target)

/-- The search for the blocks around a block of the program meets no unknown block. -/
theorem exists_ancestorsWithin (bound : Nat) {id : String} (known : id ∈ d.blockIds) :
    ∃ chain, d.ancestorsWithin bound id = .ok chain := by
  induction bound generalizing id with
  | zero => exact ⟨[], rfl⟩
  | succ bound ih =>
    cases found : d.block? id with
    | none => exact absurd known (block?_eq_none_iff.1 found)
    | some p =>
      obtain ⟨b, around⟩ := p
      cases around with
      | none =>
        exact ⟨[id], by
          simp [ancestorsWithin, block, found, Bind.bind, Except.bind, Pure.pure, Except.pure]⟩
      | some around =>
        obtain ⟨before, after, split⟩ := List.append_of_mem (block?_eq_some found).1
        have listed : around ∈ d.blockIds := by
          rw [blockIds, Chunk.blockIds, split, List.map_append]
          exact List.mem_append_left _ (enclosing_listed_before split)
        obtain ⟨chain, outer⟩ := ih listed
        exact ⟨id :: chain, by
          simp [ancestorsWithin, block, found, outer, Bind.bind, Except.bind, Pure.pure,
            Except.pure]⟩

/-- The document after a request that may have been refused. -/
def after (d : Document) : Except DocumentError Document → Document
  | .ok d' => d'
  | .error _ => d

section Lax
variable (lax : D.Lax)

include lax

theorem books_runBindings {env : Env} {own : Multiset Handle} (owned : env.Owned D own)
    (bindings : List Binding) : Env.Books D own (runBindings env bindings) fun _ => own := by
  induction bindings with
  | nil => exact .pure rfl trivial
  | cons b others ih => exact (Env.books_run lax owned b).bind fun _ _ => ih

variable (l : D.InOrder (holding d.holds rest) s)

include l

theorem balanced_runBlock (block : Block) (chain : List String) :
    Balanced D s (d.runBlock block chain) (fun d' => holding d'.holds rest)
      fun d' => d'.chunk = d.chunk := by
  refine (balanced_scopeFor l chain).bind fun t r l' made => ?_
  obtain ⟨scope, d₁⟩ := r
  obtain ⟨held, chunk⟩ := made
  dsimp only at l' held chunk
  have owned : (d₁.env scope).Owned D (holding d₁.holds rest) :=
    ⟨fun h hh => mem_holding.2 (.inl (held h hh)),
      fun h hh => (Discipline.Anchored.of_mem
      (mem_holding.2 (.inl (mem_holds_of_registry hh)))).known⟩
  have bindings : Env.Books D (holding d₁.holds rest) (do
      (d₁.env scope).defineParameters block.parameters
      runBindings (d₁.env scope) block.bindings) fun _ => holding d₁.holds rest :=
    (Env.books_defineParameters lax owned _).bind fun _ _ => books_runBindings lax owned _
  refine (bindings.run lax.table l').bind fun u r l'' _ => ?_
  obtain ⟨holds, recorded_chunk⟩ := d₁.recorded block.id (block.bindings.map Binding.target)
  rw [← holds] at l''
  refine (balanced_addFunctions r.2.toList l'').bind fun v d' done same => ?_
  exact .pure done (same.trans (recorded_chunk.trans chunk))

theorem balanced_runChain (chain : List String) :
    Balanced D s (runChain chain d) (fun d' => holding d'.holds rest)
      fun d' => d'.chunk = d.chunk := by
  induction chain with
  | nil => exact .pure l rfl
  | cons id around ih =>
    refine ih.bind fun t ran l' chunk => ?_
    split
    · exact .pure l' chunk
    · split
      · exact .pure l' chunk
      · exact (balanced_runBlock lax l' _ _).weaken fun d' same => same.trans chunk

theorem balanced_analyzeBlock (id : String) :
    Balanced D s (d.analyzeBlock id) (fun r => holding (d.after r).holds rest)
      fun r => (d.after r).chunk = d.chunk ∧ (id ∈ d.blockIds → ∃ d', r = .ok d') := by
  unfold analyzeBlock
  split
  · rename_i e unknown
    refine .pure l ⟨rfl, fun known => ?_⟩
    obtain ⟨chain, around⟩ := exists_ancestorsWithin d.chunk.blocks.length known
    rw [ancestors, around] at unknown
    cases unknown
  · exact (balanced_runChain lax l _).bind fun t ran l' chunk => .pure l' ⟨chunk,
      fun _ => ⟨ran, rfl⟩⟩

theorem balanced_analyzeAll {ids : List String} (known : ∀ id ∈ ids, id ∈ d.blockIds) :
    Balanced D s (analyzeAll ids d) (fun r => holding (d.after r).holds rest)
      fun r => ∃ d', r = .ok d' := by
  induction ids generalizing s d with
  | nil => exact .pure l ⟨d, rfl⟩
  | cons id others ih =>
    refine (balanced_analyzeBlock lax l id).bind fun t r l' analyzed => ?_
    obtain ⟨d₁, rfl⟩ := analyzed.2 (known id List.mem_cons_self)
    have chunk : d₁.chunk = d.chunk := analyzed.1
    have later := ih (d := d₁) l' fun id hid => by
      rw [blockIds, chunk]
      exact known id (List.mem_cons_of_mem _ hid)
    refine later.regive fun r granted => ?_
    obtain ⟨d', rfl⟩ := granted
    exact le_refl _

theorem balanced_serve (r : Request) :
    Balanced D s (d.serve r) (fun r => holding (d.after r).holds rest) fun _ => True := by
  cases r with
  | all => exact (balanced_analyzeAll lax l fun _ hid => hid).forget
  | block id => exact (balanced_analyzeBlock lax l id).forget

end Lax

end

theorem accounts_new {s : Store} {registry : TypeRegistry} {rest : Multiset Handle}
    (l : s.Accounts (holding registry.holds rest)) (chunk : Chunk) (options : Options)
    (hasher : Hasher) :
    (new chunk registry options hasher s).2.Accounts
      (holding (new chunk registry options hasher s).1.holds rest) :=
  l.alloc (e := Scope.newGlobals) (fun k hk => by cases hk) fun k hk => by cases hk

end Document

end ScriptInference
