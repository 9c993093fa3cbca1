import ScriptInference.Proofs.Document.Progress
import ScriptInference.Proofs.Document.Queries
import ScriptInference.Proofs.Resolution.Linking

/-!
# Prototypes and receivers in the course of an analysis

An instance that `new` makes is linked to its prototype, and a function that is stored as a member
to the container that becomes `self` in its block. Neither link is ever taken off again. But they
hold nothing unless the instance owns its prototype, so that an assignment to the name of the
prototype, which stores another entity under it, leaves the instance without the inherited members.

The links stay alive as long as what they lead to is held by the document. What the names of the
program hold is taken away only by a binding or a parameter that replaces a member on the way to it.
-/

namespace ScriptInference

namespace Document

open Infer

section Entering
variable {d d' : Document} {id : String} {c : Scope} {bound : Nat} {s t : Store}
  {rest : Multiset Handle}

theorem Entered.holds_subset (entered : d.Entered s c d' t) : ∀ h ∈ d.holds, h ∈ d'.holds := by
  intro h hh
  rw [entered.document]
  rcases List.mem_cons.1 hh with rfl | hh
  · exact List.mem_cons_self
  · rcases List.mem_append.1 hh with hh | registered
    · rcases List.mem_append.1 hh with nested | function
      · obtain ⟨c', listed, held⟩ := List.mem_flatMap.1 nested
        obtain ⟨id, found⟩ := SortedMap.mem_values_iff.1 listed
        exact mem_holds_of_scope (d := { d with scopes := d'.scopes })
          (entered.scopes id c' found) held
      · exact List.mem_cons_of_mem _ (List.mem_append_left _ (List.mem_append_right _ function))
    · exact mem_holds_of_registry (d := { d with scopes := d'.scopes }) registered

theorem Entered.namespaces_subset (entered : d.Entered s c d' t) :
    ∀ h ∈ d.namespaces, h ∈ d'.namespaces := by
  intro h hh
  rw [entered.document]
  rcases List.mem_cons.1 hh with rfl | hh
  · exact List.mem_cons_self
  · obtain ⟨c', listed, named⟩ := List.mem_flatMap.1 hh
    obtain ⟨id, found⟩ := SortedMap.mem_values_iff.1 listed
    exact mem_namespaces_of_scope (d := { d with scopes := d'.scopes })
      (entered.scopes id c' found) named

/-- The scope of a block that is entered for the first time has the context of its function, if this
is still held. -/
theorem context_scopeFor (l : s.Accounts (holding d.holds rest)) {outer : List String}
    (missing : d.scopes.get? id = none) (nested : outer ≠ [])
    (h : scopeFor (id :: outer) d bound s = .ok ((c, d'), t)) {f k : Handle}
    (function : d.functions.get? id = some f) (context : (s.node f).context = some k)
    (held : k ∈ s.holdings d.holds) : c.context? = some k ∧ t.live k := by
  rcases scopeFor_steps h with ⟨found, -, -⟩ | ⟨-, root, -⟩ |
    ⟨-, -, around, d₁, t₁, context', first, read, child, -⟩
  · rw [missing] at found
    cases found
  · exact absurd root nested
  · have entered := entered_scopeFor first
    have l₁ : t₁.Accounts (holding d₁.holds rest) :=
      ((balanced_scopeFor (D := .accounts) l outer).runs _ _ _ first).1
    have inside : ∀ r ∈ d.holds, r ∈ s := fun r hr =>
      Store.mem_of_live (l.live_of_mem (mem_holding.2 (.inl hr)))
    have still : k ∈ t₁.holdings d₁.holds := by
      have amends : s.Amends (fun _ _ => False) t₁ := entered.amends
      exact amends.mem_holdings l.closed inside entered.holds_subset held
    have hf := mem_holds_of_function function
    have recorded : (t₁.node f).context = some k := by rw [entered.kept f (inside f hf), context]
    have functions : d₁.functions.get? id = some f := by
      rw [entered.document]
      exact function
    have live : t₁.context? f = some k :=
      (l₁.linksLive fun r hr => mem_holding.2 (.inl hr)).context f k recorded still
    have given : c.context? = some k := by
      rw [functions, Option.bind_some, live] at read
      have same := congrArg (fun r => r.1.context?) child
      exact same.symm.trans read
    have kept : k ∈ d'.holds := by
      refine mem_holds_of_scope (get?_scopeFor h) (List.mem_cons_of_mem _ ?_)
      refine List.mem_flatMap.2 ⟨c.frame, List.mem_cons_self, List.mem_cons_of_mem _ ?_⟩
      exact Option.mem_toList.2 given
    have l' : t.Accounts _ := ((balanced_scopeFor (D := .accounts) l (id :: outer)).runs _ _ _ h).1
    exact ⟨given, l'.live_of_mem (mem_holding.2 (.inl kept))⟩

/-- Functions that are added take the places of no others than those with their ids. -/
theorem get?_addFunctions {functions : List (String × Handle)}
    (distinct : (functions.map Prod.fst).Nodup)
    (h : d.addFunctions functions bound s = .ok (d', t)) :
    (∀ f, (id, f) ∈ functions → d'.functions.get? id = some f) ∧
      (id ∉ functions.map Prod.fst → d'.functions.get? id = d.functions.get? id) := by
  induction functions generalizing d s with
  | nil =>
    cases h
    exact ⟨fun f listed => (by cases listed), fun _ => rfl⟩
  | cons first others ih =>
    obtain ⟨new, distinct'⟩ := List.nodup_cons.1 distinct
    obtain ⟨_, u, -, h⟩ := bind_ok h
    obtain ⟨listed', unlisted⟩ := ih distinct' h
    refine ⟨fun f listed => ?_, fun absent => ?_⟩
    · rcases List.mem_cons.1 listed with rfl | listed
      · rw [unlisted new, SortedMap.get?_insert, if_pos rfl]
      · exact listed' f listed
    · obtain ⟨other, absent⟩ := not_or.1 (absent ∘ List.mem_cons.2)
      rw [unlisted absent, SortedMap.get?_insert, if_neg other]

end Entering

/-- What the names of the program hold. -/
def Stage.named (a : Stage) : Set Handle := a.store.holdings a.document.namespaces

/-- On the way from one state to another, a binding or a parameter of a block replaces a member
through which the names of the program held the entity. -/
def Stage.Severs (a b : Stage) (h : Handle) : Prop :=
  ∃ x y, a.Leads x ∧ Step x y ∧ y.Leads b ∧ x.phase.scope?.isSome ∧ y.phase.scope?.isSome ∧
    x.store.Cuts y.store x.document.namespaces h

/-- What becomes of links in the further course of an analysis: they stay recorded, and they are
alive unless what they lead to is severed from the names of the program. -/
structure Stage.Carries (a b : Stage) : Prop where
  isa : ∀ n ∈ a.store, (b.store.node n).isa = (a.store.node n).isa
  context : ∀ n ∈ a.store, (a.store.node n).context.isSome → (b.store.node n).context.isSome
  instances : ∀ n p owned, (b.store.node n).isa = some ⟨p, owned⟩ → p ∈ a.named →
    b.store.isa? n = some p ∨ a.Severs b p
  methods : ∀ f k, (b.store.node f).context = some k → k ∈ a.named →
    b.store.context? f = some k ∨ a.Severs b k

section Stages
variable {chunk : Chunk} {rest : Multiset Handle} {a b : Stage} {h : Handle}

theorem Step.namespaces_subset (step : Step a b) :
    ∀ h ∈ a.document.namespaces, h ∈ b.document.namespaces := by
  cases step with
  | entered _ made => exact (entered_scopeFor made).namespaces_subset
  | given _ => exact fun h hh => hh
  | made _ => exact fun h hh => hh
  | @finished _ d _ _ block _ _ _ _ added =>
    obtain ⟨table, rfl⟩ := addFunctions_ok added
    exact fun h hh => namespaces_recordAll d block.id _ ▸ hh

/-- The functions that a block has met pass to the document when it is finished. -/
theorem Step.functions (step : Step a b) (idle : b.phase = .idle) {id : String} {f : Handle}
    (met : a.phase.table.get? id = some f) : b.document.functions.get? id = some f := by
  cases step with
  | entered _ _ | given _ | made _ => cases idle
  | @finished _ _ _ table _ _ _ _ _ added =>
    exact (get?_addFunctions table.nodup_keys added).1 f (SortedMap.get?_eq_some_iff.1 met)

/-- One step: what is named stays named, unless a member on the way to it is replaced inside a
block. -/
theorem Step.named_or_severs (sound : Sound chunk rest a) (step : Step a b) (hh : h ∈ a.named) :
    h ∈ b.named ∨ a.Severs b h := by
  obtain ⟨slots, amends, busy, -⟩ := step.amends sound
  have inside : ∀ r ∈ a.document.namespaces, r ∈ a.store := fun r hr => sound.mem hr
  rcases amends.mem_holdings_or_cuts sound.closed inside step.namespaces_subset hh with still | cuts
  · exact .inl still
  · obtain ⟨n, hn, key, m, before, after, below⟩ := cuts
    rcases amends.members n (Store.mem_of_mem_holdings sound.closed inside hn) key with
      same | stored
    · exact absurd (same.trans before) after
    · obtain ⟨from_block, to_block⟩ := busy n key stored
      exact .inr ⟨a, b, .refl, step, .refl, from_block, to_block, n, hn, key, m, before,
        after, below⟩

namespace Stage.Leads

theorem named_or_severs (leads : a.Leads b) (sound : Sound chunk rest a) (hh : h ∈ a.named) :
    h ∈ b.named ∨ a.Severs b h := by
  induction leads with
  | refl => exact .inl hh
  | tail before step ih =>
    rcases ih with still | ⟨x, y, first, between, last, cut⟩
    · have here := step.named_or_severs (Stage.Leads.sound before sound) still
      refine here.imp_right fun ⟨x, y, first, between, last, cut⟩ => ?_
      exact ⟨x, y, before.trans first, between, last, cut⟩
    · exact .inr ⟨x, y, first, between, last.tail step, cut⟩

theorem amends (leads : a.Leads b) (sound : Sound chunk rest a) :
    a.store.Amends (fun _ _ => True) b.store := by
  induction leads with
  | refl => exact .of_nodes_eq rfl
  | tail before step ih =>
    obtain ⟨slots, amends, -⟩ := step.amends (Stage.Leads.sound before sound)
    exact ih.trans (amends.mono fun _ _ _ => trivial)

end Stage.Leads

theorem Sound.linksLive (sound : Sound chunk rest a) :
    a.store.LinksLive (a.document.holds ++ a.phase.table.values) := by
  refine sound.accounts.linksLive fun r hr => ?_
  rcases List.mem_append.1 hr with held | met
  · exact Multiset.mem_add.2 (.inl (mem_holding.2 (.inl held)))
  · exact Multiset.mem_add.2 (.inr met)

theorem Stage.mem_holdings_of_named (hh : h ∈ a.named) :
    h ∈ a.store.holdings (a.document.holds ++ a.phase.table.values) :=
  Store.holdings_mono (fun _ hr => List.mem_append_left _ (mem_holds_of_mem_namespaces hr)) hh

theorem Stage.Leads.carries (leads : a.Leads b) (sound : Sound chunk rest a) : a.Carries b := by
  have amends := leads.amends sound
  have live := (leads.sound sound).linksLive
  refine ⟨amends.isa, amends.linked, fun n p owned isa named => ?_, fun f k context named => ?_⟩
  · refine (leads.named_or_severs sound named).imp_left fun still => ?_
    exact live.isa n p owned isa (.inl (Stage.mem_holdings_of_named still))
  · refine (leads.named_or_severs sound named).imp_left fun still => ?_
    exact live.context f k context (Stage.mem_holdings_of_named still)

end Stages

variable {d₀ : Document} {s₀ t₀ : Store}

/-- Wherever a document is opened and however far its analysis has come:
* every prototype and context that the document still holds is alive, and so is every prototype
  that an instance owns which is still held;
* what a scope makes by `new` is linked to a living prototype, and a function that is stored as a
  member is linked to its container;
* the functions of a block pass to the document when it is finished, and a block that is entered has
  the context of its function, if it is still held;
* as the analysis goes on, no link is taken off, and none dies unless a binding or a parameter
  replaces a member through which the names of the program held what it leads to. -/
theorem links_live_while_held {ds : Multiset Document} {held : Multiset Handle} {chunk : Chunk}
    {catalog : Except CatalogError Catalog} {options : Options} (w : Workspace ds held s₀)
    (opened : ofCatalog chunk catalog options s₀ = .ok (d₀, t₀)) {a : Stage}
    (reached : (Stage.initial d₀ t₀).Leads a) :
    a.store.LinksLive (a.document.holds ++ a.phase.table.values) ∧
    (∀ c ∈ a.phase.scope?, ∀ more, (a.document.env c).MakesLinks (holding a.document.holds more)) ∧
    (∀ b id f, Step a b → b.phase = .idle → a.phase.table.get? id = some f →
      b.document.functions.get? id = some f) ∧
    (∀ id outer bound c d t f k, a.phase = .idle → a.document.scopes.get? id = none → outer ≠ [] →
      scopeFor (id :: outer) a.document bound a.store = .ok ((c, d), t) →
      a.document.functions.get? id = some f → (a.store.node f).context = some k →
      k ∈ a.store.holdings a.document.holds → c.context? = some k ∧ t.live k) ∧
    ∀ b, a.Leads b → a.Carries b := by
  have sound := reached.sound (sound_initial (accounts_ofCatalog w.accounts opened))
  refine ⟨sound.linksLive, fun c hc more => Env.makesLinks (sound.owned hc),
    fun b id f step idle met => step.functions idle met, ?_, fun b leads => leads.carries sound⟩
  intro id outer bound c d t f k idle missing nested entered function context kept
  obtain ⟨log, d₁, phase, s₁⟩ := a
  obtain rfl : phase = .idle := idle
  exact context_scopeFor sound.accounts_idle missing nested entered function context kept

/-- The program `x = {}; y = new x; x.f = function`, with more statements behind. -/
def lineage (more : List Stmt) : Chunk :=
  let x := .identifier "x" default
  let f := .function (.mk [] [] { (default : Span) with id := "f" }) default
  { body := [.assign x (.map [] default) default,
      .assign (.identifier "y" default) (.unary .new x default) default,
      .assign (.member x "f" default) f default] ++ more
    span := { (default : Span) with id := "root" } }

theorem links_live_while_held_lineage :
    ∃ d₀ s₀ log d s x y f c d' t,
    ofCatalog (lineage []) (.ok {}) {} .empty = .ok (d₀, s₀) ∧
    (Stage.initial d₀ s₀).Leads ⟨log, d, .idle, s⟩ ∧
    s.member? d.globals (.identifier "x") = some x ∧
      s.member? d.globals (.identifier "y") = some y ∧
    (s.node y).isa = some ⟨x, false⟩ ∧ s.isa? y = some x ∧
    d.functions.get? "f" = some f ∧ (s.node f).context = some x ∧
    scopeFor ["f", "root"] d 0 s = .ok ((c, d'), t) ∧ c.context? = some x ∧ t.live x := by
  obtain ⟨d₀, s₀, opened⟩ : ∃ d s, ofCatalog (lineage []) (.ok {}) {} .empty = .ok (d, s) :=
    ⟨_, _, rfl⟩
  have granted : grants (d₀.serve (.block "root")) s₀ fun d s =>
      (s.member? d.globals (.identifier "x")).any fun x =>
        (s.member? d.globals (.identifier "y")).any fun y => (d.functions.get? "f").any fun f =>
          decide ((s.node y).isa = some ⟨x, false⟩ ∧ (s.node f).context = some x ∧
            d.scopes.get? "f" = none) &&
          yields (scopeFor ["f", "root"] d) 0 s fun _ _ => true := by
    cases opened
    decide +kernel
  obtain ⟨d, s, served, found⟩ := exists_of_grants granted
  simp only [Option.any_eq_true, Bool.and_eq_true, decide_eq_true_eq] at found
  obtain ⟨x, hx, y, hy, f, hf, ⟨isa, context, missing⟩, entered⟩ := found
  obtain ⟨⟨c, d'⟩, t, entered, -⟩ := exists_of_yields entered
  obtain ⟨log, reached⟩ := Stage.Leads.serve .refl served
  have kept : x ∈ s.holdings d.holds := by
    refine .edge (.root List.mem_cons_self) (List.mem_append_left _ (List.mem_append_left _ ?_))
    exact SortedMap.mem_values_iff.2 ⟨_, hx⟩
  obtain ⟨live, -, -, receives, -⟩ := links_live_while_held .empty opened reached
  have inherited := live.isa y x false isa
    (.inl (Store.holdings_mono (fun _ hr => List.mem_append_left _ hr) kept))
  obtain ⟨given, alive⟩ :=
    receives "f" ["root"] 0 c d' t f x rfl missing (List.cons_ne_nil _ _) entered hf context kept
  exact ⟨d₀, s₀, log, d, s, x, y, f, c, d', t, opened, reached, hx, hy, isa, inherited, hf, context,
    entered, given, alive⟩

/-- Assigning something else to `x` leaves the instance, which is still bound to `y`, without its
prototype, and the function in the table without its context: its block is entered without a
receiver. -/
theorem rebinding_orphans_instance :
    ∃ d₀ s₀ log d s y p f c d' t,
    ofCatalog (lineage [.assign (.identifier "x" default) (.boolean true default) default]) (.ok {})
      {} .empty = .ok (d₀, s₀) ∧
    (Stage.initial d₀ s₀).Leads ⟨log, d, .idle, s⟩ ∧
    s.member? d.globals (.identifier "y") = some y ∧ (s.node y).isa = some p ∧ s.isa? y = none ∧
    d.functions.get? "f" = some f ∧ (s.node f).context = some p.target ∧ s.context? f = none ∧
    scopeFor ["f", "root"] d 0 s = .ok ((c, d'), t) ∧ c.context? = none := by
  obtain ⟨d₀, s₀, opened⟩ : ∃ d s, ofCatalog
      (lineage [.assign (.identifier "x" default) (.boolean true default) default]) (.ok {})
      {} .empty = .ok (d, s) := ⟨_, _, rfl⟩
  -- the new value of `x` is united with the old one, which takes a step
  have granted : yields (d₀.serve (.block "root")) 1 s₀ fun r s => r.toOption.any fun d =>
      (s.member? d.globals (.identifier "y")).any fun y => (s.node y).isa.any fun p =>
        (d.functions.get? "f").any fun f =>
          decide (s.isa? y = none ∧ (s.node f).context = some p.target ∧ s.context? f = none) &&
          yields (scopeFor ["f", "root"] d) 0 s fun r _ => r.1.context?.isNone := by
    cases opened
    decide +kernel
  obtain ⟨r, s, served, found⟩ := exists_of_yields granted
  cases r with
  | error e => cases found
  | ok d =>
    simp only [Except.toOption, Option.any_some, Option.any_eq_true, Bool.and_eq_true,
      decide_eq_true_eq] at found
    obtain ⟨y, hy, p, hp, f, hf, ⟨isa, context, dead⟩, entered⟩ := found
    obtain ⟨⟨c, d'⟩, t, entered, blank⟩ := exists_of_yields entered
    obtain ⟨log, reached⟩ := Stage.Leads.serve .refl served
    exact ⟨d₀, s₀, log, d, s, y, p, f, c, d', t, opened, reached, hy, hp, isa, hf, context, dead,
      entered, Option.isNone_iff_eq_none.1 blank⟩

end Document

end ScriptInference
