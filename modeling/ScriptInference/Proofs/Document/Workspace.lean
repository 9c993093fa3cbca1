import ScriptInference.Proofs.Document.Accounting
import ScriptInference.Proofs.Hashing.Transparency
import ScriptInference.Proofs.Registry.Independence

/-!
# Workspaces

A host keeps any number of documents in one store, next to entities that it holds itself. It makes
such entities and edits them, opens documents, has them analysed and asks them about names and
expressions, registers entities as custom types, and merges the custom types of one document into
another. In whatever order all this happens, the store accounts for what the documents and the host
hold.
-/

namespace ScriptInference

variable {r other : TypeRegistry} {h : Handle} {catalog : Except CatalogError Catalog}
  {options : Options} {c : Scope} {d : Document}

namespace TypeRegistry
variable {s : Store} {rest : Multiset Handle}

theorem accounts_setCustom (l : s.Accounts (h ::ₘ holding r.holds rest)) (name : String) :
    (r.setCustom name h s).2.2.Accounts (holding (r.setCustom name h s).2.1.holds rest) := by
  unfold setCustom
  split
  · exact l.release
  · refine l.mono ?_
    dsimp only
    rw [holding_eq, holding_eq, ← Multiset.cons_add, holds, holds, ← Multiset.coe_add,
      ← Multiset.coe_add, ← Multiset.add_cons]
    refine add_le_add_left (add_le_add_right ?_ _) rest
    exact values_insert_le r.types name h

theorem accounts_mergeName {now : TypeRegistry × Store} (held : ∀ h ∈ other.holds, h ∈ rest)
    (l : now.2.Accounts (holding now.1.holds rest)) (name : String) :
    (mergeName other now name).2.Accounts (holding (mergeName other now name).1.holds rest) := by
  unfold mergeName
  dsimp only
  split
  · exact l
  · rename_i h found
    have listed : h ∈ rest := held h (mem_holds_iff.2 (.inr ⟨name, found⟩))
    have copied := l.deepCopy (l.live_of_mem (mem_holding.2 (.inr listed)))
    exact accounts_setCustom copied name

theorem accounts_merge (held : ∀ h ∈ other.holds, h ∈ rest)
    (l : s.Accounts (holding r.holds rest)) :
    (r.merge other s).2.Accounts (holding (r.merge other s).1.holds rest) := by
  have merged : ∀ (names : List String) (now : TypeRegistry × Store),
      now.2.Accounts (holding now.1.holds rest) →
      (names.foldl (mergeName other) now).2.Accounts
        (holding (names.foldl (mergeName other) now).1.holds rest) := by
    intro names
    induction names with
    | nil => exact fun _ l => l
    | cons name names ih => exact fun now l => ih _ (accounts_mergeName held l name)
  rw [merge_eq]
  exact merged other.customs.toList (r, s) l

end TypeRegistry

namespace Document
variable {g s t : Store} {strict : Prop} {own rest : Multiset Handle}

open Infer Store Discipline

/-- The holds of a document are those of its registry and others, which do not depend on the
registry. -/
theorem holding_holds (d : Document) (rest : Multiset Handle) :
    holding d.holds rest = holding d.registry.holds
      (holding (d.globals :: (d.scopes.values.flatMap Scope.holds ++ d.functions.values))
        rest) := by
  have split : d.holds =
      (d.globals :: (d.scopes.values.flatMap Scope.holds ++ d.functions.values)) ++
      d.registry.holds := rfl
  rw [split, holding_perm List.perm_append_comm, holding_append]

theorem accounts_setCustom (l : s.Accounts (h ::ₘ holding d.holds rest)) (name : String) :
    (d.setCustom name h s).2.2.Accounts (holding (d.setCustom name h s).2.1.holds rest) := by
  rw [holding_holds] at l ⊢
  exact TypeRegistry.accounts_setCustom l name

theorem accounts_mergeKeyed {κ : Type} [DecidableEq κ] {source : Document}
    (held : ∀ h ∈ source.holds, h ∈ rest) (l : s.Accounts (holding d.holds rest)) (k k' : κ) :
    (mergeKeyed (k, d) (k', source) s).2.Accounts
      (holding (mergeKeyed (k, d) (k', source) s).1.holds rest) := by
  rw [holding_holds] at l ⊢
  unfold mergeKeyed TypeRegistry.mergeKeyed
  dsimp only
  split
  · exact l
  · exact TypeRegistry.accounts_merge
      (fun h hh => mem_holding.2 (.inr (held h (mem_holds_of_registry hh)))) l

/-- Opening a document does not look at the program. -/
theorem exists_ofCatalog_eq {chunk : Chunk}
    (opened : ofCatalog chunk catalog options s = .ok (d, t)) :
    ∃ read hasher, catalog = .ok read ∧ Hasher.Faithful hasher ∧
      ∀ chunk', ofCatalog chunk' catalog options s =
      .ok (new chunk' (TypeRegistry.new read s).1 options hasher (TypeRegistry.new read s).2) := by
  cases catalog with
  | error e => cases opened
  | ok read =>
    cases reserved : Hasher.reserve options.hashCacheCapacity with
    | error e => simp [ofCatalog, reserved, Except.mapError, Bind.bind, Except.bind] at opened
    | ok hasher =>
      refine ⟨read, hasher, rfl, Hasher.faithful_of_reserve reserved, fun chunk' => ?_⟩
      simp [ofCatalog, reserved, Except.mapError, Bind.bind, Except.bind, Pure.pure, Except.pure]

theorem new_of_ofCatalog {chunk : Chunk} (opened : ofCatalog chunk catalog options s = .ok (d, t)) :
    ∃ read hasher, catalog = .ok read ∧
      new chunk (TypeRegistry.new read s).1 options hasher (TypeRegistry.new read s).2 =
        (d, t) := by
  obtain ⟨read, hasher, same, -, opens⟩ := exists_ofCatalog_eq opened
  have here := opens chunk
  rw [opened] at here
  exact ⟨read, hasher, same, (Except.ok.inj here).symm⟩

theorem accounts_ofCatalog {chunk : Chunk} (l : s.Accounts rest)
    (opened : ofCatalog chunk catalog options s = .ok (d, t)) :
    t.Accounts (holding d.holds rest) := by
  obtain ⟨read, hasher, -, same⟩ := new_of_ofCatalog opened
  have made := accounts_new (TypeRegistry.accounts_new read l) chunk options hasher
  rw [same] at made
  exact made

/-- The entity that a query passes on to its caller, with the hold on it. -/
def answer : Except DocumentError Handle → List Handle
  | .ok h => [h]
  | .error _ => []

/-- Queries run in the scope of an analyzed block. -/
theorem scope_eq_ok {id : String} (h : d.scope id = .ok c) :
    d.scopes.get? id = some c ∧ d.isAnalyzed id := by
  rw [scope] at h
  cases block : d.block id with
  | error e => simp [block, Bind.bind, Except.bind] at h
  | ok b =>
    cases found : d.scopes.get? id with
    | none => simp [block, found, Bind.bind, Except.bind] at h
    | some c' =>
      by_cases analyzed : d.isAnalyzed id
      · simp [block, found, analyzed, Bind.bind, Except.bind, Pure.pure, Except.pure] at h
        exact ⟨congrArg some h, analyzed⟩
      · simp [block, found, analyzed, Bind.bind, Except.bind] at h

theorem anchored_env {D : Discipline} (anchored : ∀ h ∈ d.holds, D.Anchored own h) {id : String}
    (hc : d.scope id = .ok c) : (d.env c).Anchored D own :=
  ⟨fun h hh => anchored h (mem_holds_of_scope (scope_eq_ok hc).1 hh),
    fun h hh => (anchored h (mem_holds_of_registry hh)).known⟩

theorem balanced_resolveExpression (anchored : ∀ h ∈ d.holds, (ledger g strict).Anchored own h)
    (l : g.Ledger strict own s) (id : String) {e : Expr} (quiet : strict → e.quiet) :
    Balanced (ledger g strict) s (d.resolveExpression id e) (fun r => holding (answer r) own)
      fun _ => True := by
  unfold resolveExpression
  split
  · exact .pure l trivial
  · rename_i c hc
    have resolved := Env.balanced_resolve (d.env c) e (anchored_env anchored hc) quiet
    refine (resolved.run (fun _ => rfl) l).bind fun t r l' _ => ?_
    exact (balanced_releaseAll l').bind fun u _ l'' _ => .pure l'' trivial

theorem balanced_resolve (anchored : ∀ h ∈ d.holds, (ledger g strict).Anchored own h)
    (l : g.Ledger strict own s) (id name : String) :
    Balanced (ledger g strict) s (d.resolve id name) (fun r => holding (answer r) own)
      fun _ => True := by
  unfold resolve
  split
  · exact .pure l trivial
  · rename_i c hc
    have env := anchored_env anchored hc
    refine (balanced_resolveName env.registry env.scope l name false).bind fun t h l' _ => ?_
    exact .pure l' trivial

/-- The search for definitions changes at most the cache of the hasher. -/
theorem findDefinitions_document (d : Document) (id : String) (e : Expr) :
    (d.findDefinitions id e).2 = { d with hasher := (d.findDefinitions id e).2.hasher } := by
  unfold findDefinitions
  split
  · rfl
  · split
    dsimp only
    split
    · rfl
    · rfl

end Document

/-- The documents, what the host holds, and the store, as they come about. -/
inductive Workspace : Multiset Document → Multiset Handle → Store → Prop
  | empty : Workspace 0 0 .empty
  | made {ds held s} {e : Entity} : Workspace ds held s → e.links = [] →
      Workspace ds ((s.alloc e).1 ::ₘ held) (s.alloc e).2
  | copied {ds held s h} : Workspace ds held s → h ∈ held →
      Workspace ds ((s.deepCopy h {}).1 ::ₘ held) (s.deepCopy h {}).2
  | stored {ds held s h value} {key : Property} : Workspace ds (value ::ₘ held) s → h ∈ held →
      Workspace ds held (s.setProperty h key value).2
  | inherited {ds held s h prototype} : Workspace ds (prototype ::ₘ held) s → h ∈ held →
      Workspace ds held (s.inherit h prototype)
  | dropped {ds held s h} : Workspace ds (h ::ₘ held) s → Workspace ds held (s.release h)
  | opened {ds held s chunk catalog options d t} : Workspace ds held s →
      Document.ofCatalog chunk catalog options s = .ok (d, t) → Workspace (d ::ₘ ds) held t
  | served {ds held s d r bound d' t} : Workspace (d ::ₘ ds) held s →
      d.serve r bound s = .ok (.ok d', t) → Workspace (d' ::ₘ ds) held t
  | refused {ds held s d r bound e t} : Workspace (d ::ₘ ds) held s →
      d.serve r bound s = .ok (.error e, t) → Workspace (d ::ₘ ds) held t
  | registered {ds held s d h name taken d' t} : Workspace (d ::ₘ ds) (h ::ₘ held) s →
      d.setCustom name h s = (taken, d', t) → Workspace (d' ::ₘ ds) held t
  | merged {κ : Type} [DecidableEq κ] {ds held s d source} {k k' : κ} {d' t} :
      Workspace (d ::ₘ source ::ₘ ds) held s →
      Document.mergeKeyed (k, d) (k', source) s = (d', t) → Workspace (d' ::ₘ source ::ₘ ds) held t
  | resolved {ds held s d id e bound r t} : Workspace (d ::ₘ ds) held s →
      d.resolveExpression id e bound s = .ok (r, t) →
      Workspace (d ::ₘ ds) (holding (Document.answer r) held) t
  | named {ds held s d id name bound r t} : Workspace (d ::ₘ ds) held s →
      d.resolve id name bound s = .ok (r, t) →
      Workspace (d ::ₘ ds) (holding (Document.answer r) held) t
  | searched {ds held s d id e} : Workspace (d ::ₘ ds) held s →
      Workspace ((d.findDefinitions id e).2 ::ₘ ds) held s

namespace Workspace
variable {ds : Multiset Document} {held : Multiset Handle} {s : Store}

open Store

/-- Everything that the documents and the host hold. -/
def holds (ds : Multiset Document) (held : Multiset Handle) : Multiset Handle :=
  (ds.bind fun d => ↑d.holds) + held

theorem holds_cons (d : Document) (ds : Multiset Document) (held : Multiset Handle) :
    holds (d ::ₘ ds) held = holding d.holds (holds ds held) := by
  rw [holds, Multiset.cons_bind, add_assoc, holding_eq]
  rfl

theorem holds_holding (ds : Multiset Document) (hs : List Handle) (held : Multiset Handle) :
    holds ds (holding hs held) = holding hs (holds ds held) := by
  rw [holds, holds, holding_eq, holding_eq]
  ac_rfl

theorem holds_cons_held (ds : Multiset Document) (h : Handle) (held : Multiset Handle) :
    holds ds (h ::ₘ held) = h ::ₘ holds ds held := Multiset.add_cons _ _ _

theorem anchored (d : Document) (ds : Multiset Document) (held : Multiset Handle) :
    ∀ h ∈ d.holds, Discipline.accounts.Anchored (holds (d ::ₘ ds) held) h := by
  intro h hh
  rw [holds_cons]
  exact .of_mem (mem_holding.2 (.inl hh))

/-- In every workspace the store accounts for what the documents and the host hold. -/
theorem accounts (w : Workspace ds held s) : s.Accounts (holds ds held) := by
  induction w with
  | empty => exact .start (by decide) False
  | made _ bare ih =>
    rw [holds_cons_held]
    exact ih.alloc (fun k hk => by simp [bare] at hk) fun k hk => by
      have linked := Entity.mem_links_of_mem_holds hk
      simp [bare] at linked
  | copied _ listed ih =>
    rw [holds_cons_held]
    exact ih.deepCopy (ih.live_of_mem (Multiset.mem_add.2 (.inr listed)))
  | stored _ listed ih =>
    rw [holds_cons_held] at ih
    exact ih.setProperty (Nat.not_lt_zero _) (Multiset.mem_add.2 (.inr listed)) _
  | inherited _ listed ih =>
    rw [holds_cons_held] at ih
    exact ih.inherit (Nat.not_lt_zero _) (Multiset.mem_add.2 (.inr listed))
  | dropped _ ih =>
    rw [holds_cons_held] at ih
    exact ih.release
  | opened _ opened ih =>
    rw [holds_cons]
    exact Document.accounts_ofCatalog ih opened
  | served _ served ih =>
    rw [holds_cons] at ih ⊢
    exact ((Document.balanced_serve Discipline.lax_accounts ih _).runs _ _ _ served).1
  | refused _ refused ih =>
    rw [holds_cons] at ih ⊢
    exact ((Document.balanced_serve Discipline.lax_accounts ih _).runs _ _ _ refused).1
  | @registered _ _ _ _ _ name _ _ _ _ registered ih =>
    rw [holds_cons_held, holds_cons] at ih
    rw [holds_cons]
    have done := Document.accounts_setCustom ih name
    rw [registered] at done
    exact done
  | @merged _ _ ds held _ _ source k k' _ _ _ merged ih =>
    rw [holds_cons] at ih ⊢
    have kept : ∀ h ∈ source.holds, h ∈ holds (source ::ₘ ds) held := fun h hh => by
      rw [holds_cons]
      exact mem_holding.2 (.inl hh)
    have done := Document.accounts_mergeKeyed kept ih k k'
    rw [merged] at done
    exact done
  | resolved _ resolved ih =>
    rw [holds_holding]
    exact ((Document.balanced_resolveExpression (anchored _ _ _) ih _ False.elim).runs _ _ _
      resolved).1
  | named _ named ih =>
    rw [holds_holding]
    exact ((Document.balanced_resolve (anchored _ _ _) ih _ _).runs _ _ _ named).1
  | searched _ ih =>
    rw [holds_cons] at ih ⊢
    rw [Document.findDefinitions_document]
    exact ih

/-- What a document of the workspace holds is alive. -/
theorem live_of_mem_holds (w : Workspace (d ::ₘ ds) held s) (hh : h ∈ d.holds) : s.live h :=
  (anchored d ds held h hh).live w.accounts

theorem alive_env (w : Workspace (d ::ₘ ds) held s) {id : String} (hc : d.scope id = .ok c) :
    (d.env c).Alive s :=
  ⟨fun _ hh => w.live_of_mem_holds (Document.mem_holds_of_scope (Document.scope_eq_ok hc).1 hh),
    fun _ hh => w.live_of_mem_holds (Document.mem_holds_of_registry hh)⟩

end Workspace

end ScriptInference
