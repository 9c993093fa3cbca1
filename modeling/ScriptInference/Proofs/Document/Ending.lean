import ScriptInference.Proofs.Document.Accounting
import ScriptInference.Proofs.Entity.Grounding

/-!
# When inference ends

Unions, definitions and analyses do not always end, but there is one way only in which they can go
on for ever: by making more and more entities. A union ends in any case if no member cycle can be
reached from its entities after the first, and so does binding such a value to a name, whatever the
name was bound to.
-/

namespace ScriptInference

namespace Infer
variable {s : Store}

/-- A name has one slot, so there is at most one value to merge with. -/
theorem stored_identifier (n : Namespace) (name : String) (value : Handle) :
    stored s n (.identifier name) value = [] ∨ ∃ old, stored s n (.identifier name) value =
      [old] := by
  unfold stored
  cases held : n.local? s (.identifier name) with
  | none => exact .inl (by simp [Store.slots, held])
  | some old =>
    by_cases same : old = value
    · exact .inl (by simp [Store.slots, held, same])
    · exact .inr ⟨old, by simp [Store.slots, held, same, List.eraseDups_cons]⟩

theorem mergeStored_ends (closed : s.Closed) (n : Namespace) (name : String) {value : Handle}
    (hv : value ∈ s) (grounded : s.Grounded value) :
    (mergeStored n (.identifier name) value).Ends s := by
  rcases stored_identifier (s := s) n name value with none | ⟨old, one⟩
  · refine ⟨0, (value, s), ?_⟩
    have read : (get : Infer Store) 0 s = .ok (s, s) := rfl
    rw [mergeStored, bind_of_ok read, none]
    rfl
  · have inside : ∀ b ∈ [old, value], b ∈ s := by
      intro b hb
      rcases List.mem_cons.1 hb with rfl | hb
      · exact mem_of_mem_stored closed (by rw [one]; exact List.mem_singleton.2 rfl)
      · exact List.mem_singleton.1 hb ▸ hv
    obtain ⟨bound, ⟨m, t⟩, united⟩ := union_ends_of_grounded closed (s.node value).kind
      (s.node value).label inside fun b hb => List.mem_singleton.1 hb ▸ grounded
    have read : (get : Infer Store) bound s = .ok (s, s) := rfl
    refine ⟨bound, (m, t.release value), ?_⟩
    rw [mergeStored, bind_of_ok read, one]
    exact bind_of_ok united _

/-- Binding a value to a name ends if no member cycle can be reached from the value. -/
theorem bind_ends (closed : s.Closed) (merge : Bool) {c : Scope} (fits : c.Fits s) (name : String)
    {value : Handle} (hv : value ∈ s) (grounded : s.Grounded value) (line : UInt64) :
    (Infer.bind merge (.scope c) (.identifier name) value line).Ends s := by
  have ready : s.Ready s.size := ⟨closed, Nat.le_refl _⟩
  obtain ⟨r, t, prepared⟩ := exists_prepare value (some name) line s
  obtain ⟨-, members, -⟩ := contents_prepare (prepared 0) hv
  obtain ⟨ready', keeps, hr⟩ := (safe_prepare ready hv (some name) line).runs 0 r t (prepared 0)
  have grounded' : t.Grounded r := by
    refine Acc.intro r fun m hm => ?_
    rw [members] at hm
    exact (grounded.member hm).of_kept closed (fun n hn => (keeps.contents n hn).members)
      (closed.links value (Entity.mem_links_iff.2 (.inl hm)))
  -- a scope owns no methods, so the value is only prepared and merged
  have step : ∀ bound, offer merge (.scope c) (.identifier name) value line bound s =
      (if merge then mergeStored (.scope c) (.identifier name) r else pure r : Infer Handle)
        bound t := by
    intro bound
    have own : (modify (Store.modifyNode value (Entity.owned none)) : Infer PUnit) bound s =
      .ok (⟨⟩, s.modifyNode value (Entity.owned none)) := rfl
    rw [Store.modifyNode_eq_self (Entity.owned_none _)] at own
    exact (bind_of_ok own _).trans (bind_of_ok (prepared bound) _)
  have offered : (offer merge (.scope c) (.identifier name) value line).Ends s := by
    cases merge with
    | false => exact ⟨0, (r, t), step 0⟩
    | true =>
      obtain ⟨bound, result, merged⟩ := mergeStored_ends ready'.closed (.scope c) name hr grounded'
      exact ⟨bound, result, (step bound).trans merged⟩
  have fits_key : Property.Fits s (.identifier name) := trivial
  have safe := safe_offer ready merge (n := .scope c) fits.locals fits_key hv line
  rw [bind_eq_offer]
  refine safe.settles.bind_ends (fun _ r t _ => .of_total fun _ => rfl) offered fun _ r t _ => ?_
  exact ⟨0, _, rfl⟩

end Infer

/-- Defining a name ends if no member cycle can be reached from the value. -/
theorem Env.define_ends {env : Env} {s : Store} (closed : s.Closed) (fits : env.Fits s)
    (name : String) (span : Span) {value : Handle} (hv : value ∈ s) (grounded : s.Grounded value)
    (table : FunctionTable) : (env.define (.identifier name span) value table).Ends s := by
  have chain : (Expr.identifier name span).accessChain = some [⟨.name name, false⟩] := rfl
  by_cases short : 1 ≤ env.options.maxChainLength
  · obtain ⟨bound, ⟨taken, t⟩, bound_ok⟩ :=
      Infer.bind_ends closed env.options.mergeReassignments fits name hv grounded span.line
    refine ⟨bound, ((taken, table), t), ?_⟩
    have found : env.chain? (.identifier name span) = some [⟨.name name, false⟩] := by
      simp [chain?, chain, short]
    unfold define
    rw [found]
    exact Infer.bind_of_ok bound_ok fun taken => pure (taken, table)
  · refine ⟨0, ((false, table), s.release value), ?_⟩
    have none : env.chain? (.identifier name span) = none := by
      simp [chain?, chain, Nat.lt_of_not_le short]
    unfold define
    rw [none]
    rfl

/-- The discipline under which anything goes. What is balanced under it settles. -/
def Discipline.free : Discipline where
  InOrder _ _ := True
  Live _ _ := True
  Open _ _ := True
  New _ := True
  strict := False
  table t := ↑t.values
  open_of_live := id
  live_of_mem l _ := l
  held l _ _ := l
  linked l _ _ _ := l
  chain l _ _ := l
  mono l _ := l
  new := id
  make l _ := l
  copy l _ _ := l
  retain l _ := l
  release := id
  union l _ _ := ⟨l, l⟩
  setProperty l _ _ _ := l
  inherit l _ _ := l
  setContext l _ _ _ _ := l
  setLabel l _ _ _ _ _ := l
  record l _ := l

theorem Discipline.lax_free : free.Lax := ⟨fun _ => trivial, id, fun _ => rfl⟩

/-- Whatever the environment, a definition settles. -/
theorem Env.settlesAt_define (env : Env) (target : Expr) (value : Handle) (table : FunctionTable)
    (s : Store) : (env.define target value table).SettlesAt s := by
  have owned : env.Owned .free ↑env.scope.holds := ⟨fun _ => id, fun _ _ _ _ _ l => l⟩
  exact (books_define Discipline.lax_free owned target value table s trivial).settles

theorem Document.settlesAt_analyze (d : Document) (s : Store) : d.analyze.SettlesAt s := by
  have start : Discipline.free.InOrder (holding d.holds 0) s := trivial
  exact (balanced_analyzeAll Discipline.lax_free start fun _ => id).settles

/-- Unions, definitions and analyses end exactly if they make a bounded number of entities. A union
ends if no member cycle can be reached from its entities after the first, a definition of a name if
none can be reached from the value. With distinct ids the bound on the search for enclosing blocks
is never reached. -/
theorem inference_ends_iff_bounded (s : Store) :
    (∀ kind label members,
      ((Infer.union kind label members).Ends s ↔ (Infer.union kind label members).Bounded s) ∧
      (s.Closed → (∀ b ∈ members, b ∈ s) → (∀ b ∈ members.tail, s.Grounded b) →
        (Infer.union kind label members).Ends s)) ∧
    (∀ (env : Env) value table,
      (∀ target, (env.define target value table).Ends s ↔
        (env.define target value table).Bounded s) ∧
      (s.Closed → env.Fits s → value ∈ s → s.Grounded value →
        ∀ name span, (env.define (.identifier name span) value table).Ends s)) ∧
    ∀ d : Document,
      (d.analyze.Ends s ↔ d.analyze.Bounded s) ∧
      (d.blockIds.Nodup → ∀ id more,
        d.ancestorsWithin (d.chunk.blocks.length + more) id = d.ancestors id) := by
  refine ⟨fun kind label members => ⟨?_, ?_⟩, fun env value table => ⟨?_, ?_⟩, fun d => ⟨?_, ?_⟩⟩
  · exact (Infer.settlesAt_union kind label members s).ends_iff_bounded
  · exact fun closed => Infer.union_ends_of_grounded closed kind label
  · exact fun target => (env.settlesAt_define target value table s).ends_iff_bounded
  · exact fun closed fits hv grounded name span =>
      Env.define_ends closed fits name span hv grounded table
  · exact (d.settlesAt_analyze s).ends_iff_bounded
  · intro distinct id more
    refine Document.ancestorsWithin_add distinct (Nat.succ_pos _) (fun listed => ?_) more
    have within := List.idxOf_lt_length_of_mem listed
    rwa [Document.blockIds, Chunk.blockIds, List.length_map] at within

namespace Tether

/-- Globals that hold a map which is its own member, and beside them a map that leads to a
number. -/
def store : Store where
  nodes := #[
    { Scope.newGlobals with members := .ofList [(.identifier "m", ⟨1⟩)] },
    { Entity.ofType .map Tag.map with
      label := "m", members := .ofList [(.identifier "next", ⟨1⟩)] },
    { Entity.ofType .map Tag.map with members := .ofList [(.identifier "next", ⟨3⟩)] },
    Entity.ofType .literal Tag.number]
  holders := #[2, 2, 1, 1]

/-- The program `f = function; end`, with ids of its own for both blocks. -/
def document : Document where
  chunk :=
    { body := [.assign (.identifier "f" default)
        (.function (.mk [] [] { (default : Span) with id := "inner" }) default) default]
      span := { (default : Span) with id := "outer" } }
  registry := { catalog := {} }
  options := {}
  hasher := .new 1
  globals := ⟨0⟩

def env : Env := document.env ⟨⟨⟨0⟩, none⟩, [], ⟨0⟩⟩

theorem grounded : store.Grounded ⟨2⟩ := by
  have below : (store.node ⟨2⟩).members.values = [⟨3⟩] := rfl
  have leaf : (store.node ⟨3⟩).members.values = [] := rfl
  refine Acc.intro _ fun m hm => ?_
  rw [below] at hm
  obtain rfl := List.mem_singleton.1 hm
  refine Acc.intro _ fun k hk => ?_
  rw [leaf] at hk
  cases hk

end Tether

theorem inference_ends_iff_bounded_tether :
    (Infer.union .map "m" [⟨1⟩, ⟨2⟩]).Ends Tether.store ∧
    (Tether.env.define (.identifier "m" default) ⟨2⟩ ∅).Ends Tether.store ∧
    (Tether.document.analyze.Ends Tether.store ↔ Tether.document.analyze.Bounded Tether.store) ∧
    Tether.document.ancestorsWithin (2 + 7) "inner" = Tether.document.ancestors "inner" := by
  have closed : Tether.store.Closed := by decide
  have fits : Tether.env.Fits Tether.store := by
    unfold Env.Fits Scope.Fits
    decide
  obtain ⟨unions, definitions, analyses⟩ := inference_ends_iff_bounded Tether.store
  refine ⟨?_, ?_, ?_, ?_⟩
  · refine (unions .map "m" [⟨1⟩, ⟨2⟩]).2 closed (by decide) fun b hb => ?_
    exact List.mem_singleton.1 hb ▸ Tether.grounded
  · exact (definitions Tether.env ⟨2⟩ ∅).2 closed fits (by decide) Tether.grounded "m" default
  · exact (analyses Tether.document).1
  · exact (analyses Tether.document).2 (by decide) "inner" 7

end ScriptInference
