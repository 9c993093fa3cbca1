import ScriptInference.Proofs.Entity.Settling
import ScriptInference.Resolution.Resolve

/-!
# Assignment targets

A target that is an access chain begins with a name or a value, and goes on with members, indexes,
calls and slices. Defining a target takes one of five courses. It is given up at once if the target
is no chain that is resolved, or a value without further hops. A lone name is bound in the scope.
Any other chain is followed up to its last hop, and then the value is bound under a member or under
an index, or given up if the last hop is a call or a slice.
-/

namespace ScriptInference

namespace Resolve
variable {α β : Type} {table table' : FunctionTable} {bound : Nat} {s t : Store}

theorem bind_ok {x : Resolve α} {f : α → Resolve β} {b : β}
    (h : (x >>= f) table bound s = .ok ((b, table'), t)) :
    ∃ a table₁ u, x table bound s = .ok ((a, table₁), u) ∧
      f a table₁ bound u = .ok ((b, table'), t) := by
  change (x table >>= fun p => f p.1 p.2) bound s = _ at h
  obtain ⟨p, u, first, second⟩ := Infer.bind_ok h
  exact ⟨p.1, p.2, u, first, second⟩

theorem bind_of_ok {x : Resolve α} {a : α} {table₁ : FunctionTable} {u : Store}
    (h : x table bound s = .ok ((a, table₁), u)) (f : α → Resolve β) :
    (x >>= f) table bound s = f a table₁ bound u :=
  Infer.bind_of_ok h fun p => f p.1 p.2

theorem lift_ok {x : Infer α} {a : α}
    (h : (liftM x : Resolve α) table bound s = .ok ((a, table'), t)) :
    x bound s = .ok (a, t) ∧ table' = table := by
  change (x >>= fun a => pure (a, table)) bound s = _ at h
  obtain ⟨b, u, ran, done⟩ := Infer.bind_ok h
  cases done
  exact ⟨ran, rfl⟩

theorem lift_of_ok {x : Infer α} {a : α} (h : x bound s = .ok (a, t)) (table : FunctionTable) :
    (liftM x : Resolve α) table bound s = .ok ((a, table), t) :=
  Infer.bind_of_ok h fun a => pure (a, table)

end Resolve

namespace Access

/-- A name or a value, as a chain begins with. -/
def isRoot : Access → Bool
  | name _ | value _ => true
  | _ => false

/-- A call or a slice, under which nothing is stored. -/
def isTransient : Access → Bool
  | call _ | slice => true
  | _ => false

theorem isRoot_indexAccess (i : Expr) : i.indexAccess.isRoot = false := by
  unfold Expr.indexAccess
  split <;> rfl

end Access

/-- A chain begins with a name or a value, and no later hop is one. -/
theorem Expr.hopsOnto_eq_some {e : Expr} {reference : Bool} {acc hops : List Hop}
    (later : ∀ hop ∈ acc, hop.access.isRoot = false) (h : e.hopsOnto reference acc = some hops) :
    ∃ root rest, hops = root :: rest ∧ root.access.isRoot = true ∧
      ∀ hop ∈ rest, hop.access.isRoot = false := by
  fun_induction Expr.hopsOnto e reference acc with
  | case1 _ _ _ _ ih => exact ih later h
  | case2 _ _ _ _ _ ih => exact ih (List.forall_mem_cons.2 ⟨rfl, later⟩) h
  | case3 _ _ _ _ _ ih => exact ih (List.forall_mem_cons.2 ⟨Access.isRoot_indexAccess _, later⟩) h
  | case4 _ _ _ _ _ _ ih | case5 _ _ _ _ _ ih => exact ih (List.forall_mem_cons.2 ⟨rfl, later⟩) h
  | case6 | case7 => exact ⟨_, _, (Option.some.inj h).symm, rfl, later⟩
  | case8 => cases h

namespace Env
variable {env : Env} {target : Expr} {table table' : FunctionTable} {bound : Nat} {s t : Store}

open Infer

theorem accessChain_of_chain? {hops : List Hop} (chain : env.chain? target = some hops) :
    target.accessChain = some hops := (Option.filter_eq_some_iff.1 chain).1

theorem chain?_eq_some {hops : List Hop} (chain : env.chain? target = some hops) :
    ∃ root rest, hops = root :: rest ∧ root.access.isRoot = true ∧
      ∀ hop ∈ rest, hop.access.isRoot = false :=
  Expr.hopsOnto_eq_some (by simp) (accessChain_of_chain? chain)

/-- The target is a chain of several hops, and resolving all but the last leads to the entity. -/
structure Arrives (env : Env) (target : Expr) (table : FunctionTable) (bound : Nat) (s : Store)
    (hops : List Hop) (h : Handle) (u : Store) : Prop where
  chain : env.chain? target = some hops
  long : 2 ≤ hops.length
  walked : ∃ table', env.walk (env.rootValue target) (hops.length - 1) hops table bound s =
    .ok ((some h, table'), u)

/-- The hop that a value is stored under. -/
def lastAccess? (hops : List Hop) : Option Access := hops.getLast?.map Hop.access

/-- Following a chain from its root leads to some entity. -/
theorem walk_ne_none {root : Resolve Handle} {count : Nat} {first : Hop} {rest : List Hop}
    (begins : first.access.isRoot = true) :
    env.walk root count (first :: rest) table bound s ≠ .ok ((none, table'), t) := by
  intro walked
  rw [walk] at walked
  cases access : first.access with
  | name name | value e =>
    simp only [access] at walked
    obtain ⟨_, _, _, _, walked⟩ := Resolve.bind_ok walked
    obtain ⟨_, _, _, _, walked⟩ := Resolve.bind_ok walked
    cases walked
  | _ =>
    rw [access] at begins
    cases begins

/-- All the ways that defining a target can go. -/
inductive Course (env : Env) (target : Expr) (value : Handle) (table : FunctionTable) (bound : Nat)
    (s : Store) : Bool → Store → Prop
  | unresolved : env.chain? target = none →
      env.Course target value table bound s false (s.release value)
  | literal {e reference} : env.chain? target = some [⟨.value e, reference⟩] →
      env.Course target value table bound s false (s.release value)
  | name {name reference taken t} : env.chain? target = some [⟨.name name, reference⟩] →
      Infer.bind env.options.mergeReassignments (.scope env.scope)
        (.identifier name) value target.line bound s = .ok (taken, t) →
      env.Course target value table bound s taken t
  | transient {hops h u access} : env.Arrives target table bound s hops h u →
      lastAccess? hops = some access → access.isTransient = true →
      env.Course target value table bound s false ((u.release value).release h)
  | member {hops h u name taken v} : env.Arrives target table bound s hops h u →
      lastAccess? hops = some (.member name) →
      Infer.bind env.options.mergeReassignments (.entity h) (.identifier name) value target.line
        bound u = .ok (taken, v) →
      env.Course target value table bound s taken (v.release h)
  | index {hops h u e key v taken w} : env.Arrives target table bound s hops h u →
      lastAccess? hops = some (.index e) → env.resolveType false e bound u = .ok (key, v) →
      Infer.bind env.options.mergeReassignments (.entity h) (.value key) value target.line bound v =
        .ok (taken, w) →
      env.Course target value table bound s taken ((w.release key).release h)

theorem course_define {value : Handle} {taken : Bool}
    (defined : env.define target value table bound s = .ok ((taken, table'), t)) :
    env.Course target value table bound s taken t := by
  rcases chain : env.chain? target with _ | ⟨_ | ⟨hop, _ | ⟨second, rest⟩⟩⟩
  · rw [define, chain] at defined
    cases defined
    exact .unresolved chain
  · obtain ⟨_, _, absurd, -⟩ := chain?_eq_some chain
    cases absurd
  · rw [define, chain] at defined
    obtain ⟨_, _, single, begins, -⟩ := chain?_eq_some chain
    cases single
    obtain ⟨access, reference⟩ := hop
    cases access with
    | name name => exact .name chain (Resolve.lift_ok defined).1
    | value e =>
      cases defined
      exact .literal chain
    | _ => cases begins
  · -- the container is resolved first, then the key, and only then anything is written
    rw [define, chain] at defined
    obtain ⟨_, _, several, begins, inner⟩ := chain?_eq_some chain
    cases several
    obtain ⟨found, table₁, u, walked, defined⟩ := Resolve.bind_ok defined
    cases found with
    | none => exact absurd walked (walk_ne_none begins)
    | some h =>
      have arrives : env.Arrives target table bound s (hop :: second :: rest) h u :=
        ⟨chain, by simp, table₁, walked⟩
      obtain ⟨last, listed⟩ : ∃ last, (hop :: second :: rest).getLast? = some last :=
        ⟨_, List.getLast?_eq_some_getLast (List.cons_ne_nil _ _)⟩
      have stored : last.access.isRoot = false := by
        rw [List.getLast?_cons_cons] at listed
        exact inner last (List.mem_of_getLast? listed)
      have ends : lastAccess? (hop :: second :: rest) = some last.access := by
        rw [lastAccess?, listed]
        rfl
      simp only [listed, Option.map_some] at defined
      obtain ⟨access, reference⟩ := last
      cases access with
      | member name =>
        obtain ⟨took, table₂, v, ran, defined⟩ := Resolve.bind_ok defined
        cases defined
        exact .member arrives ends (Resolve.lift_ok ran).1
      | index e =>
        obtain ⟨key, table₂, v, resolved, defined⟩ := Resolve.bind_ok defined
        obtain ⟨took, table₃, w, ran, defined⟩ := Resolve.bind_ok defined
        cases defined
        exact .index arrives ends (Resolve.lift_ok resolved).1 (Resolve.lift_ok ran).1
      | call arguments | slice =>
        cases defined
        exact .transient arrives ends rfl
      | _ => cases stored

end Env

end ScriptInference
