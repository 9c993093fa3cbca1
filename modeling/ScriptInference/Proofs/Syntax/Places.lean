import Mathlib.Data.List.Basic
import ScriptInference.Syntax.Block

/-!
# Places in a program

A place is the list of child positions that leads from the root of a tree to one of its nodes, so
that two equal nodes at different places stay apart. The places of a tree, each node before the
nodes below it and from left to right, are in lexicographic order, and the walk meets the nodes in
the order of their places.

The home of a place is the innermost block strictly above it.
-/

namespace ScriptInference

/-- The end of a function. -/
def Event.isLeave : Event → Bool
  | leave => true
  | _ => false

/-- A node of a program. -/
inductive Node where
  | chunk (c : Chunk)
  | stmt (s : Stmt)
  | expr (e : Expr)
  | param (p : Param)
  | function (f : FunctionDecl)

abbrev Place := List Nat

namespace Node

/-- The nodes right below a node, from left to right. -/
def children : Node → List Node
  | chunk c => c.body.map stmt
  | stmt (.assign t i _) => [expr t, expr i]
  | stmt (.expr e) => [expr e]
  | stmt (.cond cs o _) => cs.flatMap (fun c => expr c.1 :: c.2.map stmt) ++ (o.getD []).map stmt
  | stmt (.whileLoop c b _) => expr c :: b.map stmt
  | stmt (.forLoop v i b _) => expr v :: expr i :: b.map stmt
  | stmt (.ret a _) => a.toList.map expr
  | stmt (.exit _) | stmt (.next _) | expr (.nil _) | expr (.string _ _) | expr (.number _ _)
  | expr (.boolean _ _) | expr (.identifier _ _) => []
  | expr (.member b _ _) => [expr b]
  | expr (.index b i _) => [expr b, expr i]
  | expr (.slice b l r _) => expr b :: (l.toList ++ r.toList).map expr
  | expr (.call b as _) => expr b :: as.map expr
  | expr (.unary _ a _) => [expr a]
  | expr (.binary l _ r _) => [expr l, expr r]
  | expr (.map fs _) => fs.flatMap fun f => [expr f.1, expr f.2]
  | expr (.list is _) => is.map expr
  | expr (.function d _) => [function d]
  | expr (.unknown _ _) => []
  | param p => p.default?.toList.map expr
  | function f => f.parameters.map param ++ f.body.map stmt

def block? : Node → Option Block
  | chunk c => some (.chunk c)
  | function f => some (.function f)
  | _ => none

def function? : Node → Option FunctionDecl
  | function f => some f
  | _ => none

def binding? : Node → Option Binding
  | stmt (.assign t i s) => some (.assignment t i s)
  | stmt (.forLoop v i _ s) => some (.loop v i s)
  | _ => none

/-- What the walk meets at the node itself. -/
def events : Node → List Event
  | chunk _ => []
  | stmt (.assign t i s) => [.statement (.assign t i s), .binding (.assignment t i s)]
  | stmt (.forLoop v i b s) => [.statement (.forLoop v i b s), .binding (.loop v i s)]
  | stmt s => [.statement s]
  | expr e => [.expression e]
  | param p => [.parameter p]
  | function f => [.enter f]

/-- What the walk meets when it is done with the node. -/
def closing : Node → List Event
  | function _ => [.leave]
  | _ => []

def walk : Node → List Event
  | chunk c => c.walk
  | stmt s => s.walk
  | expr e => e.walk
  | param p => p.walk
  | function f => f.walk

section Walk

theorem walkExprs_eq (es : List Expr) : walkExprs es = es.flatMap Expr.walk := by
  induction es with
  | nil => rfl
  | cons e es ih => rw [walkExprs, ih, List.flatMap_cons]

theorem walkFields_eq (fs : Fields) : walkFields fs = fs.flatMap fun f => f.1.walk ++ f.2.walk := by
  induction fs with
  | nil => rfl
  | cons f fs ih => rw [walkFields, ih, List.flatMap_cons]

theorem walkParams_eq (ps : List Param) : walkParams ps = ps.flatMap Param.walk := by
  induction ps with
  | nil => rfl
  | cons p ps ih => rw [walkParams, ih, List.flatMap_cons]

theorem walkStmts_eq (ss : List Stmt) : walkStmts ss = ss.flatMap Stmt.walk := by
  induction ss with
  | nil => rfl
  | cons s ss ih => rw [walkStmts, ih, List.flatMap_cons]

theorem walkClauses_eq (cs : Clauses) :
    walkClauses cs = cs.flatMap fun c => c.1.walk ++ c.2.flatMap Stmt.walk := by
  induction cs with
  | nil => rfl
  | cons c cs ih => rw [walkClauses, ih, List.flatMap_cons, walkStmts_eq]

/-- The walk meets a node, then the nodes below it from left to right, and at last its end. -/
theorem walk_eq (n : Node) : n.walk = n.events ++ n.children.flatMap walk ++ n.closing := by
  cases n with
  | chunk c => simp [walk, Chunk.walk, events, children, closing, walkStmts_eq, List.flatMap_map]
  | stmt s =>
    cases s with
    | cond cs o s =>
      cases o <;>
        simp [walk, Stmt.walk, events, children, closing, walkStmts_eq, walkClauses_eq, walkBody,
          List.flatMap_map, List.flatMap_assoc]
    | ret a s => cases a <;> simp [walk, Stmt.walk, events, children, closing, walkOption]
    | _ => simp [walk, Stmt.walk, events, children, closing, walkStmts_eq, List.flatMap_map]
  | expr e =>
    cases e with
    | slice b l r s =>
      cases l <;> cases r <;> simp [walk, Expr.walk, events, children, closing, walkOption]
    | map fs s =>
      simp [walk, Expr.walk, events, children, closing, walkFields_eq, List.flatMap_assoc]
    | _ => simp [walk, Expr.walk, events, children, closing, walkExprs_eq, List.flatMap_map]
  | param p => cases p <;> simp [walk, Param.walk, events, children, closing, Param.default?]
  | function f =>
    obtain ⟨ps, b, s⟩ := f
    simp [walk, FunctionDecl.walk, events, children, closing, FunctionDecl.parameters,
      FunctionDecl.body, walkParams_eq, walkStmts_eq, List.flatMap_map]

end Walk

section Below

/-- No chunk stands inside a program. -/
theorem ne_chunk_of_mem_children {n m : Node} (h : m ∈ n.children) (c : Chunk) : m ≠ chunk c := by
  rintro rfl
  cases n with
  | chunk => simp [children] at h
  | stmt s => cases s <;> simp [children] at h
  | expr e => cases e <;> simp [children] at h
  | param | function => simp [children] at h

theorem events_ne_nil {n : Node} (inner : ∀ c, n ≠ chunk c) : n.events ≠ [] := by
  cases n with
  | chunk c => exact absurd rfl (inner c)
  | stmt s => cases s <;> simp [events]
  | _ => simp [events]

/-- How much the walk meets below a node. -/
def load (n : Node) : Nat := (n.children.flatMap walk).length

theorem load_lt_of_mem_children {n m : Node} (h : m ∈ n.children) : m.load < n.load := by
  have met := List.length_pos_of_ne_nil (events_ne_nil (ne_chunk_of_mem_children h))
  have whole : m.load < m.walk.length := by
    rw [walk_eq m, List.length_append, List.length_append]
    unfold load
    omega
  have part : m.walk.length ≤ n.load := by
    obtain ⟨before, after, split⟩ := List.append_of_mem h
    simp only [load, split, List.flatMap_append, List.flatMap_cons, List.length_append]
    omega
  omega

/-- The places in a tree, a node before the nodes below it. -/
def places (n : Node) : List Place :=
  [] :: n.children.attach.zipIdx.flatMap fun m => m.1.1.places.map (m.2 :: ·)
termination_by n.load
decreasing_by exact load_lt_of_mem_children m.1.2

theorem places_eq (n : Node) :
    n.places = [] :: n.children.zipIdx.flatMap fun m => m.1.places.map (m.2 :: ·) := by
  have unattached : n.children.zipIdx = n.children.attach.zipIdx.map (Prod.map Subtype.val id) := by
    rw [← List.zipIdx_map, List.attach_map_subtype_val]
  rw [places, unattached, List.flatMap_map]
  rfl

/-- The node at a place. -/
def at? (n : Node) : Place → Option Node
  | [] => some n
  | i :: p => n.children[i]?.bind fun m => m.at? p

/-- The innermost block strictly above a place: the longest proper initial part of the place at
which a block stands. -/
def home? (n : Node) : Place → Option Place
  | [] => none
  | i :: p =>
    ((n.children[i]?.bind fun m => m.home? p).map (i :: ·)).or (n.block?.map fun _ => [])

def blockAt? (n : Node) (p : Place) : Option Block := (n.at? p).bind block?

def functionAt? (n : Node) (p : Place) : Option FunctionDecl := (n.at? p).bind function?

def bindingAt? (n : Node) (p : Place) : Option Binding := (n.at? p).bind binding?

def eventsAt (n : Node) (p : Place) : List Event := ((n.at? p).map events).getD []

theorem below_induction {P : Node → Prop} (step : ∀ n, (∀ m ∈ n.children, P m) → P n) (n : Node) :
    P n := by
  induction n using (measure load).wf.induction with
  | _ n ih => exact step n fun m hm => ih m (load_lt_of_mem_children hm)

theorem mem_places_iff {n : Node} {p : Place} : p ∈ n.places ↔ (n.at? p).isSome := by
  induction p generalizing n with
  | nil => simp [places_eq n, at?]
  | cons i p ih =>
    simp only [places_eq n, List.mem_cons, List.mem_flatMap, List.mem_map, at?]
    constructor
    · rintro (h | ⟨m, hm, q, hq, same⟩)
      · cases h
      · obtain ⟨rfl, rfl⟩ := List.cons.inj same
        rw [List.mem_zipIdx_iff_getElem?.1 hm]
        exact ih.1 hq
    · intro h
      cases child : n.children[i]? with
      | none => simp [child] at h
      | some m =>
        rw [child] at h
        exact .inr ⟨(m, i), List.mem_zipIdx_iff_getElem?.2 child, p, ih.2 h, rfl⟩

theorem pairwise_lt_places (n : Node) : n.places.Pairwise (· < ·) := by
  induction n using below_induction with
  | step n ih =>
    rw [places_eq, List.pairwise_cons, List.pairwise_flatMap]
    refine ⟨?_, ?_, ?_⟩
    · intro p hp
      obtain ⟨m, -, hp⟩ := List.mem_flatMap.1 hp
      obtain ⟨q, -, rfl⟩ := List.mem_map.1 hp
      exact List.nil_lt_cons _ _
    · intro m hm
      have child := List.mem_of_getElem? (List.mem_zipIdx_iff_getElem?.1 hm)
      refine List.pairwise_map.2 ((ih m.1 child).imp fun h => ?_)
      exact List.cons_lt_cons_iff.2 (.inr ⟨rfl, h⟩)
    · have positions : n.children.zipIdx.Pairwise fun m m' => m.2 < m'.2 := by
        rw [← List.pairwise_map (f := Prod.snd) (R := (· < ·)), List.zipIdx_map_snd]
        exact List.pairwise_lt_range'
      refine positions.imp fun lt p hp q hq => ?_
      obtain ⟨p, -, rfl⟩ := List.mem_map.1 hp
      obtain ⟨q, -, rfl⟩ := List.mem_map.1 hq
      exact List.cons_lt_cons_iff.2 (.inl lt)

/-- What is gathered over all places of a tree is gathered at the node and then over the trees
below. -/
theorem flatMap_places {β : Type} (n : Node) (g : Place → List β) :
    n.places.flatMap g =
      g [] ++ n.children.zipIdx.flatMap fun m => m.1.places.flatMap fun p => g (m.2 :: p) := by
  rw [places_eq, List.flatMap_cons, List.flatMap_assoc]
  simp only [List.flatMap_map]

/-- The same where what is gathered below does not depend on the position. -/
theorem flatMap_places_below {β : Type} {n : Node} {g : Place → List β} (g' : Node → Place → List β)
    (below : ∀ i m p, n.children[i]? = some m → g (i :: p) = g' m p) :
    n.places.flatMap g = g [] ++ n.children.flatMap fun m => m.places.flatMap (g' m) := by
  have positions : n.children.flatMap (fun m => m.places.flatMap (g' m)) =
      n.children.zipIdx.flatMap fun m => m.1.places.flatMap (g' m.1) := by
    conv_lhs => rw [← List.zipIdx_map_fst 0 n.children, List.flatMap_map]
  rw [flatMap_places, positions]
  congr 1
  apply List.flatMap_congr
  intro m hm
  apply List.flatMap_congr
  intro p _
  exact below m.2 m.1 p (List.mem_zipIdx_iff_getElem?.1 hm)

end Below

section Down
variable {n m : Node} {i : Nat}

@[simp]
theorem at?_cons (child : n.children[i]? = some m) (p : Place) : n.at? (i :: p) = m.at? p := by
  simp [at?, child]

theorem blockAt?_cons (child : n.children[i]? = some m) (p : Place) :
    n.blockAt? (i :: p) = m.blockAt? p := by
  rw [blockAt?, at?_cons child, blockAt?]

theorem eventsAt_cons (child : n.children[i]? = some m) (p : Place) :
    n.eventsAt (i :: p) = m.eventsAt p := by
  rw [eventsAt, at?_cons child, eventsAt]

@[simp]
theorem home?_nil (n : Node) : n.home? [] = none := rfl

variable (child : n.children[i]? = some m)

include child

theorem home?_cons (p : Place) :
    n.home? (i :: p) = ((m.home? p).map (i :: ·)).or (n.block?.map fun _ => []) := by
  simp [home?, child]

theorem home?_cons_eq_nil_iff (p : Place) :
    n.home? (i :: p) = some [] ↔ m.home? p = none ∧ n.block?.isSome := by
  rw [home?_cons child]
  cases m.home? p <;> simp [Option.isSome_iff_exists]

theorem home?_cons_eq_cons_iff (j : Nat) (p q : Place) :
    n.home? (i :: p) = some (j :: q) ↔ i = j ∧ m.home? p = some q := by
  rw [home?_cons child]
  cases m.home? p <;> simp

end Down

/-- The walk meets the nodes in the order of their places. -/
theorem walk_filter_eq (n : Node) :
    n.walk.filter (fun e => !e.isLeave) = n.places.flatMap n.eventsAt := by
  have opening : ∀ n : Node, n.events.filter (fun e => !e.isLeave) = n.events := by
    intro n
    cases n with
    | stmt s => cases s <;> rfl
    | _ => rfl
  have ending : ∀ n : Node, n.closing.filter (fun e => !e.isLeave) = [] := by
    intro n
    cases n <;> rfl
  induction n using below_induction with
  | step n ih =>
    rw [flatMap_places_below (fun m p => m.eventsAt p) fun i m p child => eventsAt_cons child p,
      walk_eq,
      List.filter_append, List.filter_append, opening, ending, List.append_nil, List.filter_flatMap]
    congr 1
    exact List.flatMap_congr ih

section Home

/-- The block at `q` is the innermost one strictly above `p`. -/
structure Innermost (n : Node) (q p : Place) : Prop where
  above : q <+: p
  proper : q ≠ p
  block : (n.blockAt? q).isSome
  innermost : ∀ r, r <+: p → r ≠ p → (n.blockAt? r).isSome → r <+: q

variable {n : Node} {p q : Place}

theorem home?_isSome_of_block (block : (n.blockAt? q).isSome) (above : q <+: p) (proper : q ≠ p) :
    (n.home? p).isSome := by
  induction p generalizing n q with
  | nil => exact absurd (List.prefix_nil.1 above) proper
  | cons i p ih =>
    cases q with
    | nil =>
      have here : n.block?.isSome := block
      simp [home?, here]
    | cons j q =>
      obtain ⟨rfl, rest⟩ := List.cons_prefix_cons.1 above
      cases child : n.children[j]? with
      | none => simp [blockAt?, at?, child] at block
      | some m =>
        rw [blockAt?_cons child] at block
        have inner := ih block rest fun same => proper (by rw [same])
        simp [home?_cons child, inner]

theorem innermost_of_home? (h : n.home? p = some q) : n.Innermost q p := by
  induction p generalizing n q with
  | nil => cases h
  | cons i p ih =>
    rw [home?, Option.or_eq_some_iff] at h
    rcases h with below | ⟨nothing, here⟩
    · -- the block stands below the node
      obtain ⟨q, found, rfl⟩ := Option.map_eq_some_iff.1 below
      obtain ⟨m, child, found⟩ := Option.bind_eq_some_iff.1 found
      have inner := ih found
      constructor
      · exact List.cons_prefix_cons.2 ⟨rfl, inner.above⟩
      · exact fun same => inner.proper (List.cons.inj same).2
      · rw [blockAt?_cons child]
        exact inner.block
      · intro r above proper block
        cases r with
        | nil => exact List.nil_prefix
        | cons j r =>
          obtain ⟨rfl, rest⟩ := List.cons_prefix_cons.1 above
          rw [blockAt?_cons child] at block
          exact List.cons_prefix_cons.2 ⟨rfl,
            inner.innermost r rest (fun same => proper (by rw [same])) block⟩
    · -- the node itself is the block, and no other stands on the way
      obtain ⟨b, block, rfl⟩ := Option.map_eq_some_iff.1 here
      constructor
      · exact List.nil_prefix
      · exact List.cons_ne_nil _ _ |>.symm
      · simp [blockAt?, at?, block]
      · intro r above proper inside
        cases r with
        | nil => exact List.nil_prefix
        | cons j r =>
          obtain ⟨rfl, rest⟩ := List.cons_prefix_cons.1 above
          cases child : n.children[j]? with
          | none => simp [blockAt?, at?, child] at inside
          | some m =>
            rw [blockAt?_cons child] at inside
            have inner := home?_isSome_of_block inside rest fun same => proper (by rw [same])
            rw [child, Option.bind_some, Option.map_eq_none_iff] at nothing
            simp [nothing] at inner

end Home

end Node

end ScriptInference
