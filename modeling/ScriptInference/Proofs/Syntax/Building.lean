import Std.Data.String.ToNat
import ScriptInference.Syntax.Builder
import ScriptInference.Proofs.Syntax.Rereading

/-!
# Trees from one builder

A tree is assembled by calls of one builder, in any order, each on nodes that earlier calls made.
Every call takes the ids of its new nodes from the builder. While no node is used twice and the
counter of the builder does not come round, all ids in the tree are distinct. In particular its
block ids are, so its text is never rejected for a repeated one.
-/

namespace ScriptInference

open scoped List

/-! ### Ids of nodes -/

namespace NodeIds

theorem take_add (m n : Nat) (ids : NodeIds) :
    ids.take (m + n) =
      ((ids.take m).1 ++ ((ids.take m).2.take n).1, ((ids.take m).2.take n).2) := by
  induction m generalizing ids with
  | zero =>
    rw [Nat.zero_add]
    rfl
  | succ m ih =>
    rw [Nat.succ_add]
    simp only [take, ih, List.cons_append]

/-- Ids are numbered in the order in which they are taken. -/
theorem take_fst {n : Nat} {ids : NodeIds} (few : ids.issued.toNat + n < UInt32.size) :
    (ids.take n).1 = (List.range' (ids.issued.toNat + 1) n).map
      fun k => ids.document ++ "-" ++ toString k := by
  induction n generalizing ids with
  | zero => rfl
  | succ n ih =>
    have counts : ids.next.2.issued.toNat = ids.issued.toNat + 1 := by
      refine (UInt32.toNat_add ids.issued 1).trans (Nat.mod_eq_of_lt ?_)
      change ids.issued.toNat + 1 < UInt32.size
      omega
    have later := @ih ids.next.2 (by omega)
    rw [counts] at later
    change (ids.document ++ "-" ++ toString ids.next.2.issued.toNat) :: (ids.next.2.take n).1 = _
    rw [counts, later]
    rfl

theorem nodup_take {n : Nat} {ids : NodeIds} (few : ids.issued.toNat + n < UInt32.size) :
    (ids.take n).1.Nodup := by
  rw [take_fst few]
  refine (List.nodup_range' 1).map fun k l same => ?_
  exact Nat.repr_injective ((String.append_right_inj _).1 same)

end NodeIds

/-- The span of a statement; a bare expression has none of its own. -/
def Stmt.span? : Stmt → Option Span
  | .assign _ _ s => some s
  | .expr _ => none
  | .cond _ _ s | .whileLoop _ _ s | .forLoop _ _ _ s | .ret _ s | .exit s | .next s => some s

/-- The id of the node that is met. A binding site is the statement met just before it. -/
def Event.node? : Event → Option String
  | statement s => s.span?.map (·.id)
  | expression e => some e.span.id
  | parameter p => some p.span.id
  | enter f => some f.id
  | binding _ | leave => none

/-- The ids of all nodes that a walk meets, in order. -/
def nodeIds (es : List Event) : List String := es.filterMap Event.node?

@[simp] theorem nodeIds_nil : nodeIds [] = [] := rfl

@[simp] theorem nodeIds_append (l m : List Event) : nodeIds (l ++ m) = nodeIds l ++ nodeIds m :=
  List.filterMap_append

section Cons
variable (es : List Event)

@[simp] theorem nodeIds_expression (e : Expr) :
    nodeIds (.expression e :: es) = e.span.id :: nodeIds es := rfl

@[simp] theorem nodeIds_parameter (p : Param) :
    nodeIds (.parameter p :: es) = p.span.id :: nodeIds es := rfl

@[simp] theorem nodeIds_enter (f : FunctionDecl) : nodeIds (.enter f :: es) = f.id :: nodeIds es :=
  rfl

@[simp] theorem nodeIds_binding (b : Binding) : nodeIds (.binding b :: es) = nodeIds es := rfl

@[simp] theorem nodeIds_leave : nodeIds (.leave :: es) = nodeIds es := rfl

@[simp] theorem nodeIds_statement (s : Stmt) :
    nodeIds (.statement s :: es) = (s.span?.map (·.id)).toList ++ nodeIds es := by
  cases s <;> rfl

end Cons

@[simp] theorem walkExprs_toList (o : Option Expr) : walkExprs o.toList = walkOption o := by
  cases o with
  | none => rfl
  | some e => exact List.append_nil _

@[simp] theorem walkStmts_getD (o : Option (List Stmt)) : walkStmts (o.getD []) = walkBody o := by
  cases o <;> rfl

theorem declaredIds_sublist_nodeIds (es : List Event) : (declaredIds es).Sublist (nodeIds es) := by
  induction es with
  | nil => exact .slnil
  | cons e es ih =>
    cases e with
    | statement s =>
      rw [declaredIds_statement, nodeIds_statement]
      exact ih.trans (List.sublist_append_right _ _)
    | binding b => exact ih
    | expression e | parameter p => exact ih.cons _
    | enter f => exact ih.cons_cons _
    | leave => exact ih

/-- The ids of all nodes of a chunk, its own first. -/
def Chunk.ids (c : Chunk) : List String := c.span.id :: nodeIds c.walk

theorem Chunk.blockIds_sublist (c : Chunk) : c.blockIds.Sublist c.ids := by
  rw [blockIds_eq]
  exact (declaredIds_sublist_nodeIds c.walk).cons_cons _

/-! ### What a computation takes and shows -/

namespace Builder
section Issues
variable {α β : Type}

theorem append_perm_swap (l m r : List α) : l ++ m ++ r ~ l ++ r ++ m := by
  rw [List.append_assoc, List.append_assoc]
  exact List.perm_append_comm.append_left l

/-- On every builder `m` takes the next `n` ids, and its result shows them together with the ids
`held` by the nodes that went into it. -/
def Issues (m : Build α) (n : Nat) (held : List String) (shown : α → List String) : Prop :=
  ∀ b : Builder, (m.run b).2.ids = (b.ids.take n).2 ∧ shown (m.run b).1 ~ held ++ (b.ids.take n).1

namespace Issues
variable {m : Build α} {f : α → Build β} {n k : Nat} {held more : List String} {shown : β →
  List String}

theorem bind {between : α → List String} (first : Issues m n held between)
    (second : ∀ a, Issues (f a) k (between a ++ more) shown) :
    Issues (m >>= f) (n + k) (held ++ more) shown := by
  intro b
  obtain ⟨ids, perm⟩ := first b
  obtain ⟨ids', perm'⟩ := second (m.run b).1 (m.run b).2
  rw [ids] at ids' perm'
  rw [NodeIds.take_add]
  refine ⟨ids', ?_⟩
  set now := b.ids.take n
  set later := now.2.take k
  calc
    shown ((f (m.run b).1).run (m.run b).2).1
    _ ~ between (m.run b).1 ++ more ++ later.1 := perm'
    _ ~ held ++ now.1 ++ more ++ later.1 := (perm.append_right more).append_right later.1
    _ ~ held ++ more ++ now.1 ++ later.1 := (append_perm_swap held now.1 more).append_right later.1
    _ = held ++ more ++ (now.1 ++ later.1) := List.append_assoc ..

theorem trans {between : α → List String} (first : Issues m n held between)
    (second : ∀ a, Issues (f a) k (between a) shown) : Issues (m >>= f) (n + k) held shown := by
  have both := first.bind fun a => (List.append_nil (between a)).symm ▸ second a
  rwa [List.append_nil] at both

theorem pure {b : β} (shows : shown b = held) : Issues (Pure.pure b) 0 held shown :=
  fun _ => ⟨rfl, by rw [NodeIds.take, List.append_nil, ← shows]; exact .refl _⟩

end Issues

theorem issues_span : Issues span 1 [] fun s => [s.id] := fun _ => ⟨rfl, .refl _⟩

theorem issues_endLine : Issues endLine 0 [] fun _ => [] := fun _ => ⟨rfl, .refl _⟩

theorem issues_stmtSpan : Issues stmtSpan 1 [] fun s => [s.id] := fun _ => ⟨rfl, .refl _⟩

/-- A node shows its own id and those of its parts. -/
theorem Issues.node {place : Build Span} (placed : Issues place 1 [] fun s => [s.id]) {g : Span → α}
    {held : List String} {shown : α → List String} (shows : ∀ s, shown (g s) = s.id :: held) :
    Issues (return g (← place)) 1 held shown := by
  intro b
  obtain ⟨ids, perm⟩ := placed b
  refine ⟨ids, ?_⟩
  change shown (g (place.run b).1) ~ _
  rw [shows]
  exact (List.perm_append_singleton _ held).symm.trans (perm.append_left held)

end Issues

/-! ### Calls -/

/-- What a call returns and later calls take. -/
inductive Piece where
  | expr (e : Expr)
  | param (p : Param)
  | stmt (s : Stmt)
  | chunk (c : Chunk)

namespace Piece

def ids : Piece → List String
  | expr e => nodeIds e.walk
  | param p => nodeIds p.walk
  | stmt s => nodeIds s.walk
  | chunk c => c.ids

@[simp] theorem flatMap_exprs (es : List Expr) :
    (es.map expr).flatMap ids = nodeIds (walkExprs es) := by
  induction es with
  | nil => rfl
  | cons e es ih => simp [walkExprs, ids, ih]

@[simp] theorem flatMap_params (ps : List Param) :
    (ps.map param).flatMap ids = nodeIds (walkParams ps) := by
  induction ps with
  | nil => rfl
  | cons p ps ih => simp [walkParams, ids, ih]

@[simp] theorem flatMap_stmts (ss : List Stmt) :
    (ss.map stmt).flatMap ids = nodeIds (walkStmts ss) := by
  induction ss with
  | nil => rfl
  | cons s ss ih => simp [walkStmts, ids, ih]

/-- The keys and values of the fields of a map. -/
def ofFields (fields : Fields) : List Piece :=
  fields.flatMap fun f => [expr f.1, expr f.2]

@[simp] theorem flatMap_fields (fs : Fields) :
    (ofFields fs).flatMap ids = nodeIds (walkFields fs) := by
  induction fs with
  | nil => rfl
  | cons f fs ih =>
    rw [ofFields, List.flatMap_cons, ← ofFields, List.flatMap_append, ih]
    simp [walkFields, ids]

/-- The conditions and bodies of the clauses of a conditional. -/
def ofClauses (clauses : Clauses) : List Piece :=
  clauses.flatMap fun c => expr c.1 :: c.2.map stmt

@[simp] theorem flatMap_clauses (cs : Clauses) :
    (ofClauses cs).flatMap ids = nodeIds (walkClauses cs) := by
  induction cs with
  | nil => rfl
  | cons c cs ih =>
    rw [ofClauses, List.flatMap_cons, ← ofClauses, List.flatMap_append, ih]
    simp [walkClauses, ids]

/-- The piece that a computation returns. -/
def only {α : Type} (kind : α → Piece) (m : Build α) : Build (List Piece) :=
  (fun a => [kind a]) <$> m

end Piece

/-- A call of a builder, with its arguments. -/
inductive Call where
  | atLine (line : UInt64)
  | nil
  | string (value : String)
  | number (value : Binary64)
  | boolean (value : Bool)
  | identifier (name : String)
  | unknown (kind : String)
  | member (base : Expr) (name : String)
  | path (text : String)
  | index (base index : Expr)
  | slice (base : Expr) (left right : Option Expr)
  | call (base : Expr) (arguments : List Expr)
  | unary (op : UnaryOp) (argument : Expr)
  | binary (left : Expr) (op : BinaryOp) (right : Expr)
  | map (fields : Fields)
  | list (items : List Expr)
  | function (parameters : List Param) (body : List Stmt)
  | parameter (name : String)
  | defaultParameter (name : String) (default : Expr)
  | assign (target init : Expr)
  | exprStmt (expression : Expr)
  | cond (clauses : Clauses) (otherwise : Option (List Stmt))
  | whileLoop (condition : Expr) (body : List Stmt)
  | forLoop (element : String) (iterator : Expr) (body : List Stmt)
  | ret (argument : Option Expr)
  | chunk (body : List Stmt)

namespace Call

/-- The pieces among the arguments. -/
def uses : Call → List Piece
  | member b _ => [.expr b]
  | index b i => [.expr b, .expr i]
  | slice b l r => .expr b :: (l.toList.map .expr ++ r.toList.map .expr)
  | call b as => .expr b :: as.map .expr
  | unary _ a => [.expr a]
  | binary l _ r => [.expr l, .expr r]
  | map fs => Piece.ofFields fs
  | list is => is.map .expr
  | function ps b => ps.map .param ++ b.map .stmt
  | defaultParameter _ d => [.expr d]
  | assign t i => [.expr t, .expr i]
  | exprStmt e => [.expr e]
  | cond cs o => Piece.ofClauses cs ++ (o.getD []).map .stmt
  | whileLoop c b => .expr c :: b.map .stmt
  | forLoop _ i b => .expr i :: b.map .stmt
  | ret a => a.toList.map .expr
  | chunk b => b.map .stmt
  | _ => []

/-- How many ids the call takes. A path takes one for each of its segments, a function one more for
its declaration, a loop over elements one more for its variable. -/
def spans : Call → Nat
  | atLine _ | exprStmt _ => 0
  | path text => (text.splitOn ".").tail.length + 1
  | function _ _ | forLoop _ _ _ => 2
  | _ => 1

/-- The call itself, with the piece that it returns. -/
def make : Call → Build (List Piece)
  | atLine line => (fun _ => []) <$> Builder.atLine line
  | nil => Piece.only .expr Builder.nil
  | string value => Piece.only .expr (Builder.string value)
  | number value => Piece.only .expr (Builder.number value)
  | boolean value => Piece.only .expr (Builder.boolean value)
  | identifier name => Piece.only .expr (Builder.identifier name)
  | unknown kind => Piece.only .expr (Builder.unknown kind)
  | member b name => Piece.only .expr (Builder.member b name)
  | path text => Piece.only .expr (Builder.path text)
  | index b i => Piece.only .expr (Builder.index b i)
  | slice b l r => Piece.only .expr (Builder.slice b l r)
  | call b as => Piece.only .expr (Builder.call b as)
  | unary op a => Piece.only .expr (Builder.unary op a)
  | binary l op r => Piece.only .expr (Builder.binary l op r)
  | map fs => Piece.only .expr (Builder.map fs)
  | list is => Piece.only .expr (Builder.list is)
  | function ps b => Piece.only .expr (Builder.function ps b)
  | parameter name => Piece.only .param (Builder.parameter name)
  | defaultParameter name d => Piece.only .param (Builder.defaultParameter name d)
  | assign t i => Piece.only .stmt (Builder.assign t i)
  | exprStmt e => Piece.only .stmt (Builder.exprStmt e)
  | cond cs o => Piece.only .stmt (Builder.cond cs o)
  | whileLoop c b => Piece.only .stmt (Builder.whileLoop c b)
  | forLoop v i b => Piece.only .stmt (Builder.forLoop v i b)
  | ret a => Piece.only .stmt (Builder.ret a)
  | chunk b => Piece.only .chunk (Builder.chunk b)

end Call

section Steps

theorem Issues.only {α : Type} {kind : α → Piece} {m : Build α} {n : Nat} {held : List String}
    (made : Issues m n held fun a => (kind a).ids) :
    Issues (Piece.only kind m) n held (·.flatMap Piece.ids) := by
  intro b
  obtain ⟨ids, perm⟩ := made b
  refine ⟨ids, ?_⟩
  change [kind (m.run b).1].flatMap Piece.ids ~ _
  rwa [List.flatMap_singleton]

theorem issues_identifier (name : String) : Issues (identifier name) 1 [] fun e => nodeIds e.walk :=
  .node issues_span fun _ => rfl

theorem issues_member (base : Expr) (name : String) :
    Issues (member base name) 1 (nodeIds base.walk) fun e => nodeIds e.walk :=
  .node issues_span fun _ => rfl

theorem issues_members (base : Expr) (names : List String) :
    Issues (members base names) names.length (nodeIds base.walk) fun e => nodeIds e.walk := by
  induction names generalizing base with
  | nil => exact .pure rfl
  | cons name rest ih =>
    rw [List.length_cons, Nat.add_comm]
    exact (issues_member base name).trans ih

theorem issues_path (text : String) :
    Issues (path text) ((text.splitOn ".").tail.length + 1) [] fun e => nodeIds e.walk := by
  rw [path]
  cases text.splitOn "." with
  | nil => exact issues_identifier ""
  | cons root rest =>
    rw [List.tail_cons, Nat.add_comm]
    exact (issues_identifier root).trans fun e => issues_members e rest

theorem issues_exprStmt (e : Expr) :
    Issues (exprStmt e) 0 (nodeIds e.walk) fun s => nodeIds s.walk :=
  issues_endLine.bind (k := 0) fun _ => .pure rfl

theorem issues_function (ps : List Param) (body : List Stmt) :
    Issues (function ps body) 2 (nodeIds (walkParams ps) ++ nodeIds (walkStmts body))
      fun e => nodeIds e.walk :=
  issues_span.bind fun s => .node issues_span fun t => by
    simp [Expr.walk, FunctionDecl.walk, Expr.span, FunctionDecl.id, FunctionDecl.span]

theorem issues_forLoop (element : String) (iterator : Expr) (body : List Stmt) :
    Issues (forLoop element iterator body) 2 (nodeIds iterator.walk ++ nodeIds (walkStmts body))
      fun s => nodeIds s.walk :=
  (issues_identifier element).bind fun e => .node issues_stmtSpan fun s => by
    simp [Stmt.walk, Stmt.span?]

theorem Call.issues (c : Call) :
    Issues c.make c.spans (c.uses.flatMap Piece.ids) (·.flatMap Piece.ids) := by
  cases c with
  | atLine line => exact fun b => ⟨rfl, .refl _⟩
  | exprStmt e =>
    rw [uses, List.flatMap_singleton]
    exact .only (issues_exprStmt e)
  | path text => exact .only (issues_path text)
  | function ps body =>
    rw [uses, List.flatMap_append, Piece.flatMap_params, Piece.flatMap_stmts]
    exact .only (issues_function ps body)
  | forLoop v i body =>
    rw [uses, List.flatMap_cons, Piece.flatMap_stmts]
    exact .only (issues_forLoop v i body)
  | assign | cond | whileLoop | ret =>
    exact .only (.node issues_stmtSpan fun s => by simp [uses, Piece.ids, Stmt.walk, Stmt.span?])
  | parameter | defaultParameter =>
    exact .only (.node issues_span fun s => by simp [uses, Piece.ids, Param.walk, Param.span])
  | chunk body =>
    exact .only (.node issues_span fun s => by simp [uses, Piece.ids, Chunk.ids, Chunk.walk])
  | _ => exact .only (.node issues_span fun s => by simp [uses, Piece.ids, Expr.walk, Expr.span])

end Steps

/-! ### Assemblies -/

/-- The builder for `path` after calls that take `n` ids together, and the pieces on hand: those
that a call has returned and no call has used. A call uses the pieces among its arguments up, so
each goes into one other piece at most. -/
inductive Assembly (path : String) : Nat → Builder → List Piece → Prop
  | start : Assembly path 0 (.new path) []
  | call {n b pieces rest} (c : Call) (earlier : Assembly path n b pieces)
      (taken : pieces ~ c.uses ++ rest) :
      Assembly path (n + c.spans) (c.make.run b).2 ((c.make.run b).1 ++ rest)

namespace Assembly
variable {path : String} {n : Nat} {b : Builder} {pieces : List Piece}

/-- No id is lost and none is repeated: the pieces on hand show the first `n` ids of the
document. -/
theorem ids_perm (run : Assembly path n b pieces) :
    b.ids = ((NodeIds.new path).take n).2 ∧
      pieces.flatMap Piece.ids ~ ((NodeIds.new path).take n).1 := by
  induction run with
  | start => exact ⟨rfl, .nil⟩
  | @call n b pieces rest c _ taken ih =>
    obtain ⟨ids, perm⟩ := ih
    obtain ⟨ids', perm'⟩ := c.issues b
    rw [ids] at ids' perm'
    rw [NodeIds.take_add]
    refine ⟨ids', ?_⟩
    set before := (NodeIds.new path).take n
    set new := before.2.take c.spans
    calc
      ((c.make.run b).1 ++ rest).flatMap Piece.ids
      _ = (c.make.run b).1.flatMap Piece.ids ++ rest.flatMap Piece.ids := List.flatMap_append
      _ ~ c.uses.flatMap Piece.ids ++ new.1 ++ rest.flatMap Piece.ids := perm'.append_right _
      _ ~ c.uses.flatMap Piece.ids ++ rest.flatMap Piece.ids ++ new.1 := append_perm_swap ..
      _ = (c.uses ++ rest).flatMap Piece.ids ++ new.1 := by rw [List.flatMap_append]
      _ ~ pieces.flatMap Piece.ids ++ new.1 := (taken.symm.flatMap_right _).append_right new.1
      _ ~ before.1 ++ new.1 := perm.append_right new.1

theorem nodup_ids (run : Assembly path n b pieces) (few : n < UInt32.size) :
    (pieces.flatMap Piece.ids).Nodup := by
  rw [run.ids_perm.2.nodup_iff]
  exact NodeIds.nodup_take (by simpa [NodeIds.new] using few)

/-- All ids that a builder gives while its counter does not come round are distinct. So are the
block ids of every chunk that it makes, and reading the text of the chunk reports no repeated
one. -/
theorem distinct_ids (run : Assembly path n b pieces) (few : n < UInt32.size) :
    (pieces.flatMap Piece.ids).Nodup ∧
      ∀ c, .chunk c ∈ pieces →
        c.ids.Nodup ∧ c.blockIds.Nodup ∧
          ∀ id, Chunk.ofText c.text ≠ .error (.duplicateBlockId id) := by
  have nodup := run.nodup_ids few
  refine ⟨nodup, fun c made => ?_⟩
  have own : c.ids.Nodup := (List.nodup_flatMap.1 nodup).1 _ made
  have blocks : c.blockIds.Nodup := own.sublist c.blockIds_sublist
  exact ⟨own, blocks, c.ofText_text_ne_duplicate blocks⟩

/-- A loop that mentions a function. -/
def looping : Build Chunk := do
  let x ← Builder.parameter "x"
  let y ← Builder.identifier "y"
  let leaves ← Builder.ret (some y)
  let f ← Builder.function [x] [leaves]
  let mentions ← Builder.exprStmt f
  let xs ← Builder.identifier "xs"
  let loop ← Builder.forLoop "i" xs [mentions]
  Builder.chunk [loop]

theorem looping_assembly (path : String) :
    Assembly path 9 (looping.run (.new path)).2 [.chunk (looping.run (.new path)).1] := by
  have x := (start : Assembly path 0 _ []).call (.parameter "x") (.refl [])
  have y := x.call (.identifier "y") (.refl _)
  have leaves := y.call (.ret (some _)) (.refl _)
  -- the body was made after the parameter
  have f := leaves.call (.function [_] [_]) (.swap _ _ [])
  have mentions := f.call (.exprStmt _) (.refl _)
  have xs := mentions.call (.identifier "xs") (.refl _)
  have loop := xs.call (.forLoop "i" _ [_]) (.refl _)
  exact loop.call (.chunk [_]) (.refl _)

theorem distinct_ids_looping :
    (looping.run (.new "/test.src")).1.blockIds.length = 2 ∧
      (looping.run (.new "/test.src")).1.ids.length = 9 ∧
      (looping.run (.new "/test.src")).1.ids.Nodup := by
  refine ⟨by decide +kernel, by decide +kernel, ?_⟩
  have distinct := distinct_ids (looping_assembly "/test.src") (by decide)
  exact (distinct.2 _ (List.mem_singleton.2 rfl)).1

end Assembly

end Builder

end ScriptInference
