import ScriptInference.Syntax.Walk

/-!
# Trees with a hole

A context is an expression in which one subexpression is missing, at any depth: below other
expressions, in the default value of a parameter, or in a statement of the body of a function. It is
one datatype for expressions and one for statements, with one constructor for each place where the
hole can lie. Where it lies in an item of a list, the items before it and behind it are kept.

Every expression that the walk over a tree meets is what fills the hole of some context of the tree,
so the contexts miss no position.
-/

namespace ScriptInference

mutual

inductive Expr.Context where
  | hole
  | member (base : Expr.Context) (name : String) (span : Span)
  | indexBase (base : Expr.Context) (index : Expr) (span : Span)
  | indexKey (base : Expr) (index : Expr.Context) (span : Span)
  | sliceBase (base : Expr.Context) (left right : Option Expr) (span : Span)
  | sliceLeft (base : Expr) (left : Expr.Context) (right : Option Expr) (span : Span)
  | sliceRight (base : Expr) (left : Option Expr) (right : Expr.Context) (span : Span)
  | callBase (base : Expr.Context) (arguments : List Expr) (span : Span)
  | callArgument (base : Expr) (before : List Expr) (argument : Expr.Context) (after : List Expr)
      (span : Span)
  | unary (op : UnaryOp) (argument : Expr.Context) (span : Span)
  | binaryLeft (left : Expr.Context) (op : BinaryOp) (right : Expr) (span : Span)
  | binaryRight (left : Expr) (op : BinaryOp) (right : Expr.Context) (span : Span)
  | mapKey (before : Fields) (key : Expr.Context) (value : Expr)
      (after : Fields) (span : Span)
  | mapValue (before : Fields) (key : Expr) (value : Expr.Context)
      (after : Fields) (span : Span)
  | listItem (before : List Expr) (item : Expr.Context) (after : List Expr) (span : Span)
  | parameterDefault (before : List Param) (name : String) (value : Expr.Context)
      (parameterSpan : Span) (after : List Param) (body : List Stmt) (declarationSpan span : Span)
  | bodyStatement (parameters : List Param) (front : List Stmt) (statement : Stmt.Context)
      (back : List Stmt) (declarationSpan span : Span)

inductive Stmt.Context where
  | assignTarget (target : Expr.Context) (init : Expr) (span : Span)
  | assignInit (target : Expr) (init : Expr.Context) (span : Span)
  | expr (expression : Expr.Context)
  | clauseCondition (before : Clauses) (condition : Expr.Context) (body : List Stmt)
      (after : Clauses) (otherwise : Option (List Stmt)) (span : Span)
  | clauseBody (before : Clauses) (condition : Expr) (front : List Stmt)
      (statement : Stmt.Context) (back : List Stmt) (after : Clauses)
      (otherwise : Option (List Stmt)) (span : Span)
  | elseBody (clauses : Clauses) (front : List Stmt) (statement : Stmt.Context)
      (back : List Stmt) (span : Span)
  | whileCondition (condition : Expr.Context) (body : List Stmt) (span : Span)
  | whileBody (condition : Expr) (front : List Stmt) (statement : Stmt.Context) (back : List Stmt)
      (span : Span)
  | forElement (element : Expr.Context) (iterator : Expr) (body : List Stmt) (span : Span)
  | forIterator (element : Expr) (iterator : Expr.Context) (body : List Stmt) (span : Span)
  | forBody (element iterator : Expr) (front : List Stmt) (statement : Stmt.Context)
      (back : List Stmt) (span : Span)
  | ret (argument : Expr.Context) (span : Span)

end

mutual

/-- The tree with an expression in the place of the hole. -/
def Expr.Context.fill : Expr.Context → Expr → Expr
  | .hole, e => e
  | .member b n s, e => .member (b.fill e) n s
  | .indexBase b i s, e => .index (b.fill e) i s
  | .indexKey b i s, e => .index b (i.fill e) s
  | .sliceBase b l r s, e => .slice (b.fill e) l r s
  | .sliceLeft b l r s, e => .slice b (some (l.fill e)) r s
  | .sliceRight b l r s, e => .slice b l (some (r.fill e)) s
  | .callBase b as s, e => .call (b.fill e) as s
  | .callArgument b xs a ys s, e => .call b (xs ++ a.fill e :: ys) s
  | .unary o a s, e => .unary o (a.fill e) s
  | .binaryLeft l o r s, e => .binary (l.fill e) o r s
  | .binaryRight l o r s, e => .binary l o (r.fill e) s
  | .mapKey xs k v ys s, e => .map (xs ++ (k.fill e, v) :: ys) s
  | .mapValue xs k v ys s, e => .map (xs ++ (k, v.fill e) :: ys) s
  | .listItem xs i ys s, e => .list (xs ++ i.fill e :: ys) s
  | .parameterDefault xs n v q ys b t s, e =>
    .function (.mk (xs ++ .withDefault n (v.fill e) q :: ys) b t) s
  | .bodyStatement ps front x back t s, e => .function (.mk ps (front ++ x.fill e :: back) t) s

def Stmt.Context.fill : Stmt.Context → Expr → Stmt
  | .assignTarget t i s, e => .assign (t.fill e) i s
  | .assignInit t i s, e => .assign t (i.fill e) s
  | .expr x, e => .expr (x.fill e)
  | .clauseCondition xs c b ys o s, e => .cond (xs ++ (c.fill e, b) :: ys) o s
  | .clauseBody xs c front x back ys o s, e =>
    .cond (xs ++ (c, front ++ x.fill e :: back) :: ys) o s
  | .elseBody cs front x back s, e => .cond cs (some (front ++ x.fill e :: back)) s
  | .whileCondition c b s, e => .whileLoop (c.fill e) b s
  | .whileBody c front x back s, e => .whileLoop c (front ++ x.fill e :: back) s
  | .forElement v i b s, e => .forLoop (v.fill e) i b s
  | .forIterator v i b s, e => .forLoop v (i.fill e) b s
  | .forBody v i front x back s, e => .forLoop v i (front ++ x.fill e :: back) s
  | .ret a s, e => .ret (some (a.fill e)) s

end

/-! ## Every position is the hole of a context -/

section Positions
variable {x : Expr}

theorem Expr.exists_context_cons {e : Expr} {rest : List Event}
    (met : .expression x ∈ .expression e :: rest)
    (inside : .expression x ∈ rest → ∃ c : Expr.Context, c.fill x = e) :
    ∃ c : Expr.Context, c.fill x = e :=
  (List.mem_cons.1 met).elim (fun here => ⟨.hole, Event.expression.inj here⟩) inside

mutual

/-- An expression that the walk over a tree meets fills the hole of a context of the tree. -/
theorem Expr.exists_context : ∀ e : Expr, .expression x ∈ e.walk → ∃ c : Expr.Context, c.fill x = e
  | .nil _, met | .string _ _, met | .number _ _, met | .boolean _ _, met | .identifier _ _, met
  | .unknown _ _, met => Expr.exists_context_cons met fun none => by cases none
  | .member b n s, met => Expr.exists_context_cons met fun met => by
    obtain ⟨c, rfl⟩ := Expr.exists_context b met
    exact ⟨.member c n s, rfl⟩
  | .index b i s, met => Expr.exists_context_cons met fun met => by
    rcases List.mem_append.1 met with met | met
    · obtain ⟨c, rfl⟩ := Expr.exists_context b met
      exact ⟨.indexBase c i s, rfl⟩
    · obtain ⟨c, rfl⟩ := Expr.exists_context i met
      exact ⟨.indexKey b c s, rfl⟩
  | .slice b l r s, met => Expr.exists_context_cons met fun met => by
    rcases List.mem_append.1 met with met | met
    · rcases List.mem_append.1 met with met | met
      · obtain ⟨c, rfl⟩ := Expr.exists_context b met
        exact ⟨.sliceBase c l r s, rfl⟩
      · obtain ⟨c, rfl⟩ := exists_context_option l met
        exact ⟨.sliceLeft b c r s, rfl⟩
    · obtain ⟨c, rfl⟩ := exists_context_option r met
      exact ⟨.sliceRight b l c s, rfl⟩
  | .call b as s, met => Expr.exists_context_cons met fun met => by
    rcases List.mem_append.1 met with met | met
    · obtain ⟨c, rfl⟩ := Expr.exists_context b met
      exact ⟨.callBase c as s, rfl⟩
    · obtain ⟨before, c, after, rfl⟩ := exists_context_exprs as met
      exact ⟨.callArgument b before c after s, rfl⟩
  | .unary o a s, met => Expr.exists_context_cons met fun met => by
    obtain ⟨c, rfl⟩ := Expr.exists_context a met
    exact ⟨.unary o c s, rfl⟩
  | .binary l o r s, met => Expr.exists_context_cons met fun met => by
    rcases List.mem_append.1 met with met | met
    · obtain ⟨c, rfl⟩ := Expr.exists_context l met
      exact ⟨.binaryLeft c o r s, rfl⟩
    · obtain ⟨c, rfl⟩ := Expr.exists_context r met
      exact ⟨.binaryRight l o c s, rfl⟩
  | .map fs s, met => Expr.exists_context_cons met fun met => by
    obtain ⟨before, after, ⟨c, v, rfl⟩ | ⟨k, c, rfl⟩⟩ := exists_context_fields fs met
    · exact ⟨.mapKey before c v after s, rfl⟩
    · exact ⟨.mapValue before k c after s, rfl⟩
  | .list is s, met => Expr.exists_context_cons met fun met => by
    obtain ⟨before, c, after, rfl⟩ := exists_context_exprs is met
    exact ⟨.listItem before c after s, rfl⟩
  | .function (.mk ps b t) s, met => Expr.exists_context_cons met fun met => by
    have met : .expression x ∈ walkParams ps ∨ .expression x ∈ walkStmts b := by
      simpa [FunctionDecl.walk] using met
    rcases met with met | met
    · obtain ⟨before, n, c, q, after, rfl⟩ := exists_context_params ps met
      exact ⟨.parameterDefault before n c q after b t s, rfl⟩
    · obtain ⟨front, c, back, rfl⟩ := exists_context_stmts b met
      exact ⟨.bodyStatement ps front c back t s, rfl⟩

theorem exists_context_option :
    ∀ o : Option Expr, .expression x ∈ walkOption o → ∃ c : Expr.Context, some (c.fill x) = o
  | some e, met => by
    obtain ⟨c, rfl⟩ := Expr.exists_context e met
    exact ⟨c, rfl⟩

theorem exists_context_exprs : ∀ es : List Expr, .expression x ∈ walkExprs es →
    ∃ (before : List Expr) (c : Expr.Context) (after : List Expr), before ++ c.fill x :: after = es
  | e :: es, met => by
    rcases List.mem_append.1 met with met | met
    · obtain ⟨c, rfl⟩ := Expr.exists_context e met
      exact ⟨[], c, es, rfl⟩
    · obtain ⟨before, c, after, rfl⟩ := exists_context_exprs es met
      exact ⟨e :: before, c, after, rfl⟩

theorem exists_context_fields : ∀ fs : Fields, .expression x ∈ walkFields fs →
    ∃ before after : Fields,
      (∃ (c : Expr.Context) (v : Expr), before ++ (c.fill x, v) :: after = fs) ∨
      ∃ (k : Expr) (c : Expr.Context), before ++ (k, c.fill x) :: after = fs
  | (k, v) :: fs, met => by
    rcases List.mem_append.1 met with met | met
    · rcases List.mem_append.1 met with met | met
      · obtain ⟨c, rfl⟩ := Expr.exists_context k met
        exact ⟨[], fs, .inl ⟨c, v, rfl⟩⟩
      · obtain ⟨c, rfl⟩ := Expr.exists_context v met
        exact ⟨[], fs, .inr ⟨k, c, rfl⟩⟩
    · obtain ⟨before, after, ⟨c, w, rfl⟩ | ⟨j, c, rfl⟩⟩ := exists_context_fields fs met
      · exact ⟨(k, v) :: before, after, .inl ⟨c, w, rfl⟩⟩
      · exact ⟨(k, v) :: before, after, .inr ⟨j, c, rfl⟩⟩

theorem exists_context_params : ∀ ps : List Param, .expression x ∈ walkParams ps →
    ∃ (before : List Param) (n : String) (c : Expr.Context) (q : Span) (after : List Param),
      before ++ .withDefault n (c.fill x) q :: after = ps
  | .plain n q :: ps, met => by
    rcases List.mem_append.1 met with met | met
    · cases List.mem_singleton.1 met
    · obtain ⟨before, m, c, r, after, rfl⟩ := exists_context_params ps met
      exact ⟨.plain n q :: before, m, c, r, after, rfl⟩
  | .withDefault n d q :: ps, met => by
    rcases List.mem_append.1 met with met | met
    · rcases List.mem_cons.1 met with here | met
      · cases here
      · obtain ⟨c, rfl⟩ := Expr.exists_context d met
        exact ⟨[], n, c, q, ps, rfl⟩
    · obtain ⟨before, m, c, r, after, rfl⟩ := exists_context_params ps met
      exact ⟨.withDefault n d q :: before, m, c, r, after, rfl⟩

theorem exists_context_stmts : ∀ ss : List Stmt, .expression x ∈ walkStmts ss →
    ∃ (front : List Stmt) (c : Stmt.Context) (back : List Stmt), front ++ c.fill x :: back = ss
  | s :: ss, met => by
    rcases List.mem_append.1 met with met | met
    · obtain ⟨c, rfl⟩ := Stmt.exists_context s met
      exact ⟨[], c, ss, rfl⟩
    · obtain ⟨front, c, back, rfl⟩ := exists_context_stmts ss met
      exact ⟨s :: front, c, back, rfl⟩

theorem exists_context_clauses : ∀ cs : Clauses, .expression x ∈ walkClauses cs →
    ∃ before after : Clauses,
      (∃ (c : Expr.Context) (b : List Stmt), before ++ (c.fill x, b) :: after = cs) ∨
      ∃ (k : Expr) (front : List Stmt) (c : Stmt.Context) (back : List Stmt),
        before ++ (k, front ++ c.fill x :: back) :: after = cs
  | (k, b) :: cs, met => by
    rcases List.mem_append.1 met with met | met
    · rcases List.mem_append.1 met with met | met
      · obtain ⟨c, rfl⟩ := Expr.exists_context k met
        exact ⟨[], cs, .inl ⟨c, b, rfl⟩⟩
      · obtain ⟨front, c, back, rfl⟩ := exists_context_stmts b met
        exact ⟨[], cs, .inr ⟨k, front, c, back, rfl⟩⟩
    · obtain ⟨before, after, ⟨c, d, rfl⟩ | ⟨j, front, c, back, rfl⟩⟩ :=
        exists_context_clauses cs met
      · exact ⟨(k, b) :: before, after, .inl ⟨c, d, rfl⟩⟩
      · exact ⟨(k, b) :: before, after, .inr ⟨j, front, c, back, rfl⟩⟩

theorem exists_context_body : ∀ o : Option (List Stmt), .expression x ∈ walkBody o →
    ∃ (front : List Stmt) (c : Stmt.Context) (back : List Stmt),
      some (front ++ c.fill x :: back) = o
  | some b, met => by
    obtain ⟨front, c, back, rfl⟩ := exists_context_stmts b met
    exact ⟨front, c, back, rfl⟩

theorem Stmt.exists_context : ∀ s : Stmt, .expression x ∈ s.walk → ∃ c : Stmt.Context, c.fill x = s
  | .assign t i s, met => by
    have met : .expression x ∈ t.walk ∨ .expression x ∈ i.walk := by simpa [Stmt.walk] using met
    rcases met with met | met
    · obtain ⟨c, rfl⟩ := Expr.exists_context t met
      exact ⟨.assignTarget c i s, rfl⟩
    · obtain ⟨c, rfl⟩ := Expr.exists_context i met
      exact ⟨.assignInit t c s, rfl⟩
  | .expr e, met => by
    have met : .expression x ∈ e.walk := by simpa [Stmt.walk] using met
    obtain ⟨c, rfl⟩ := Expr.exists_context e met
    exact ⟨.expr c, rfl⟩
  | .cond cs o s, met => by
    have met : .expression x ∈ walkClauses cs ∨ .expression x ∈ walkBody o := by
      simpa [Stmt.walk] using met
    rcases met with met | met
    · obtain ⟨before, after, ⟨c, b, rfl⟩ | ⟨k, front, c, back, rfl⟩⟩ :=
        exists_context_clauses cs met
      · exact ⟨.clauseCondition before c b after o s, rfl⟩
      · exact ⟨.clauseBody before k front c back after o s, rfl⟩
    · obtain ⟨front, c, back, rfl⟩ := exists_context_body o met
      exact ⟨.elseBody cs front c back s, rfl⟩
  | .whileLoop k b s, met => by
    have met : .expression x ∈ k.walk ∨ .expression x ∈ walkStmts b := by
      simpa [Stmt.walk] using met
    rcases met with met | met
    · obtain ⟨c, rfl⟩ := Expr.exists_context k met
      exact ⟨.whileCondition c b s, rfl⟩
    · obtain ⟨front, c, back, rfl⟩ := exists_context_stmts b met
      exact ⟨.whileBody k front c back s, rfl⟩
  | .forLoop v i b s, met => by
    have met : .expression x ∈ v.walk ∨ .expression x ∈ i.walk ∨ .expression x ∈ walkStmts b := by
      simpa [Stmt.walk] using met
    rcases met with met | met | met
    · obtain ⟨c, rfl⟩ := Expr.exists_context v met
      exact ⟨.forElement c i b s, rfl⟩
    · obtain ⟨c, rfl⟩ := Expr.exists_context i met
      exact ⟨.forIterator v c b s, rfl⟩
    · obtain ⟨front, c, back, rfl⟩ := exists_context_stmts b met
      exact ⟨.forBody v i front c back s, rfl⟩
  | .ret a s, met => by
    have met : .expression x ∈ walkOption a := by simpa [Stmt.walk] using met
    obtain ⟨c, rfl⟩ := exists_context_option a met
    exact ⟨.ret c s, rfl⟩

end

end Positions

end ScriptInference
