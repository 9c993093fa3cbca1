import ScriptInference.Syntax.Basic

/-!
# Equality of syntax trees

Syntax trees have decidable equality. Numbers are compared by their bits and spans take part.
-/

namespace ScriptInference

mutual

def Expr.beq : Expr → Expr → Bool
  | .nil s, .nil t => s = t
  | .string v s, .string w t => v = w && s = t
  | .number v s, .number w t => v = w && s = t
  | .boolean v s, .boolean w t => v = w && s = t
  | .identifier v s, .identifier w t => v = w && s = t
  | .member a v s, .member b w t => a.beq b && v = w && s = t
  | .index a x s, .index b y t => a.beq b && x.beq y && s = t
  | .slice a l r s, .slice b m q t => a.beq b && beqOption l m && beqOption r q && s = t
  | .call a xs s, .call b ys t => a.beq b && beqExprs xs ys && s = t
  | .unary o a s, .unary p b t => o = p && a.beq b && s = t
  | .binary l o r s, .binary m p q t => l.beq m && o = p && r.beq q && s = t
  | .map xs s, .map ys t => beqFields xs ys && s = t
  | .list xs s, .list ys t => beqExprs xs ys && s = t
  | .function f s, .function g t => f.beq g && s = t
  | .unknown v s, .unknown w t => v = w && s = t
  | _, _ => false

def beqOption : Option Expr → Option Expr → Bool
  | none, none => true
  | some a, some b => a.beq b
  | _, _ => false

def beqExprs : List Expr → List Expr → Bool
  | [], [] => true
  | a :: xs, b :: ys => a.beq b && beqExprs xs ys
  | _, _ => false

def beqFields : Fields → Fields → Bool
  | [], [] => true
  | (a, c) :: xs, (b, d) :: ys => a.beq b && c.beq d && beqFields xs ys
  | _, _ => false

def FunctionDecl.beq : FunctionDecl → FunctionDecl → Bool
  | .mk ps b s, .mk qs c t => beqParams ps qs && beqStmts b c && s = t

def beqParams : List Param → List Param → Bool
  | [], [] => true
  | p :: ps, q :: qs => p.beq q && beqParams ps qs
  | _, _ => false

def Param.beq : Param → Param → Bool
  | .plain n s, .plain m t => n = m && s = t
  | .withDefault n d s, .withDefault m e t => n = m && d.beq e && s = t
  | _, _ => false

def beqStmts : List Stmt → List Stmt → Bool
  | [], [] => true
  | a :: xs, b :: ys => a.beq b && beqStmts xs ys
  | _, _ => false

def beqBody : Option (List Stmt) → Option (List Stmt) → Bool
  | none, none => true
  | some a, some b => beqStmts a b
  | _, _ => false

def beqClauses : Clauses → Clauses → Bool
  | [], [] => true
  | (a, c) :: xs, (b, d) :: ys => a.beq b && beqStmts c d && beqClauses xs ys
  | _, _ => false

def Stmt.beq : Stmt → Stmt → Bool
  | .assign a x s, .assign b y t => a.beq b && x.beq y && s = t
  | .expr a, .expr b => a.beq b
  | .cond cs o s, .cond ds p t => beqClauses cs ds && beqBody o p && s = t
  | .whileLoop a x s, .whileLoop b y t => a.beq b && beqStmts x y && s = t
  | .forLoop v i x s, .forLoop w j y t => v.beq w && i.beq j && beqStmts x y && s = t
  | .ret a s, .ret b t => beqOption a b && s = t
  | .exit s, .exit t => s = t
  | .next s, .next t => s = t
  | _, _ => false

end

mutual

theorem Expr.beq_iff : (a b : Expr) → (a.beq b = true ↔ a = b)
  | .nil _, b => by cases b <;> simp [Expr.beq]
  | .string _ _, b => by cases b <;> simp [Expr.beq]
  | .number _ _, b => by cases b <;> simp [Expr.beq]
  | .boolean _ _, b => by cases b <;> simp [Expr.beq]
  | .identifier _ _, b => by cases b <;> simp [Expr.beq]
  | .member a _ _, b => by cases b <;> simp [Expr.beq, Expr.beq_iff a, and_assoc]
  | .index a x _, b => by cases b <;> simp [Expr.beq, Expr.beq_iff a, Expr.beq_iff x, and_assoc]
  | .slice a l r _, b => by
    cases b <;> simp [Expr.beq, Expr.beq_iff a, beqOption_iff l, beqOption_iff r, and_assoc]
  | .call a xs _, b => by cases b <;> simp [Expr.beq, Expr.beq_iff a, beqExprs_iff xs, and_assoc]
  | .unary _ a _, b => by cases b <;> simp [Expr.beq, Expr.beq_iff a, and_assoc]
  | .binary l _ r _, b => by
    cases b <;> simp [Expr.beq, Expr.beq_iff l, Expr.beq_iff r, and_assoc]
  | .map xs _, b => by cases b <;> simp [Expr.beq, beqFields_iff xs]
  | .list xs _, b => by cases b <;> simp [Expr.beq, beqExprs_iff xs]
  | .function f _, b => by cases b <;> simp [Expr.beq, FunctionDecl.beq_iff f]
  | .unknown _ _, b => by cases b <;> simp [Expr.beq]

theorem beqOption_iff : (a b : Option Expr) → (beqOption a b = true ↔ a = b)
  | none, b => by cases b <;> simp [beqOption]
  | some a, b => by cases b <;> simp [beqOption, Expr.beq_iff a]

theorem beqExprs_iff : (a b : List Expr) → (beqExprs a b = true ↔ a = b)
  | [], b => by cases b <;> simp [beqExprs]
  | a :: xs, b => by cases b <;> simp [beqExprs, Expr.beq_iff a, beqExprs_iff xs]

theorem beqFields_iff : (a b : Fields) → (beqFields a b = true ↔ a = b)
  | [], b => by cases b <;> simp [beqFields]
  | (a, c) :: xs, b => by
    rcases b with _ | ⟨⟨_, _⟩, _⟩
    · simp [beqFields]
    · simp [beqFields, Expr.beq_iff a, Expr.beq_iff c, beqFields_iff xs]

theorem FunctionDecl.beq_iff : (a b : FunctionDecl) → (a.beq b = true ↔ a = b)
  | .mk ps c _, b => by
    cases b
    simp [FunctionDecl.beq, beqParams_iff ps, beqStmts_iff c, and_assoc]

theorem beqParams_iff : (a b : List Param) → (beqParams a b = true ↔ a = b)
  | [], b => by cases b <;> simp [beqParams]
  | p :: ps, b => by cases b <;> simp [beqParams, Param.beq_iff p, beqParams_iff ps]

theorem Param.beq_iff : (a b : Param) → (a.beq b = true ↔ a = b)
  | .plain _ _, b => by cases b <;> simp [Param.beq]
  | .withDefault _ d _, b => by cases b <;> simp [Param.beq, Expr.beq_iff d, and_assoc]

theorem beqStmts_iff : (a b : List Stmt) → (beqStmts a b = true ↔ a = b)
  | [], b => by cases b <;> simp [beqStmts]
  | s :: ss, b => by cases b <;> simp [beqStmts, Stmt.beq_iff s, beqStmts_iff ss]

theorem beqBody_iff : (a b : Option (List Stmt)) → (beqBody a b = true ↔ a = b)
  | none, b => by cases b <;> simp [beqBody]
  | some c, b => by cases b <;> simp [beqBody, beqStmts_iff c]

theorem beqClauses_iff : (a b : Clauses) → (beqClauses a b = true ↔ a = b)
  | [], b => by cases b <;> simp [beqClauses]
  | (a, c) :: xs, b => by
    rcases b with _ | ⟨⟨_, _⟩, _⟩
    · simp [beqClauses]
    · simp [beqClauses, Expr.beq_iff a, beqStmts_iff c, beqClauses_iff xs]

theorem Stmt.beq_iff : (a b : Stmt) → (a.beq b = true ↔ a = b)
  | .assign a x _, b => by cases b <;> simp [Stmt.beq, Expr.beq_iff a, Expr.beq_iff x, and_assoc]
  | .expr a, b => by cases b <;> simp [Stmt.beq, Expr.beq_iff a]
  | .cond cs o _, b => by cases b <;> simp [Stmt.beq, beqClauses_iff cs, beqBody_iff o, and_assoc]
  | .whileLoop a x _, b => by
    cases b <;> simp [Stmt.beq, Expr.beq_iff a, beqStmts_iff x, and_assoc]
  | .forLoop v i x _, b => by
    cases b <;> simp [Stmt.beq, Expr.beq_iff v, Expr.beq_iff i, beqStmts_iff x, and_assoc]
  | .ret a _, b => by cases b <;> simp [Stmt.beq, beqOption_iff a]
  | .exit _, b => by cases b <;> simp [Stmt.beq]
  | .next _, b => by cases b <;> simp [Stmt.beq]

end

instance : DecidableEq Expr := fun a b => decidable_of_iff _ (Expr.beq_iff a b)
instance : DecidableEq Stmt := fun a b => decidable_of_iff _ (Stmt.beq_iff a b)
instance : DecidableEq Param := fun a b => decidable_of_iff _ (Param.beq_iff a b)
instance : DecidableEq FunctionDecl := fun a b => decidable_of_iff _ (FunctionDecl.beq_iff a b)

deriving instance DecidableEq for Chunk

end ScriptInference
