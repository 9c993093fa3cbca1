import ScriptInference.Proofs.Hashing.Likeness

/-!
# Hashes and ids of expressions that are alike

A tree and its normal form have the same structural hash and the same canonical id. Both functions
test a base for the name `locals` and a key for a string literal, and neither test tells a tree from
its normal form. Trees that are alike have one normal form, hence one hash and one id.
-/

namespace ScriptInference

theorem keys_normalMember {b : Expr} (same : b.normal.hash = b.hash ∧ b.normal.id = b.id)
    (n : String) :
    (normalMember b.normal n).hash = memberHash b b.hash n ∧
      (normalMember b.normal n).id = memberId b b.id n := by
  unfold normalMember
  split
  · rename_i shorter
    rw [b.isLocals_normal] at shorter
    rw [Expr.hash, memberHash, Expr.id, memberId, if_pos shorter.1, if_pos shorter.1]
    exact ⟨rfl, rfl⟩
  · simp only [Expr.hash, memberHash, Expr.id, memberId, b.isLocals_normal, same, and_self]

mutual

theorem Expr.keys_normal : ∀ e : Expr, e.normal.hash = e.hash ∧ e.normal.id = e.id
  | .nil _ | .string _ _ | .number _ _ | .boolean _ _ | .identifier _ _ | .unknown _ _ => ⟨rfl, rfl⟩
  | .member b n _ => keys_normalMember b.keys_normal n
  | .index b i _ => by
    rw [Expr.normal, Expr.hash, Expr.id]
    cases literal : i.stringLiteral? with
    | some n => exact keys_normalMember b.keys_normal n
    | none =>
      simp only [Expr.hash, Expr.id, i.stringLiteral?_normal, literal, b.keys_normal, i.keys_normal,
        and_self]
  | .slice b l r _ => by
    simp only [Expr.normal, Expr.hash, Expr.id, b.keys_normal, keys_normalOption, and_self]
  | .call b as _ => by
    simp only [Expr.normal, Expr.hash, Expr.id, b.keys_normal, keys_normalExprs, and_self]
  | .unary _ a _ => by simp only [Expr.normal, Expr.hash, Expr.id, a.keys_normal, and_self]
  | .binary l _ r _ => by
    simp only [Expr.normal, Expr.hash, Expr.id, l.keys_normal, r.keys_normal, and_self]
  | .map fs _ => by simp only [Expr.normal, Expr.hash, Expr.id, keys_normalFields, and_self]
  | .list is _ => by simp only [Expr.normal, Expr.hash, Expr.id, keys_normalExprs, and_self]
  | .function d _ => by simp only [Expr.normal, Expr.hash, Expr.id, d.keys_normal, and_self]

theorem keys_normalOption :
    ∀ e : Option Expr, hashOption (normalOption e) = hashOption e ∧
      idOption (normalOption e) = idOption e
  | none => ⟨rfl, rfl⟩
  | some e => by simp only [normalOption, hashOption, idOption, e.keys_normal, and_self]

theorem keys_normalExprs : ∀ es : List Expr,
    (∀ acc, hashExprs acc (normalExprs es) = hashExprs acc es) ∧
      idExprs (normalExprs es) = idExprs es
  | [] => ⟨fun _ => rfl, rfl⟩
  | e :: es => by
    simp only [normalExprs, hashExprs, idExprs, e.keys_normal, keys_normalExprs es, implies_true,
      and_self]

theorem keys_normalFields : ∀ fs : Fields,
    (∀ acc, hashFields acc (normalFields fs) = hashFields acc fs) ∧
      idFields (normalFields fs) = idFields fs
  | [] => ⟨fun _ => rfl, rfl⟩
  | (k, v) :: fs => by
    simp only [normalFields, hashFields, idFields, k.keys_normal, v.keys_normal,
      keys_normalFields fs, implies_true, and_self]

theorem FunctionDecl.keys_normal :
    ∀ d : FunctionDecl, d.normal.hash = d.hash ∧ d.normal.canonicalId = d.canonicalId
  | .mk ps b _ => by
    simp only [FunctionDecl.normal, FunctionDecl.hash, FunctionDecl.canonicalId, keys_normalParams,
      keys_normalStmts, and_self]

theorem keys_normalParams : ∀ ps : List Param,
    (∀ acc, hashParams acc (normalParams ps) = hashParams acc ps) ∧
      idParams (normalParams ps) = idParams ps
  | [] => ⟨fun _ => rfl, rfl⟩
  | p :: ps => by
    simp only [normalParams, hashParams, idParams, p.keys_normal, keys_normalParams ps,
      implies_true, and_self]

theorem Param.keys_normal : ∀ p : Param,
    (∀ acc, p.normal.hashOnto acc = p.hashOnto acc) ∧ p.normal.canonicalId = p.canonicalId
  | .plain _ _ => ⟨fun _ => rfl, rfl⟩
  | .withDefault _ d _ => by
    simp only [Param.normal, Param.hashOnto, Param.canonicalId, d.keys_normal, implies_true,
      and_self]

theorem keys_normalStmts : ∀ ss : List Stmt,
    (∀ acc, hashStmts acc (normalStmts ss) = hashStmts acc ss) ∧
      idStmts (normalStmts ss) = idStmts ss
  | [] => ⟨fun _ => rfl, rfl⟩
  | s :: ss => by
    simp only [normalStmts, hashStmts, idStmts, s.keys_normal, keys_normalStmts ss, implies_true,
      and_self]

theorem keys_normalBody : ∀ o : Option (List Stmt),
    (∀ acc, hashElse acc (normalBody o) = hashElse acc o) ∧ idElse (normalBody o) = idElse o
  | none => ⟨fun _ => rfl, rfl⟩
  | some b => by
    simp only [normalBody, hashElse, idElse, keys_normalStmts b, implies_true, and_self]

theorem keys_normalClauses : ∀ cs : Clauses,
    (∀ acc, hashClauses acc (normalClauses cs) = hashClauses acc cs) ∧
      idClauses (normalClauses cs) = idClauses cs
  | [] => ⟨fun _ => rfl, rfl⟩
  | (c, b) :: cs => by
    simp only [normalClauses, hashClauses, idClauses, c.keys_normal, keys_normalStmts b,
      keys_normalClauses cs, implies_true, and_self]

theorem Stmt.keys_normal : ∀ s : Stmt, s.normal.hash = s.hash ∧ s.normal.id = s.id
  | .assign t i _ => by
    simp only [Stmt.normal, Stmt.hash, Stmt.id, t.keys_normal, i.keys_normal, and_self]
  | .expr e => by simp only [Stmt.normal, Stmt.hash, Stmt.id, e.keys_normal, and_self]
  | .cond cs o _ => by
    simp only [Stmt.normal, Stmt.hash, Stmt.id, keys_normalClauses, keys_normalBody, and_self]
  | .whileLoop c b _ => by
    simp only [Stmt.normal, Stmt.hash, Stmt.id, c.keys_normal, keys_normalStmts, and_self]
  | .forLoop v i b _ => by
    simp only [Stmt.normal, Stmt.hash, Stmt.id, v.keys_normal, i.keys_normal, keys_normalStmts,
      and_self]
  | .ret none _ | .exit _ | .next _ => ⟨rfl, rfl⟩
  | .ret (some a) _ => by
    simp only [Stmt.normal, normalOption, Stmt.hash, hashOption, Stmt.id, a.keys_normal, and_self]

end

/-- Trees that are alike, in whatever depth they are spelled differently, share their hash and their
id. -/
theorem Expr.Alike.hash_eq_and_id_eq {a b : Expr} (alike : a.Alike b) :
    a.hash = b.hash ∧ a.id = b.id := by
  have same := alike.normal_eq
  constructor
  · rw [← a.keys_normal.1, same, b.keys_normal.1]
  · rw [← a.keys_normal.2, same, b.keys_normal.2]

/-- The function `function(a=locals.x["k"]){if not locals.y then b["s"](locals.z) end}`. -/
def longSpelling (p : Span) : Expr :=
  let local_ (n : String) : Expr := .member (.identifier "locals" p) n p
  .function (.mk [.withDefault "a" (.index (local_ "x") (.string "k" p) p) p]
    [.cond [(.unary .not (local_ "y") p,
      [.expr (.call (.index (.identifier "b" p) (.string "s" p) p) [local_ "z"] p)])] none p] p) p

/-- The function `function(a=x.k){if not y then b.s(z) end}`. -/
def shortSpelling (p : Span) : Expr :=
  .function (.mk [.withDefault "a" (.member (.identifier "x" p) "k" p) p]
    [.cond [(.unary .not (.identifier "y" p) p,
      [.expr (.call (.member (.identifier "b" p) "s" p) [.identifier "z" p] p)])] none p] p) p

theorem hash_eq_and_id_eq_spellings :
    (longSpelling ⟨0, 55, 1, "f"⟩).Alike (shortSpelling ⟨7, 42, 3, "g"⟩) ∧
      (longSpelling ⟨0, 55, 1, "f"⟩).hash = (shortSpelling ⟨7, 42, 3, "g"⟩).hash ∧
      (longSpelling ⟨0, 55, 1, "f"⟩).id = (shortSpelling ⟨7, 42, 3, "g"⟩).id := by
  have alike : (longSpelling ⟨0, 55, 1, "f"⟩).Alike (shortSpelling ⟨7, 42, 3, "g"⟩) := by
    decide +kernel
  exact ⟨alike, alike.hash_eq_and_id_eq⟩

end ScriptInference
