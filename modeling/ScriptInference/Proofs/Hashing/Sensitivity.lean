import ScriptInference.Proofs.Hashing.Transparency
import ScriptInference.Proofs.Syntax.Holes

/-!
# The hash loses nothing at a single position

The hash of a tree is a nest of folds with the step `31 · hash + value` modulo `2^32`. Since `31` is
odd, each step can be undone on either side: the state before it is known from the state behind it
and the value, and the value from both states. So every fold is injective in the state it starts
from, and a subtree, wherever it stands, changes the hash of the whole tree exactly when it changes
its own.

There are two exceptions. A base that is the name `locals` and a key that is a string literal are
not hashed as expressions, since `locals.x` is meant to hash as `x` and `a["b"]` as `a.b`. Both
concern only what fills a hole directly in such a place; a larger tree in that place is neither a
name nor a literal.
-/

namespace ScriptInference

/-! ## Steps and folds are injective -/

theorem toNat_combine (h v : UInt32) :
    (combine h v).toNat = (31 * h.toNat + v.toNat) % UInt32.size := by
  have bound := h.toNat_lt
  have shift : (5 : UInt32).toNat % 32 = 5 := rfl
  rw [combine, UInt32.toNat_add, UInt32.toNat_sub, UInt32.toNat_shiftLeft, shift, Nat.shiftLeft_eq,
    UInt32.size]
  omega

/-- The factor `31` has an inverse modulo `2^32`. -/
@[simp]
theorem combine_left_inj {g h v : UInt32} : combine g v = combine h v ↔ g = h := by
  have bound := g.toNat_lt
  have bound' := h.toNat_lt
  rw [← UInt32.toNat_inj, ← UInt32.toNat_inj, toNat_combine, toNat_combine, UInt32.size]
  omega

@[simp]
theorem combine_right_inj {h v w : UInt32} : combine h v = combine h w ↔ v = w :=
  UInt32.add_right_inj _

section Folds
variable {g h : UInt32}

@[simp]
theorem hashExprs_inj (es : List Expr) : hashExprs g es = hashExprs h es ↔ g = h := by
  induction es generalizing g h with
  | nil => rfl
  | cons e es ih => rw [hashExprs, hashExprs, ih, combine_left_inj]

@[simp]
theorem hashFields_inj (fs : Fields) : hashFields g fs = hashFields h fs ↔ g = h := by
  induction fs generalizing g h with
  | nil => rfl
  | cons f fs ih => rw [hashFields, hashFields, ih, combine_left_inj, combine_left_inj]

@[simp]
theorem hashStmts_inj (ss : List Stmt) : hashStmts g ss = hashStmts h ss ↔ g = h := by
  induction ss generalizing g h with
  | nil => rfl
  | cons s ss ih => rw [hashStmts, hashStmts, ih, combine_left_inj]

@[simp]
theorem hashOnto_inj (p : Param) : p.hashOnto g = p.hashOnto h ↔ g = h := by
  cases p <;> rw [Param.hashOnto, Param.hashOnto, combine_left_inj, combine_left_inj]

@[simp]
theorem hashParams_inj (ps : List Param) : hashParams g ps = hashParams h ps ↔ g = h := by
  induction ps generalizing g h with
  | nil => rfl
  | cons p ps ih => rw [hashParams, hashParams, ih, hashOnto_inj]

@[simp]
theorem hashClauses_inj (cs : Clauses) : hashClauses g cs = hashClauses h cs ↔ g = h := by
  induction cs generalizing g h with
  | nil => rfl
  | cons c cs ih => rw [hashClauses, hashClauses, ih, hashStmts_inj, combine_left_inj]

@[simp]
theorem hashElse_inj (o : Option (List Stmt)) : hashElse g o = hashElse h o ↔ g = h := by
  cases o with
  | none => rfl
  | some b => rw [hashElse, hashElse, hashStmts_inj, combine_left_inj]

end Folds

/-! ## Folds over an item in the middle -/

section Middle
variable (h : UInt32)

@[simp]
theorem hashExprs_middle (before after : List Expr) (e : Expr) :
    hashExprs h (before ++ e :: after) = hashExprs (combine (hashExprs h before) e.hash) after := by
  induction before generalizing h with
  | nil => rfl
  | cons x before ih => exact ih _

@[simp]
theorem hashFields_middle (before after : Fields) (k v : Expr) :
    hashFields h (before ++ (k, v) :: after) =
      hashFields (combine (combine (hashFields h before) k.hash) v.hash) after := by
  induction before generalizing h with
  | nil => rfl
  | cons x before ih => exact ih _

@[simp]
theorem hashParams_middle (before after : List Param) (p : Param) :
    hashParams h (before ++ p :: after) = hashParams (p.hashOnto (hashParams h before)) after := by
  induction before generalizing h with
  | nil => rfl
  | cons x before ih => exact ih _

@[simp]
theorem hashStmts_middle (front back : List Stmt) (s : Stmt) :
    hashStmts h (front ++ s :: back) = hashStmts (combine (hashStmts h front) s.hash) back := by
  induction front generalizing h with
  | nil => rfl
  | cons x front ih => exact ih _

@[simp]
theorem hashClauses_middle (before after : Clauses) (c : Expr) (b : List Stmt) :
    hashClauses h (before ++ (c, b) :: after) =
      hashClauses (hashStmts (combine (hashClauses h before) c.hash) b) after := by
  induction before generalizing h with
  | nil => rfl
  | cons x before ih => exact ih _

end Middle

/-! ## Trees with a hole -/

mutual

/-- Directly as the base of an access the expression is not the name `locals`, and directly as the
key of an index access it is not a string literal. -/
def Expr.Context.Suits : Expr.Context → Expr → Prop
  | .hole, _ => True
  | .member b _ _, e | .indexBase b _ _, e => b.Suits e ∧ (b = .hole → e.isLocals = false)
  | .indexKey _ i _, e => i.Suits e ∧ (i = .hole → e.stringLiteral? = none)
  | .sliceBase b _ _ _, e => b.Suits e
  | .sliceLeft _ l _ _, e => l.Suits e
  | .sliceRight _ _ r _, e => r.Suits e
  | .callBase b _ _, e => b.Suits e
  | .callArgument _ _ a _ _, e | .unary _ a _, e => a.Suits e
  | .binaryLeft l _ _ _, e => l.Suits e
  | .binaryRight _ _ r _, e => r.Suits e
  | .mapKey _ k _ _ _, e => k.Suits e
  | .mapValue _ _ v _ _, e => v.Suits e
  | .listItem _ i _ _, e => i.Suits e
  | .parameterDefault _ _ v _ _ _ _ _, e => v.Suits e
  | .bodyStatement _ _ x _ _ _, e => x.Suits e

def Stmt.Context.Suits : Stmt.Context → Expr → Prop
  | .assignTarget t _ _, e => t.Suits e
  | .assignInit _ i _, e => i.Suits e
  | .expr x, e => x.Suits e
  | .clauseCondition _ c _ _ _ _, e => c.Suits e
  | .clauseBody _ _ _ x _ _ _ _, e | .elseBody _ _ x _ _, e => x.Suits e
  | .whileCondition c _ _, e => c.Suits e
  | .whileBody _ _ x _ _, e => x.Suits e
  | .forElement v _ _ _, e => v.Suits e
  | .forIterator _ i _ _, e => i.Suits e
  | .forBody _ _ _ x _ _, e => x.Suits e
  | .ret a _, e => a.Suits e

end

namespace Expr.Context

theorem isLocals_fill {c : Expr.Context} {e : Expr} (direct : c = .hole → e.isLocals = false) :
    (c.fill e).isLocals = false := by
  cases c with
  | hole => exact direct rfl
  | _ => rfl

theorem stringLiteral?_fill {c : Expr.Context} {e : Expr}
    (direct : c = .hole → e.stringLiteral? = none) : (c.fill e).stringLiteral? = none := by
  cases c with
  | hole => exact direct rfl
  | _ => rfl

end Expr.Context

/-- The hash of an access to a member tells the hash of its base. -/
theorem memberHash_inj {b c : Expr} (hb : b.isLocals = false) (hc : c.isLocals = false)
    (n : String) : memberHash b b.hash n = memberHash c c.hash n ↔ b.hash = c.hash := by
  simp [memberHash, hb, hc]

section Positions
variable {a b : Expr}

mutual

theorem Expr.Context.hash_fill : ∀ c : Expr.Context, c.Suits a → c.Suits b →
    ((c.fill a).hash = (c.fill b).hash ↔ a.hash = b.hash)
  | .hole, _, _ => Iff.rfl
  | .member c n _, ⟨ha, da⟩, ⟨hb, db⟩ => by
    rw [Expr.Context.fill, Expr.Context.fill, Expr.hash, Expr.hash, memberHash_inj
      (Expr.Context.isLocals_fill da) (Expr.Context.isLocals_fill db), c.hash_fill ha hb]
  | .indexBase c i _, ⟨ha, da⟩, ⟨hb, db⟩ => by
    rw [Expr.Context.fill, Expr.Context.fill, Expr.hash, Expr.hash]
    cases i.stringLiteral? with
    | some n => exact (memberHash_inj (Expr.Context.isLocals_fill da)
      (Expr.Context.isLocals_fill db) n).trans (c.hash_fill ha hb)
    | none => simp [c.hash_fill ha hb]
  | .indexKey _ c _, ⟨ha, da⟩, ⟨hb, db⟩ => by
    simp [Expr.Context.fill, Expr.hash, Expr.Context.stringLiteral?_fill da,
      Expr.Context.stringLiteral?_fill db, c.hash_fill ha hb]
  | .sliceBase c _ _ _, ha, hb => by simp [Expr.Context.fill, Expr.hash, c.hash_fill ha hb]
  | .sliceLeft _ c _ _, ha, hb | .sliceRight _ _ c _, ha, hb =>
    by simp [Expr.Context.fill, Expr.hash, hashOption, c.hash_fill ha hb]
  | .callBase c _ _, ha, hb | .callArgument _ _ c _ _, ha, hb | .unary _ c _, ha, hb
  | .binaryLeft c _ _ _, ha, hb | .binaryRight _ _ c _, ha, hb | .mapKey _ c _ _ _, ha, hb
  | .mapValue _ _ c _ _, ha, hb | .listItem _ c _ _, ha, hb =>
    by simp [Expr.Context.fill, Expr.hash, c.hash_fill ha hb]
  | .parameterDefault _ _ c _ _ _ _ _, ha, hb => by
    simp [Expr.Context.fill, Expr.hash, FunctionDecl.hash, Param.hashOnto, c.hash_fill ha hb]
  | .bodyStatement _ _ c _ _ _, ha, hb => by
    simp [Expr.Context.fill, Expr.hash, FunctionDecl.hash, c.hash_fill ha hb]

theorem Stmt.Context.hash_fill : ∀ c : Stmt.Context, c.Suits a → c.Suits b →
    ((c.fill a).hash = (c.fill b).hash ↔ a.hash = b.hash)
  | .assignTarget c _ _, ha, hb | .assignInit _ c _, ha, hb | .expr c, ha, hb
  | .clauseCondition _ c _ _ _ _, ha, hb | .clauseBody _ _ _ c _ _ _ _, ha, hb =>
    by simp [Stmt.Context.fill, Stmt.hash, c.hash_fill ha hb]
  | .elseBody _ _ c _ _, ha, hb =>
    by simp [Stmt.Context.fill, Stmt.hash, hashElse, c.hash_fill ha hb]
  | .whileCondition c _ _, ha, hb | .whileBody _ _ c _ _, ha, hb | .forElement c _ _ _, ha, hb
  | .forIterator _ c _ _, ha, hb | .forBody _ _ _ c _ _, ha, hb =>
    by simp [Stmt.Context.fill, Stmt.hash, c.hash_fill ha hb]
  | .ret c _, ha, hb => by simp [Stmt.Context.fill, Stmt.hash, hashOption, c.hash_fill ha hb]

end

end Positions

theorem Hasher.Faithful.hash_eq {h : Hasher} (faithful : h.Faithful) (e : Expr) :
    ((Hasher.hash e).run h).1 = e.hash := by
  obtain ⟨after, ran, -⟩ := Hasher.computes_hash e h faithful
  rw [ran]

/-- Two trees that differ in one subtree have the same hash exactly when the two subtrees have. This
holds of the hashes that hashers compute, whatever each of them has cached and remembered at the
time. -/
theorem Expr.Context.hash_fill_eq_iff (c : Expr.Context) {a b : Expr} (suitsA : c.Suits a)
    (suitsB : c.Suits b) :
    ((c.fill a).hash = (c.fill b).hash ↔ a.hash = b.hash) ∧
      ∀ g h g' h' : Hasher, g.Faithful → h.Faithful → g'.Faithful → h'.Faithful →
        (((Hasher.hash (c.fill a)).run g).1 = ((Hasher.hash (c.fill b)).run h).1 ↔
          ((Hasher.hash a).run g').1 = ((Hasher.hash b).run h').1) := by
  refine ⟨c.hash_fill suitsA suitsB, fun g h g' h' hg hh hg' hh' => ?_⟩
  rw [hg.hash_eq, hh.hash_eq, hg'.hash_eq, hh'.hash_eq]
  exact c.hash_fill suitsA suitsB

/-- The function `function(p=1){if x then else if □.m["k"] then break end}`. -/
def Expr.Context.nestedClause (s : Span) : Expr.Context :=
  .bodyStatement [.withDefault "p" (.number ⟨0x3ff0000000000000⟩ s) s] []
    (.clauseCondition [(.identifier "x" s, [])] (.indexBase (.member .hole "m" s) (.string "k" s) s)
      [.exit s] [] none s) [] s s

theorem Expr.Context.hash_fill_eq_iff_nestedClause :
    (nestedClause default).Suits (.nil default) ∧
      (nestedClause default).Suits (.boolean true default) ∧
      ((nestedClause default).fill (.nil default)).hash ≠
        ((nestedClause default).fill (.boolean true default)).hash ∧
      ((Hasher.hash ((nestedClause default).fill (.nil default))).run (Hasher.new 1)).1 ≠
        ((Hasher.hash ((nestedClause default).fill (.boolean true default))).run
          (Hasher.new 50)).1 := by
  have suits : ∀ e : Expr, e.isLocals = false → (nestedClause default).Suits e :=
    fun e other => ⟨⟨trivial, fun _ => other⟩, fun direct => by cases direct⟩
  have apart : (Expr.nil default).hash ≠ (Expr.boolean true default).hash := by decide
  obtain ⟨plain, run⟩ := hash_fill_eq_iff (nestedClause default) (suits (.nil default) rfl)
    (suits (.boolean true default) rfl)
  have new := Hasher.faithful_new
  refine ⟨suits _ rfl, suits _ rfl, fun same => apart (plain.1 same), fun same => apart ?_⟩
  have own := (run _ _ _ _ (new 1) (new 50) (new 1) (new 50)).1 same
  rwa [(new 1).hash_eq, (new 50).hash_eq] at own

-- What is asked of a filling is needed: the name `locals` and this number have different hashes, and
-- as the bases of one access they make trees with the same hash.
example (s : Span) :
    (Expr.member (.identifier "locals" s) "x" s).hash =
      (Expr.member (.number ⟨0xfffffecf⟩ s) "x" s).hash := by
  cbv

end ScriptInference
