import ScriptInference.Proofs.Hashing.Congruence
import ScriptInference.Proofs.Hashing.IdRoundTrip

/-!
# How exact ids are

Two expressions whose normal forms are plain have one id exactly when they are alike, because the id
of a plain expression reads back as its normal form. Without plainness the id tells less: a point
inside a key looks like an access, and two such accesses can even share their hash.
-/

namespace ScriptInference

theorem Expr.normal_normal (e : Expr) : e.normal.normal = e.normal := e.alike_normal.normal_eq.symm

/-- An id tells an expression up to likeness, as far as normal forms are plain. -/
theorem Expr.id_eq_iff_alike {a b : Expr} (plain_a : a.normal.isPlain)
    (plain_b : b.normal.isPlain) : a.id = b.id ↔ a.Alike b := by
  constructor
  · intro same
    have read_a := readExpr_id plain_a (Nat.lt_succ_self _)
    have read_b := readExpr_id plain_b (Nat.lt_succ_self _)
    rw [normal_normal, (keys_normal _).2] at read_a read_b
    rw [same, read_b] at read_a
    rw [alike_iff_normal_eq]
    exact (Prod.mk.inj (Option.some.inj read_a)).1.symm
  · intro alike
    rw [← a.keys_normal.2, ← b.keys_normal.2, alike.normal_eq]

theorem id_eq_iff_alike_spellings :
    (longSpelling ⟨0, 55, 1, "f"⟩).normal.isPlain ∧ (shortSpelling ⟨7, 42, 3, "g"⟩).normal.isPlain ∧
      (longSpelling ⟨0, 55, 1, "f"⟩).id = (shortSpelling ⟨7, 42, 3, "g"⟩).id ∧
      (longSpelling ⟨0, 55, 1, "f"⟩).Alike (shortSpelling ⟨7, 42, 3, "g"⟩) := by
  have long : (longSpelling ⟨0, 55, 1, "f"⟩).normal.isPlain := by decide +kernel
  have short : (shortSpelling ⟨7, 42, 3, "g"⟩).normal.isPlain := by decide +kernel
  have same : (longSpelling ⟨0, 55, 1, "f"⟩).id = (shortSpelling ⟨7, 42, 3, "g"⟩).id := by
    decide +kernel
  exact ⟨long, short, same, (Expr.id_eq_iff_alike long short).1 same⟩

-- Without plainness: a sign in the base of an access, and a conditional that starts an alternative.
example :
    let a : Expr := .identifier "a" default
    (Expr.member (.unary .negate a default) "b" default).id =
      (Expr.unary .negate (.member a "b" default) default).id := by decide +kernel

example :
    let a : Expr := .identifier "a" default
    (Stmt.cond [(a, []), (a, [])] (some [.cond [(a, [])] none default]) default).id =
      (Stmt.cond [(a, [])] (some [.cond [(a, []), (a, [])] none default]) default).id := by
      decide +kernel

/-- `a["eckc.rxkm"]` -/
def pointedKey : Expr := .index (.identifier "a" default) (.string "eckc.rxkm" default) default

/-- `a.eckc.rxkm` -/
def pointedPath : Expr := .member (.member (.identifier "a" default) "eckc" default) "rxkm" default

/-- A point inside a key is not told from an access, and the hashes of the two may agree as well. -/
theorem id_and_hash_of_pointedKey :
    pointedKey.id = pointedPath.id ∧ pointedKey.hash = pointedPath.hash ∧
      ¬pointedKey.Alike pointedPath := by
  decide +kernel

end ScriptInference
