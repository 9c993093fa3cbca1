import ScriptInference.Hashing.CanonicalId
import ScriptInference.Syntax.Equality

/-!
# Expressions that mean the same access

Two trees are alike if they differ only in spans and in the spelling of accesses: `b["s"]` for
`b.s`, and `locals.n` for the name `n`. The relation is the least congruence with these two laws, so
that a spelling may change at any depth, inside functions, default values, conditions and bodies.
The name `locals` itself keeps its prefix: `locals.locals` would otherwise be alike to `locals`, and
so `locals.locals.x` to `x`.

Every tree has a normal form, without spans and with the shorter spelling throughout. Trees are
alike if and only if their normal forms are equal, so likeness can be decided, and a function of the
syntax respects likeness if it gives a tree and its normal form the same value. The tests that the
spelling depends on, for the name `locals` and for a string literal, have the same answer on a tree
and on its normal form.
-/

namespace ScriptInference

section Relation

mutual

inductive Expr.Alike : Expr → Expr → Prop
  | symm {a b} : Expr.Alike a b → Expr.Alike b a
  | trans {a b c} : Expr.Alike a b → Expr.Alike b c → Expr.Alike a c
  | key (b s p q r) : Expr.Alike (.index b (.string s p) q) (.member b s r)
  | locals (n p q r) : n ≠ "locals" →
      Expr.Alike (.member (.identifier "locals" p) n q) (.identifier n r)
  | nil (p q) : Expr.Alike (.nil p) (.nil q)
  | string (v p q) : Expr.Alike (.string v p) (.string v q)
  | number (v p q) : Expr.Alike (.number v p) (.number v q)
  | boolean (v p q) : Expr.Alike (.boolean v p) (.boolean v q)
  | identifier (n p q) : Expr.Alike (.identifier n p) (.identifier n q)
  | member {b b'} (n p q) : Expr.Alike b b' → Expr.Alike (.member b n p) (.member b' n q)
  | index {b b' i i'} (p q) : Expr.Alike b b' → Expr.Alike i i' →
      Expr.Alike (.index b i p) (.index b' i' q)
  | slice {b b' l l' r r'} (p q) : Expr.Alike b b' → AlikeOption l l' → AlikeOption r r' →
      Expr.Alike (.slice b l r p) (.slice b' l' r' q)
  | call {b b' as as'} (p q) : Expr.Alike b b' → AlikeExprs as as' →
      Expr.Alike (.call b as p) (.call b' as' q)
  | unary {a a'} (o p q) : Expr.Alike a a' → Expr.Alike (.unary o a p) (.unary o a' q)
  | binary {l l' r r'} (o p q) : Expr.Alike l l' → Expr.Alike r r' →
      Expr.Alike (.binary l o r p) (.binary l' o r' q)
  | map {fs fs'} (p q) : AlikeFields fs fs' → Expr.Alike (.map fs p) (.map fs' q)
  | list {is is'} (p q) : AlikeExprs is is' → Expr.Alike (.list is p) (.list is' q)
  | function {d d'} (p q) : FunctionDecl.Alike d d' → Expr.Alike (.function d p) (.function d' q)
  | unknown (k p q) : Expr.Alike (.unknown k p) (.unknown k q)

inductive AlikeOption : Option Expr → Option Expr → Prop
  | none : AlikeOption none none
  | some {a b} : Expr.Alike a b → AlikeOption (some a) (some b)

inductive AlikeExprs : List Expr → List Expr → Prop
  | nil : AlikeExprs [] []
  | cons {a b as bs} : Expr.Alike a b → AlikeExprs as bs → AlikeExprs (a :: as) (b :: bs)

inductive AlikeFields : Fields → Fields → Prop
  | nil : AlikeFields [] []
  | cons {k k' v v' fs fs'} : Expr.Alike k k' → Expr.Alike v v' → AlikeFields fs fs' →
      AlikeFields ((k, v) :: fs) ((k', v') :: fs')

inductive FunctionDecl.Alike : FunctionDecl → FunctionDecl → Prop
  | mk {ps ps' b b'} (p q) : AlikeParams ps ps' → AlikeStmts b b' →
      FunctionDecl.Alike (.mk ps b p) (.mk ps' b' q)

inductive AlikeParams : List Param → List Param → Prop
  | nil : AlikeParams [] []
  | cons {a b as bs} : Param.Alike a b → AlikeParams as bs → AlikeParams (a :: as) (b :: bs)

inductive Param.Alike : Param → Param → Prop
  | symm {a b} : Param.Alike a b → Param.Alike b a
  | trans {a b c} : Param.Alike a b → Param.Alike b c → Param.Alike a c
  | plain (n p q) : Param.Alike (.plain n p) (.plain n q)
  | withDefault {d d'} (n p q) : Expr.Alike d d' →
      Param.Alike (.withDefault n d p) (.withDefault n d' q)

inductive AlikeStmts : List Stmt → List Stmt → Prop
  | nil : AlikeStmts [] []
  | cons {a b as bs} : Stmt.Alike a b → AlikeStmts as bs → AlikeStmts (a :: as) (b :: bs)

inductive AlikeBody : Option (List Stmt) → Option (List Stmt) → Prop
  | none : AlikeBody none none
  | some {b b'} : AlikeStmts b b' → AlikeBody (some b) (some b')

inductive AlikeClauses : Clauses → Clauses → Prop
  | nil : AlikeClauses [] []
  | cons {c c' b b' cs cs'} : Expr.Alike c c' → AlikeStmts b b' → AlikeClauses cs cs' →
      AlikeClauses ((c, b) :: cs) ((c', b') :: cs')

inductive Stmt.Alike : Stmt → Stmt → Prop
  | symm {a b} : Stmt.Alike a b → Stmt.Alike b a
  | trans {a b c} : Stmt.Alike a b → Stmt.Alike b c → Stmt.Alike a c
  | assign {t t' i i'} (p q) : Expr.Alike t t' → Expr.Alike i i' →
      Stmt.Alike (.assign t i p) (.assign t' i' q)
  | expr {e e'} : Expr.Alike e e' → Stmt.Alike (.expr e) (.expr e')
  | cond {cs cs' o o'} (p q) : AlikeClauses cs cs' → AlikeBody o o' →
      Stmt.Alike (.cond cs o p) (.cond cs' o' q)
  | whileLoop {c c' b b'} (p q) : Expr.Alike c c' → AlikeStmts b b' →
      Stmt.Alike (.whileLoop c b p) (.whileLoop c' b' q)
  | forLoop {v v' i i' b b'} (p q) : Expr.Alike v v' → Expr.Alike i i' → AlikeStmts b b' →
      Stmt.Alike (.forLoop v i b p) (.forLoop v' i' b' q)
  | ret {a a'} (p q) : AlikeOption a a' → Stmt.Alike (.ret a p) (.ret a' q)
  | exit (p q) : Stmt.Alike (.exit p) (.exit q)
  | next (p q) : Stmt.Alike (.next p) (.next q)

end

end Relation

section Normal

/-- The normal spelling of `base.name`, where the base is in normal form. -/
def normalMember (base : Expr) (name : String) : Expr :=
  if base.isLocals ∧ name ≠ "locals" then .identifier name default else .member base name default

mutual

def Expr.normal : Expr → Expr
  | .nil _ => .nil default
  | .string v _ => .string v default
  | .number v _ => .number v default
  | .boolean v _ => .boolean v default
  | .identifier n _ => .identifier n default
  | .member b n _ => normalMember b.normal n
  | .index b i _ =>
    match i.stringLiteral? with
    | some n => normalMember b.normal n
    | none => .index b.normal i.normal default
  | .slice b l r _ => .slice b.normal (normalOption l) (normalOption r) default
  | .call b as _ => .call b.normal (normalExprs as) default
  | .unary o a _ => .unary o a.normal default
  | .binary l o r _ => .binary l.normal o r.normal default
  | .map fs _ => .map (normalFields fs) default
  | .list is _ => .list (normalExprs is) default
  | .function d _ => .function d.normal default
  | .unknown k _ => .unknown k default

def normalOption : Option Expr → Option Expr
  | none => none
  | some e => some e.normal

def normalExprs : List Expr → List Expr
  | [] => []
  | e :: es => e.normal :: normalExprs es

def normalFields : Fields → Fields
  | [] => []
  | (k, v) :: fs => (k.normal, v.normal) :: normalFields fs

def FunctionDecl.normal : FunctionDecl → FunctionDecl
  | .mk ps b _ => .mk (normalParams ps) (normalStmts b) default

def normalParams : List Param → List Param
  | [] => []
  | p :: ps => p.normal :: normalParams ps

def Param.normal : Param → Param
  | .plain n _ => .plain n default
  | .withDefault n d _ => .withDefault n d.normal default

def normalStmts : List Stmt → List Stmt
  | [] => []
  | s :: ss => s.normal :: normalStmts ss

def normalBody : Option (List Stmt) → Option (List Stmt)
  | none => none
  | some b => some (normalStmts b)

def normalClauses : Clauses → Clauses
  | [] => []
  | (c, b) :: cs => (c.normal, normalStmts b) :: normalClauses cs

def Stmt.normal : Stmt → Stmt
  | .assign t i _ => .assign t.normal i.normal default
  | .expr e => .expr e.normal
  | .cond cs o _ => .cond (normalClauses cs) (normalBody o) default
  | .whileLoop c b _ => .whileLoop c.normal (normalStmts b) default
  | .forLoop v i b _ => .forLoop v.normal i.normal (normalStmts b) default
  | .ret a _ => .ret (normalOption a) default
  | .exit _ => .exit default
  | .next _ => .next default

end

theorem isLocals_normalMember (b : Expr) (n : String) : (normalMember b n).isLocals = false := by
  unfold normalMember
  split
  · rename_i h
    simpa [Expr.isLocals, Expr.identifier?] using h.2
  · rfl

theorem stringLiteral?_normalMember (b : Expr) (n : String) :
    (normalMember b n).stringLiteral? = none := by
  unfold normalMember
  split <;> rfl

@[simp]
theorem Expr.isLocals_normal (e : Expr) : e.normal.isLocals = e.isLocals := by
  cases e with
  | member b n s => rw [Expr.normal, isLocals_normalMember]; rfl
  | index b i s =>
    rw [Expr.normal]
    cases i.stringLiteral? with
    | some n => exact isLocals_normalMember _ n
    | none => rfl
  | _ => rfl

@[simp]
theorem Expr.stringLiteral?_normal (e : Expr) : e.normal.stringLiteral? = e.stringLiteral? := by
  cases e with
  | member b n s => rw [Expr.normal, stringLiteral?_normalMember]; rfl
  | index b i s =>
    rw [Expr.normal]
    cases i.stringLiteral? with
    | some n => exact stringLiteral?_normalMember _ n
    | none => rfl
  | _ => rfl

theorem Expr.eq_of_isLocals {e : Expr} (h : e.isLocals) : ∃ p, e = .identifier "locals" p := by
  cases e with
  | identifier n p =>
    have name : n = "locals" := by simpa [Expr.isLocals, Expr.identifier?] using h
    exact ⟨p, by rw [name]⟩
  | _ => simp [Expr.isLocals, Expr.identifier?] at h

theorem Expr.eq_of_stringLiteral? {e : Expr} {s : String} (h : e.stringLiteral? = some s) :
    ∃ p, e = .string s p := by
  cases e with
  | string v p =>
    have value : v = s := by simpa [Expr.stringLiteral?] using h
    exact ⟨p, by rw [value]⟩
  | _ => simp [Expr.stringLiteral?] at h

end Normal

section Agreement

theorem alike_normalMember {b c : Expr} (h : b.Alike c) (n : String) (p : Span) :
    (Expr.member b n p).Alike (normalMember c n) := by
  refine (Expr.Alike.member n p default h).trans ?_
  unfold normalMember
  split
  · rename_i shorter
    obtain ⟨q, rfl⟩ := Expr.eq_of_isLocals shorter.1
    exact .locals n q default default shorter.2
  · exact .member n default default (h.symm.trans h)

mutual

theorem Expr.alike_normal : ∀ e : Expr, e.Alike e.normal
  | .nil p => .nil p default
  | .string v p => .string v p default
  | .number v p => .number v p default
  | .boolean v p => .boolean v p default
  | .identifier n p => .identifier n p default
  | .member b n p => alike_normalMember b.alike_normal n p
  | .index b i p => by
    rw [Expr.normal]
    cases literal : i.stringLiteral? with
    | some n =>
      obtain ⟨q, rfl⟩ := Expr.eq_of_stringLiteral? literal
      exact (Expr.Alike.key b n q p default).trans (alike_normalMember b.alike_normal n default)
    | none => exact .index p default b.alike_normal i.alike_normal
  | .slice b l r p => .slice p default b.alike_normal (alike_normalOption l) (alike_normalOption r)
  | .call b as p => .call p default b.alike_normal (alike_normalExprs as)
  | .unary o a p => .unary o p default a.alike_normal
  | .binary l o r p => .binary o p default l.alike_normal r.alike_normal
  | .map fs p => .map p default (alike_normalFields fs)
  | .list is p => .list p default (alike_normalExprs is)
  | .function d p => .function p default d.alike_normal
  | .unknown k p => .unknown k p default

theorem alike_normalOption : ∀ e : Option Expr, AlikeOption e (normalOption e)
  | none => .none
  | some e => .some e.alike_normal

theorem alike_normalExprs : ∀ es : List Expr, AlikeExprs es (normalExprs es)
  | [] => .nil
  | e :: es => .cons e.alike_normal (alike_normalExprs es)

theorem alike_normalFields : ∀ fs : Fields, AlikeFields fs (normalFields fs)
  | [] => .nil
  | (k, v) :: fs => .cons k.alike_normal v.alike_normal (alike_normalFields fs)

theorem FunctionDecl.alike_normal : ∀ d : FunctionDecl, d.Alike d.normal
  | .mk ps b p => .mk p default (alike_normalParams ps) (alike_normalStmts b)

theorem alike_normalParams : ∀ ps : List Param, AlikeParams ps (normalParams ps)
  | [] => .nil
  | p :: ps => .cons p.alike_normal (alike_normalParams ps)

theorem Param.alike_normal : ∀ p : Param, p.Alike p.normal
  | .plain n p => .plain n p default
  | .withDefault n d p => .withDefault n p default d.alike_normal

theorem alike_normalStmts : ∀ ss : List Stmt, AlikeStmts ss (normalStmts ss)
  | [] => .nil
  | s :: ss => .cons s.alike_normal (alike_normalStmts ss)

theorem alike_normalBody : ∀ b : Option (List Stmt), AlikeBody b (normalBody b)
  | none => .none
  | some b => .some (alike_normalStmts b)

theorem alike_normalClauses : ∀ cs : Clauses, AlikeClauses cs (normalClauses cs)
  | [] => .nil
  | (c, b) :: cs => .cons c.alike_normal (alike_normalStmts b) (alike_normalClauses cs)

theorem Stmt.alike_normal : ∀ s : Stmt, s.Alike s.normal
  | .assign t i p => .assign p default t.alike_normal i.alike_normal
  | .expr e => .expr e.alike_normal
  | .cond cs o p => .cond p default (alike_normalClauses cs) (alike_normalBody o)
  | .whileLoop c b p => .whileLoop p default c.alike_normal (alike_normalStmts b)
  | .forLoop v i b p => .forLoop p default v.alike_normal i.alike_normal (alike_normalStmts b)
  | .ret a p => .ret p default (alike_normalOption a)
  | .exit p => .exit p default
  | .next p => .next p default

end

mutual

theorem Expr.Alike.normal_eq {a b : Expr} : a.Alike b → a.normal = b.normal
  | .symm h => h.normal_eq.symm
  | .trans h k => h.normal_eq.trans k.normal_eq
  | .key b s p q r => rfl
  | .locals n p q r other => by
    have shorter : (Expr.identifier "locals" default).isLocals = true := by decide
    simp only [Expr.normal, normalMember, shorter, other, ne_eq, not_false_eq_true, and_self,
      if_true]
  | .nil _ _ | .string _ _ _ | .number _ _ _ | .boolean _ _ _ | .identifier _ _ _ => rfl
  | .member n _ _ h => by rw [Expr.normal, Expr.normal, h.normal_eq]
  | @Expr.Alike.index _ _ i i' _ _ h k => by
    have literal : i.stringLiteral? = i'.stringLiteral? := by
      rw [← i.stringLiteral?_normal, k.normal_eq, i'.stringLiteral?_normal]
    rw [Expr.normal, Expr.normal, h.normal_eq, k.normal_eq, literal]
  | .slice _ _ h k m => by rw [Expr.normal, Expr.normal, h.normal_eq, k.normal_eq, m.normal_eq]
  | .call _ _ h k => by rw [Expr.normal, Expr.normal, h.normal_eq, k.normal_eq]
  | .unary _ _ _ h => by rw [Expr.normal, Expr.normal, h.normal_eq]
  | .binary _ _ _ h k => by rw [Expr.normal, Expr.normal, h.normal_eq, k.normal_eq]
  | .map _ _ h | .list _ _ h | .function _ _ h => by rw [Expr.normal, Expr.normal, h.normal_eq]
  | .unknown _ _ _ => rfl

theorem AlikeOption.normal_eq {a b : Option Expr} : AlikeOption a b →
    normalOption a = normalOption b
  | .none => rfl
  | .some h => by rw [normalOption, normalOption, h.normal_eq]

theorem AlikeExprs.normal_eq {a b : List Expr} : AlikeExprs a b → normalExprs a = normalExprs b
  | .nil => rfl
  | .cons h k => by rw [normalExprs, normalExprs, h.normal_eq, k.normal_eq]

theorem AlikeFields.normal_eq {a b : Fields} :
    AlikeFields a b → normalFields a = normalFields b
  | .nil => rfl
  | .cons h k m => by rw [normalFields, normalFields, h.normal_eq, k.normal_eq, m.normal_eq]

theorem FunctionDecl.Alike.normal_eq {a b : FunctionDecl} : a.Alike b → a.normal = b.normal
  | .mk _ _ h k => by rw [FunctionDecl.normal, FunctionDecl.normal, h.normal_eq, k.normal_eq]

theorem AlikeParams.normal_eq {a b : List Param} : AlikeParams a b → normalParams a = normalParams b
  | .nil => rfl
  | .cons h k => by rw [normalParams, normalParams, h.normal_eq, k.normal_eq]

theorem Param.Alike.normal_eq {a b : Param} : a.Alike b → a.normal = b.normal
  | .symm h => h.normal_eq.symm
  | .trans h k => h.normal_eq.trans k.normal_eq
  | .plain _ _ _ => rfl
  | .withDefault _ _ _ h => by rw [Param.normal, Param.normal, h.normal_eq]

theorem AlikeStmts.normal_eq {a b : List Stmt} : AlikeStmts a b → normalStmts a = normalStmts b
  | .nil => rfl
  | .cons h k => by rw [normalStmts, normalStmts, h.normal_eq, k.normal_eq]

theorem AlikeBody.normal_eq {a b : Option (List Stmt)} : AlikeBody a b → normalBody a = normalBody b
  | .none => rfl
  | .some h => by rw [normalBody, normalBody, h.normal_eq]

theorem AlikeClauses.normal_eq {a b : Clauses} :
    AlikeClauses a b → normalClauses a = normalClauses b
  | .nil => rfl
  | .cons h k m => by rw [normalClauses, normalClauses, h.normal_eq, k.normal_eq, m.normal_eq]

theorem Stmt.Alike.normal_eq {a b : Stmt} : a.Alike b → a.normal = b.normal
  | .symm h => h.normal_eq.symm
  | .trans h k => h.normal_eq.trans k.normal_eq
  | .assign _ _ h k => by rw [Stmt.normal, Stmt.normal, h.normal_eq, k.normal_eq]
  | .expr h => by rw [Stmt.normal, Stmt.normal, h.normal_eq]
  | .cond _ _ h k | .whileLoop _ _ h k => by rw [Stmt.normal, Stmt.normal, h.normal_eq, k.normal_eq]
  | .forLoop _ _ h k m => by rw [Stmt.normal, Stmt.normal, h.normal_eq, k.normal_eq, m.normal_eq]
  | .ret _ _ h => by rw [Stmt.normal, Stmt.normal, h.normal_eq]
  | .exit _ _ | .next _ _ => rfl

end

theorem Expr.alike_iff_normal_eq {a b : Expr} : a.Alike b ↔ a.normal = b.normal := by
  constructor
  · exact fun h => h.normal_eq
  · intro h
    exact a.alike_normal.trans (h ▸ b.alike_normal.symm)

instance (a b : Expr) : Decidable (a.Alike b) := decidable_of_iff _ Expr.alike_iff_normal_eq.symm

end Agreement

end ScriptInference
