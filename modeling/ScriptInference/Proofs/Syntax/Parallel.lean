import Mathlib.Data.List.Forall2
import ScriptInference.Proofs.Hashing.Likeness
import ScriptInference.Syntax.Block

/-!
# Trees that differ only in spans

Two trees are parallel if they are the same up to their spans. What a walk meets in parallel trees
is parallel event by event, so they have the same blocks at the same places, and corresponding
blocks make corresponding bindings.

Ids are part of the spans, and a program refers to its functions by the ids of their declarations.
The relation therefore carries what is known of the ids of two corresponding declarations. Nothing
has to be known to begin with: parallel trees are parallel for every relation that the ids of the
declarations, listed in the order of the walk, satisfy one by one.
-/

namespace ScriptInference

section Relation

mutual

inductive Expr.Parallel (R : String → String → Prop) : Expr → Expr → Prop
  | nil (p q) : Expr.Parallel R (.nil p) (.nil q)
  | string (v p q) : Expr.Parallel R (.string v p) (.string v q)
  | number (v p q) : Expr.Parallel R (.number v p) (.number v q)
  | boolean (v p q) : Expr.Parallel R (.boolean v p) (.boolean v q)
  | identifier (n p q) : Expr.Parallel R (.identifier n p) (.identifier n q)
  | member {b b'} (n p q) : Expr.Parallel R b b' → Expr.Parallel R (.member b n p) (.member b' n q)
  | index {b b' i i'} (p q) : Expr.Parallel R b b' → Expr.Parallel R i i' →
      Expr.Parallel R (.index b i p) (.index b' i' q)
  | slice {b b' l l' r r'} (p q) : Expr.Parallel R b b' → ParallelOption R l l' →
      ParallelOption R r r' → Expr.Parallel R (.slice b l r p) (.slice b' l' r' q)
  | call {b b' as as'} (p q) : Expr.Parallel R b b' → ParallelExprs R as as' →
      Expr.Parallel R (.call b as p) (.call b' as' q)
  | unary {a a'} (o p q) : Expr.Parallel R a a' → Expr.Parallel R (.unary o a p) (.unary o a' q)
  | binary {l l' r r'} (o p q) : Expr.Parallel R l l' → Expr.Parallel R r r' →
      Expr.Parallel R (.binary l o r p) (.binary l' o r' q)
  | map {fs fs'} (p q) : ParallelFields R fs fs' → Expr.Parallel R (.map fs p) (.map fs' q)
  | list {is is'} (p q) : ParallelExprs R is is' → Expr.Parallel R (.list is p) (.list is' q)
  | function {d d'} (p q) : FunctionDecl.Parallel R d d' →
      Expr.Parallel R (.function d p) (.function d' q)
  | unknown (k p q) : Expr.Parallel R (.unknown k p) (.unknown k q)

inductive ParallelOption (R : String → String → Prop) : Option Expr → Option Expr → Prop
  | none : ParallelOption R none none
  | some {a b} : Expr.Parallel R a b → ParallelOption R (some a) (some b)

inductive ParallelExprs (R : String → String → Prop) : List Expr → List Expr → Prop
  | nil : ParallelExprs R [] []
  | cons {a b as bs} : Expr.Parallel R a b → ParallelExprs R as bs →
      ParallelExprs R (a :: as) (b :: bs)

inductive ParallelFields (R : String → String → Prop) :
    Fields → Fields → Prop
  | nil : ParallelFields R [] []
  | cons {k k' v v' fs fs'} : Expr.Parallel R k k' → Expr.Parallel R v v' →
      ParallelFields R fs fs' → ParallelFields R ((k, v) :: fs) ((k', v') :: fs')

/-- Declarations; their ids are related. -/
inductive FunctionDecl.Parallel (R : String → String → Prop) : FunctionDecl → FunctionDecl → Prop
  | mk {ps ps' b b'} {p q : Span} : R p.id q.id → ParallelParams R ps ps' → ParallelStmts R b b' →
      FunctionDecl.Parallel R (.mk ps b p) (.mk ps' b' q)

inductive ParallelParams (R : String → String → Prop) : List Param → List Param → Prop
  | nil : ParallelParams R [] []
  | cons {a b as bs} : Param.Parallel R a b → ParallelParams R as bs →
      ParallelParams R (a :: as) (b :: bs)

inductive Param.Parallel (R : String → String → Prop) : Param → Param → Prop
  | plain (n p q) : Param.Parallel R (.plain n p) (.plain n q)
  | withDefault {d d'} (n p q) : Expr.Parallel R d d' →
      Param.Parallel R (.withDefault n d p) (.withDefault n d' q)

inductive ParallelStmts (R : String → String → Prop) : List Stmt → List Stmt → Prop
  | nil : ParallelStmts R [] []
  | cons {a b as bs} : Stmt.Parallel R a b → ParallelStmts R as bs →
      ParallelStmts R (a :: as) (b :: bs)

inductive ParallelBody (R : String → String → Prop) :
    Option (List Stmt) → Option (List Stmt) → Prop
  | none : ParallelBody R none none
  | some {b b'} : ParallelStmts R b b' → ParallelBody R (some b) (some b')

inductive ParallelClauses (R : String → String → Prop) :
    Clauses → Clauses → Prop
  | nil : ParallelClauses R [] []
  | cons {c c' b b' cs cs'} : Expr.Parallel R c c' → ParallelStmts R b b' →
      ParallelClauses R cs cs' → ParallelClauses R ((c, b) :: cs) ((c', b') :: cs')

inductive Stmt.Parallel (R : String → String → Prop) : Stmt → Stmt → Prop
  | assign {t t' i i'} (p q) : Expr.Parallel R t t' → Expr.Parallel R i i' →
      Stmt.Parallel R (.assign t i p) (.assign t' i' q)
  | expr {e e'} : Expr.Parallel R e e' → Stmt.Parallel R (.expr e) (.expr e')
  | cond {cs cs' o o'} (p q) : ParallelClauses R cs cs' → ParallelBody R o o' →
      Stmt.Parallel R (.cond cs o p) (.cond cs' o' q)
  | whileLoop {c c' b b'} (p q) : Expr.Parallel R c c' → ParallelStmts R b b' →
      Stmt.Parallel R (.whileLoop c b p) (.whileLoop c' b' q)
  | forLoop {v v' i i' b b'} (p q) : Expr.Parallel R v v' → Expr.Parallel R i i' →
      ParallelStmts R b b' → Stmt.Parallel R (.forLoop v i b p) (.forLoop v' i' b' q)
  | ret {a a'} (p q) : ParallelOption R a a' → Stmt.Parallel R (.ret a p) (.ret a' q)
  | exit (p q) : Stmt.Parallel R (.exit p) (.exit q)
  | next (p q) : Stmt.Parallel R (.next p) (.next q)

end

/-- Programs that differ only in spans, with nothing said about their ids. -/
def Chunk.Parallel (c c' : Chunk) : Prop := ParallelStmts (fun _ _ => True) c.body c'.body

end Relation

variable {R : String → String → Prop}

section Alike

mutual

theorem Expr.Parallel.alike {a b : Expr} : a.Parallel R b → a.Alike b
  | .nil p q => .nil p q
  | .string v p q => .string v p q
  | .number v p q => .number v p q
  | .boolean v p q => .boolean v p q
  | .identifier n p q => .identifier n p q
  | .member n p q h => .member n p q h.alike
  | .index p q h k => .index p q h.alike k.alike
  | .slice p q h k m => .slice p q h.alike k.alike m.alike
  | .call p q h k => .call p q h.alike k.alike
  | .unary o p q h => .unary o p q h.alike
  | .binary o p q h k => .binary o p q h.alike k.alike
  | .map p q h => .map p q h.alike
  | .list p q h => .list p q h.alike
  | .function p q h => .function p q h.alike
  | .unknown k p q => .unknown k p q

theorem ParallelOption.alike {a b : Option Expr} : ParallelOption R a b → AlikeOption a b
  | .none => .none
  | .some h => .some h.alike

theorem ParallelExprs.alike {a b : List Expr} : ParallelExprs R a b → AlikeExprs a b
  | .nil => .nil
  | .cons h k => .cons h.alike k.alike

theorem ParallelFields.alike {a b : Fields} : ParallelFields R a b → AlikeFields a b
  | .nil => .nil
  | .cons h k m => .cons h.alike k.alike m.alike

theorem FunctionDecl.Parallel.alike {a b : FunctionDecl} : a.Parallel R b → a.Alike b
  | .mk _ h k => .mk _ _ h.alike k.alike

theorem ParallelParams.alike {a b : List Param} : ParallelParams R a b → AlikeParams a b
  | .nil => .nil
  | .cons h k => .cons h.alike k.alike

theorem Param.Parallel.alike {a b : Param} : a.Parallel R b → a.Alike b
  | .plain n p q => .plain n p q
  | .withDefault n p q h => .withDefault n p q h.alike

theorem ParallelStmts.alike {a b : List Stmt} : ParallelStmts R a b → AlikeStmts a b
  | .nil => .nil
  | .cons h k => .cons h.alike k.alike

theorem ParallelBody.alike {a b : Option (List Stmt)} : ParallelBody R a b → AlikeBody a b
  | .none => .none
  | .some h => .some h.alike

theorem ParallelClauses.alike {a b : Clauses} :
    ParallelClauses R a b → AlikeClauses a b
  | .nil => .nil
  | .cons h k m => .cons h.alike k.alike m.alike

theorem Stmt.Parallel.alike {a b : Stmt} : a.Parallel R b → a.Alike b
  | .assign p q h k => .assign p q h.alike k.alike
  | .expr h => .expr h.alike
  | .cond p q h k => .cond p q h.alike k.alike
  | .whileLoop p q h k => .whileLoop p q h.alike k.alike
  | .forLoop p q h k m => .forLoop p q h.alike k.alike m.alike
  | .ret p q h => .ret p q h.alike
  | .exit p q => .exit p q
  | .next p q => .next p q

end

theorem Expr.Parallel.stringLiteral? {a b : Expr} (h : a.Parallel R b) :
    b.stringLiteral? = a.stringLiteral? := by
  cases h <;> rfl

theorem Expr.Parallel.identifier? {a b : Expr} (h : a.Parallel R b) :
    b.identifier? = a.identifier? := by
  cases h <;> rfl

theorem Expr.Parallel.isValue {a b : Expr} (h : a.Parallel R b) : b.isValue = a.isValue := by
  cases h <;> rfl

theorem Param.Parallel.name {a b : Param} (h : a.Parallel R b) : b.name = a.name := by
  cases h <;> rfl

end Alike

section Refl

mutual

theorem Expr.Parallel.refl (h : ∀ i, R i i) : ∀ e : Expr, e.Parallel R e
  | .nil p => .nil p p
  | .string v p => .string v p p
  | .number v p => .number v p p
  | .boolean v p => .boolean v p p
  | .identifier n p => .identifier n p p
  | .member b n p => .member n p p (.refl h b)
  | .index b i p => .index p p (.refl h b) (.refl h i)
  | .slice b l r p => .slice p p (.refl h b) (.refl h l) (.refl h r)
  | .call b as p => .call p p (.refl h b) (.refl h as)
  | .unary o a p => .unary o p p (.refl h a)
  | .binary l o r p => .binary o p p (.refl h l) (.refl h r)
  | .map fs p => .map p p (.refl h fs)
  | .list is p => .list p p (.refl h is)
  | .function d p => .function p p (.refl h d)
  | .unknown k p => .unknown k p p

theorem ParallelOption.refl (h : ∀ i, R i i) : ∀ e : Option Expr, ParallelOption R e e
  | none => .none
  | some e => .some (.refl h e)

theorem ParallelExprs.refl (h : ∀ i, R i i) : ∀ es : List Expr, ParallelExprs R es es
  | [] => .nil
  | e :: es => .cons (.refl h e) (.refl h es)

theorem ParallelFields.refl (h : ∀ i, R i i) : ∀ fs : Fields, ParallelFields R fs fs
  | [] => .nil
  | (k, v) :: fs => .cons (.refl h k) (.refl h v) (.refl h fs)

theorem FunctionDecl.Parallel.refl (h : ∀ i, R i i) : ∀ d : FunctionDecl, d.Parallel R d
  | .mk ps b p => .mk (h p.id) (.refl h ps) (.refl h b)

theorem ParallelParams.refl (h : ∀ i, R i i) : ∀ ps : List Param, ParallelParams R ps ps
  | [] => .nil
  | p :: ps => .cons (.refl h p) (.refl h ps)

theorem Param.Parallel.refl (h : ∀ i, R i i) : ∀ p : Param, p.Parallel R p
  | .plain n p => .plain n p p
  | .withDefault n d p => .withDefault n p p (.refl h d)

theorem ParallelStmts.refl (h : ∀ i, R i i) : ∀ ss : List Stmt, ParallelStmts R ss ss
  | [] => .nil
  | s :: ss => .cons (.refl h s) (.refl h ss)

theorem ParallelBody.refl (h : ∀ i, R i i) : ∀ b : Option (List Stmt), ParallelBody R b b
  | none => .none
  | some b => .some (.refl h b)

theorem ParallelClauses.refl (h : ∀ i, R i i) :
    ∀ cs : Clauses, ParallelClauses R cs cs
  | [] => .nil
  | (c, b) :: cs => .cons (.refl h c) (.refl h b) (.refl h cs)

theorem Stmt.Parallel.refl (h : ∀ i, R i i) : ∀ s : Stmt, s.Parallel R s
  | .assign t i p => .assign p p (.refl h t) (.refl h i)
  | .expr e => .expr (.refl h e)
  | .cond cs o p => .cond p p (.refl h cs) (.refl h o)
  | .whileLoop c b p => .whileLoop p p (.refl h c) (.refl h b)
  | .forLoop v i b p => .forLoop p p (.refl h v) (.refl h i) (.refl h b)
  | .ret a p => .ret p p (.refl h a)
  | .exit p => .exit p p
  | .next p => .next p p

end

end Refl

section Walk

inductive Binding.Parallel (R : String → String → Prop) : Binding → Binding → Prop
  | assignment {t t' i i'} (p q) : Expr.Parallel R t t' → Expr.Parallel R i i' →
      Binding.Parallel R (.assignment t i p) (.assignment t' i' q)
  | loop {v v' i i'} (p q) : Expr.Parallel R v v' → Expr.Parallel R i i' →
      Binding.Parallel R (.loop v i p) (.loop v' i' q)

theorem Binding.Parallel.refl (h : ∀ i, R i i) (b : Binding) : b.Parallel R b := by
  cases b with
  | assignment target init p => exact .assignment p p (.refl h target) (.refl h init)
  | loop element iterator p => exact .loop p p (.refl h element) (.refl h iterator)

theorem Binding.Parallel.target {b b' : Binding} (h : b.Parallel R b') :
    b.target.Parallel R b'.target := by
  cases h with
  | assignment p q target _ => exact target
  | loop p q target _ => exact target

inductive Event.Parallel (R : String → String → Prop) : Event → Event → Prop
  | statement {s s'} : Stmt.Parallel R s s' → Event.Parallel R (.statement s) (.statement s')
  | binding {b b'} : Binding.Parallel R b b' → Event.Parallel R (.binding b) (.binding b')
  | expression {e e'} : Expr.Parallel R e e' → Event.Parallel R (.expression e) (.expression e')
  | parameter {p p'} : Param.Parallel R p p' → Event.Parallel R (.parameter p) (.parameter p')
  | enter {f f'} : FunctionDecl.Parallel R f f' → Event.Parallel R (.enter f) (.enter f')
  | leave : Event.Parallel R .leave .leave

/-- Walks that meet the same things in the same order. -/
abbrev ParallelEvents (R : String → String → Prop) : List Event → List Event → Prop :=
  List.Forall₂ (Event.Parallel R)

theorem ParallelEvents.append {l l' m m' : List Event} (h : ParallelEvents R l l')
    (k : ParallelEvents R m m') : ParallelEvents R (l ++ m) (l' ++ m') := List.rel_append h k

mutual

theorem Expr.Parallel.walk {a b : Expr} : a.Parallel R b → ParallelEvents R a.walk b.walk
  | .nil p q => .cons (.expression (.nil p q)) .nil
  | .string v p q => .cons (.expression (.string v p q)) .nil
  | .number v p q => .cons (.expression (.number v p q)) .nil
  | .boolean v p q => .cons (.expression (.boolean v p q)) .nil
  | .identifier n p q => .cons (.expression (.identifier n p q)) .nil
  | .member n p q h => .cons (.expression (.member n p q h)) h.walk
  | .index p q h k => .cons (.expression (.index p q h k)) (h.walk.append k.walk)
  | .slice p q h k m =>
    .cons (.expression (.slice p q h k m)) ((h.walk.append k.walk).append m.walk)
  | .call p q h k => .cons (.expression (.call p q h k)) (h.walk.append k.walk)
  | .unary o p q h => .cons (.expression (.unary o p q h)) h.walk
  | .binary o p q h k => .cons (.expression (.binary o p q h k)) (h.walk.append k.walk)
  | .map p q h => .cons (.expression (.map p q h)) h.walk
  | .list p q h => .cons (.expression (.list p q h)) h.walk
  | .function p q h => .cons (.expression (.function p q h)) h.walk
  | .unknown k p q => .cons (.expression (.unknown k p q)) .nil

theorem ParallelOption.walk {a b : Option Expr} :
    ParallelOption R a b → ParallelEvents R (walkOption a) (walkOption b)
  | .none => .nil
  | .some h => h.walk

theorem ParallelExprs.walk {a b : List Expr} :
    ParallelExprs R a b → ParallelEvents R (walkExprs a) (walkExprs b)
  | .nil => .nil
  | .cons h k => h.walk.append k.walk

theorem ParallelFields.walk {a b : Fields} :
    ParallelFields R a b → ParallelEvents R (walkFields a) (walkFields b)
  | .nil => .nil
  | .cons h k m => (h.walk.append k.walk).append m.walk

theorem FunctionDecl.Parallel.walk {a b : FunctionDecl} :
    a.Parallel R b → ParallelEvents R a.walk b.walk
  | .mk i h k => .cons (.enter (.mk i h k)) ((h.walk.append k.walk).append (.cons .leave .nil))

theorem ParallelParams.walk {a b : List Param} :
    ParallelParams R a b → ParallelEvents R (walkParams a) (walkParams b)
  | .nil => .nil
  | .cons h k => h.walk.append k.walk

theorem Param.Parallel.walk {a b : Param} : a.Parallel R b → ParallelEvents R a.walk b.walk
  | .plain n p q => .cons (.parameter (.plain n p q)) .nil
  | .withDefault n p q h => .cons (.parameter (.withDefault n p q h)) h.walk

theorem ParallelStmts.walk {a b : List Stmt} :
    ParallelStmts R a b → ParallelEvents R (walkStmts a) (walkStmts b)
  | .nil => .nil
  | .cons h k => h.walk.append k.walk

theorem ParallelBody.walk {a b : Option (List Stmt)} :
    ParallelBody R a b → ParallelEvents R (walkBody a) (walkBody b)
  | .none => .nil
  | .some h => h.walk

theorem ParallelClauses.walk {a b : Clauses} :
    ParallelClauses R a b → ParallelEvents R (walkClauses a) (walkClauses b)
  | .nil => .nil
  | .cons h k m => (h.walk.append k.walk).append m.walk

theorem Stmt.Parallel.walk {a b : Stmt} : a.Parallel R b → ParallelEvents R a.walk b.walk
  | .assign p q h k => .cons (.statement (.assign p q h k))
      (.cons (.binding (.assignment p q h k)) (h.walk.append k.walk))
  | .expr h => .cons (.statement (.expr h)) h.walk
  | .cond p q h k => .cons (.statement (.cond p q h k)) (h.walk.append k.walk)
  | .whileLoop p q h k => .cons (.statement (.whileLoop p q h k)) (h.walk.append k.walk)
  | .forLoop p q h k m => .cons (.statement (.forLoop p q h k m))
      (.cons (.binding (.loop p q h k)) ((h.walk.append k.walk).append m.walk))
  | .ret p q h => .cons (.statement (.ret p q h)) h.walk
  | .exit p q => .cons (.statement (.exit p q)) .nil
  | .next p q => .cons (.statement (.next p q)) .nil

end

end Walk

section Ids

def Event.declared? : Event → Option String
  | enter f => some f.id
  | _ => none

/-- The ids of the functions that a walk enters, in order. -/
def declaredIds (es : List Event) : List String := es.filterMap Event.declared?

theorem declaredIds_append (l m : List Event) :
    declaredIds (l ++ m) = declaredIds l ++ declaredIds m := List.filterMap_append

section Events
variable (es : List Event)

theorem declaredIds_expression (e : Expr) : declaredIds (.expression e :: es) = declaredIds es :=
  rfl

theorem declaredIds_statement (s : Stmt) : declaredIds (.statement s :: es) = declaredIds es := rfl

theorem declaredIds_binding (b : Binding) : declaredIds (.binding b :: es) = declaredIds es := rfl

theorem declaredIds_parameter (p : Param) : declaredIds (.parameter p :: es) = declaredIds es := rfl

theorem declaredIds_enter (f : FunctionDecl) :
    declaredIds (.enter f :: es) = f.id :: declaredIds es := rfl

end Events

theorem length_declaredIds {l l' : List Event} (h : ParallelEvents R l l') :
    (declaredIds l).length = (declaredIds l').length := by
  induction h with
  | nil => rfl
  | @cons e e' _ _ first _ ih =>
    unfold declaredIds at ih ⊢
    cases first <;> simp [List.filterMap_cons, Event.declared?, ih]

/-- The ids that are declared in two parallel walks are related one by one. -/
abbrev RelatedIds (S : String → String → Prop) (l l' : List Event) : Prop :=
  List.Forall₂ S (declaredIds l) (declaredIds l')

variable {S : String → String → Prop}

theorem RelatedIds.split {l l' m m' : List Event} (h : ParallelEvents R l l')
    (ids : RelatedIds S (l ++ m) (l' ++ m')) : RelatedIds S l l' ∧ RelatedIds S m m' := by
  unfold RelatedIds at ids ⊢
  rw [declaredIds_append, declaredIds_append] at ids
  have same := length_declaredIds h
  have left := List.forall₂_take (declaredIds l).length ids
  have right := List.forall₂_drop (declaredIds l).length ids
  rw [List.take_left, same, List.take_left] at left
  rw [List.drop_left, same, List.drop_left] at right
  exact ⟨left, right⟩

mutual

/-- What is known of the ids of the declarations, in the order of the walk, may be added to the
relation. -/
theorem Expr.Parallel.of_ids {a b : Expr} : a.Parallel R b → RelatedIds S a.walk b.walk →
    a.Parallel S b
  | .nil p q, _ => .nil p q
  | .string v p q, _ => .string v p q
  | .number v p q, _ => .number v p q
  | .boolean v p q, _ => .boolean v p q
  | .identifier n p q, _ => .identifier n p q
  | .member n p q h, ids => .member n p q (h.of_ids ids)
  | .index p q h k, ids =>
    have ⟨first, second⟩ := RelatedIds.split h.walk ids
    .index p q (h.of_ids first) (k.of_ids second)
  | .slice p q h k m, ids =>
    have ⟨front, third⟩ := RelatedIds.split (h.walk.append k.walk) ids
    have ⟨first, second⟩ := RelatedIds.split h.walk front
    .slice p q (h.of_ids first) (k.of_ids second) (m.of_ids third)
  | .call p q h k, ids =>
    have ⟨first, second⟩ := RelatedIds.split h.walk ids
    .call p q (h.of_ids first) (k.of_ids second)
  | .unary o p q h, ids => .unary o p q (h.of_ids ids)
  | .binary o p q h k, ids =>
    have ⟨first, second⟩ := RelatedIds.split h.walk ids
    .binary o p q (h.of_ids first) (k.of_ids second)
  | .map p q h, ids => .map p q (h.of_ids ids)
  | .list p q h, ids => .list p q (h.of_ids ids)
  | .function p q h, ids => .function p q (h.of_ids ids)
  | .unknown k p q, _ => .unknown k p q

theorem ParallelOption.of_ids {a b : Option Expr} :
    ParallelOption R a b → RelatedIds S (walkOption a) (walkOption b) → ParallelOption S a b
  | .none, _ => .none
  | .some h, ids => .some (h.of_ids ids)

theorem ParallelExprs.of_ids {a b : List Expr} :
    ParallelExprs R a b → RelatedIds S (walkExprs a) (walkExprs b) → ParallelExprs S a b
  | .nil, _ => .nil
  | .cons h k, ids =>
    have ⟨first, second⟩ := RelatedIds.split h.walk ids
    .cons (h.of_ids first) (k.of_ids second)

theorem ParallelFields.of_ids {a b : Fields} :
    ParallelFields R a b → RelatedIds S (walkFields a) (walkFields b) → ParallelFields S a b
  | .nil, _ => .nil
  | .cons h k m, ids =>
    have ⟨front, third⟩ := RelatedIds.split (h.walk.append k.walk) ids
    have ⟨first, second⟩ := RelatedIds.split h.walk front
    .cons (h.of_ids first) (k.of_ids second) (m.of_ids third)

theorem FunctionDecl.Parallel.of_ids {a b : FunctionDecl} :
    a.Parallel R b → RelatedIds S a.walk b.walk → a.Parallel S b
  | .mk _ h k, .cons here ids =>
    have ⟨front, _⟩ := RelatedIds.split (h.walk.append k.walk) ids
    have ⟨first, second⟩ := RelatedIds.split h.walk front
    .mk here (h.of_ids first) (k.of_ids second)

theorem ParallelParams.of_ids {a b : List Param} :
    ParallelParams R a b → RelatedIds S (walkParams a) (walkParams b) → ParallelParams S a b
  | .nil, _ => .nil
  | .cons h k, ids =>
    have ⟨first, second⟩ := RelatedIds.split h.walk ids
    .cons (h.of_ids first) (k.of_ids second)

theorem Param.Parallel.of_ids {a b : Param} :
    a.Parallel R b → RelatedIds S a.walk b.walk → a.Parallel S b
  | .plain n p q, _ => .plain n p q
  | .withDefault n p q h, ids => .withDefault n p q (h.of_ids ids)

theorem ParallelStmts.of_ids {a b : List Stmt} :
    ParallelStmts R a b → RelatedIds S (walkStmts a) (walkStmts b) → ParallelStmts S a b
  | .nil, _ => .nil
  | .cons h k, ids =>
    have ⟨first, second⟩ := RelatedIds.split h.walk ids
    .cons (h.of_ids first) (k.of_ids second)

theorem ParallelBody.of_ids {a b : Option (List Stmt)} :
    ParallelBody R a b → RelatedIds S (walkBody a) (walkBody b) → ParallelBody S a b
  | .none, _ => .none
  | .some h, ids => .some (h.of_ids ids)

theorem ParallelClauses.of_ids {a b : Clauses} :
    ParallelClauses R a b → RelatedIds S (walkClauses a) (walkClauses b) → ParallelClauses S a b
  | .nil, _ => .nil
  | .cons h k m, ids =>
    have ⟨front, third⟩ := RelatedIds.split (h.walk.append k.walk) ids
    have ⟨first, second⟩ := RelatedIds.split h.walk front
    .cons (h.of_ids first) (k.of_ids second) (m.of_ids third)

theorem Stmt.Parallel.of_ids {a b : Stmt} :
    a.Parallel R b → RelatedIds S a.walk b.walk → a.Parallel S b
  | .assign p q h k, ids =>
    have ⟨first, second⟩ := RelatedIds.split h.walk ids
    .assign p q (h.of_ids first) (k.of_ids second)
  | .expr h, ids => .expr (h.of_ids ids)
  | .cond p q h k, ids =>
    have ⟨first, second⟩ := RelatedIds.split h.walk ids
    .cond p q (h.of_ids first) (k.of_ids second)
  | .whileLoop p q h k, ids =>
    have ⟨first, second⟩ := RelatedIds.split h.walk ids
    .whileLoop p q (h.of_ids first) (k.of_ids second)
  | .forLoop p q h k m, ids =>
    have ⟨front, third⟩ := RelatedIds.split (h.walk.append k.walk) ids
    have ⟨first, second⟩ := RelatedIds.split h.walk front
    .forLoop p q (h.of_ids first) (k.of_ids second) (m.of_ids third)
  | .ret p q h, ids => .ret p q (h.of_ids ids)
  | .exit p q, _ => .exit p q
  | .next p q, _ => .next p q

end

end Ids

section Blocks

/-- Blocks of the same kind with parallel parameters and bodies. -/
inductive Block.Parallel (R : String → String → Prop) : Block → Block → Prop
  | chunk {c c'} : ParallelStmts R c.body c'.body → Block.Parallel R (.chunk c) (.chunk c')
  | function {f f'} : FunctionDecl.Parallel R f f' → Block.Parallel R (.function f) (.function f')

theorem Block.Parallel.parameters {b b' : Block} (h : b.Parallel R b') :
    ParallelParams R b.parameters b'.parameters := by
  cases h with
  | chunk _ => exact .nil
  | function h =>
    cases h with
    | mk _ parameters _ => exact parameters

theorem Block.Parallel.interior {b b' : Block} (h : b.Parallel R b') :
    ParallelEvents R b.interior b'.interior := by
  refine h.parameters.walk.append ?_
  cases h with
  | chunk body => exact body.walk
  | function h =>
    cases h with
    | mk _ _ body => exact body.walk

/-- The surface of a walk depends on where functions begin and end, and not on what they are
called. -/
theorem forall₂_surface {l l' : List Event} (h : ParallelEvents R l l') (depth : Nat) :
    ParallelEvents R (surface depth l) (surface depth l') := by
  induction h generalizing depth with
  | nil => cases depth <;> exact .nil
  | cons first _ ih =>
    cases depth with
    | zero =>
      cases first with
      | enter f => exact .cons (.enter f) (ih 1)
      | statement s => exact .cons (.statement s) (ih 0)
      | binding b => exact .cons (.binding b) (ih 0)
      | expression e => exact .cons (.expression e) (ih 0)
      | parameter p => exact .cons (.parameter p) (ih 0)
      | leave => exact .cons .leave (ih 0)
    | succ depth =>
      cases first with
      | enter f => exact ih (depth + 2)
      | leave => exact ih depth
      | _ => exact ih (depth + 1)

theorem Block.Parallel.bindings {b b' : Block} (h : b.Parallel R b') :
    List.Forall₂ (Binding.Parallel R) b.bindings b'.bindings := by
  unfold Block.bindings
  have met := forall₂_surface h.interior 0
  generalize surface 0 b.interior = l at met ⊢
  generalize surface 0 b'.interior = l' at met ⊢
  induction met with
  | nil => exact .nil
  | cons first _ ih =>
    cases first with
    | binding b => exact .cons b ih
    | _ => exact ih

/-- Blocks that are parallel and stand inside blocks with related ids. -/
def ParallelBlocks (R : String → String → Prop) (x x' : Block × Option String) : Prop :=
  x.1.Parallel R x'.1 ∧ R x.1.id x'.1.id ∧ Option.Rel R x.2 x'.2

theorem rel_head? {l l' : List String} (h : List.Forall₂ R l l') :
    Option.Rel R l.head? l'.head? := by
  cases h with
  | nil => exact .none
  | cons first _ => exact .some first

theorem forall₂_nestedBlocks {l l' : List Event} (h : ParallelEvents R l l')
    {around around' : List String} (outer : List.Forall₂ R around around') :
    List.Forall₂ (ParallelBlocks R) (nestedBlocks around l) (nestedBlocks around' l') := by
  induction h generalizing around around' with
  | nil => exact .nil
  | cons first _ ih =>
    cases first with
    | @enter f f' parallel =>
      have ids : R f.id f'.id := by
        cases parallel with
        | mk ids _ _ => exact ids
      exact .cons ⟨.function parallel, ids, rel_head? outer⟩ (ih (.cons ids outer))
    | leave =>
      refine ih ?_
      cases outer with
      | nil => exact .nil
      | cons _ outer => exact outer
    | _ => exact ih outer

theorem blockIds_eq (c : Chunk) : c.blockIds = c.span.id :: declaredIds c.walk := by
  have nested : ∀ (l : List Event) (around : List String),
      (nestedBlocks around l).map (·.1.id) = declaredIds l := by
    intro l
    induction l with
    | nil => exact fun _ => rfl
    | cons e rest ih =>
      intro around
      cases e with
      | enter f => exact congrArg (f.id :: ·) (ih _)
      | _ => exact ih _
  exact congrArg (c.span.id :: ·) (nested c.walk _)

theorem Chunk.Parallel.length_blockIds {c c' : Chunk} (h : c.Parallel c') :
    c.blockIds.length = c'.blockIds.length := by
  have same := length_declaredIds (ParallelStmts.walk h)
  rw [blockIds_eq, blockIds_eq]
  exact congrArg (· + 1) same

/-- Related ids, one by one, make the blocks parallel for that relation. -/
theorem Chunk.Parallel.blocks {c c' : Chunk} (h : c.Parallel c')
    (ids : List.Forall₂ R c.blockIds c'.blockIds) :
    List.Forall₂ (ParallelBlocks R) c.blocks c'.blocks := by
  rw [blockIds_eq, blockIds_eq] at ids
  obtain ⟨root, declared⟩ := List.forall₂_cons.1 ids
  have body : ParallelStmts R c.body c'.body := ParallelStmts.of_ids h declared
  exact .cons ⟨.chunk body, root, .none⟩ (forall₂_nestedBlocks body.walk (.cons root .nil))

end Blocks

section Naming

/-- How the ids of two programs correspond. Corresponding declarations have ids in `declared`, and
blocks and functions are found again by ids in `tracked`. An id that is found again is the same as a
declared one on both sides or on neither. -/
structure Naming where
  declared : String → String → Prop
  tracked : String → String → Prop
  known : ∀ {i i'}, tracked i i' → declared i i'
  consistent : ∀ {i i' j j'}, declared i i' → tracked j j' → (j = i ↔ j' = i')

namespace Naming

/-- A program beside itself. -/
def same : Naming where
  declared := Eq
  tracked := Eq
  known h := h
  consistent := by
    rintro i _ j _ rfl rfl
    exact Iff.rfl

/-- Expressions whose functions are never found again may have any ids. -/
def free : Naming where
  declared := fun _ _ => True
  tracked := fun _ _ => False
  known h := h.elim
  consistent := fun _ h => h.elim

theorem eq_iff_of_mem_zip {l l' : List String} (distinct : l.Nodup) (distinct' : l'.Nodup)
    {i i' j j' : String} (h : (i, i') ∈ l.zip l') (k : (j, j') ∈ l.zip l') : j = i ↔ j' = i' := by
  obtain ⟨n, hn⟩ := List.mem_iff_getElem?.1 h
  obtain ⟨m, hm⟩ := List.mem_iff_getElem?.1 k
  obtain ⟨left, right⟩ := List.getElem?_zip_eq_some.1 hn
  obtain ⟨left', right'⟩ := List.getElem?_zip_eq_some.1 hm
  constructor
  · rintro rfl
    have bound := (List.getElem?_eq_some_iff.1 left).1
    have place := (List.getElem?_inj bound distinct).1 (left.trans left'.symm)
    subst place
    exact Option.some.inj (right'.symm.trans right)
  · rintro rfl
    have bound := (List.getElem?_eq_some_iff.1 right).1
    have place := (List.getElem?_inj bound distinct').1 (right.trans right'.symm)
    subst place
    exact Option.some.inj (left'.symm.trans left)

/-- Ids at the same place of two lists without repetitions. -/
def zipped (l l' : List String) (distinct : l.Nodup) (distinct' : l'.Nodup) : Naming where
  declared := fun i i' => (i, i') ∈ l.zip l'
  tracked := fun i i' => (i, i') ∈ l.zip l'
  known h := h
  consistent := eq_iff_of_mem_zip distinct distinct'

/-- Blocks at the same place of two programs. -/
structure Corresponding (N : Naming) (c c' : Chunk) (x x' : Block × Option String) : Prop where
  place : (x, x') ∈ c.blocks.zip c'.blocks
  parallel : x.1.Parallel N.declared x'.1
  ids : N.tracked x.1.id x'.1.id
  around : Option.Rel N.tracked x.2 x'.2

/-- Ids that are tracked find corresponding blocks. -/
structure Matches (N : Naming) (c c' : Chunk) : Prop where
  ids : List.Forall₂ N.tracked c.blockIds c'.blockIds
  block : ∀ {i i'}, N.tracked i i' → Option.Rel (N.Corresponding c c')
    (c.blocks.reverse.find? fun b => b.1.id = i) (c'.blocks.reverse.find? fun b => b.1.id = i')

theorem rel_find? {N : Naming} {P : Block × Option String → Block × Option String → Prop}
    (ids : ∀ {x x'}, P x x' → N.tracked x.1.id x'.1.id) {l l' : List (Block × Option String)}
    {i i' : String} (h : List.Forall₂ P l l') (tracked : N.tracked i i') :
    Option.Rel P (l.find? fun b => b.1.id = i) (l'.find? fun b => b.1.id = i') := by
  induction h with
  | nil => exact .none
  | @cons x x' _ _ first _ ih =>
    have here : x.1.id = i ↔ x'.1.id = i' := by
      rw [eq_comm, N.consistent (N.known (ids first)) tracked, eq_comm]
    rw [List.find?_cons, List.find?_cons]
    by_cases found : x.1.id = i
    · simp only [found, here.1 found, decide_true]
      exact .some first
    · simp only [found, mt here.2 found, decide_false]
      exact ih

theorem Matches.of_blocks {N : Naming} {c c' : Chunk} (length : c.blocks.length = c'.blocks.length)
    (each : ∀ {x x'}, (x, x') ∈ c.blocks.zip c'.blocks → N.Corresponding c c' x x') :
    N.Matches c c' := by
  have blocks : List.Forall₂ (N.Corresponding c c') c.blocks c'.blocks :=
    List.forall₂_iff_zip.2 ⟨length, each⟩
  constructor
  · exact List.forall₂_map_left_iff.2 (List.forall₂_map_right_iff.2 (blocks.imp fun _ _ h => h.ids))
  · exact rel_find? (fun h => h.ids) (List.forall₂_reverse_iff.2 blocks)

theorem mem_zip_self {α : Type} {l : List α} {a b : α} : (a, b) ∈ l.zip l ↔ a ∈ l ∧ b = a := by
  rw [List.zip_eq_zipWith, List.zipWith_self, List.mem_map]
  constructor
  · rintro ⟨x, hx, pair⟩
    cases pair
    exact ⟨hx, rfl⟩
  · rintro ⟨ha, rfl⟩
    exact ⟨b, ha, rfl⟩

/-- Every block of a program corresponds to itself. -/
theorem corresponding_same {c : Chunk} {x : Block × Option String} (listed : x ∈ c.blocks) :
    same.Corresponding c c x x := by
  constructor
  · exact mem_zip_self.2 ⟨listed, rfl⟩
  · cases x.1 with
    | chunk c => exact .chunk (.refl (fun _ => rfl) c.body)
    | function f => exact .function (.refl (fun _ => rfl) f)
  · rfl
  · cases x.2 with
    | none => exact .none
    | some i => exact .some rfl

theorem matches_same (c : Chunk) : same.Matches c c := by
  refine .of_blocks rfl fun listed => ?_
  obtain ⟨known, rfl⟩ := mem_zip_self.1 listed
  exact corresponding_same known

theorem matches_zipped {c c' : Chunk} (h : c.Parallel c') (distinct : c.blockIds.Nodup)
    (distinct' : c'.blockIds.Nodup) :
    (zipped c.blockIds c'.blockIds distinct distinct').Matches c c' := by
  have ids : List.Forall₂
      (fun i i' => (i, i') ∈ c.blockIds.zip c'.blockIds) c.blockIds c'.blockIds :=
    List.forall₂_iff_zip.2 ⟨h.length_blockIds, fun h => h⟩
  obtain ⟨length, each⟩ := List.forall₂_iff_zip.1 (h.blocks ids)
  exact .of_blocks length fun listed =>
    ⟨listed, (each listed).1, (each listed).2.1, (each listed).2.2⟩

end Naming

end Naming

end ScriptInference
