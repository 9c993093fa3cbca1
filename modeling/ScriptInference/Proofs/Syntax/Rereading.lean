import ScriptInference.Proofs.Syntax.Handover
import ScriptInference.Proofs.Syntax.Parallel

/-!
# What reading keeps

The reader may fail on the text of a chunk, for want of depth or because of a number, and it may
take a number for a neighbouring one. What it reads has nevertheless the blocks of the chunk, with
their ids. So the text of a chunk is rejected for a repeated block id only if the chunk itself
repeats one.
-/

namespace ScriptInference

open Json

/-! ### Trees -/

theorem mapM_cons_eq_some_iff {α β : Type} {f : α → Option β} {a : α} {as : List α} {bs : List β} :
    (a :: as).mapM f = some bs ↔ ∃ b, f a = some b ∧ ∃ bs', as.mapM f = some bs' ∧
      b :: bs' = bs := by
  simp [Option.bind_eq_some_iff]

-- A tree is read without a depth to spare only by failing, so each proof starts at a successor.
mutual

theorem Expr.declaredIds_reread (e : Expr) {d : Nat} {e' : Expr}
    (read : Expr.ofJson? d e.toJson = some e') : declaredIds e'.walk = declaredIds e.walk := by
  rcases d with _ | d
  · cases read
  cases e with simp only [Expr.ofJson?_nil, Expr.ofJson?_string, Expr.ofJson?_number,
    Expr.ofJson?_boolean,
    Expr.ofJson?_identifier, Expr.ofJson?_member, Expr.ofJson?_index, Expr.ofJson?_slice,
    Expr.ofJson?_call,
    Expr.ofJson?_unary, Expr.ofJson?_binary, Expr.ofJson?_map, Expr.ofJson?_list,
    Expr.ofJson?_function,
    Expr.ofJson?_unknown, Option.ite_none_right_eq_some, Option.bind_eq_some_iff,
    Option.some.injEq] at read
  | nil s | string v s | boolean v s | identifier n s | unknown k s => rw [read]
  | number x s =>
    obtain ⟨-, y, -, rfl⟩ := read
    rfl
  | member b n s =>
    obtain ⟨b', base, rfl⟩ := read
    simp only [Expr.walk, declaredIds_expression, b.declaredIds_reread base]
  | index b i s =>
    obtain ⟨b', base, i', key, rfl⟩ := read
    simp only [Expr.walk, declaredIds_expression, declaredIds_append, b.declaredIds_reread base,
      i.declaredIds_reread key]
  | slice b l r s =>
    obtain ⟨b', base, l', left, r', right, rfl⟩ := read
    simp only [Expr.walk, declaredIds_expression, declaredIds_append, b.declaredIds_reread base,
      declaredIds_rereadOption l left, declaredIds_rereadOption r right]
  | call b as s =>
    obtain ⟨b', base, as', arguments, rfl⟩ := read
    simp only [Expr.walk, declaredIds_expression, declaredIds_append, b.declaredIds_reread base,
      declaredIds_rereadExprs as arguments]
  | unary o a s =>
    obtain ⟨a', argument, rfl⟩ := read
    simp only [Expr.walk, declaredIds_expression, a.declaredIds_reread argument]
  | binary l o r s =>
    obtain ⟨l', left, r', right, rfl⟩ := read
    simp only [Expr.walk, declaredIds_expression, declaredIds_append, l.declaredIds_reread left,
      r.declaredIds_reread right]
  | map fs s =>
    obtain ⟨fs', fields, rfl⟩ := read
    simp only [Expr.walk, declaredIds_expression, declaredIds_rereadFields fs fields]
  | list is s =>
    obtain ⟨is', items, rfl⟩ := read
    simp only [Expr.walk, declaredIds_expression, declaredIds_rereadExprs is items]
  | function f s =>
    obtain ⟨f', declaration, rfl⟩ := read
    simp only [Expr.walk, declaredIds_expression, f.declaredIds_reread declaration]
termination_by structural e

theorem declaredIds_rereadOption (l : Option Expr) {d : Nat} {l' : Option Expr}
    (read : (l.mapM fun e => Expr.ofJson? d e.toJson) = some l') :
    declaredIds (walkOption l') = declaredIds (walkOption l) := by
  cases l with
  | none =>
    rw [← Option.some.inj read]
  | some e =>
    obtain ⟨e', value, rfl⟩ := Option.map_eq_some_iff.1 read
    exact e.declaredIds_reread value
termination_by structural l

theorem declaredIds_rereadExprs (es : List Expr) {d : Nat} {es' : List Expr}
    (read : (exprsJson es).mapM (Expr.ofJson? d) = some es') :
    declaredIds (walkExprs es') = declaredIds (walkExprs es) := by
  cases es with
  | nil =>
    rw [← Option.some.inj read]
    rfl
  | cons e es =>
    rw [exprsJson, mapM_cons_eq_some_iff] at read
    obtain ⟨e', first, es', others, rfl⟩ := read
    simp only [walkExprs, declaredIds_append, e.declaredIds_reread first,
      declaredIds_rereadExprs es others]
termination_by structural es

theorem declaredIds_rereadFields (fs : Fields) {d : Nat} {fs' : Fields}
    (read : (fieldsJson fs).mapM (fieldOfJson? d) = some fs') :
    declaredIds (walkFields fs') = declaredIds (walkFields fs) := by
  rcases fs with _ | ⟨⟨k, v⟩, fs⟩
  · rw [← Option.some.inj read]
    rfl
  · rw [fieldsJson, mapM_cons_eq_some_iff] at read
    obtain ⟨f', first, fs', others, rfl⟩ := read
    rcases d with _ | d
    · cases first
    simp only [fieldOfJson?_object, Option.bind_eq_some_iff, Option.some.injEq] at first
    obtain ⟨k', key, v', value, rfl⟩ := first
    simp only [walkFields, declaredIds_append, k.declaredIds_reread key, v.declaredIds_reread value,
      declaredIds_rereadFields fs others]
termination_by structural fs

theorem FunctionDecl.declaredIds_reread (f : FunctionDecl) {d : Nat} {f' : FunctionDecl}
    (read : FunctionDecl.ofJson? d f.toJson = some f') :
    declaredIds f'.walk = declaredIds f.walk := by
  rcases d with _ | d
  · cases read
  cases f with
  | mk ps b s =>
    simp only [FunctionDecl.ofJson?_mk, Option.bind_eq_some_iff, Option.some.injEq] at read
    obtain ⟨ps', parameters, b', body, rfl⟩ := read
    simp only [FunctionDecl.walk, declaredIds_enter, FunctionDecl.id, FunctionDecl.span,
      declaredIds_append, declaredIds_rereadParams ps parameters, declaredIds_rereadStmts b body]
termination_by structural f

theorem declaredIds_rereadParams (ps : List Param) {d : Nat} {ps' : List Param}
    (read : (paramsJson ps).mapM (Param.ofJson? d) = some ps') :
    declaredIds (walkParams ps') = declaredIds (walkParams ps) := by
  cases ps with
  | nil =>
    rw [← Option.some.inj read]
    rfl
  | cons p ps =>
    rw [paramsJson, mapM_cons_eq_some_iff] at read
    obtain ⟨p', first, ps', others, rfl⟩ := read
    simp only [walkParams, declaredIds_append, p.declaredIds_reread first,
      declaredIds_rereadParams ps others]
termination_by structural ps

theorem Param.declaredIds_reread (p : Param) {d : Nat} {p' : Param}
    (read : Param.ofJson? d p.toJson = some p') : declaredIds p'.walk = declaredIds p.walk := by
  rcases d with _ | d
  · cases read
  cases p with
  | plain n s =>
    rw [Param.ofJson?_plain, Option.some.injEq] at read
    rw [read]
  | withDefault n e s =>
    simp only [Param.ofJson?_withDefault, Option.bind_eq_some_iff, Option.some.injEq] at read
    obtain ⟨e', default, rfl⟩ := read
    simp only [Param.walk, declaredIds_parameter, e.declaredIds_reread default]
termination_by structural p

theorem declaredIds_rereadStmts (ss : List Stmt) {d : Nat} {ss' : List Stmt}
    (read : (stmtsJson ss).mapM (Stmt.ofJson? true d) = some ss') :
    declaredIds (walkStmts ss') = declaredIds (walkStmts ss) := by
  cases ss with
  | nil =>
    rw [← Option.some.inj read]
    rfl
  | cons s ss =>
    rw [stmtsJson, mapM_cons_eq_some_iff] at read
    obtain ⟨s', first, ss', others, rfl⟩ := read
    simp only [walkStmts, declaredIds_append, s.declaredIds_reread first,
      declaredIds_rereadStmts ss others]
termination_by structural ss

theorem declaredIds_rereadBody (o : Option (List Stmt)) {d : Nat} {o' : Option (List Stmt)}
    (read : (o.mapM fun b => (stmtsJson b).mapM (Stmt.ofJson? true d)) = some o') :
    declaredIds (walkBody o') = declaredIds (walkBody o) := by
  cases o with
  | none =>
    rw [← Option.some.inj read]
  | some b =>
    obtain ⟨b', body, rfl⟩ := Option.map_eq_some_iff.1 read
    exact declaredIds_rereadStmts b body
termination_by structural o

theorem declaredIds_rereadClauses (cs : Clauses) {d : Nat} {cs' : Clauses}
    (read : (clausesJson cs).mapM (clauseOfJson? d) = some cs') :
    declaredIds (walkClauses cs') = declaredIds (walkClauses cs) := by
  rcases cs with _ | ⟨⟨c, b⟩, cs⟩
  · rw [← Option.some.inj read]
    rfl
  · rw [clausesJson, mapM_cons_eq_some_iff] at read
    obtain ⟨c', first, cs', others, rfl⟩ := read
    rcases d with _ | d
    · cases first
    simp only [clauseOfJson?_object, Option.bind_eq_some_iff, Option.some.injEq] at first
    obtain ⟨k', condition, b', body, rfl⟩ := first
    simp only [walkClauses, declaredIds_append, c.declaredIds_reread condition,
      declaredIds_rereadStmts b body, declaredIds_rereadClauses cs others]
termination_by structural cs

theorem Stmt.declaredIds_reread (s : Stmt) {positions : Bool} {d : Nat} {s' : Stmt}
    (read : Stmt.ofJson? positions d s.toJson = some s') :
    declaredIds s'.walk = declaredIds s.walk := by
  rcases d with _ | d
  · cases read
  cases s with simp only [Stmt.ofJson?_assign, Stmt.ofJson?_expr, Stmt.ofJson?_cond,
    Stmt.ofJson?_whileLoop,
    Stmt.ofJson?_forLoop, Stmt.ofJson?_ret, Stmt.ofJson?_exit, Stmt.ofJson?_next,
    Option.bind_eq_some_iff, Option.some.injEq] at read
  | assign t i s =>
    obtain ⟨t', target, i', init, rfl⟩ := read
    simp only [Stmt.walk, declaredIds_statement, declaredIds_binding, declaredIds_append,
      t.declaredIds_reread target, i.declaredIds_reread init]
  | expr e =>
    obtain ⟨e', expression, rfl⟩ := read
    simp only [Stmt.walk, declaredIds_statement, e.declaredIds_reread expression]
  | cond cs o s =>
    obtain ⟨cs', clauses, o', otherwise, rfl⟩ := read
    simp only [Stmt.walk, declaredIds_statement, declaredIds_append,
      declaredIds_rereadClauses cs clauses, declaredIds_rereadBody o otherwise]
  | whileLoop c b s =>
    obtain ⟨c', condition, b', body, rfl⟩ := read
    simp only [Stmt.walk, declaredIds_statement, declaredIds_append, c.declaredIds_reread condition,
      declaredIds_rereadStmts b body]
  | forLoop v i b s =>
    obtain ⟨v', element, i', iterator, b', body, rfl⟩ := read
    simp only [Stmt.walk, declaredIds_statement, declaredIds_binding, declaredIds_append,
      v.declaredIds_reread element, i.declaredIds_reread iterator, declaredIds_rereadStmts b body]
  | ret a s =>
    obtain ⟨a', argument, rfl⟩ := read
    simp only [Stmt.walk, declaredIds_statement, declaredIds_rereadOption a argument]
  | exit s | next s => rw [read]
termination_by structural s

end

/-! ### Chunks -/

theorem declaredIds_rereadTop {ss ss' : List Stmt}
    (read : (stmtsJson ss).mapM Chunk.stmtOfJson? = some ss') :
    declaredIds (walkStmts ss') = declaredIds (walkStmts ss) := by
  induction ss generalizing ss' with
  | nil =>
    rw [← Option.some.inj read]
    rfl
  | cons s ss ih =>
    rw [stmtsJson, mapM_cons_eq_some_iff] at read
    obtain ⟨s', first, ss', others, rfl⟩ := read
    rw [Chunk.stmtOfJson?, Option.ite_none_right_eq_some] at first
    simp only [walkStmts, declaredIds_append, s.declaredIds_reread first.2, ih others]

namespace Chunk

theorem blockIds_reread {c c' : Chunk} (read : (Json.parse? c.text).bind ofJson? = some c') :
    c'.blockIds = c.blockIds := by
  rw [Chunk.text, Json.parse?_text c.leaves_toJson, Option.bind_some, ofJson?_eq,
    Option.bind_eq_some_iff] at read
  obtain ⟨body, top, same⟩ := read
  obtain rfl := Option.some.inj same
  rw [blockIds_eq, blockIds_eq]
  exact congrArg (c.span.id :: ·) (declaredIds_rereadTop top)

/-- A chunk with distinct block ids is never rejected for a repeated one, whatever else is wrong
with its text. -/
theorem ofText_text_ne_duplicate {c : Chunk} (distinct : c.blockIds.Nodup) (id : String) :
    ofText c.text ≠ .error (.duplicateBlockId id) := by
  rw [ofText]
  cases read : (Json.parse? c.text).bind ofJson? with
  | none => simp
  | some c' =>
    have none : firstRepeat? [] c'.blockIds = none := by
      rw [firstRepeat?_eq_none_iff, blockIds_reread read]
      exact ⟨distinct, by simp⟩
    simp [none]

end Chunk

end ScriptInference
