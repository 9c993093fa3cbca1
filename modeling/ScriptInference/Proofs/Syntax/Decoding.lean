import ScriptInference.Proofs.Json.RoundTrip
import ScriptInference.Syntax.Handover

/-!
# Trees are read back from their JSON

Reading the JSON of a tree gives the tree, provided that its numbers are finite and are read back
from their numerals; a number that is not finite is written as `null`, and then reading fails
wherever it stands. Both are one statement: the reader's result is the tree, kept on the condition
that all its numbers are finite.

One level of a tree is decoded by computation, since the names of its fields are known. The
induction is on the tree; the bound on the nesting of the JSON is what remains of the reader's
depth.
-/

namespace ScriptInference

variable {d : Nat} {f : String × Json} {r : Record}

namespace Json

mutual

/-- How deep arrays and objects nest. -/
def nesting : Json → Nat
  | .null | .bool _ | .num _ | .string _ => 0
  | .arr items => nestingItems items + 1
  | .obj fields => nestingFields fields + 1

def nestingItems : List Json → Nat
  | [] => 0
  | j :: rest => max (nesting j) (nestingItems rest)

def nestingFields : List (Option String × Json) → Nat
  | [] => 0
  | (_, j) :: rest => max (nesting j) (nestingFields rest)

end

end Json

/-- The value, on a condition. -/
def keep {α : Type} (condition : Bool) (a : α) : Option α := if condition then some a else none

section

variable {α β : Type} {p q : Bool} {a : α}

theorem keep_map (f : α → β) : (keep p a).map f = keep p (f a) := by
  cases p <;> rfl

@[simp]
theorem keep_bind_some (f : α → β) : ((keep p a).bind fun x => some (f x)) = keep p (f a) := by
  cases p <;> rfl

@[simp]
theorem keep_bind_keep (f : α → β) :
    ((keep p a).bind fun x => keep q (f x)) = keep (p && q) (f a) := by
  cases p <;> rfl

end

namespace Event

/-- What is met is no number, or a finite one. -/
def isFinite : Event → Bool
  | expression (.number x _) => x.isFinite
  | _ => true

/-- A finite number that is met is read back from its numeral. -/
def Legible : Event → Prop
  | expression (.number x _) => x.isFinite → (Json.numberFormat.numeral x).scaled? = some x
  | _ => True

end Event

theorem asUInt64?_nat (n : UInt64) : (Json.nat n.toNat).asUInt64? = some n := by
  have bound : n.toNat < Nat.pow 2 64 := n.toNat_lt
  simp only [Json.nat, Numeral.ofNat, Json.asUInt64?, Numeral.toUInt64?, Digit.value_ofNat,
    if_pos bound]
  simp

@[simp]
theorem Span.ofJson?_toJson (s : Span) : Span.ofJson? s.toJson = some s := by
  calc Span.ofJson? s.toJson
      = (Json.nat s.start.toNat).asUInt64?.bind fun start =>
      (Json.nat s.stop.toNat).asUInt64?.bind fun stop =>
          (Json.nat s.line.toNat).asUInt64?.bind fun line => some ⟨start, stop, line, s.id⟩ := rfl
    _ = some s := by simp only [asUInt64?_nat, Option.bind_some]

/-- Reading goes on with the span that was written. -/
theorem Span.bind_ofJson? {α : Type} (f : Span → Option α) (s : Span) :
    (Span.ofJson? s.toJson).bind f = f s := by
  rw [Span.ofJson?_toJson, Option.bind_some]

theorem Expr.toJson_ne_null (e : Expr) : e.toJson ≠ .null := by
  cases e <;> exact nofun

namespace Json.Record

variable {α : Type} {name : String} {decode : Json → Option α} {j : Json}

theorem optional_null (h : r.get? name = some .null) : r.optional name decode = some none := by
  rw [optional, h]

theorem optional_value (h : r.get? name = some j) (value : j ≠ .null) :
    r.optional name decode = (decode j).map some := by
  rw [optional, h]
  cases j with
  | null => exact absurd rfl value
  | _ => rfl

end Json.Record

/-- Every number met is finite. -/
def allFinite (events : List Event) : Bool := events.all Event.isFinite

@[simp]
theorem allFinite_nil : allFinite [] = true := rfl

@[simp]
theorem allFinite_cons (e : Event) (es : List Event) :
    allFinite (e :: es) = (e.isFinite && allFinite es) := rfl

@[simp]
theorem allFinite_append (es fs : List Event) :
    allFinite (es ++ fs) = (allFinite es && allFinite fs) :=
  List.all_append

namespace Json

/-- The fields of an object are one level below it. -/
theorem nesting_field {fields : List (String × Json)} (nested : (object fields).nesting ≤ d + 1)
    (member : f ∈ fields) : f.2.nesting ≤ d := by
  have bound : nestingFields (fields.map fun f => (some f.1, f.2)) ≤ d := by
    simpa [object, nesting] using nested
  clear nested
  induction fields with
  | nil => simp at member
  | cons g fields ih =>
    simp only [List.map_cons, nestingFields, max_le_iff] at bound
    rcases List.mem_cons.1 member with rfl | member
    · exact bound.1
    · exact ih member bound.2

/-- The fields of an expression are two levels below it. -/
theorem nesting_part {tag : String} {fields : List (String × Json)} {s : Span}
    (nested : (Expr.toJson.node (.tagged tag fields) s).nesting ≤ d + 1) (member : f ∈ fields) :
    f.2.nesting ≤ d := by
  have kind : (tagged tag fields).nesting ≤ d := nesting_field nested List.mem_cons_self
  cases d with
  | zero => simp [tagged, object, nesting] at kind
  | succ d => exact (nesting_field kind (List.mem_cons_of_mem _ member)).trans (Nat.le_succ d)

theorem nestingItems_le {items : List Json} (nested : (Json.arr items).nesting ≤ d) :
    nestingItems items ≤ d :=
  (Nat.le_succ _).trans nested

end Json

open Json

/-! ### One level of a tree -/

section Levels

theorem optional_optionJson {name : String} {l : Option Expr}
    (h : r.get? name = some (optionJson l)) :
    r.optional name (Expr.ofJson? d) = l.mapM fun e => Expr.ofJson? d e.toJson := by
  cases l with
  | none => exact Record.optional_null h
  | some e => exact Record.optional_value h e.toJson_ne_null

theorem optional_bodyJson {name : String} {o : Option (List Stmt)}
    (h : r.get? name = some (bodyJson o)) :
    r.optional name (asListOf? (Stmt.ofJson? true d)) = o.mapM fun b =>
      (stmtsJson b).mapM (Stmt.ofJson? true d) := by
  cases o with
  | none => exact Record.optional_null h
  | some b => exact Record.optional_value h (by simp [bodyJson])

theorem Expr.ofJson?_nil (s : Span) : Expr.ofJson? (d + 1) (Expr.nil s).toJson = some (.nil s) :=
  Span.bind_ofJson? _ s

theorem Expr.ofJson?_string (v : String) (s : Span) :
    Expr.ofJson? (d + 1) (Expr.string v s).toJson = some (.string v s) :=
  Span.bind_ofJson? _ s

/-- A number that is not finite is written as `null`. -/
theorem Expr.ofJson?_number (x : Binary64) (s : Span) :
    Expr.ofJson? (d + 1) (Expr.number x s).toJson =
    if x.isFinite then (numberFormat.numeral x).scaled?.bind
      fun x => some (.number x s) else none := by
  rw [Expr.toJson, Json.ofBinary64]
  split
  · change (Span.ofJson? s.toJson).bind (fun s => (numberFormat.numeral x).scaled?.bind fun x =>
      some (Expr.number x s)) = _
    rw [Span.ofJson?_toJson, Option.bind_some]
  · change (Span.ofJson? s.toJson).bind (fun _ => none) = _
    rw [Span.ofJson?_toJson, Option.bind_some]

theorem Expr.ofJson?_boolean (v : Bool) (s : Span) :
    Expr.ofJson? (d + 1) (Expr.boolean v s).toJson = some (.boolean v s) :=
  Span.bind_ofJson? _ s

theorem Expr.ofJson?_identifier (n : String) (s : Span) :
    Expr.ofJson? (d + 1) (Expr.identifier n s).toJson = some (.identifier n s) :=
  Span.bind_ofJson? _ s

theorem Expr.ofJson?_member (b : Expr) (n : String) (s : Span) :
    Expr.ofJson? (d + 1) (Expr.member b n s).toJson =
      (Expr.ofJson? d b.toJson).bind fun b => some (.member b n s) :=
  Span.bind_ofJson? _ s

theorem Expr.ofJson?_index (b i : Expr) (s : Span) :
    Expr.ofJson? (d + 1) (Expr.index b i s).toJson = (Expr.ofJson? d b.toJson).bind fun b =>
      (Expr.ofJson? d i.toJson).bind fun i => some (.index b i s) :=
  Span.bind_ofJson? _ s

theorem Expr.ofJson?_slice (b : Expr) (l r : Option Expr) (s : Span) :
    Expr.ofJson? (d + 1) (Expr.slice b l r s).toJson = (Expr.ofJson? d b.toJson).bind fun b =>
      (l.mapM fun e => Expr.ofJson? d e.toJson).bind fun l =>
      (r.mapM fun e => Expr.ofJson? d e.toJson).bind fun r => some (.slice b l r s) := by
  change (Span.ofJson? s.toJson).bind (fun s => (Expr.ofJson? d b.toJson).bind fun b =>
    (Record.optional ⟨false, [_, ("left", optionJson l), _]⟩ "left" (Expr.ofJson? d)).bind fun l =>
    (Record.optional ⟨false, [_, _, ("right", optionJson r)]⟩ "right" (Expr.ofJson? d)).bind
      fun r =>
    some (Expr.slice b l r s)) = _
  rw [Span.ofJson?_toJson, Option.bind_some, optional_optionJson rfl, optional_optionJson rfl]

theorem Expr.ofJson?_call (b : Expr) (as : List Expr) (s : Span) :
    Expr.ofJson? (d + 1) (Expr.call b as s).toJson = (Expr.ofJson? d b.toJson).bind fun b =>
      ((exprsJson as).mapM (Expr.ofJson? d)).bind fun as => some (.call b as s) :=
  Span.bind_ofJson? _ s

theorem Expr.ofJson?_unary (o : UnaryOp) (a : Expr) (s : Span) :
    Expr.ofJson? (d + 1) (Expr.unary o a s).toJson =
      (Expr.ofJson? d a.toJson).bind fun a => some (.unary o a s) := by
  cases o <;> exact Span.bind_ofJson? _ s

theorem Expr.ofJson?_binary (l : Expr) (o : BinaryOp) (r : Expr) (s : Span) :
    Expr.ofJson? (d + 1) (Expr.binary l o r s).toJson = (Expr.ofJson? d l.toJson).bind fun l =>
      (Expr.ofJson? d r.toJson).bind fun r => some (.binary l o r s) := by
  cases o <;> exact Span.bind_ofJson? _ s

theorem Expr.ofJson?_map (fs : Fields) (s : Span) :
    Expr.ofJson? (d + 1) (Expr.map fs s).toJson =
      ((fieldsJson fs).mapM (fieldOfJson? d)).bind fun fs => some (.map fs s) :=
  Span.bind_ofJson? _ s

theorem Expr.ofJson?_list (is : List Expr) (s : Span) :
    Expr.ofJson? (d + 1) (Expr.list is s).toJson =
      ((exprsJson is).mapM (Expr.ofJson? d)).bind fun is => some (.list is s) :=
  Span.bind_ofJson? _ s

theorem Expr.ofJson?_function (f : FunctionDecl) (s : Span) :
    Expr.ofJson? (d + 1) (Expr.function f s).toJson =
      (FunctionDecl.ofJson? d f.toJson).bind fun f => some (.function f s) :=
  Span.bind_ofJson? _ s

theorem Expr.ofJson?_unknown (k : String) (s : Span) :
    Expr.ofJson? (d + 1) (Expr.unknown k s).toJson = some (.unknown k s) :=
  Span.bind_ofJson? _ s

theorem fieldOfJson?_object (k v : Expr) :
    fieldOfJson? (d + 1) (object [("key", k.toJson), ("value", v.toJson)]) =
      (Expr.ofJson? d k.toJson).bind fun k => (Expr.ofJson? d v.toJson).bind
        fun v => some (k, v) := rfl

theorem clauseOfJson?_object (c : Expr) (b : List Stmt) :
    clauseOfJson? (d + 1) (object [("condition", c.toJson), ("body", .arr (stmtsJson b))]) =
      (Expr.ofJson? d c.toJson).bind fun c =>
        ((stmtsJson b).mapM (Stmt.ofJson? true d)).bind fun b => some (c, b) := rfl

theorem FunctionDecl.ofJson?_mk (ps : List Param) (b : List Stmt) (s : Span) :
    FunctionDecl.ofJson? (d + 1) (FunctionDecl.mk ps b s).toJson =
      ((paramsJson ps).mapM (Param.ofJson? d)).bind fun ps =>
        ((stmtsJson b).mapM (Stmt.ofJson? true d)).bind fun b => some (.mk ps b s) :=
  (Option.bind_congr fun _ _ => Option.bind_congr fun _ _ => (Span.bind_ofJson? _ s).symm).symm

theorem Param.ofJson?_plain (n : String) (s : Span) :
    Param.ofJson? (d + 1) (Param.plain n s).toJson = some (.plain n s) :=
  Span.bind_ofJson? _ s

theorem Param.ofJson?_withDefault (n : String) (e : Expr) (s : Span) :
    Param.ofJson? (d + 1) (Param.withDefault n e s).toJson =
      (Expr.ofJson? d e.toJson).bind fun e => some (.withDefault n e s) :=
  (Option.bind_congr fun _ _ => (Span.bind_ofJson? _ s).symm).symm

variable {positions : Bool}

theorem Stmt.ofJson?_assign (t i : Expr) (s : Span) :
    Stmt.ofJson? positions (d + 1) (Stmt.assign t i s).toJson = (Expr.ofJson? d t.toJson).bind
      fun t =>
      (Expr.ofJson? d i.toJson).bind fun i => some (.assign t i s) :=
  (Option.bind_congr fun _ _ => Option.bind_congr fun _ _ => (Span.bind_ofJson? _ s).symm).symm

theorem Stmt.ofJson?_expr (e : Expr) :
    Stmt.ofJson? positions (d + 1) (Stmt.expr e).toJson =
      (Expr.ofJson? d e.toJson).bind fun e => some (.expr e) := rfl

theorem Stmt.ofJson?_cond (cs : Clauses) (o : Option (List Stmt)) (s : Span) :
    Stmt.ofJson? positions (d + 1) (Stmt.cond cs o s).toJson =
      ((clausesJson cs).mapM (clauseOfJson? d)).bind fun cs =>
        (o.mapM fun b => (stmtsJson b).mapM (Stmt.ofJson? true d)).bind
          fun o => some (.cond cs o s) := by
  change ((clausesJson cs).mapM (clauseOfJson? d)).bind (fun cs =>
    (Record.optional ⟨false, [_, ("else_body", bodyJson o), _]⟩ "else_body"
      (asListOf? (Stmt.ofJson? true d))).bind fun o =>
    (Span.ofJson? s.toJson).bind fun s => some (Stmt.cond cs o s)) = _
  rw [optional_bodyJson rfl]
  simp only [Span.ofJson?_toJson, Option.bind_some]

theorem Stmt.ofJson?_whileLoop (c : Expr) (b : List Stmt) (s : Span) :
    Stmt.ofJson? positions (d + 1) (Stmt.whileLoop c b s).toJson = (Expr.ofJson? d c.toJson).bind
      fun c =>
      ((stmtsJson b).mapM (Stmt.ofJson? true d)).bind fun b => some (.whileLoop c b s) :=
  (Option.bind_congr fun _ _ => Option.bind_congr fun _ _ => (Span.bind_ofJson? _ s).symm).symm

theorem Stmt.ofJson?_forLoop (v i : Expr) (b : List Stmt) (s : Span) :
    Stmt.ofJson? positions (d + 1) (Stmt.forLoop v i b s).toJson = (Expr.ofJson? d v.toJson).bind
      fun v =>
      (Expr.ofJson? d i.toJson).bind fun i =>
        ((stmtsJson b).mapM (Stmt.ofJson? true d)).bind fun b => some (.forLoop v i b s) :=
  (Option.bind_congr fun _ _ => Option.bind_congr fun _ _ => Option.bind_congr fun _ _ =>
    (Span.bind_ofJson? _ s).symm).symm

theorem Stmt.ofJson?_ret (a : Option Expr) (s : Span) :
    Stmt.ofJson? positions (d + 1) (Stmt.ret a s).toJson =
      (a.mapM fun e => Expr.ofJson? d e.toJson).bind fun a => some (.ret a s) := by
  change (Record.optional ⟨false, [("argument", optionJson a), _]⟩ "argument" (Expr.ofJson? d)).bind
    (fun a => (Span.ofJson? s.toJson).bind fun s => some (Stmt.ret a s)) = _
  rw [optional_optionJson rfl]
  simp only [Span.ofJson?_toJson, Option.bind_some]

theorem Stmt.ofJson?_exit (s : Span) :
    Stmt.ofJson? positions (d + 1) (Stmt.exit s).toJson = some (.exit s) :=
  Span.bind_ofJson? _ s

theorem Stmt.ofJson?_next (s : Span) :
    Stmt.ofJson? positions (d + 1) (Stmt.next s).toJson = some (.next s) :=
  Span.bind_ofJson? _ s

end Levels

/-! ### Whole trees -/

mutual

theorem Expr.ofJson?_toJson (e : Expr) {d : Nat} (legible : ∀ ev ∈ e.walk, ev.Legible)
    (nested : e.toJson.nesting ≤ d) : Expr.ofJson? d e.toJson = keep (allFinite e.walk) e := by
  obtain ⟨d, rfl⟩ : ∃ n, d = n + 1 := by
    cases e <;> exact ⟨_, (Nat.succ_pred_eq_of_pos (lt_of_lt_of_le (Nat.succ_pos _) nested)).symm⟩
  cases e with simp only [Expr.walk, List.forall_mem_cons, List.forall_mem_append] at legible
  | nil s => exact Expr.ofJson?_nil s
  | string v s => exact Expr.ofJson?_string v s
  | number x s =>
    rw [Expr.ofJson?_number]
    cases finite : x.isFinite with
    | true =>
      have read : (numberFormat.numeral x).scaled? = some x := legible.1 finite
      simp [read, Expr.walk, Event.isFinite, finite, keep]
    | false => simp [Expr.walk, Event.isFinite, finite, keep]
  | boolean v s => exact Expr.ofJson?_boolean v s
  | identifier n s => exact Expr.ofJson?_identifier n s
  | member b n s =>
    have base := Expr.ofJson?_toJson b legible.2 (nesting_part nested (f := ("base", _)) (by simp))
    simp [Expr.ofJson?_member, base, Expr.walk, Event.isFinite]
  | index b i s =>
    have base :=
      Expr.ofJson?_toJson b legible.2.1 (nesting_part nested (f := ("base", _)) (by simp))
    have key := Expr.ofJson?_toJson i legible.2.2
      (nesting_part nested (f := ("index", _)) (by simp))
    simp [Expr.ofJson?_index, base, key, Expr.walk, Event.isFinite]
  | slice b l r s =>
    have base :=
      Expr.ofJson?_toJson b legible.2.1.1 (nesting_part nested (f := ("base", _)) (by simp))
    have left := mapM_optionJson l legible.2.1.2 (nesting_part nested (f := ("left", _)) (by simp))
    have right := mapM_optionJson r legible.2.2 (nesting_part nested (f := ("right", _)) (by simp))
    simp [Expr.ofJson?_slice, base, left, right, Expr.walk, Event.isFinite]
  | call b as s =>
    have base :=
      Expr.ofJson?_toJson b legible.2.1 (nesting_part nested (f := ("base", _)) (by simp))
    have arguments := mapM_exprsJson as legible.2.2
      (nestingItems_le (nesting_part nested (f := ("arguments", _)) (by simp)))
    simp [Expr.ofJson?_call, base, arguments, Expr.walk, Event.isFinite]
  | unary o a s =>
    have argument :=
      Expr.ofJson?_toJson a legible.2 (nesting_part nested (f := ("argument", _)) (by simp))
    simp [Expr.ofJson?_unary, argument, Expr.walk, Event.isFinite]
  | binary l o r s =>
    have left :=
      Expr.ofJson?_toJson l legible.2.1 (nesting_part nested (f := ("left", _)) (by simp))
    have right :=
      Expr.ofJson?_toJson r legible.2.2 (nesting_part nested (f := ("right", _)) (by simp))
    simp [Expr.ofJson?_binary, left, right, Expr.walk, Event.isFinite]
  | map fs s =>
    have fields := mapM_fieldsJson fs legible.2
      (nestingItems_le (nesting_part nested (f := ("fields", _)) (by simp)))
    simp [Expr.ofJson?_map, fields, Expr.walk, Event.isFinite]
  | list is s =>
    have items := mapM_exprsJson is legible.2
      (nestingItems_le (nesting_part nested (f := ("items", _)) (by simp)))
    simp [Expr.ofJson?_list, items, Expr.walk, Event.isFinite]
  | function f s =>
    have declaration := FunctionDecl.ofJson?_toJson f legible.2
      (nesting_part nested (f := ("declaration", _)) (by simp))
    simp [Expr.ofJson?_function, declaration, Expr.walk, Event.isFinite]
  | unknown k s => exact Expr.ofJson?_unknown k s

theorem mapM_optionJson (l : Option Expr) {d : Nat} (legible : ∀ ev ∈ walkOption l, ev.Legible)
    (nested : (optionJson l).nesting ≤ d) :
    (l.mapM fun e => Expr.ofJson? d e.toJson) = keep (allFinite (walkOption l)) l := by
  cases l with
  | none => rfl
  | some e =>
    have value := Expr.ofJson?_toJson e legible nested
    simp [value, walkOption, keep_map]

theorem mapM_exprsJson (es : List Expr) {d : Nat} (legible : ∀ ev ∈ walkExprs es, ev.Legible)
    (nested : nestingItems (exprsJson es) ≤ d) :
    (exprsJson es).mapM (Expr.ofJson? d) = keep (allFinite (walkExprs es)) es := by
  cases es with
  | nil => rfl
  | cons e es =>
    simp only [walkExprs, List.forall_mem_append, exprsJson, nestingItems,
      max_le_iff] at legible nested
    have first := Expr.ofJson?_toJson e legible.1 nested.1
    have others := mapM_exprsJson es legible.2 nested.2
    simp [exprsJson, first, others, walkExprs]

theorem mapM_fieldsJson (fs : Fields) {d : Nat} (legible : ∀ ev ∈ walkFields fs, ev.Legible)
    (nested : nestingItems (fieldsJson fs) ≤ d) :
    (fieldsJson fs).mapM (fieldOfJson? d) = keep (allFinite (walkFields fs)) fs := by
  rcases fs with _ | ⟨⟨k, v⟩, fs⟩
  · rfl
  · simp only [walkFields, List.forall_mem_append, fieldsJson, nestingItems,
      max_le_iff] at legible nested
    have others := mapM_fieldsJson fs legible.2 nested.2
    cases d with
    | zero => simp [object, nesting] at nested
    | succ d =>
      have key := Expr.ofJson?_toJson k legible.1.1
        (nesting_field nested.1 (f := ("key", _)) (by simp))
      have value :=
        Expr.ofJson?_toJson v legible.1.2 (nesting_field nested.1 (f := ("value", _)) (by simp))
      simp [fieldsJson, fieldOfJson?_object, key, value, others, walkFields, Bool.and_assoc]

theorem FunctionDecl.ofJson?_toJson (f : FunctionDecl) {d : Nat}
    (legible : ∀ ev ∈ f.walk, ev.Legible) (nested : f.toJson.nesting ≤ d) :
    FunctionDecl.ofJson? d f.toJson = keep (allFinite f.walk) f := by
  cases f with
  | mk ps b s =>
    simp only [FunctionDecl.walk, List.forall_mem_cons, List.forall_mem_append] at legible
    cases d with
    | zero => exact absurd nested (Nat.not_succ_le_zero _)
    | succ d =>
      have parameters := mapM_paramsJson ps legible.2.1.1
        (nestingItems_le (nesting_field nested (f := ("parameters", _)) (by simp)))
      have body := mapM_stmtsJson b legible.2.1.2
        (nestingItems_le (nesting_field nested (f := ("body", _)) (by simp)))
      simp [FunctionDecl.ofJson?_mk, parameters, body, FunctionDecl.walk, Event.isFinite]

theorem mapM_paramsJson (ps : List Param) {d : Nat} (legible : ∀ ev ∈ walkParams ps, ev.Legible)
    (nested : nestingItems (paramsJson ps) ≤ d) :
    (paramsJson ps).mapM (Param.ofJson? d) = keep (allFinite (walkParams ps)) ps := by
  cases ps with
  | nil => rfl
  | cons p ps =>
    simp only [walkParams, List.forall_mem_append, paramsJson, nestingItems,
      max_le_iff] at legible nested
    have first := Param.ofJson?_toJson p legible.1 nested.1
    have others := mapM_paramsJson ps legible.2 nested.2
    simp [paramsJson, first, others, walkParams]

theorem Param.ofJson?_toJson (p : Param) {d : Nat} (legible : ∀ ev ∈ p.walk, ev.Legible)
    (nested : p.toJson.nesting ≤ d) : Param.ofJson? d p.toJson = keep (allFinite p.walk) p := by
  obtain ⟨d, rfl⟩ : ∃ n, d = n + 1 := by
    cases p <;> exact ⟨_, (Nat.succ_pred_eq_of_pos (lt_of_lt_of_le (Nat.succ_pos _) nested)).symm⟩
  cases p with
  | plain n s => exact Param.ofJson?_plain n s
  | withDefault n e s =>
    simp only [Param.walk, List.forall_mem_cons] at legible
    have default :=
      Expr.ofJson?_toJson e legible.2 (nesting_field nested (f := ("default", _)) (by simp))
    simp [Param.ofJson?_withDefault, default, Param.walk, Event.isFinite]

theorem mapM_stmtsJson (ss : List Stmt) {d : Nat} (legible : ∀ ev ∈ walkStmts ss, ev.Legible)
    (nested : nestingItems (stmtsJson ss) ≤ d) :
    (stmtsJson ss).mapM (Stmt.ofJson? true d) = keep (allFinite (walkStmts ss)) ss := by
  cases ss with
  | nil => rfl
  | cons s ss =>
    simp only [walkStmts, List.forall_mem_append, stmtsJson, nestingItems,
      max_le_iff] at legible nested
    have first := Stmt.ofJson?_toJson s true legible.1 nested.1
    have others := mapM_stmtsJson ss legible.2 nested.2
    simp [stmtsJson, first, others, walkStmts]

theorem mapM_bodyJson (o : Option (List Stmt)) {d : Nat} (legible : ∀ ev ∈ walkBody o, ev.Legible)
    (nested : (bodyJson o).nesting ≤ d) :
    (o.mapM fun b => (stmtsJson b).mapM (Stmt.ofJson? true d)) =
      keep (allFinite (walkBody o)) o := by
  cases o with
  | none => rfl
  | some b =>
    have body := mapM_stmtsJson b legible (nestingItems_le nested)
    simp [body, walkBody, keep_map]

theorem mapM_clausesJson (cs : Clauses) {d : Nat} (legible : ∀ ev ∈ walkClauses cs, ev.Legible)
    (nested : nestingItems (clausesJson cs) ≤ d) :
    (clausesJson cs).mapM (clauseOfJson? d) = keep (allFinite (walkClauses cs)) cs := by
  rcases cs with _ | ⟨⟨c, b⟩, cs⟩
  · rfl
  · simp only [walkClauses, List.forall_mem_append, clausesJson, nestingItems,
      max_le_iff] at legible nested
    have others := mapM_clausesJson cs legible.2 nested.2
    cases d with
    | zero => simp [object, nesting] at nested
    | succ d =>
      have condition := Expr.ofJson?_toJson c legible.1.1
        (nesting_field nested.1 (f := ("condition", _)) (by simp))
      have body := mapM_stmtsJson b legible.1.2
        (nestingItems_le (nesting_field nested.1 (f := ("body", _)) (by simp)))
      simp [clausesJson, clauseOfJson?_object, condition, body, others, walkClauses, Bool.and_assoc]

theorem Stmt.ofJson?_toJson (s : Stmt) (positions : Bool) {d : Nat}
    (legible : ∀ ev ∈ s.walk, ev.Legible) (nested : s.toJson.nesting ≤ d) :
    Stmt.ofJson? positions d s.toJson = keep (allFinite s.walk) s := by
  obtain ⟨d, rfl⟩ : ∃ n, d = n + 1 := by
    cases s <;> exact ⟨_, (Nat.succ_pred_eq_of_pos (lt_of_lt_of_le (Nat.succ_pos _) nested)).symm⟩
  cases s with simp only [Stmt.walk, List.forall_mem_cons, List.forall_mem_append] at legible
  | assign t i s =>
    have target :=
      Expr.ofJson?_toJson t legible.2.2.1 (nesting_field nested (f := ("target", _)) (by simp))
    have init :=
      Expr.ofJson?_toJson i legible.2.2.2 (nesting_field nested (f := ("init", _)) (by simp))
    simp [Stmt.ofJson?_assign, target, init, Stmt.walk, Event.isFinite]
  | expr e =>
    have expression :=
      Expr.ofJson?_toJson e legible.2 (nesting_field nested (f := ("expression", _)) (by simp))
    simp [Stmt.ofJson?_expr, expression, Stmt.walk, Event.isFinite]
  | cond cs o s =>
    have clauses := mapM_clausesJson cs legible.2.1
      (nestingItems_le (nesting_field nested (f := ("clauses", _)) (by simp)))
    have otherwise :=
      mapM_bodyJson o legible.2.2 (nesting_field nested (f := ("else_body", _)) (by simp))
    simp [Stmt.ofJson?_cond, clauses, otherwise, Stmt.walk, Event.isFinite]
  | whileLoop c b s =>
    have condition :=
      Expr.ofJson?_toJson c legible.2.1 (nesting_field nested (f := ("condition", _)) (by simp))
    have body := mapM_stmtsJson b legible.2.2
      (nestingItems_le (nesting_field nested (f := ("body", _)) (by simp)))
    simp [Stmt.ofJson?_whileLoop, condition, body, Stmt.walk, Event.isFinite]
  | forLoop v i b s =>
    have element :=
      Expr.ofJson?_toJson v legible.2.2.1.1 (nesting_field nested (f := ("variable", _)) (by simp))
    have iterator :=
      Expr.ofJson?_toJson i legible.2.2.1.2 (nesting_field nested (f := ("iterator", _)) (by simp))
    have body := mapM_stmtsJson b legible.2.2.2
      (nestingItems_le (nesting_field nested (f := ("body", _)) (by simp)))
    simp [Stmt.ofJson?_forLoop, element, iterator, body, Stmt.walk, Event.isFinite]
  | ret a s =>
    have argument :=
      mapM_optionJson a legible.2 (nesting_field nested (f := ("argument", _)) (by simp))
    simp [Stmt.ofJson?_ret, argument, Stmt.walk, Event.isFinite]
  | exit s => exact Stmt.ofJson?_exit s
  | next s => exact Stmt.ofJson?_next s

end

end ScriptInference
