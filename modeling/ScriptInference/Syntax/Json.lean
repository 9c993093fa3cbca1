import ScriptInference.Json.Printer
import ScriptInference.Json.Record
import ScriptInference.Syntax.Basic

/-!
# Syntax trees as JSON

A tree is written with the fields of each node in a fixed order. Expressions, parameters and
statements are told apart by a tag in the field `type`, which is written first and read from any
place; a node may also be given as an array of the tag and the fields. Below a top-level statement
the tag may be the position of the kind in its list instead of its name.

Reading takes a bound on the nesting of expressions and statements, which is never reached by a text
that `Json.readable` lets through.
-/

namespace ScriptInference

namespace Json

/-- A node with its tag. -/
def tagged (tag : String) (fields : List (String × Json)) : Json :=
  object (("type", str tag) :: fields)

def tagName? (names : List String) (positions : Bool) : Json → Option String
  | .string (some s) => if names.contains s then some s else none
  | .num n => if positions then n.toUInt64?.bind fun i => names[i.toNat]? else none
  | _ => none

/-- The tag of a node and the node without it. -/
def asTagged? (names : List String) (positions : Bool) : Json → Option (String × Json)
  | .obj fields =>
    match fields.filter (fun f => f.1 = some "type") with
    | [(_, tag)] =>
      (tagName? names positions tag).map fun name =>
        (name, .obj (fields.filter fun f => f.1 ≠ some "type"))
    | _ => none
  | .arr (tag :: rest) => (tagName? names positions tag).map fun name => (name, .arr rest)
  | _ => none

/-- A bare name, or an object with the name as its only key and an empty value. -/
def asName? : Json → Option String
  | .string s => s
  | .obj [(name, .null)] => name
  | .obj [(name, .obj [])] => name
  | _ => none

end Json

def Span.toJson (s : Span) : Json :=
  .object [("start", .nat s.start.toNat), ("end", .nat s.stop.toNat), ("line", .nat s.line.toNat),
    ("id", .str s.id)]

def Span.ofJson? (j : Json) : Option Span := do
  let r ← j.asRecord? ["start", "end", "line", "id"]
  return {
    start := ← r.required "start" Json.asUInt64?
    stop := ← r.required "end" Json.asUInt64?
    line := ← r.required "line" Json.asUInt64?
    id := ← r.required "id" Json.asString? }

mutual

def Expr.toJson : Expr → Json
  | .nil s => node (.tagged "Nil" []) s
  | .string v s => node (.tagged "String" [("value", .str v)]) s
  | .number v s => node (.tagged "Number" [("value", .ofBinary64 v)]) s
  | .boolean v s => node (.tagged "Boolean" [("value", .bool v)]) s
  | .identifier n s => node (.tagged "Identifier" [("name", .str n)]) s
  | .member b n s => node (.tagged "Member" [("base", b.toJson), ("identifier", .str n)]) s
  | .index b i s => node (.tagged "Index" [("base", b.toJson), ("index", i.toJson)]) s
  | .slice b l r s =>
    node (.tagged "Slice" [("base", b.toJson), ("left", optionJson l), ("right", optionJson r)]) s
  | .call b as s =>
    node (.tagged "Call" [("base", b.toJson), ("arguments", .arr (exprsJson as))]) s
  | .unary o a s =>
    node (.tagged "Unary" [("operator", .str o.name), ("argument", a.toJson)]) s
  | .binary l o r s =>
    node (.tagged "Binary" [("left", l.toJson), ("operator", .str o.name), ("right", r.toJson)]) s
  | .map fs s => node (.tagged "Map" [("fields", .arr (fieldsJson fs))]) s
  | .list is s => node (.tagged "List" [("items", .arr (exprsJson is))]) s
  | .function d s => node (.tagged "Function" [("declaration", d.toJson)]) s
  | .unknown k s => node (.tagged "Unknown" [("kind", .str k)]) s
where
  node (kind : Json) (span : Span) : Json := .object [("kind", kind), ("span", span.toJson)]

def optionJson : Option Expr → Json
  | none => .null
  | some e => e.toJson

def exprsJson : List Expr → List Json
  | [] => []
  | e :: es => e.toJson :: exprsJson es

def fieldsJson : Fields → List Json
  | [] => []
  | (k, v) :: fs => .object [("key", k.toJson), ("value", v.toJson)] :: fieldsJson fs

def FunctionDecl.toJson : FunctionDecl → Json
  | .mk ps b s =>
    .object [("parameters", .arr (paramsJson ps)), ("body", .arr (stmtsJson b)), ("span", s.toJson)]

def paramsJson : List Param → List Json
  | [] => []
  | p :: ps => p.toJson :: paramsJson ps

def Param.toJson : Param → Json
  | .plain n s => .tagged "Identifier" [("name", .str n), ("span", s.toJson)]
  | .withDefault n d s =>
    .tagged "Default" [("name", .str n), ("default", d.toJson), ("span", s.toJson)]

def stmtsJson : List Stmt → List Json
  | [] => []
  | s :: ss => s.toJson :: stmtsJson ss

def bodyJson : Option (List Stmt) → Json
  | none => .null
  | some b => .arr (stmtsJson b)

def clausesJson : Clauses → List Json
  | [] => []
  | (c, b) :: cs =>
    .object [("condition", c.toJson), ("body", .arr (stmtsJson b))] :: clausesJson cs

def Stmt.toJson : Stmt → Json
  | .assign t i s =>
    .tagged "Assignment" [("target", t.toJson), ("init", i.toJson), ("span", s.toJson)]
  | .expr e => .tagged "Expression" [("expression", e.toJson)]
  | .cond cs o s =>
    .tagged "If" [("clauses", .arr (clausesJson cs)), ("else_body", bodyJson o), ("span", s.toJson)]
  | .whileLoop c b s =>
    .tagged "While" [("condition", c.toJson), ("body", .arr (stmtsJson b)), ("span", s.toJson)]
  | .forLoop v i b s =>
    .tagged "For" [("variable", v.toJson), ("iterator", i.toJson), ("body", .arr (stmtsJson b)),
      ("span", s.toJson)]
  | .ret a s => .tagged "Return" [("argument", optionJson a), ("span", s.toJson)]
  | .exit s => .tagged "Break" [("span", s.toJson)]
  | .next s => .tagged "Continue" [("span", s.toJson)]

end

def Chunk.toJson (c : Chunk) : Json :=
  .object [("body", .arr (stmtsJson c.body)), ("span", c.span.toJson)]

def Expr.kindNames : List String :=
  ["Nil", "String", "Number", "Boolean", "Identifier", "Member", "Index", "Slice", "Call", "Unary",
    "Binary", "Map", "List", "Function", "Unknown"]

def Param.kindNames : List String := ["Identifier", "Default"]

def Stmt.kindNames : List String :=
  ["Assignment", "Expression", "If", "While", "For", "Return", "Break", "Continue"]

mutual

def Expr.ofJson? : Nat → Json → Option Expr
  | 0, _ => none
  | depth + 1, j => do
    let r ← j.asRecord? ["kind", "span"]
    let span ← r.required "span" Span.ofJson?
    let (kind, content) ← r.required "kind" (Json.asTagged? Expr.kindNames true)
    match kind with
    | "Nil" =>
      match content with
      | .arr (_ :: _) => none
      | _ => return .nil span
    | "String" => do
      let r ← content.asRecord? ["value"]
      return .string (← r.required "value" Json.asString?) span
    | "Number" => do
      let r ← content.asRecord? ["value"]
      match r.get? "value" with
      | some (.num n) => return .number (← n.scaled?) span
      | _ => none
    | "Boolean" => do
      let r ← content.asRecord? ["value"]
      return .boolean (← r.required "value" Json.asBool?) span
    | "Identifier" => do
      let r ← content.asRecord? ["name"]
      return .identifier (← r.required "name" Json.asString?) span
    | "Member" => do
      let r ← content.asRecord? ["base", "identifier"]
      return .member (← r.required "base" (Expr.ofJson? depth))
        (← r.required "identifier" Json.asString?) span
    | "Index" => do
      let r ← content.asRecord? ["base", "index"]
      return .index (← r.required "base" (Expr.ofJson? depth))
        (← r.required "index" (Expr.ofJson? depth)) span
    | "Slice" => do
      let r ← content.asRecord? ["base", "left", "right"]
      return .slice (← r.required "base" (Expr.ofJson? depth))
        (← r.optional "left" (Expr.ofJson? depth)) (← r.optional "right" (Expr.ofJson? depth)) span
    | "Call" => do
      let r ← content.asRecord? ["base", "arguments"]
      return .call (← r.required "base" (Expr.ofJson? depth))
        (← r.required "arguments" (Json.asListOf? (Expr.ofJson? depth))) span
    | "Unary" => do
      let r ← content.asRecord? ["operator", "argument"]
      return .unary (← r.required "operator" fun j => j.asName?.bind UnaryOp.ofName?)
        (← r.required "argument" (Expr.ofJson? depth)) span
    | "Binary" => do
      let r ← content.asRecord? ["left", "operator", "right"]
      return .binary (← r.required "left" (Expr.ofJson? depth))
        (← r.required "operator" fun j => j.asName?.bind BinaryOp.ofName?)
        (← r.required "right" (Expr.ofJson? depth)) span
    | "Map" => do
      let r ← content.asRecord? ["fields"]
      return .map (← r.required "fields" (Json.asListOf? (fieldOfJson? depth))) span
    | "List" => do
      let r ← content.asRecord? ["items"]
      return .list (← r.required "items" (Json.asListOf? (Expr.ofJson? depth))) span
    | "Function" => do
      let r ← content.asRecord? ["declaration"]
      return .function (← r.required "declaration" (FunctionDecl.ofJson? depth)) span
    | _ => do
      let r ← content.asRecord? ["kind"]
      return .unknown (← r.required "kind" Json.asString?) span

def fieldOfJson? : Nat → Json → Option (Expr × Expr)
  | 0, _ => none
  | depth + 1, j => do
    let r ← j.asRecord? ["key", "value"]
    return (← r.required "key" (Expr.ofJson? depth), ← r.required "value" (Expr.ofJson? depth))

def FunctionDecl.ofJson? : Nat → Json → Option FunctionDecl
  | 0, _ => none
  | depth + 1, j => do
    let r ← j.asRecord? ["parameters", "body", "span"]
    return .mk (← r.required "parameters" (Json.asListOf? (Param.ofJson? depth)))
      (← r.required "body" (Json.asListOf? (Stmt.ofJson? true depth)))
      (← r.required "span" Span.ofJson?)

def Param.ofJson? : Nat → Json → Option Param
  | 0, _ => none
  | depth + 1, j => do
    let (kind, content) ← j.asTagged? Param.kindNames true
    match kind with
    | "Identifier" => do
      let r ← content.asRecord? ["name", "span"]
      return .plain (← r.required "name" Json.asString?) (← r.required "span" Span.ofJson?)
    | _ => do
      let r ← content.asRecord? ["name", "default", "span"]
      return .withDefault (← r.required "name" Json.asString?)
        (← r.required "default" (Expr.ofJson? depth)) (← r.required "span" Span.ofJson?)

def clauseOfJson? : Nat → Json → Option (Expr × List Stmt)
  | 0, _ => none
  | depth + 1, j => do
    let r ← j.asRecord? ["condition", "body"]
    return (← r.required "condition" (Expr.ofJson? depth),
      ← r.required "body" (Json.asListOf? (Stmt.ofJson? true depth)))

/-- The flag `positions` tells whether the tag may be a position. -/
def Stmt.ofJson? (positions : Bool) : Nat → Json → Option Stmt
  | 0, _ => none
  | depth + 1, j => do
    let (kind, content) ← j.asTagged? Stmt.kindNames positions
    match kind with
    | "Assignment" => do
      let r ← content.asRecord? ["target", "init", "span"]
      return .assign (← r.required "target" (Expr.ofJson? depth))
        (← r.required "init" (Expr.ofJson? depth)) (← r.required "span" Span.ofJson?)
    | "Expression" => do
      let r ← content.asRecord? ["expression"]
      return .expr (← r.required "expression" (Expr.ofJson? depth))
    | "If" => do
      let r ← content.asRecord? ["clauses", "else_body", "span"]
      return .cond (← r.required "clauses" (Json.asListOf? (clauseOfJson? depth)))
        (← r.optional "else_body" (Json.asListOf? (Stmt.ofJson? true depth)))
        (← r.required "span" Span.ofJson?)
    | "While" => do
      let r ← content.asRecord? ["condition", "body", "span"]
      return .whileLoop (← r.required "condition" (Expr.ofJson? depth))
        (← r.required "body" (Json.asListOf? (Stmt.ofJson? true depth)))
        (← r.required "span" Span.ofJson?)
    | "For" => do
      let r ← content.asRecord? ["variable", "iterator", "body", "span"]
      return .forLoop (← r.required "variable" (Expr.ofJson? depth))
        (← r.required "iterator" (Expr.ofJson? depth))
        (← r.required "body" (Json.asListOf? (Stmt.ofJson? true depth)))
        (← r.required "span" Span.ofJson?)
    | "Return" => do
      let r ← content.asRecord? ["argument", "span"]
      return .ret (← r.optional "argument" (Expr.ofJson? depth)) (← r.required "span" Span.ofJson?)
    | "Break" => do
      let r ← content.asRecord? ["span"]
      return .exit (← r.required "span" Span.ofJson?)
    | _ => do
      let r ← content.asRecord? ["span"]
      return .next (← r.required "span" Span.ofJson?)

end

namespace Chunk

/-- Arrays and objects nest at most this deep in a text that is read. -/
def maxNesting : Nat := 127

/-- A top-level statement, which stands two levels below the text. -/
def stmtOfJson? (j : Json) : Option Stmt :=
  if j.readable (maxNesting - 2) then Stmt.ofJson? false maxNesting j else none

def ofJson? (j : Json) : Option Chunk := do
  let r ← j.asRecord? ["body", "span"]
  return { body := ← r.required "body" (Json.asListOf? stmtOfJson?)
           span := ← r.required "span" Span.ofJson? }

end Chunk

end ScriptInference
