import ScriptInference.Syntax.Basic
import ScriptInference.Text.Crc32

/-!
# Building trees

A builder hands out node ids and places nodes. The id of a document is the checksum of its `file://`
address in hexadecimal, and node ids count up under it from one. Every node takes the next offset;
the line starts at one and advances after each statement.
-/

namespace ScriptInference

def documentUri (path : String) : String :=
  if "file://".isPrefixOf path then path else "file://" ++ path

def documentId (path : String) : String :=
  String.ofList (Nat.toDigits 16 (Crc32.ofText (documentUri path)).toNat)

structure NodeIds where
  document : String
  issued : UInt32
  deriving DecidableEq, Repr

namespace NodeIds

def new (path : String) : NodeIds := ⟨documentId path, 0⟩

def next (ids : NodeIds) : String × NodeIds :=
  let issued := ids.issued + 1
  (ids.document ++ "-" ++ toString issued.toNat, { ids with issued })

/-- The next `n` ids. -/
def take : Nat → NodeIds → List String × NodeIds
  | 0, ids => ([], ids)
  | n + 1, ids =>
    let (id, ids) := ids.next
    let (rest, ids) := take n ids
    (id :: rest, ids)

end NodeIds

structure Builder where
  ids : NodeIds
  line : UInt64
  offset : UInt64
  deriving DecidableEq, Repr

namespace Builder

def new (path : String) : Builder := ⟨.new path, 1, 0⟩

/-- A state-passing computation over a builder. -/
abbrev Build (α : Type) := StateM Builder α

def atLine (line : UInt64) : Build Unit := modify ({ · with line })

def currentLine : Build UInt64 := return (← get).line

def span : Build Span := do
  let b ← get
  let (id, ids) := b.ids.next
  set { b with ids, offset := b.offset + 1 }
  return ⟨b.offset, b.offset + 1, b.line, id⟩

def endLine : Build Unit := modify fun b => { b with line := b.line + 1 }

def stmtSpan : Build Span := do
  let s ← span
  endLine
  return s

def nil : Build Expr := return .nil (← span)

def string (value : String) : Build Expr := return .string value (← span)

def number (value : Binary64) : Build Expr := return .number value (← span)

def boolean (value : Bool) : Build Expr := return .boolean value (← span)

def identifier (name : String) : Build Expr := return .identifier name (← span)

def unknown (kind : String) : Build Expr := return .unknown kind (← span)

def member (base : Expr) (name : String) : Build Expr := return .member base name (← span)

def members (base : Expr) : List String → Build Expr
  | [] => return base
  | name :: rest => do members (← member base name) rest

/-- A dotted path; empty segments are kept. -/
def path (text : String) : Build Expr :=
  match text.splitOn "." with
  | [] => identifier ""
  | root :: rest => do members (← identifier root) rest

def index (base index : Expr) : Build Expr := return .index base index (← span)

def slice (base : Expr) (left right : Option Expr) : Build Expr :=
  return .slice base left right (← span)

def call (base : Expr) (arguments : List Expr) : Build Expr := return .call base arguments (← span)

def unary (op : UnaryOp) (argument : Expr) : Build Expr := return .unary op argument (← span)

def binary (left : Expr) (op : BinaryOp) (right : Expr) : Build Expr :=
  return .binary left op right (← span)

def map (fields : Fields) : Build Expr := return .map fields (← span)

def list (items : List Expr) : Build Expr := return .list items (← span)

/-- The declaration takes a span before the expression around it. -/
def function (parameters : List Param) (body : List Stmt) : Build Expr := do
  let declaration := FunctionDecl.mk parameters body (← span)
  return .function declaration (← span)

def parameter (name : String) : Build Param := return .plain name (← span)

def defaultParameter (name : String) (default : Expr) : Build Param :=
  return .withDefault name default (← span)

def assign (target init : Expr) : Build Stmt := return .assign target init (← stmtSpan)

/-- A bare expression has no span of its own but ends its line. -/
def exprStmt (expression : Expr) : Build Stmt := do
  endLine
  return .expr expression

def cond (clauses : Clauses) (otherwise : Option (List Stmt)) : Build Stmt :=
  return .cond clauses otherwise (← stmtSpan)

def whileLoop (condition : Expr) (body : List Stmt) : Build Stmt :=
  return .whileLoop condition body (← stmtSpan)

def forLoop (element : String) (iterator : Expr) (body : List Stmt) : Build Stmt := do
  let element ← identifier element
  return .forLoop element iterator body (← stmtSpan)

def ret (argument : Option Expr) : Build Stmt := return .ret argument (← stmtSpan)

def chunk (body : List Stmt) : Build Chunk := return ⟨body, ← span⟩

end Builder

end ScriptInference
