import ScriptInference.Number.Binary64

/-!
# Syntax trees of MiniScript programs

Trees as a parser hands them over. Every expression, parameter, function declaration and statement
other than a bare expression carries the span of its source text with a node id. A chunk is the root
block of a file; a function declaration opens a block of its own.
-/

namespace ScriptInference

structure Span where
  start : UInt64
  stop : UInt64
  line : UInt64
  id : String
  deriving DecidableEq, Repr, Inhabited

inductive UnaryOp where
  | reference
  | new
  | negate
  | not
  deriving DecidableEq, Repr

inductive BinaryOp where
  | add
  | subtract
  | multiply
  | divide
  | modulo
  | power
  | equals
  | notEquals
  | lessThan
  | lessThanOrEqual
  | greaterThan
  | greaterThanOrEqual
  | and
  | or
  | isa
  deriving DecidableEq, Repr

namespace UnaryOp

def symbol : UnaryOp → String
  | reference => "@"
  | new => "new "
  | negate => "-"
  | not => "not "

def name : UnaryOp → String
  | reference => "Reference"
  | new => "New"
  | negate => "Negate"
  | not => "Not"

def all : List UnaryOp := [reference, new, negate, not]

def ofName? (s : String) : Option UnaryOp := all.find? (·.name = s)

end UnaryOp

namespace BinaryOp

def symbol : BinaryOp → String
  | add => "+"
  | subtract => "-"
  | multiply => "*"
  | divide => "/"
  | modulo => "%"
  | power => "^"
  | equals => "=="
  | notEquals => "!="
  | lessThan => "<"
  | lessThanOrEqual => "<="
  | greaterThan => ">"
  | greaterThanOrEqual => ">="
  | and => "and"
  | or => "or"
  | isa => "isa"

def name : BinaryOp → String
  | add => "Add"
  | subtract => "Subtract"
  | multiply => "Multiply"
  | divide => "Divide"
  | modulo => "Modulo"
  | power => "Power"
  | equals => "Equals"
  | notEquals => "NotEquals"
  | lessThan => "LessThan"
  | lessThanOrEqual => "LessThanOrEqual"
  | greaterThan => "GreaterThan"
  | greaterThanOrEqual => "GreaterThanOrEqual"
  | and => "And"
  | or => "Or"
  | isa => "Isa"

def all : List BinaryOp :=
  [add, subtract, multiply, divide, modulo, power, equals, notEquals, lessThan, lessThanOrEqual,
    greaterThan, greaterThanOrEqual, and, or, isa]

def ofName? (s : String) : Option BinaryOp := all.find? (·.name = s)

end BinaryOp

mutual

/-- Expressions. Node kinds that a parser produces and the engine does not model are `unknown`. -/
inductive Expr where
  | nil (span : Span)
  | string (value : String) (span : Span)
  | number (value : Binary64) (span : Span)
  | boolean (value : Bool) (span : Span)
  | identifier (name : String) (span : Span)
  | member (base : Expr) (name : String) (span : Span)
  | index (base index : Expr) (span : Span)
  | slice (base : Expr) (left right : Option Expr) (span : Span)
  | call (base : Expr) (arguments : List Expr) (span : Span)
  | unary (op : UnaryOp) (argument : Expr) (span : Span)
  | binary (left : Expr) (op : BinaryOp) (right : Expr) (span : Span)
  | map (fields : List (Expr × Expr)) (span : Span)
  | list (items : List Expr) (span : Span)
  | function (declaration : FunctionDecl) (span : Span)
  | unknown (kind : String) (span : Span)

inductive FunctionDecl where
  | mk (parameters : List Param) (body : List Stmt) (span : Span)

inductive Param where
  | plain (name : String) (span : Span)
  | withDefault (name : String) (default : Expr) (span : Span)

inductive Stmt where
  | assign (target init : Expr) (span : Span)
  | expr (expression : Expr)
  | cond (clauses : List (Expr × List Stmt)) (otherwise : Option (List Stmt)) (span : Span)
  | whileLoop (condition : Expr) (body : List Stmt) (span : Span)
  | forLoop (element iterator : Expr) (body : List Stmt) (span : Span)
  | ret (argument : Option Expr) (span : Span)
  | exit (span : Span)
  | next (span : Span)

end

/-- The fields of a map. -/
abbrev Fields := List (Expr × Expr)

/-- The clauses of a conditional. -/
abbrev Clauses := List (Expr × List Stmt)

structure Chunk where
  body : List Stmt
  span : Span

namespace Expr

instance : Inhabited Expr := ⟨.nil default⟩

def span : Expr → Span
  | nil s => s
  | string _ s => s
  | number _ s => s
  | boolean _ s => s
  | identifier _ s => s
  | member _ _ s => s
  | index _ _ s => s
  | slice _ _ _ s => s
  | call _ _ s => s
  | unary _ _ s => s
  | binary _ _ _ s => s
  | map _ s => s
  | list _ s => s
  | function _ s => s
  | unknown _ s => s

def line (e : Expr) : UInt64 := e.span.line

def identifier? : Expr → Option String
  | identifier name _ => some name
  | _ => none

def stringLiteral? : Expr → Option String
  | string value _ => some value
  | _ => none

/-- Literals and collection constructors. -/
def isValue : Expr → Bool
  | nil _ => true
  | string _ _ => true
  | number _ _ => true
  | boolean _ _ => true
  | map _ _ => true
  | list _ _ => true
  | _ => false

def kindName : Expr → String
  | nil _ => "Nil"
  | string _ _ => "String"
  | number _ _ => "Number"
  | boolean _ _ => "Boolean"
  | identifier _ _ => "Identifier"
  | member _ _ _ => "Member"
  | index _ _ _ => "Index"
  | slice _ _ _ _ => "Slice"
  | call _ _ _ => "Call"
  | unary _ _ _ => "Unary"
  | binary _ _ _ _ => "Binary"
  | map _ _ => "Map"
  | list _ _ => "List"
  | function _ _ => "Function"
  | unknown kind _ => kind

end Expr

namespace FunctionDecl

def parameters : FunctionDecl → List Param
  | mk ps _ _ => ps

def body : FunctionDecl → List Stmt
  | mk _ b _ => b

def span : FunctionDecl → Span
  | mk _ _ s => s

def id (f : FunctionDecl) : String := f.span.id

end FunctionDecl

namespace Param

def name : Param → String
  | plain n _ => n
  | withDefault n _ _ => n

def span : Param → Span
  | plain _ s => s
  | withDefault _ _ s => s

def default? : Param → Option Expr
  | plain _ _ => none
  | withDefault _ d _ => some d

end Param

namespace Stmt

instance : Inhabited Stmt := ⟨.expr default⟩

def kindName : Stmt → String
  | assign _ _ _ => "Assignment"
  | expr _ => "Expression"
  | cond _ _ _ => "If"
  | whileLoop _ _ _ => "While"
  | forLoop _ _ _ _ => "For"
  | ret _ _ => "Return"
  | exit _ => "Break"
  | next _ => "Continue"

end Stmt

end ScriptInference
