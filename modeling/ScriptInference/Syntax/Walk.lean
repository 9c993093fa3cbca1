import ScriptInference.Syntax.Basic

/-!
# The walk over a tree

A tree is visited from left to right, every node before its parts. The walk is the list of what is
met: statements, binding sites, expressions, parameters, and the beginning and the end of each
function. Everything that depends on the nesting of functions is read off this list.
-/

namespace ScriptInference

/-- A place where a block binds something: an assignment, or the variable of a loop. -/
inductive Binding where
  | assignment (target init : Expr) (span : Span)
  | loop (element iterator : Expr) (span : Span)

namespace Binding

def target : Binding → Expr
  | assignment t _ _ => t
  | loop v _ _ => v

def span : Binding → Span
  | assignment _ _ s => s
  | loop _ _ s => s

end Binding

inductive Event where
  | statement (s : Stmt)
  | binding (b : Binding)
  | expression (e : Expr)
  | parameter (p : Param)
  | enter (f : FunctionDecl)
  | leave

mutual

def Expr.walk : Expr → List Event
  | .nil s => [.expression (.nil s)]
  | .string v s => [.expression (.string v s)]
  | .number v s => [.expression (.number v s)]
  | .boolean v s => [.expression (.boolean v s)]
  | .identifier n s => [.expression (.identifier n s)]
  | .member b n s => .expression (.member b n s) :: b.walk
  | .index b i s => .expression (.index b i s) :: (b.walk ++ i.walk)
  | .slice b l r s => .expression (.slice b l r s) :: (b.walk ++ walkOption l ++ walkOption r)
  | .call b as s => .expression (.call b as s) :: (b.walk ++ walkExprs as)
  | .unary o a s => .expression (.unary o a s) :: a.walk
  | .binary l o r s => .expression (.binary l o r s) :: (l.walk ++ r.walk)
  | .map fs s => .expression (.map fs s) :: walkFields fs
  | .list is s => .expression (.list is s) :: walkExprs is
  | .function d s => .expression (.function d s) :: d.walk
  | .unknown k s => [.expression (.unknown k s)]

def walkOption : Option Expr → List Event
  | none => []
  | some e => e.walk

def walkExprs : List Expr → List Event
  | [] => []
  | e :: es => e.walk ++ walkExprs es

def walkFields : Fields → List Event
  | [] => []
  | (k, v) :: fs => k.walk ++ v.walk ++ walkFields fs

def FunctionDecl.walk : FunctionDecl → List Event
  | .mk ps b s => .enter (.mk ps b s) :: (walkParams ps ++ walkStmts b ++ [.leave])

def walkParams : List Param → List Event
  | [] => []
  | p :: ps => p.walk ++ walkParams ps

def Param.walk : Param → List Event
  | .plain n s => [.parameter (.plain n s)]
  | .withDefault n d s => .parameter (.withDefault n d s) :: d.walk

def walkStmts : List Stmt → List Event
  | [] => []
  | s :: ss => s.walk ++ walkStmts ss

def walkBody : Option (List Stmt) → List Event
  | none => []
  | some b => walkStmts b

def walkClauses : Clauses → List Event
  | [] => []
  | (c, b) :: cs => c.walk ++ walkStmts b ++ walkClauses cs

def Stmt.walk : Stmt → List Event
  | .assign t i s =>
    .statement (.assign t i s) :: .binding (.assignment t i s) :: (t.walk ++ i.walk)
  | .expr e => .statement (.expr e) :: e.walk
  | .cond cs o s => .statement (.cond cs o s) :: (walkClauses cs ++ walkBody o)
  | .whileLoop c b s => .statement (.whileLoop c b s) :: (c.walk ++ walkStmts b)
  | .forLoop v i b s =>
    .statement (.forLoop v i b s) :: .binding (.loop v i s) :: (v.walk ++ i.walk ++ walkStmts b)
  | .ret a s => .statement (.ret a s) :: walkOption a
  | .exit s => [.statement (.exit s)]
  | .next s => [.statement (.next s)]

end

def Chunk.walk (c : Chunk) : List Event := walkStmts c.body

namespace Event

/-- One line for what is met; the end of a function has none. -/
def line? : Event → Option String
  | statement s => some ("statement " ++ s.kindName)
  | binding (.assignment _ _ s) => some ("assignment " ++ s.id)
  | binding (.loop _ _ s) => some ("for " ++ s.id)
  | expression e => some (e.kindName ++ " " ++ e.span.id)
  | parameter p => some ("parameter " ++ p.name ++ " " ++ p.span.id)
  | enter f => some ("function " ++ f.id)
  | leave => none

end Event

end ScriptInference
