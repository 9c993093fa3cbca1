import ScriptInference.Hashing.Structural
import ScriptInference.Json.Printer

/-!
# Canonical ids

The canonical id of an expression is a text of its shape, used to confirm a match of structural
hashes. It ignores spans and identifies the same accesses as the hash does.
-/

namespace ScriptInference

/-- The id of `base.name`, given the id of the base. -/
def memberId (base : Expr) (baseId name : String) : String :=
  if base.isLocals then name else baseId ++ "." ++ name

def commaList (ids : List String) : String := String.intercalate "," ids

def braced (text : String) : String := "\x7b" ++ text ++ "\x7d"

/-- The ids of the clauses and the rest of a conditional. -/
def condId (clauses : List String) (otherwise : Option String) : String :=
  String.intercalate " else " clauses ++
    (match otherwise with
      | some body => " else " ++ body
      | none => "") ++
    " end"

mutual

def Expr.id : Expr → String
  | .nil _ => "null"
  | .string v _ => Json.quote v
  | .number v _ => v.plainText
  | .boolean v _ => if v then "true" else "false"
  | .identifier n _ => n
  | .member b n _ => memberId b b.id n
  | .index b i _ =>
    match i.stringLiteral? with
    | some n => memberId b b.id n
    | none => b.id ++ "[" ++ i.id ++ "]"
  | .slice b l r _ => b.id ++ "[" ++ idOption l ++ ":" ++ idOption r ++ "]"
  | .call b as _ => b.id ++ "(" ++ commaList (idExprs as) ++ ")"
  | .unary o a _ => o.symbol ++ a.id
  | .binary l o r _ => "(" ++ l.id ++ " " ++ o.symbol ++ " " ++ r.id ++ ")"
  | .map fs _ => braced (commaList (idFields fs))
  | .list is _ => "[" ++ commaList (idExprs is) ++ "]"
  | .function d _ => d.canonicalId
  | .unknown k _ => "<" ++ k ++ ">"

def idOption : Option Expr → String
  | none => ""
  | some e => e.id

def idExprs : List Expr → List String
  | [] => []
  | e :: es => e.id :: idExprs es

def idFields : Fields → List String
  | [] => []
  | (k, v) :: fs => (k.id ++ ":" ++ v.id) :: idFields fs

def FunctionDecl.canonicalId : FunctionDecl → String
  | .mk ps b _ =>
    "function(" ++ commaList (idParams ps) ++ ")" ++ braced (String.intercalate ";" (idStmts b))

def idParams : List Param → List String
  | [] => []
  | p :: ps => p.canonicalId :: idParams ps

def Param.canonicalId : Param → String
  | .plain n _ => n
  | .withDefault n d _ => n ++ "=" ++ d.id

def idStmts : List Stmt → List String
  | [] => []
  | s :: ss => s.id :: idStmts ss

def idElse : Option (List Stmt) → Option String
  | none => none
  | some b => some (String.intercalate ";" (idStmts b))

def idClauses : Clauses → List String
  | [] => []
  | (c, b) :: cs =>
    ("if " ++ c.id ++ " then " ++ String.intercalate ";" (idStmts b)) :: idClauses cs

def Stmt.id : Stmt → String
  | .assign t i _ => t.id ++ "=" ++ i.id
  | .expr e => e.id
  | .cond cs o _ => condId (idClauses cs) (idElse o)
  | .whileLoop c b _ => "while " ++ c.id ++ " " ++ String.intercalate ";" (idStmts b) ++ " end"
  | .forLoop v i b _ =>
    "for " ++ v.id ++ " in " ++ i.id ++ " " ++ String.intercalate ";" (idStmts b) ++ " end"
  | .ret (some a) _ => "return " ++ a.id
  | .ret none _ => "return"
  | .exit _ => "break"
  | .next _ => "continue"

end

end ScriptInference
