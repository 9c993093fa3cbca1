import ScriptInference.Syntax.Basic
import ScriptInference.Text.Crc32

/-!
# Structural hashes

A hash of 32 bits that depends on the shape of an expression and not on its spans. Every kind of
node mixes in a seed of its own first. Accesses that mean the same binding hash alike: `locals.x` as
`x`, and `a["b"]` as `a.b`. The hash is a bucket key; it is not injective.
-/

namespace ScriptInference

namespace Seed

def nil : UInt32 := 1

def string : UInt32 := 2

def number : UInt32 := 3

def boolean : UInt32 := 4

def identifier : UInt32 := 5

def root : UInt32 := 6

def member : UInt32 := 7

def index : UInt32 := 8

def slice : UInt32 := 9

def call : UInt32 := 10

def unary : UInt32 := 11

def binary : UInt32 := 12

def map : UInt32 := 13

def list : UInt32 := 14

def function : UInt32 := 15

def unknown : UInt32 := 16

def statement : UInt32 := 17

def absent : UInt32 := 18

end Seed

/-- The next state `31 · hash + value` modulo `2^32`. -/
def combine (hash value : UInt32) : UInt32 := (hash <<< 5) - hash + value

/-- Names that stand for a scope and not for a binding. -/
def pseudoRoots : List String := ["locals", "outer", "globals"]

def identifierSeed (name : String) : UInt32 :=
  if pseudoRoots.contains name then Seed.root else Seed.identifier

def identifierHash (name : String) : UInt32 := combine (identifierSeed name) (Crc32.ofText name)

def Expr.isLocals (e : Expr) : Bool := e.identifier? = some "locals"

/-- The hash of `base.name`, given the hash of the base. -/
def memberHash (base : Expr) (baseHash : UInt32) (name : String) : UInt32 :=
  if base.isLocals then identifierHash name
  else combine (combine Seed.member baseHash) (Crc32.ofText name)

def Binary64.fold32 (x : Binary64) : UInt32 := (x.bits ^^^ (x.bits >>> 32)).toUInt32

mutual

def Expr.hash : Expr → UInt32
  | .nil _ => Seed.nil
  | .string v _ => combine Seed.string (Crc32.ofText v)
  | .number v _ => combine Seed.number v.fold32
  | .boolean v _ => combine Seed.boolean (if v then 1 else 0)
  | .identifier n _ => identifierHash n
  | .member b n _ => memberHash b b.hash n
  | .index b i _ =>
    match i.stringLiteral? with
    | some n => memberHash b b.hash n
    | none => combine (combine Seed.index b.hash) i.hash
  | .slice b l r _ => combine (combine (combine Seed.slice b.hash) (hashOption l)) (hashOption r)
  | .call b as _ => hashExprs (combine Seed.call b.hash) as
  | .unary o a _ => combine (combine Seed.unary (Crc32.ofText o.symbol)) a.hash
  | .binary l o r _ =>
    combine (combine (combine Seed.binary l.hash) (Crc32.ofText o.symbol)) r.hash
  | .map fs _ => hashFields Seed.map fs
  | .list is _ => hashExprs Seed.list is
  | .function d _ => d.hash
  | .unknown k _ => combine Seed.unknown (Crc32.ofText k)

def hashOption : Option Expr → UInt32
  | none => Seed.absent
  | some e => e.hash

def hashExprs (acc : UInt32) : List Expr → UInt32
  | [] => acc
  | e :: es => hashExprs (combine acc e.hash) es

def hashFields (acc : UInt32) : Fields → UInt32
  | [] => acc
  | (k, v) :: fs => hashFields (combine (combine acc k.hash) v.hash) fs

def FunctionDecl.hash : FunctionDecl → UInt32
  | .mk ps b _ => hashStmts (hashParams Seed.function ps) b

def hashParams (acc : UInt32) : List Param → UInt32
  | [] => acc
  | p :: ps => hashParams (p.hashOnto acc) ps

def Param.hashOnto (acc : UInt32) : Param → UInt32
  | .plain n _ => combine (combine acc (Crc32.ofText n)) Seed.absent
  | .withDefault n d _ => combine (combine acc (Crc32.ofText n)) d.hash

def hashStmts (acc : UInt32) : List Stmt → UInt32
  | [] => acc
  | s :: ss => hashStmts (combine acc s.hash) ss

def hashClauses (acc : UInt32) : Clauses → UInt32
  | [] => acc
  | (c, b) :: cs => hashClauses (hashStmts (combine acc c.hash) b) cs

def hashElse (acc : UInt32) : Option (List Stmt) → UInt32
  | none => acc
  | some b => hashStmts (combine acc (Crc32.ofText "else")) b

def Stmt.hash : Stmt → UInt32
  | .assign t i _ => combine (combine Seed.statement t.hash) i.hash
  | .expr e => combine Seed.statement e.hash
  | .cond cs o _ => hashElse (hashClauses (combine Seed.statement (Crc32.ofText "if")) cs) o
  | .whileLoop c b _ =>
    hashStmts (combine (combine Seed.statement (Crc32.ofText "while")) c.hash) b
  | .forLoop v i b _ =>
    hashStmts (combine (combine (combine Seed.statement (Crc32.ofText "for")) v.hash) i.hash) b
  | .ret a _ => combine (combine Seed.statement (Crc32.ofText "return")) (hashOption a)
  | .exit _ => combine Seed.statement (Crc32.ofText "break")
  | .next _ => combine Seed.statement (Crc32.ofText "continue")

end

end ScriptInference
