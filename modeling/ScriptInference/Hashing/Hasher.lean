import ScriptInference.Collection.RecencyCache
import ScriptInference.Hashing.CanonicalId
import ScriptInference.Syntax.Equality

/-!
# Hashing with a cache and a memo

A hasher computes structural hashes and canonical ids and remembers two things. Checksums of strings
go through a recency cache, which belongs to the hasher. Hashes and ids of whole nodes are kept in a
memo, which belongs to the nodes and may be filled by any hasher. Neither changes a result.

The definitions below repeat the rules of `Expr.hash` and `Expr.id` in the order in which the
strings of an expression are looked up.
-/

namespace ScriptInference

/-- Results already known for nodes. -/
structure Memo where
  hashes : List (Expr × UInt32) := []
  ids : List (Expr × String) := []

namespace Memo

def hash? (m : Memo) (e : Expr) : Option UInt32 := (m.hashes.find? (fun p => p.1 = e)).map (·.2)

def id? (m : Memo) (e : Expr) : Option String := (m.ids.find? (fun p => p.1 = e)).map (·.2)

def putHash (m : Memo) (e : Expr) (h : UInt32) : Memo := { m with hashes := (e, h) :: m.hashes }

def putId (m : Memo) (e : Expr) (id : String) : Memo := { m with ids := (e, id) :: m.ids }

end Memo

structure Hasher where
  strings : RecencyCache String UInt32
  memo : Memo := {}

namespace Hasher

abbrev HashM (α : Type) := StateM Hasher α

def new (capacity : Nat) : Hasher := { strings := .new capacity }

/-- A hasher whose string cache has room for all its slots, if that much can be reserved. -/
def reserve (capacity : Nat) : Except CapacityError Hasher :=
  (RecencyCache.reserve capacity).map fun strings => { strings }

def cachedStrings (h : Hasher) : Nat := h.strings.size

/-- The checksum of a string, from the cache if it is there. -/
def text (s : String) : HashM UInt32 := do
  let h ← get
  match h.strings.get? s with
  | (some v, strings) =>
    set { h with strings }
    return v
  | (none, strings) =>
    let v := Crc32.ofText s
    set { h with strings := (strings.set s v).2 }
    return v

/-- The remembered result, or a computed one that is then remembered. -/
def remember {α : Type} (known? : Memo → Option α) (put : Memo → α → Memo) (compute : HashM α) :
    HashM α := do
  match known? (← get).memo with
  | some v => return v
  | none =>
    let v ← compute
    modify fun h => { h with memo := put h.memo v }
    return v

def memoHash (e : Expr) : HashM UInt32 → HashM UInt32 := remember (·.hash? e) (·.putHash e)

def memoId (e : Expr) : HashM String → HashM String := remember (·.id? e) (·.putId e)

def identifierHash (name : String) : HashM UInt32 :=
  return combine (identifierSeed name) (← text name)

def memberHash (base : Expr) (baseHash : HashM UInt32) (name : String) : HashM UInt32 :=
  if base.isLocals then identifierHash name
  else do
    let b ← baseHash
    let n ← text name
    return combine (combine Seed.member b) n

mutual

def hash : Expr → HashM UInt32
  | .nil s => memoHash (.nil s) (return Seed.nil)
  | .string v s => memoHash (.string v s) (return combine Seed.string (← text v))
  | .number v s => memoHash (.number v s) (return combine Seed.number v.fold32)
  | .boolean v s => memoHash (.boolean v s) (return combine Seed.boolean (if v then 1 else 0))
  | .identifier n s => memoHash (.identifier n s) (identifierHash n)
  | .member b n s => memoHash (.member b n s) (memberHash b (hash b) n)
  | .index b i s => memoHash (.index b i s) <|
    match i.stringLiteral? with
    | some n => memberHash b (hash b) n
    | none => return combine (combine Seed.index (← hash b)) (← hash i)
  | .slice b l r s => memoHash (.slice b l r s) do
    let acc := combine (combine Seed.slice (← hash b)) (← hashOption l)
    return combine acc (← hashOption r)
  | .call b as s =>
    memoHash (.call b as s) (do hashExprs (combine Seed.call (← hash b)) as)
  | .unary o a s =>
    memoHash (.unary o a s) (return combine (combine Seed.unary (← text o.symbol)) (← hash a))
  | .binary l o r s => memoHash (.binary l o r s) do
    let acc := combine (combine Seed.binary (← hash l)) (← text o.symbol)
    return combine acc (← hash r)
  | .map fs s => memoHash (.map fs s) (hashFields Seed.map fs)
  | .list is s => memoHash (.list is s) (hashExprs Seed.list is)
  | .function d s => memoHash (.function d s) (hashFunction d)
  | .unknown k s => memoHash (.unknown k s) (return combine Seed.unknown (← text k))

def hashOption : Option Expr → HashM UInt32
  | none => return Seed.absent
  | some e => hash e

def hashExprs (acc : UInt32) : List Expr → HashM UInt32
  | [] => return acc
  | e :: es => do hashExprs (combine acc (← hash e)) es

def hashFields (acc : UInt32) : Fields → HashM UInt32
  | [] => return acc
  | (k, v) :: fs => do hashFields (combine (combine acc (← hash k)) (← hash v)) fs

def hashFunction : FunctionDecl → HashM UInt32
  | .mk ps b _ => do hashStmts (← hashParams Seed.function ps) b

def hashParams (acc : UInt32) : List Param → HashM UInt32
  | [] => return acc
  | p :: ps => do hashParams (← hashParam acc p) ps

def hashParam (acc : UInt32) : Param → HashM UInt32
  | .plain n _ => return combine (combine acc (← text n)) Seed.absent
  | .withDefault n d _ => return combine (combine acc (← text n)) (← hash d)

def hashStmts (acc : UInt32) : List Stmt → HashM UInt32
  | [] => return acc
  | s :: ss => do hashStmts (combine acc (← hashStmt s)) ss

def hashClauses (acc : UInt32) : Clauses → HashM UInt32
  | [] => return acc
  | (c, b) :: cs => do hashClauses (← hashStmts (combine acc (← hash c)) b) cs

def hashElse (acc : UInt32) : Option (List Stmt) → HashM UInt32
  | none => return acc
  | some b => do hashStmts (combine acc (← text "else")) b

def hashStmt : Stmt → HashM UInt32
  | .assign t i _ => return combine (combine Seed.statement (← hash t)) (← hash i)
  | .expr e => return combine Seed.statement (← hash e)
  | .cond cs o _ => do
    hashElse (← hashClauses (combine Seed.statement (← text "if")) cs) o
  | .whileLoop c b _ => do
    hashStmts (combine (combine Seed.statement (← text "while")) (← hash c)) b
  | .forLoop v i b _ => do
    hashStmts (combine (combine (combine Seed.statement (← text "for")) (← hash v)) (← hash i)) b
  | .ret a _ => return combine (combine Seed.statement (← text "return")) (← hashOption a)
  | .exit _ => return combine Seed.statement (← text "break")
  | .next _ => return combine Seed.statement (← text "continue")

end

def memberId (base : Expr) (baseId : HashM String) (name : String) : HashM String :=
  if base.isLocals then return name else return (← baseId) ++ "." ++ name

mutual

def id : Expr → HashM String
  | .nil s => memoId (.nil s) (return "null")
  | .string v s => memoId (.string v s) (return Json.quote v)
  | .number v s => memoId (.number v s) (return v.plainText)
  | .boolean v s => memoId (.boolean v s) (return if v then "true" else "false")
  | .identifier n s => memoId (.identifier n s) (return n)
  | .member b n s => memoId (.member b n s) (memberId b (id b) n)
  | .index b i s => memoId (.index b i s) <|
    match i.stringLiteral? with
    | some n => memberId b (id b) n
    | none => return (← id b) ++ "[" ++ (← id i) ++ "]"
  | .slice b l r s => memoId (.slice b l r s)
      (return (← id b) ++ "[" ++ (← idOption l) ++ ":" ++ (← idOption r) ++ "]")
  | .call b as s =>
    memoId (.call b as s) (return (← id b) ++ "(" ++ commaList (← idExprs as) ++ ")")
  | .unary o a s => memoId (.unary o a s) (return o.symbol ++ (← id a))
  | .binary l o r s => memoId (.binary l o r s)
      (return "(" ++ (← id l) ++ " " ++ o.symbol ++ " " ++ (← id r) ++ ")")
  | .map fs s => memoId (.map fs s) (return braced (commaList (← idFields fs)))
  | .list is s => memoId (.list is s) (return "[" ++ commaList (← idExprs is) ++ "]")
  | .function d s => memoId (.function d s) (idFunction d)
  | .unknown k s => memoId (.unknown k s) (return "<" ++ k ++ ">")

def idOption : Option Expr → HashM String
  | none => return ""
  | some e => id e

def idExprs : List Expr → HashM (List String)
  | [] => return []
  | e :: es => return (← id e) :: (← idExprs es)

def idFields : Fields → HashM (List String)
  | [] => return []
  | (k, v) :: fs => return ((← id k) ++ ":" ++ (← id v)) :: (← idFields fs)

def idFunction : FunctionDecl → HashM String
  | .mk ps b _ => do
    let parameters := commaList (← idParams ps)
    return "function(" ++ parameters ++ ")" ++ braced (String.intercalate ";" (← idStmts b))

def idParams : List Param → HashM (List String)
  | [] => return []
  | p :: ps => return (← idParam p) :: (← idParams ps)

def idParam : Param → HashM String
  | .plain n _ => return n
  | .withDefault n d _ => return n ++ "=" ++ (← id d)

def idStmts : List Stmt → HashM (List String)
  | [] => return []
  | s :: ss => return (← idStmt s) :: (← idStmts ss)

def idElse : Option (List Stmt) → HashM (Option String)
  | none => return none
  | some b => return some (String.intercalate ";" (← idStmts b))

def idClauses : Clauses → HashM (List String)
  | [] => return []
  | (c, b) :: cs => do
    let clause := "if " ++ (← id c) ++ " then " ++ String.intercalate ";" (← idStmts b)
    return clause :: (← idClauses cs)

def idStmt : Stmt → HashM String
  | .assign t i _ => return (← id t) ++ "=" ++ (← id i)
  | .expr e => id e
  | .cond cs o _ => return condId (← idClauses cs) (← idElse o)
  | .whileLoop c b _ =>
    return "while " ++ (← id c) ++ " " ++ String.intercalate ";" (← idStmts b) ++ " end"
  | .forLoop v i b _ => do
    let head := "for " ++ (← id v) ++ " in " ++ (← id i) ++ " "
    return head ++ String.intercalate ";" (← idStmts b) ++ " end"
  | .ret (some a) _ => return "return " ++ (← id a)
  | .ret none _ => return "return"
  | .exit _ => return "break"
  | .next _ => return "continue"

end

end Hasher

end ScriptInference
