import ScriptInference.Hashing.CanonicalId
import ScriptInference.Json.Parser

/-!
# Reading canonical ids

A reader for canonical ids. A name extends to the first character that may follow an expression;
everything else is told by the character or the word it starts with. Accesses are read from left to
right onto the expression read so far, and a sign or a word in front applies to the whole access
that follows it.

Not every id can be read back. An expression is *plain* when its names hold none of the characters
that end a name and are not taken for something else, when no sign is hidden in a number or in the
base of an access, and when no alternative starts with a conditional of its own.
-/

namespace ScriptInference

namespace IdReader

/-- What ends a name. -/
def endsName (c : Char) : Bool := ".[](),:;=\x7d ".toList.contains c

/-- What may follow a complete expression; an access may follow a part of one. -/
def closes (c : Char) : Bool := "]),:;=\x7d ".toList.contains c

/-- What an expression that starts with no word starts with. -/
def opens (c : Char) : Bool := "@-\"([\x7b<".toList.contains c || (Digit.ofChar? c).isSome

def spanName (cs : List Char) : String × List Char :=
  (String.ofList (cs.takeWhile (!endsName ·)), cs.dropWhile (!endsName ·))

/-- The word that a text starts with, if any. -/
def leadingWord : List Char → String
  | [] => ""
  | c :: cs => if opens c then "" else (spanName (c :: cs)).1

/-- Takes a fixed text off the front. -/
def expect (text : String) (cs : List Char) : Option (List Char) :=
  if text.toList.isPrefixOf cs then some (cs.drop text.length) else none

/-- A point belongs to a number when a digit follows it. -/
def readNumber (cs : List Char) : Binary64 × List Char :=
  let whole := Numeral.spanDigits cs
  let fraction := Numeral.spanFraction whole.2
  if fraction.1.isEmpty then (Numeral.nearest { whole := whole.1 }, whole.2)
  else (Numeral.nearest { whole := whole.1, fraction := fraction.1 }, fraction.2)

def readSymbol (cs : List Char) : Option (BinaryOp × List Char) :=
  (BinaryOp.all.find? fun o => o.symbol = String.ofList (cs.takeWhile (· ≠ ' '))).map
    fun o => (o, cs.dropWhile (· ≠ ' '))

section

variable {α : Type} (item : List Char → Option (α × List Char))

/-- Items with a separator between them. -/
def readSeparated (separator : Char) : Nat → List Char → Option (List α × List Char)
  | 0, _ => none
  | n + 1, cs =>
    match item cs with
    | none => none
    | some (a, []) => some ([a], [])
    | some (a, c :: rest) =>
      if c = separator then (readSeparated separator n rest).map fun r => (a :: r.1, r.2)
      else some ([a], c :: rest)

/-- Items with a separator between them and a closing character behind them; there may be none. -/
def readList (separator close : Char) (n : Nat) : List Char → Option (List α × List Char)
  | [] => none
  | c :: cs =>
    if c = close then some ([], cs)
    else
      match readSeparated item separator n (c :: cs) with
      | some (as, d :: rest) => if d = close then some (as, rest) else none
      | _ => none

/-- The statements of a conditional or a loop, up to the blank before what follows them. -/
def readBody (n : Nat) : List Char → Option (List α × List Char)
  | ' ' :: cs => some ([], ' ' :: cs)
  | cs => readSeparated item ';' n cs

end

section

variable (expr : List Char → Option (Expr × List Char))

def readField (cs : List Char) : Option ((Expr × Expr) × List Char) :=
  match expr cs with
  | some (k, ':' :: cs) => (expr cs).map fun r => ((k, r.1), r.2)
  | _ => none

def readParam (cs : List Char) : Option (Param × List Char) :=
  match spanName cs with
  | (name, '=' :: cs) => (expr cs).map fun r => (.withDefault name r.1 default, r.2)
  | (name, cs) => some (.plain name default, cs)

/-- The right end of a slice, after its colon. -/
def readRight : List Char → Option (Option Expr × List Char)
  | ']' :: cs => some (none, cs)
  | cs =>
    match expr cs with
    | some (r, ']' :: cs) => some (some r, cs)
    | _ => none

/-- What stands between the brackets after a base. -/
def readKey (base : Expr) : List Char → Option (Expr × List Char)
  | ':' :: cs => (readRight expr cs).map fun r => (.slice base none r.1 default, r.2)
  | cs =>
    match expr cs with
    | some (i, ']' :: cs) => some (.index base i default, cs)
    | some (i, ':' :: cs) =>
      (readRight expr cs).map fun r => (.slice base (some i) r.1 default, r.2)
    | _ => none

/-- A binary operation after its opening parenthesis. -/
def readBinary (cs : List Char) : Option (Expr × List Char) :=
  match expr cs with
  | some (l, ' ' :: cs) =>
    match readSymbol cs with
    | some (o, ' ' :: cs) =>
      match expr cs with
      | some (r, ')' :: cs) => some (.binary l o r default, cs)
      | _ => none
    | _ => none
  | _ => none

variable (stmt : List Char → Option (Stmt × List Char))

/-- A function after its keyword. -/
def readFunction (n : Nat) (cs : List Char) : Option (Expr × List Char) := do
  let cs ← expect "(" cs
  let (parameters, cs) ← readList (readParam expr) ',' ')' n cs
  let cs ← expect "\x7b" cs
  let (body, cs) ← readList stmt ';' '\x7d' n cs
  return (.function (.mk parameters body default) default, cs)

/-- What a word and the text behind it stand for. -/
def readWord (function : List Char → Option (Expr × List Char)) (word : String) (rest : List Char) :
    Option (Expr × List Char) :=
  match word with
  | "null" => some (.nil default, rest)
  | "true" => some (.boolean true default, rest)
  | "false" => some (.boolean false default, rest)
  | "function" => function rest
  | name => some (.identifier name default, rest)

/-- The clauses and the alternative of a conditional, up to its end. -/
def readClauses (n : Nat) :
    Nat → List Char → Option ((Clauses × Option (List Stmt)) × List Char)
  | 0, _ => none
  | m + 1, cs => do
    let cs ← expect "if " cs
    let (condition, cs) ← expr cs
    let cs ← expect " then " cs
    let (body, cs) ← readBody stmt n cs
    match expect " else " cs with
    | none =>
      let cs ← expect " end" cs
      return (([(condition, body)], none), cs)
    | some cs =>
      if leadingWord cs = "if" then
        let (r, cs) ← readClauses n m cs
        return (((condition, body) :: r.1, r.2), cs)
      else
        let (otherwise, cs) ← readBody stmt n cs
        let cs ← expect " end" cs
        return (([(condition, body)], some otherwise), cs)

def readWhile (n : Nat) (cs : List Char) : Option (Stmt × List Char) := do
  let cs ← expect "while " cs
  let (condition, cs) ← expr cs
  let cs ← expect " " cs
  let (body, cs) ← readBody stmt n cs
  let cs ← expect " end" cs
  return (.whileLoop condition body default, cs)

def readFor (n : Nat) (cs : List Char) : Option (Stmt × List Char) := do
  let cs ← expect "for " cs
  let (element, cs) ← expr cs
  let cs ← expect " in " cs
  let (iterator, cs) ← expr cs
  let cs ← expect " " cs
  let (body, cs) ← readBody stmt n cs
  let cs ← expect " end" cs
  return (.forLoop element iterator body default, cs)

/-- A return has no argument when a block ends behind it. -/
def readReturn (cs : List Char) : Option (Stmt × List Char) :=
  match expect "return" cs with
  | none => none
  | some (' ' :: cs) =>
    if leadingWord cs = "end" ∨ leadingWord cs = "else" then some (.ret none default, ' ' :: cs)
    else (expr cs).map fun r => (.ret (some r.1) default, r.2)
  | some cs => some (.ret none default, cs)

def readAssignment (cs : List Char) : Option (Stmt × List Char) :=
  match expr cs with
  | none => none
  | some (t, '=' :: cs) => (expr cs).map fun r => (.assign t r.1 default, r.2)
  | some (e, cs) => some (.expr e, cs)

end

mutual

def readExpr : Nat → List Char → Option (Expr × List Char)
  | 0, _ => none
  | fuel + 1, cs =>
    match cs with
    | '@' :: cs => (readExpr fuel cs).map fun r => (.unary .reference r.1 default, r.2)
    | '-' :: cs => (readExpr fuel cs).map fun r => (.unary .negate r.1 default, r.2)
    | cs =>
      if leadingWord cs = "new" then
        (expect "new " cs).bind fun cs => (readExpr fuel cs).map fun r =>
          (.unary .new r.1 default, r.2)
      else if leadingWord cs = "not" then
        (expect "not " cs).bind fun cs => (readExpr fuel cs).map fun r =>
          (.unary .not r.1 default, r.2)
      else (readBase fuel cs).bind fun r => readHops fuel r.1 r.2

/-- An expression that no sign or word applies to, without the accesses behind it. -/
def readBase : Nat → List Char → Option (Expr × List Char)
  | 0, _ => none
  | fuel + 1, cs =>
    match cs with
    | '"' :: cs => (Json.readString cs).bind fun r => r.1.map fun s => (.string s default, r.2)
    | '(' :: cs => readBinary (readExpr fuel) cs
    | '[' :: cs => (readList (readExpr fuel) ',' ']' fuel cs).map fun r => (.list r.1 default, r.2)
    | '\x7b' :: cs =>
      (readList (readField (readExpr fuel)) ',' '\x7d' fuel cs).map fun r => (.map r.1 default, r.2)
    | '<' :: cs =>
      some (.unknown (String.ofList (cs.takeWhile (· ≠ '>'))) default,
        (cs.dropWhile (· ≠ '>')).tail)
    | cs =>
      if leadingWord cs = "" then some (.number (readNumber cs).1 default, (readNumber cs).2)
      else readWord (readFunction (readExpr fuel) (readStmt fuel) fuel) (leadingWord cs)
        (spanName cs).2

/-- The accesses behind an expression, as far as there are any. -/
def readHops : Nat → Expr → List Char → Option (Expr × List Char)
  | 0, _, _ => none
  | fuel + 1, e, cs =>
    match cs with
    | '.' :: cs => readHops fuel (.member e (spanName cs).1 default) (spanName cs).2
    | '[' :: cs => (readKey (readExpr fuel) e cs).bind fun r => readHops fuel r.1 r.2
    | '(' :: cs =>
      (readList (readExpr fuel) ',' ')' fuel cs).bind
        fun r => readHops fuel (.call e r.1 default) r.2
    | cs => some (e, cs)

def readStmt : Nat → List Char → Option (Stmt × List Char)
  | 0, _ => none
  | fuel + 1, cs =>
    match leadingWord cs with
    | "if" => (readClauses (readExpr fuel) (readStmt fuel) fuel fuel cs).map fun r =>
        (.cond r.1.1 r.1.2 default, r.2)
    | "while" => readWhile (readExpr fuel) (readStmt fuel) fuel cs
    | "for" => readFor (readExpr fuel) (readStmt fuel) fuel cs
    | "return" => readReturn (readExpr fuel) cs
    | "break" => some (.exit default, (spanName cs).2)
    | "continue" => some (.next default, (spanName cs).2)
    | _ => readAssignment (readExpr fuel) cs

end

/-- Words that are read as something other than an identifier. -/
def keywords : List String :=
  ["new", "not", "null", "true", "false", "function", "if", "while", "for", "return", "break",
    "continue", "end", "else"]

def isName (s : String) : Bool := s ≠ "" && s.toList.all (!endsName ·)

/-- A name that does not start like anything else. -/
def isWord (s : String) : Bool := isName s && !(s.toList.head?.any opens)

def isIdentifier (s : String) : Bool := isWord s && !keywords.contains s

end IdReader

open IdReader

namespace Expr

def isUnary : Expr → Bool
  | unary _ _ _ => true
  | _ => false

def isNumber : Expr → Bool
  | number _ _ => true
  | _ => false

end Expr

def Stmt.isConditional : Stmt → Bool
  | .cond _ _ _ => true
  | _ => false

mutual

/-- The expression can be told from its canonical id. Written `a.b`, an access is plain; written
`a["b"]` or `locals.b` it is not. -/
def Expr.isPlain : Expr → Bool
  | .nil _ | .string _ _ => true
  | .number x _ => x.isFinite && !x.negative
  | .boolean _ _ => true
  | .identifier n _ => isIdentifier n
  | .member b n _ =>
    b.isPlain && !b.isUnary && !b.isLocals && isName n &&
      !(b.isNumber && n.toList.head?.any fun c => (Digit.ofChar? c).isSome)
  | .index b i _ => b.isPlain && !b.isUnary && i.isPlain && i.stringLiteral?.isNone
  | .slice b l r _ => b.isPlain && !b.isUnary && plainOption l && plainOption r
  | .call b as _ => b.isPlain && !b.isUnary && plainExprs as
  | .unary _ a _ => a.isPlain
  | .binary l _ r _ => l.isPlain && r.isPlain
  | .map fs _ => plainFields fs
  | .list is _ => plainExprs is
  | .function d _ => d.isPlain
  | .unknown k _ => k.toList.all (· ≠ '>')

def plainOption : Option Expr → Bool
  | none => true
  | some e => e.isPlain

def plainExprs : List Expr → Bool
  | [] => true
  | e :: es => e.isPlain && plainExprs es

def plainFields : Fields → Bool
  | [] => true
  | (k, v) :: fs => k.isPlain && v.isPlain && plainFields fs

def FunctionDecl.isPlain : FunctionDecl → Bool
  | .mk ps b _ => plainParams ps && plainStmts b

def plainParams : List Param → Bool
  | [] => true
  | p :: ps => p.isPlain && plainParams ps

def Param.isPlain : Param → Bool
  | .plain n _ => isName n
  | .withDefault n d _ => isName n && d.isPlain

def plainStmts : List Stmt → Bool
  | [] => true
  | s :: ss => s.isPlain && plainStmts ss

def plainBody : Option (List Stmt) → Bool
  | none => true
  | some b => plainStmts b && !(b.head?.any Stmt.isConditional)

def plainClauses : Clauses → Bool
  | [] => true
  | (c, b) :: cs => c.isPlain && plainStmts b && plainClauses cs

def Stmt.isPlain : Stmt → Bool
  | .assign t i _ => t.isPlain && i.isPlain
  | .expr e => e.isPlain
  | .cond cs o _ => !cs.isEmpty && plainClauses cs && plainBody o
  | .whileLoop c b _ => c.isPlain && plainStmts b
  | .forLoop v i b _ => v.isPlain && i.isPlain && plainStmts b
  | .ret a _ => plainOption a
  | .exit _ | .next _ => true

end

end ScriptInference
