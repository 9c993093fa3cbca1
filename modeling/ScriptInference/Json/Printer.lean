import ScriptInference.Json.Basic

/-!
# Writing JSON

Compact JSON text: no blanks, fields in their order. In a string the quotation mark, the backslash
and the control characters below `0x20` are escaped and everything else stands for itself.
-/

namespace ScriptInference.Json

def hexDigit (n : Nat) : Char :=
  if n < 10 then Char.ofNat (n + '0'.toNat) else Char.ofNat (n - 10 + 'a'.toNat)

def escapeChar (c : Char) : List Char :=
  if c = '"' then ['\\', '"']
  else if c = '\\' then ['\\', '\\']
  else if c = '\x08' then ['\\', 'b']
  else if c = '\x0c' then ['\\', 'f']
  else if c = '\n' then ['\\', 'n']
  else if c = '\r' then ['\\', 'r']
  else if c = '\t' then ['\\', 't']
  else if c.toNat < 0x20 then
    ['\\', 'u', '0', '0', hexDigit (c.toNat / 16), hexDigit (c.toNat % 16)]
  else [c]

def quoteChars (s : List Char) : List Char := '"' :: (s.flatMap escapeChar ++ ['"'])

def quote (s : String) : String := String.ofList (quoteChars s.toList)

/-- A string without a text is written as one unpaired surrogate. -/
def stringChars : Option String → List Char
  | some s => quoteChars s.toList
  | none => ['"', '\\', 'u', 'd', '8', '0', '0', '"']

mutual

def chars : Json → List Char
  | .null => ['n', 'u', 'l', 'l']
  | .bool true => ['t', 'r', 'u', 'e']
  | .bool false => ['f', 'a', 'l', 's', 'e']
  | .num n => n.chars
  | .string s => stringChars s
  | .arr [] => ['[', ']']
  | .arr (j :: rest) => '[' :: (chars j ++ itemChars rest)
  | .obj [] => ['{', '}']
  | .obj ((key, j) :: rest) => '{' :: (stringChars key ++ ':' :: (chars j ++ fieldChars rest))

def itemChars : List Json → List Char
  | [] => [']']
  | j :: rest => ',' :: (chars j ++ itemChars rest)

def fieldChars : List (Option String × Json) → List Char
  | [] => ['}']
  | (key, j) :: rest => ',' :: (stringChars key ++ ':' :: (chars j ++ fieldChars rest))

end

def text (j : Json) : String := String.ofList j.chars

/-- Numbers in JSON text: decimal exponents from -5 to 15 are written positionally, with at least
one digit after the point. -/
def numberFormat : NumberFormat :=
  { tie := .toEven, positional := some (-5, 15), keepPoint := true }

/-- A number that is not finite has no spelling in JSON and is written as `null`. -/
def ofBinary64 (x : Binary64) : Json :=
  if x.isFinite then .num (numberFormat.numeral x) else .null

end ScriptInference.Json
