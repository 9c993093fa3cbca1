import ScriptInference.Number.Numeral

/-!
# Reading numerals

Readers take what they recognise off the front of a list of characters and return the rest. The
plain reading of a number is the counterpart of its plain text and accepts a little more: a sign of
either kind, a missing side of the point, an exponent.
-/

namespace ScriptInference

namespace Numeral

def spanDigits : List Char → List Digit × List Char
  | [] => ([], [])
  | c :: rest =>
    match Digit.ofChar? c with
    | some d =>
      let r := spanDigits rest
      (d :: r.1, r.2)
    | none => ([], c :: rest)

/-- At least one digit. -/
def readDigits (cs : List Char) : Option (List Digit × List Char) :=
  match spanDigits cs with
  | ([], _) => none
  | r => some r

def readSign : List Char → Bool × List Char
  | '-' :: cs => (true, cs)
  | '+' :: cs => (false, cs)
  | cs => (false, cs)

def readPower (cs : List Char) : Option (Option Int × List Char) := do
  let (neg, cs) := readSign cs
  let (ds, cs) ← readDigits cs
  let n : Int := Digit.value ds
  return (some (if neg then -n else n), cs)

def readExponent : List Char → Option (Option Int × List Char)
  | 'e' :: cs => readPower cs
  | 'E' :: cs => readPower cs
  | cs => some (none, cs)

/-- Digits after a point, of which there may be none. -/
def spanFraction : List Char → List Digit × List Char
  | '.' :: cs => spanDigits cs
  | cs => ([], cs)

def ofText? (s : String) : Option Numeral := do
  let (negative, cs) := readSign s.toList
  let (whole, cs) := spanDigits cs
  let (fraction, cs) := spanFraction cs
  let (exponent, cs) ← readExponent cs
  if cs.isEmpty && !(whole.isEmpty && fraction.isEmpty) then
    return { negative, whole, fraction, exponent }
  else none

end Numeral

/-- The number that a plain text stands for, correctly rounded. -/
def Binary64.ofText? (s : String) : Option Binary64 :=
  if s = "NaN" then some .nan
  else if s = "inf" || s = "+inf" then some (.infinity false)
  else if s = "-inf" then some (.infinity true)
  else (Numeral.ofText? s).map Numeral.nearest

end ScriptInference
