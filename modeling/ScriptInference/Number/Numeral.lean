import ScriptInference.Number.Shortest

/-!
# Decimal numerals

A `Numeral` is the spelling of a number: a sign, the digits before and after the point, and an
exponent. It is what a number format writes and what a text of digits is read into; the two readings
of a numeral as a `Binary64` are `Numeral.nearest`, correctly rounded, and `Numeral.scaled?`, which
computes with the first digits that fit 64 bits and rounds after each of at most a few operations.
-/

namespace ScriptInference

abbrev Digit := Fin 10

namespace Digit

def toChar (d : Digit) : Char := Char.ofNat (d.val + '0'.toNat)

def ofChar? (c : Char) : Option Digit :=
  if h : '0' ≤ c ∧ c ≤ '9' then
    some ⟨c.toNat - '0'.toNat, by
      obtain ⟨h₁, h₂⟩ := h
      have h₁ : '0'.toNat ≤ c.toNat := h₁
      have h₂ : c.toNat ≤ '9'.toNat := h₂
      simp at h₁ h₂ ⊢
      omega⟩
  else none

/-- The number written by a list of digits, most significant first. -/
def value (ds : List Digit) : Nat := ds.foldl (fun n d => n * 10 + d.val) 0

def ofNatFuel : Nat → Nat → List Digit → List Digit
  | 0, _, acc => acc
  | fuel + 1, n, acc =>
    let acc := Fin.ofNat 10 n :: acc
    if n / 10 = 0 then acc else ofNatFuel fuel (n / 10) acc

/-- The decimal digits of a natural, most significant first; zero has one digit. -/
def ofNat (n : Nat) : List Digit := ofNatFuel (n.log2 + 1) n []

end Digit

structure Numeral where
  negative : Bool := false
  whole : List Digit
  fraction : List Digit := []
  exponent : Option Int := none
  deriving DecidableEq, Repr

namespace Numeral

def ofNat (n : Nat) : Numeral := { whole := Digit.ofNat n }

def ofInt (n : Int) : Numeral := { negative := n < 0, whole := Digit.ofNat n.natAbs }

/-- The spelling, with an explicit sign on the exponent. -/
def chars (n : Numeral) : List Char :=
  (if n.negative then ['-'] else []) ++ n.whole.map Digit.toChar ++
    (if n.fraction.isEmpty then [] else '.' :: n.fraction.map Digit.toChar) ++
    match n.exponent with
    | none => []
    | some e => 'e' :: (if e < 0 then '-' else '+') :: (Digit.ofNat e.natAbs).map Digit.toChar

def text (n : Numeral) : String := String.ofList n.chars

/-- The natural of 64 bits that a numeral without sign, point and exponent stands for. -/
def toUInt64? (n : Numeral) : Option UInt64 :=
  if n.negative || !n.fraction.isEmpty || n.exponent.isSome then none
  else if Digit.value n.whole < Nat.pow 2 64 then some (UInt64.ofNat (Digit.value n.whole))
    else none

/-- The nearest pattern. -/
def nearest (n : Numeral) : Binary64 :=
  .ofDecimal n.negative (Digit.value (n.whole ++ n.fraction))
    (n.exponent.getD 0 - n.fraction.length)

/-- Takes digits while the number stays below `2^64`; the result also counts the digits taken. -/
def takeDigits (start : Nat) : List Digit → Nat × Nat
  | [] => (start, 0)
  | d :: rest =>
    let next := start * 10 + d.val
    if Nat.pow 2 64 ≤ next then (start, 0)
    else
      let r := takeDigits next rest
      (r.1, r.2 + 1)

/-- The greatest power of ten below the greatest pattern. -/
def maxPower : Nat := 308

def powerOfTen (n : Nat) : Binary64 := .ofNat (Nat.pow 10 n)

/-- Divides by `10^n` in steps of at most `10^308`, the whole steps first. -/
def divideDown : Nat → Binary64 → Nat → Binary64
  | 0, x, n => x.div (powerOfTen n)
  | steps + 1, x, n =>
    if n ≤ maxPower then x.div (powerOfTen n)
    else if x.isZero then x
    else divideDown steps (x.div (powerOfTen maxPower)) (n - maxPower)

/-- The number `digits · 10^scale` computed in floating point; `none` when it exceeds every finite
pattern. -/
def scale? (digits : Nat) (scale : Int) : Option Binary64 :=
  let x := Binary64.ofNat digits
  if scale < 0 then some (divideDown (scale.natAbs / maxPower) x scale.natAbs)
  else if scale.natAbs ≤ maxPower then
    let y := x.mul (powerOfTen scale.natAbs)
    if y.isFinite then some y else none
  else if x.isZero then some x else none

/-- Reads a numeral by its leading digits: digits that no longer fit 64 bits only move the point. -/
def scaled? (n : Numeral) : Option Binary64 :=
  let whole := takeDigits 0 n.whole
  let skipped : Int := (n.whole.length - whole.2 : Nat)
  let all := takeDigits whole.1 n.fraction
  let magnitude :=
    if n.fraction.isEmpty && n.exponent.isNone && skipped = 0 then some (Binary64.ofNat whole.1)
    else scale? all.1 (skipped - all.2 + n.exponent.getD 0)
  magnitude.map fun x => if n.negative then x.neg else x

end Numeral

/-- How a number format spells finite numbers: the rule for ties among shortest decimals, the range
of decimal exponents written without an exponent (no bounds: all of them), and whether an integer
keeps a zero after the point. -/
structure NumberFormat where
  tie : TieRule
  positional : Option (Int × Int)
  keepPoint : Bool

namespace NumberFormat

def isPositional (f : NumberFormat) (exponent : Int) : Bool :=
  match f.positional with
  | none => true
  | some (lo, hi) => lo ≤ exponent && exponent ≤ hi

/-- Writes `digits · 10^scale` without an exponent. -/
def positionalNumeral (f : NumberFormat) (neg : Bool) (d : Decimal) : Numeral :=
  let digits := Digit.ofNat d.digits
  let pad := List.replicate d.scale.natAbs (0 : Digit)
  if 0 ≤ d.scale then
    { negative := neg, whole := digits ++ pad, fraction := if f.keepPoint then [0] else [] }
  else if d.scale.natAbs < digits.length then
    let cut := digits.length - d.scale.natAbs
    { negative := neg, whole := digits.take cut, fraction := digits.drop cut }
  else
    { negative := neg, whole := [0],
      fraction := pad.take (d.scale.natAbs - digits.length) ++ digits }

/-- Writes one digit before the point and an exponent. -/
def scientificNumeral (neg : Bool) (d : Decimal) : Numeral :=
  let digits := Digit.ofNat d.digits
  { negative := neg
    whole := digits.take 1
    fraction := digits.drop 1
    exponent := some (d.scale + digits.length - 1) }

/-- The numeral of a finite pattern. -/
def numeral (f : NumberFormat) (x : Binary64) : Numeral :=
  if x.isZero then f.positionalNumeral x.negative ⟨0, 0⟩
  else
    let d := x.shortest f.tie
    let exponent := d.scale + (Digit.ofNat d.digits).length - 1
    if f.isPositional exponent then f.positionalNumeral x.negative d
    else scientificNumeral x.negative d

/-- Plain text: never an exponent, and no point in an integer. -/
def plain : NumberFormat := { tie := .up, positional := none, keepPoint := false }

end NumberFormat

namespace Binary64

/-- The number as plain text. -/
def plainText (x : Binary64) : String :=
  if x.isNaN then "NaN"
  else if x.isInfinite then (if x.negative then "-inf" else "inf")
  else (NumberFormat.plain.numeral x).text

end Binary64

end ScriptInference
