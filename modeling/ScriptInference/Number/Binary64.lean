/-!
# Binary floating point numbers of 64 bits

A `Binary64` is a bit pattern: sign, eleven bits of exponent, 52 bits of fraction. A finite pattern
denotes `m · 2^q` with a natural `m` below `2^53`. Arithmetic is exact on natural numbers and rounds
once, to the nearest pattern and, halfway, to the one with the even significand. Only the operations
needed to read decimals are here.
-/

namespace ScriptInference

structure Binary64 where
  bits : UInt64
  deriving DecidableEq, Repr, Inhabited

namespace Binary64

/-- Least power of two a significand is scaled by. -/
def minExponent : Int := -1074

def signBit : Nat := Nat.pow 2 63

def infinityBits : Nat := 0x7ff0000000000000

def nan : Binary64 := ⟨0x7ff8000000000000⟩

def negative (x : Binary64) : Bool := signBit ≤ x.bits.toNat

/-- The pattern without its sign. -/
def absBits (x : Binary64) : Nat := x.bits.toNat % signBit

def exponentField (x : Binary64) : Nat := x.absBits / Nat.pow 2 52

def fractionField (x : Binary64) : Nat := x.absBits % Nat.pow 2 52

def isNaN (x : Binary64) : Bool := infinityBits < x.absBits

def isInfinite (x : Binary64) : Bool := x.absBits = infinityBits

def isFinite (x : Binary64) : Bool := x.absBits < infinityBits

def isZero (x : Binary64) : Bool := x.absBits = 0

/-- The natural `m` of a finite pattern `m · 2^q`. -/
def significand (x : Binary64) : Nat :=
  if x.exponentField = 0 then x.fractionField else x.fractionField + Nat.pow 2 52

/-- The exponent `q` of a finite pattern `m · 2^q`. -/
def exponent (x : Binary64) : Int := (max x.exponentField 1 : Nat) + minExponent - 1

/-- The pattern with the given sign and the bits of a magnitude. -/
def ofAbsBits (neg : Bool) (abs : Nat) : Binary64 :=
  ⟨UInt64.ofNat (if neg then abs + signBit else abs)⟩

def infinity (neg : Bool) : Binary64 := ofAbsBits neg infinityBits

def neg (x : Binary64) : Binary64 := ofAbsBits (!x.negative) x.absBits

/-- Quotient rounded to the nearest natural, a half to the even one. -/
def divHalfEven (num den : Nat) : Nat :=
  let q := num / den
  let twice := 2 * (num % den)
  if den < twice ∨ (twice = den ∧ q % 2 = 1) then q + 1 else q

/-- The quotient `num / den` scaled by `2^(-q)`, as numerator and denominator. -/
def scaleBy (num den : Nat) (q : Int) : Nat × Nat :=
  if q < 0 then (num * Nat.pow 2 q.natAbs, den) else (num, den * Nat.pow 2 q.natAbs)

/-- The exponent at which the integer part of a positive `num / den` has 53 bits, or the least
one. -/
def exponentOf (num den : Nat) : Int :=
  let q : Int := (num.log2 : Int) - (den.log2 : Int) - 53
  let scaled := scaleBy num den q
  let q := if Nat.pow 2 53 * scaled.2 ≤ scaled.1 then q + 1 else q
  max q minExponent

/-- The bits of the pattern nearest to `num / den`. -/
def nearestBits (num den : Nat) : Nat :=
  if num = 0 then 0
  else
    let q := exponentOf num den
    let scaled := scaleBy num den q
    min ((q - minExponent).toNat * Nat.pow 2 52 + divHalfEven scaled.1 scaled.2) infinityBits

/-- The pattern nearest to `± num / den`. -/
def ofRatio (neg : Bool) (num den : Nat) : Binary64 := ofAbsBits neg (nearestBits num den)

def ofNat (n : Nat) : Binary64 := ofRatio false n 1

/-- The pattern nearest to `m · 2^q · num / den`. -/
def ofScaled (neg : Bool) (m : Nat) (q : Int) (num den : Nat) : Binary64 :=
  let scaled := scaleBy (m * num) den (-q)
  ofRatio neg scaled.1 scaled.2

/-- Product of two finite patterns, rounded once. -/
def mul (x y : Binary64) : Binary64 :=
  ofScaled (x.negative != y.negative) (x.significand * y.significand) (x.exponent + y.exponent) 1 1

/-- Quotient of two finite patterns, rounded once; the divisor is not zero. -/
def div (x y : Binary64) : Binary64 :=
  ofScaled (x.negative != y.negative) x.significand (x.exponent - y.exponent) 1 y.significand

/-- The pattern nearest to `± digits · 10^scale`. -/
def ofDecimal (neg : Bool) (digits : Nat) (scale : Int) : Binary64 :=
  if digits = 0 then ofAbsBits neg 0
  else
    let magnitude : Int := (digits.log2 : Int) * 30103 / 100000 + scale
    if 400 < magnitude then infinity neg
    else if magnitude < -400 then ofAbsBits neg 0
    else if scale < 0 then ofRatio neg digits (Nat.pow 10 scale.natAbs)
    else ofRatio neg (digits * Nat.pow 10 scale.natAbs) 1

end Binary64

end ScriptInference
