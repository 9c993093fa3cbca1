import ScriptInference.Number.Binary64

/-!
# The fewest decimal digits that determine a number

Among the decimals that round to a given finite pattern, the shortest ones are found by trying one
digit, two digits and so on. On the grid of decimals with `n` significant digits only the two
neighbours of the value can be nearest to it; the first grid with a neighbour inside the rounding
interval wins, and of two such neighbours the nearer one. All comparisons are between natural
numbers.
-/

namespace ScriptInference

/-- The number `digits · 10^scale`. -/
structure Decimal where
  digits : Nat
  scale : Int
  deriving DecidableEq, Repr

/-- Which of two equally near decimals is taken. -/
inductive TieRule where
  | toEven
  | up
  deriving DecidableEq, Repr

namespace Binary64

/-- A positive rational by its numerator and denominator. -/
structure Ratio where
  num : Nat
  den : Nat

namespace Ratio

def le (a b : Ratio) : Bool := a.num * b.den ≤ b.num * a.den

def lt (a b : Ratio) : Bool := a.num * b.den < b.num * a.den

def ofBinary (m : Nat) (q : Int) : Ratio :=
  if q < 0 then ⟨m, Nat.pow 2 q.natAbs⟩ else ⟨m * Nat.pow 2 q.natAbs, 1⟩

def ofDecimal (d : Decimal) : Ratio :=
  if d.scale < 0 then ⟨d.digits, Nat.pow 10 d.scale.natAbs⟩
  else ⟨d.digits * Nat.pow 10 d.scale.natAbs, 1⟩

/-- The floor of `a / 10^scale`. -/
def floorAt (a : Ratio) (scale : Int) : Nat :=
  if scale < 0 then a.num * Nat.pow 10 scale.natAbs / a.den
  else a.num / (a.den * Nat.pow 10 scale.natAbs)

/-- Sign of `(hi - a) - (a - lo)`: where `a` lies relative to the middle of `lo` and `hi`. -/
def compareMiddle (lo a hi : Ratio) : Ordering :=
  compare (2 * a.num * lo.den * hi.den) ((lo.num * hi.den + hi.num * lo.den) * a.den)

end Ratio

/-- The reals that round to a pattern, by their two ends. -/
structure Interval where
  lower : Ratio
  value : Ratio
  upper : Ratio
  closed : Bool

/-- The rounding interval of a finite pattern that is not zero. The gap below a power of two is half
as wide as the gap above it. -/
def interval (x : Binary64) : Interval :=
  let m := x.significand
  let q := x.exponent - 2
  let below := if x.fractionField = 0 ∧ 1 < x.exponentField then 1 else 2
  { lower := .ofBinary (4 * m - below) q
    value := .ofBinary (4 * m) q
    upper := .ofBinary (4 * m + 2) q
    closed := m % 2 = 0 }

def Interval.contains (i : Interval) (d : Decimal) : Bool :=
  let r := Ratio.ofDecimal d
  if i.closed then i.lower.le r && r.le i.upper else i.lower.lt r && r.lt i.upper

/-- The exponent of the leading decimal digit of a positive ratio. -/
def leadingExponent (a : Ratio) : Int :=
  let guess : Int := ((a.num.log2 : Int) - (a.den.log2 : Int)) * 30103 / 100000
  if a.lt (.ofDecimal ⟨1, guess⟩) then guess - 1
  else if (Ratio.ofDecimal ⟨1, guess + 1⟩).le a then guess + 1
  else guess

/-- The neighbour of the value on the grid of step `10^scale` that rounds to the pattern, if any. -/
def gridNeighbour (tie : TieRule) (i : Interval) (scale : Int) : Option Decimal :=
  let d := i.value.floorAt scale
  let lower : Decimal := ⟨d, scale⟩
  let upper : Decimal := ⟨d + 1, scale⟩
  match i.contains lower, i.contains upper with
  | false, false => none
  | true, false => some lower
  | false, true => some upper
  | true, true =>
    match Ratio.compareMiddle (.ofDecimal lower) i.value (.ofDecimal upper) with
    | .lt => some lower
    | .gt => some upper
    | .eq =>
      match tie with
      | .up => some upper
      | .toEven => some (if d % 2 = 0 then lower else upper)

/-- Tries ever finer grids, at most `n` more of them. -/
def searchGrids (tie : TieRule) (i : Interval) : Nat → Int → Decimal
  | 0, scale => ⟨i.value.floorAt scale, scale⟩
  | n + 1, scale => (gridNeighbour tie i scale).getD (searchGrids tie i n (scale - 1))

/-- Moves trailing zeros of the digits into the scale, at most `n` of them. -/
def stripZeros : Nat → Decimal → Decimal
  | 0, d => d
  | n + 1, d => if d.digits % 10 = 0 then stripZeros n ⟨d.digits / 10, d.scale + 1⟩ else d

/-- The shortest decimal that rounds to a finite pattern other than zero, without its sign.
Seventeen digits always suffice. -/
def shortest (tie : TieRule) (x : Binary64) : Decimal :=
  let i := x.interval
  stripZeros 17 (searchGrids tie i 17 (leadingExponent i.value))

end Binary64

end ScriptInference
