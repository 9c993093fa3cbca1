import ScriptInference.Number.Reader
import ScriptInference.Proofs.Number.Shortest

/-!
# Numerals are read back

The digits of a natural number are its decimal expansion without leading zeros. A numeral is spelled
so that each of its readers takes exactly its own part off the front of a text, provided that what
follows does not continue the number. Hence the numeral of a finite number is read back, and read by
its nearest pattern it gives the number: the shortest digits round to it, wherever the point stands.
-/

namespace ScriptInference

variable {n fuel digits : Nat} {rest : List Char} {d : Decimal} {f : NumberFormat}

namespace Digit

theorem ofChar?_toChar (d : Digit) : ofChar? d.toChar = some d := by
  revert d
  decide

theorem value_append (ds es : List Digit) :
    value (ds ++ es) = value ds * 10 ^ es.length + value es := by
  have shift : ∀ (es : List Digit) (n : Nat),
      es.foldl (fun n d => n * 10 + d.val) n = n * 10 ^ es.length + value es := by
    intro es
    induction es with
    | nil => simp [value]
    | cons d es ih =>
      intro n
      rw [value, List.foldl_cons, List.foldl_cons, ih, ih (0 * 10 + d.val), List.length_cons,
        pow_succ]
      ring
  rw [value, List.foldl_append, shift]
  rfl

theorem value_replicate (n : Nat) : value (List.replicate n 0) = 0 := by
  induction n with
  | zero => rfl
  | succ n ih => rw [List.replicate_succ', value_append, ih]; rfl

theorem value_ofNatFuel (enough : n < 2 ^ fuel) (acc : List Digit) :
    value (ofNatFuel fuel n acc) = n * 10 ^ acc.length + value acc := by
  induction fuel generalizing n acc with
  | zero =>
    obtain rfl : n = 0 := by omega
    simp [ofNatFuel]
  | succ fuel ih =>
    have last : value (Fin.ofNat 10 n :: acc) = n % 10 * 10 ^ acc.length + value acc := by
      rw [← List.singleton_append, value_append]
      simp [value]
    unfold ofNatFuel
    dsimp only
    split
    · rename_i single
      rw [last, Nat.mod_eq_of_lt (by omega)]
    · rw [ih (by rw [pow_succ] at enough; omega), last, List.length_cons, pow_succ]
      have := Nat.div_add_mod n 10
      calc n / 10 * (10 ^ acc.length * 10) + (n % 10 * 10 ^ acc.length + value acc)
          = (10 * (n / 10) + n % 10) * 10 ^ acc.length + value acc := by ring
        _ = n * 10 ^ acc.length + value acc := by rw [this]

@[simp]
theorem value_ofNat (n : Nat) : value (ofNat n) = n := by
  rw [ofNat, value_ofNatFuel Nat.lt_log2_self]
  simp [value]

/-- The first digit is the last nonzero quotient. -/
theorem ofNatFuel_eq_cons (enough : n < 2 ^ fuel) (positive : 0 < n) (acc : List Digit) :
    ∃ d ds, ofNatFuel fuel n acc = d :: ds ∧ d ≠ 0 := by
  induction fuel generalizing n acc with
  | zero => omega
  | succ fuel ih =>
    unfold ofNatFuel
    dsimp only
    split
    · rename_i single
      refine ⟨_, _, rfl, fun zero => ?_⟩
      have := congrArg Fin.val zero
      simp only [Fin.ofNat, Fin.val_zero] at this
      omega
    · exact ih (by rw [pow_succ] at enough; omega) (by omega) _

theorem ofNat_eq_cons (positive : 0 < n) : ∃ d ds, ofNat n = d :: ds ∧ d ≠ 0 :=
  ofNatFuel_eq_cons Nat.lt_log2_self positive []

theorem ofNat_zero : ofNat 0 = [0] := rfl

theorem ofNat_ne_nil (n : Nat) : ofNat n ≠ [] := by
  rcases Nat.eq_zero_or_pos n with rfl | positive
  · rw [ofNat_zero]
    simp
  · obtain ⟨d, ds, here, -⟩ := ofNat_eq_cons positive
    rw [here]
    simp

end Digit

namespace Numeral

/-- The text does not begin with a digit. -/
def NoDigit (rest : List Char) : Prop := ∀ c cs, rest = c :: cs → Digit.ofChar? c = none

theorem spanDigits_append (ds : List Digit) (stop : NoDigit rest) :
    spanDigits (ds.map Digit.toChar ++ rest) = (ds, rest) := by
  induction ds with
  | nil =>
    cases rest with
    | nil => rfl
    | cons c cs => simp [spanDigits, stop c cs rfl]
  | cons d ds ih => simp [spanDigits, Digit.ofChar?_toChar, ih]

theorem readDigits_append {ds : List Digit} (some_digit : ds ≠ []) (stop : NoDigit rest) :
    readDigits (ds.map Digit.toChar ++ rest) = some (ds, rest) := by
  rw [readDigits, spanDigits_append ds stop]
  cases ds with
  | nil => exact absurd rfl some_digit
  | cons d ds => rfl

/-- A power with an explicit sign is read back. -/
theorem readPower_append (e : Int) (stop : NoDigit rest) :
    readPower ((if e < 0 then '-' else '+') :: (Digit.ofNat e.natAbs).map Digit.toChar ++ rest) =
      some (some e, rest) := by
  have digits := readDigits_append (Digit.ofNat_ne_nil e.natAbs) stop
  split
  · simp only [readPower, readSign, List.cons_append, digits, Option.bind_eq_bind, Option.bind_some,
      Digit.value_ofNat, Option.pure_def, if_true, Option.some.injEq, Prod.mk.injEq, and_true]
    omega
  · simp only [readPower, readSign, List.cons_append, digits, Option.bind_eq_bind, Option.bind_some,
      Digit.value_ofNat, Option.pure_def, Option.some.injEq, Prod.mk.injEq, and_true]
    rw [if_neg (by decide)]
    omega

/-- The form that a strict reader accepts: a digit before the point, and no zero before another
digit. -/
structure Spelled (n : Numeral) : Prop where
  whole_ne_nil : n.whole ≠ []
  no_leading_zero : ∀ d ds, n.whole ≠ 0 :: d :: ds

end Numeral

namespace NumberFormat
open Numeral

section
variable (f : NumberFormat)

theorem spelled_positionalNumeral (neg : Bool) (h : 0 < d.digits ∨ d = ⟨0, 0⟩) :
    (f.positionalNumeral neg d).Spelled := by
  rcases h with positive | rfl
  · obtain ⟨first, others, digits, nonzero⟩ := Digit.ofNat_eq_cons positive
    unfold positionalNumeral
    dsimp only
    rw [digits]
    split
    · exact ⟨by simp, by simp [nonzero]⟩
    · split
      · rename_i shorter
        obtain ⟨cut, here⟩ : ∃ cut, (first :: others).length - d.scale.natAbs = cut + 1 :=
          ⟨_, (Nat.succ_pred_eq_of_pos (by omega)).symm⟩
        rw [here]
        exact ⟨by simp, by simp [nonzero]⟩
      · exact ⟨by simp, by simp⟩
  · constructor <;> simp [positionalNumeral, Digit.ofNat_zero]

theorem spelled_scientificNumeral (neg : Bool) (d : Decimal) :
    (scientificNumeral neg d).Spelled := by
  obtain ⟨first, others, digits⟩ := List.exists_cons_of_ne_nil (Digit.ofNat_ne_nil d.digits)
  constructor <;> simp [scientificNumeral, digits]

theorem spelled_numeral {x : Binary64} (finite : x.isFinite) : (f.numeral x).Spelled := by
  unfold numeral
  split
  · exact f.spelled_positionalNumeral _ (.inr rfl)
  · rename_i nonzero
    have positive := (Binary64.shortest_spec finite (by simpa using nonzero) f.tie).2.1
    dsimp only
    split
    · exact f.spelled_positionalNumeral _ (.inl positive)
    · exact spelled_scientificNumeral _ _

@[simp]
theorem negative_positionalNumeral (neg : Bool) (d : Decimal) :
    (f.positionalNumeral neg d).negative = neg := by
  unfold positionalNumeral
  dsimp only
  split <;> [rfl; split <;> rfl]

@[simp]
theorem exponent_positionalNumeral (neg : Bool) (d : Decimal) :
    (f.positionalNumeral neg d).exponent = none := by
  unfold positionalNumeral
  dsimp only
  split <;> [rfl; split <;> rfl]

end

/-- Wherever the point stands, the digits written are those of the number and the zeros that fill it
up. -/
theorem digits_positionalNumeral (integer : f.keepPoint = false) (neg : Bool) (d : Decimal) :
    Digit.value ((f.positionalNumeral neg d).whole ++ (f.positionalNumeral neg d).fraction) =
        d.digits * 10 ^ d.scale.toNat ∧
      (f.positionalNumeral neg d).fraction.length = (-d.scale).toNat := by
  unfold positionalNumeral
  dsimp only
  split
  · have scale : d.scale.natAbs = d.scale.toNat := by omega
    have none : (-d.scale).toNat = 0 := by omega
    simp [integer, Digit.value_append, Digit.value_replicate, scale, none]
  · have none : d.scale.toNat = 0 := by omega
    have scale : d.scale.natAbs = (-d.scale).toNat := by omega
    rw [none, pow_zero, mul_one]
    split
    · dsimp only
      rw [List.take_append_drop, Digit.value_ofNat, List.length_drop]
      omega
    · have zero : Digit.value [0] = 0 := rfl
      dsimp only
      rw [List.take_replicate, Digit.value_append, Digit.value_append, Digit.value_ofNat,
        Digit.value_replicate, zero, List.length_append, List.length_replicate]
      omega

end NumberFormat

namespace Binary64

variable {x : Binary64}

theorem ofAbsBits_absBits (x : Binary64) : ofAbsBits x.negative x.absBits = x := by
  have bound := x.bits.toNat_lt
  have power : signBit = 2 ^ 63 := rfl
  have sum : (if x.negative then x.absBits + signBit else x.absBits) = x.bits.toNat := by
    by_cases sign : signBit ≤ x.bits.toNat
    · rw [negative, if_pos (decide_eq_true sign), absBits, power]
      omega
    · rw [negative, if_neg (mt of_decide_eq_true sign), absBits, power]
      omega
  rw [ofAbsBits, sum, UInt64.ofNat_toNat]

theorem Covers.magnitude_bounds {r : ℚ} (finite : x.isFinite) (nonzero : x.isZero = false)
    (h : x.Covers r) : (10 : ℚ) ^ (-398 : Int) ≤ r ∧ r ≤ 10 ^ (399 : Int) := by
  have least : minExponent ≤ x.exponent := x.minExponent_le
  have most := exponent_le finite
  have positive : (1 : ℚ) ≤ x.significand := by exact_mod_cast significand_pos nonzero
  have small : (x.significand : ℚ) + 1 ≤ 2 ^ 53 := by exact_mod_cast x.significand_lt
  have gap := x.lowerGap_le
  rw [minExponent] at least
  constructor
  · calc (10 : ℚ) ^ (-398 : Int) ≤ 2 ^ (-1075 : Int) := ten_zpow_le_two_zpow (by omega)
      _ = 2 * 2 ^ (-1076 : Int) := by rw [← zpow_one_add₀ (by norm_num)]; rfl
      _ ≤ 2 * 2 ^ (x.exponent - 2) := by
          gcongr
          · norm_num
          · omega
      _ ≤ (4 * x.significand - x.lowerGap) * 2 ^ (x.exponent - 2) := by gcongr; linarith
      _ ≤ r := h.lower
  · calc r ≤ (4 * x.significand + 2) * 2 ^ (x.exponent - 2) := h.upper
      _ ≤ 2 ^ 55 * 2 ^ (969 : Int) := by
          gcongr
          · linarith
          · norm_num
          · omega
      _ = 2 ^ (1024 : Int) := by rw [← zpow_natCast, ← zpow_add₀ (by norm_num)]; rfl
      _ ≤ 10 ^ (399 : Int) := two_zpow_le_ten_zpow (by omega)

/-- A decimal in the rounding interval is read as the pattern: the two shortcuts for very large and
very small magnitudes are not taken. -/
theorem ofDecimal_eq {scale : Int} (finite : x.isFinite) (nonzero : x.isZero = false)
    (short : digits.log2 ≤ 10000) (h : x.Covers (Decimal.value ⟨digits, scale⟩)) (neg : Bool) :
    ofDecimal neg digits scale = ofAbsBits neg x.absBits := by
  have some_digit : digits ≠ 0 := by
    rintro rfl
    simpa [Decimal.value] using h.pos nonzero
  obtain ⟨small, large⟩ := h.magnitude_bounds finite nonzero
  obtain ⟨under, beyond⟩ := guess_bounds (k := digits.log2) (by omega) (by omega)
  have ten : (0 : ℚ) < 10 ^ scale := by positivity
  set guess : Int := (digits.log2 : Int) * 30103 / 100000
  obtain ⟨low, high⟩ : (2 : ℚ) ^ (digits.log2 - 1 : Int) < digits ∧
      digits < (2 : ℚ) ^ (digits.log2 + 1 : Int) := by
    have one : Nat.log2 1 = 0 := by decide
    simpa [one] using log2_ratio (Nat.pos_of_ne_zero some_digit) Nat.one_pos
  have not_large : guess + scale - 1 ≤ 399 := by
    rw [← zpow_le_zpow_iff_right₀ (a := (10 : ℚ)) (by norm_num)]
    calc (10 : ℚ) ^ (guess + scale - 1) = 10 ^ (guess - 1) * 10 ^ scale := by
          rw [← zpow_add₀ (by norm_num)]; congr 1; ring
      _ ≤ digits * 10 ^ scale := by gcongr; exact under.trans low.le
      _ ≤ 10 ^ (399 : Int) := large
  have not_small : -398 < guess + 2 + scale := by
    rw [← zpow_lt_zpow_iff_right₀ (a := (10 : ℚ)) (by norm_num)]
    calc (10 : ℚ) ^ (-398 : Int) ≤ digits * 10 ^ scale := small
      _ < 10 ^ (guess + 2) * 10 ^ scale := by gcongr; exact high.trans_le beyond
      _ = 10 ^ (guess + 2 + scale) := by rw [← zpow_add₀ (by norm_num)]
  unfold ofDecimal
  dsimp only
  rw [if_neg some_digit, if_neg (by omega), if_neg (by omega)]
  split
  · rename_i negative
    rw [Decimal.value, zpow_eq_of_neg negative, ← div_eq_mul_inv] at h
    rw [ofRatio, Nat.pow_eq,
      nearestBits_eq (Nat.pow_pos (by decide)) finite nonzero (by exact_mod_cast h)]
  · rename_i whole
    rw [Decimal.value, zpow_eq_of_nonneg whole] at h
    rw [ofRatio, Nat.pow_eq, nearestBits_eq Nat.one_pos finite nonzero (by simpa using h)]

theorem log2_mul_ten_pow_lt (positive : 0 < digits) (few : digits < 10 ^ 18) (n : Nat) :
    (digits * 10 ^ n).log2 < 60 + 4 * n := by
  have bound : digits * 10 ^ n < 2 ^ (60 + 4 * n) := by
    calc digits * 10 ^ n < 2 ^ 60 * 10 ^ n := Nat.mul_lt_mul_of_pos_right (by omega) (by positivity)
      _ ≤ 2 ^ 60 * (2 ^ 4) ^ n := Nat.mul_le_mul_left _ (Nat.pow_le_pow_left (by decide) n)
      _ = 2 ^ (60 + 4 * n) := by rw [← pow_mul, ← pow_add]
  exact (Nat.log2_lt (by positivity)).2 bound

/-- Zeros that fill a decimal up to the point do not change its value. -/
theorem value_fill (d : Decimal) :
    Decimal.value ⟨d.digits * 10 ^ d.scale.toNat, -(-d.scale).toNat⟩ = d.value := by
  have split : (d.scale.toNat : Int) + -(-d.scale).toNat = d.scale := by omega
  calc Decimal.value ⟨d.digits * 10 ^ d.scale.toNat, -(-d.scale).toNat⟩
      = d.digits * (10 ^ (d.scale.toNat : Int) * 10 ^ (-(-d.scale).toNat : Int)) := by
        simp only [Decimal.value]
        rw [Nat.cast_mul, Nat.cast_pow, zpow_natCast, mul_assoc]
        rfl
    _ = d.value := by rw [← zpow_add₀ (by norm_num), split, Decimal.value]

theorem nearest_positionalNumeral (integer : f.keepPoint = false) (finite : x.isFinite)
    (nonzero : x.isZero = false) (covers : x.Covers d.value) (positive : 0 < d.digits)
    (few : d.digits < 10 ^ 18) (neg : Bool) :
    (f.positionalNumeral neg d).nearest = ofAbsBits neg x.absBits := by
  obtain ⟨digits, length⟩ := NumberFormat.digits_positionalNumeral integer neg d
  have scale : d.scale ≤ 399 := by
    rw [← zpow_le_zpow_iff_right₀ (a := (10 : ℚ)) (by norm_num)]
    have one : (1 : ℚ) ≤ d.digits := by exact_mod_cast positive
    calc (10 : ℚ) ^ d.scale ≤ d.digits * 10 ^ d.scale := le_mul_of_one_le_left (by positivity) one
      _ ≤ 10 ^ (399 : Int) := (covers.magnitude_bounds finite nonzero).2
  have short := log2_mul_ten_pow_lt positive few d.scale.toNat
  rw [← value_fill d] at covers
  rw [Numeral.nearest, NumberFormat.negative_positionalNumeral,
    NumberFormat.exponent_positionalNumeral, digits, length, Option.getD_none, zero_sub]
  exact ofDecimal_eq finite nonzero (by omega) covers neg

/-- The plain numeral of a finite number is read as the number. -/
theorem nearest_plain (finite : x.isFinite) : (NumberFormat.plain.numeral x).nearest = x := by
  by_cases zero : x.isZero
  · have none : x.absBits = 0 := of_decide_eq_true zero
    rw [NumberFormat.numeral, if_pos zero]
    calc ofDecimal x.negative 0 0 = ofAbsBits x.negative x.absBits := by rw [none]; rfl
      _ = x := x.ofAbsBits_absBits
  · have nonzero : x.isZero = false := by simpa using zero
    obtain ⟨covers, positive, few⟩ := shortest_spec finite nonzero NumberFormat.plain.tie
    rw [NumberFormat.numeral, if_neg zero]
    exact (nearest_positionalNumeral rfl finite nonzero covers positive few _).trans
      x.ofAbsBits_absBits

end Binary64

end ScriptInference
