import ScriptInference.Number.Shortest
import Mathlib.Algebra.Order.Field.Power
import Mathlib.Data.Rat.Cast.Order
import Mathlib.Tactic.FieldSimp
import Mathlib.Tactic.Linarith
import Mathlib.Tactic.Positivity
import Mathlib.Tactic.Ring

/-!
# Rounding to the nearest pattern

A finite pattern other than zero covers the rationals of its rounding interval. Rounding a ratio
gives the pattern that covers it. The bits of a finite pattern are `(q - minExponent) · 2^52 + m`
for its significand `m` and its exponent `q`, whether it is normal or not, and a significand that is
rounded up to `2^53` carries into the exponent in the same formula; so only the exponent at which
the ratio is rounded has to be compared with the exponent of the pattern.
-/

namespace ScriptInference

variable {den num : Nat} {q : Int}

def Decimal.value (d : Decimal) : ℚ := d.digits * 10 ^ d.scale

namespace Binary64

section Fields
variable {x : Binary64}

theorem absBits_eq_fields (x : Binary64) :
    x.absBits = x.exponentField * 2 ^ 52 + x.fractionField := by
  have := Nat.div_add_mod x.absBits (2 ^ 52)
  simp only [exponentField, fractionField, Nat.pow_eq]
  omega

theorem fractionField_lt (x : Binary64) : x.fractionField < 2 ^ 52 := Nat.mod_lt _ (by decide)

theorem exponentField_lt (finite : x.isFinite) : x.exponentField < 2047 := by
  have below : x.absBits < infinityBits := of_decide_eq_true finite
  have := x.absBits_eq_fields
  simp only [infinityBits] at below
  omega

theorem significand_lt (x : Binary64) : x.significand < 2 ^ 53 := by
  have := x.fractionField_lt
  simp only [significand, Nat.pow_eq]
  split <;> omega

theorem minExponent_le (x : Binary64) : minExponent ≤ x.exponent := by
  simp only [exponent]
  omega

theorem exponent_le (finite : x.isFinite) : x.exponent ≤ 971 := by
  have := exponentField_lt finite
  simp only [exponent, minExponent]
  omega

theorem absBits_eq (x : Binary64) :
    x.absBits = (x.exponent - minExponent).toNat * 2 ^ 52 + x.significand := by
  have shift : (x.exponent - minExponent).toNat = max x.exponentField 1 - 1 := by
    simp only [exponent]
    omega
  rw [x.absBits_eq_fields, shift, significand, Nat.pow_eq]
  split <;> omega

theorem le_significand (normal : minExponent < x.exponent) : 2 ^ 52 ≤ x.significand := by
  simp only [exponent] at normal
  simp only [significand, Nat.pow_eq]
  split <;> omega

theorem significand_pos (nonzero : x.isZero = false) : 0 < x.significand := by
  have bits := x.absBits_eq_fields
  have : x.absBits ≠ 0 := of_decide_eq_false nonzero
  simp only [significand, Nat.pow_eq]
  split <;> omega

/-- The distance of the lower end of the rounding interval from the value, in quarters of a unit. -/
def lowerGap (x : Binary64) : Nat := if x.fractionField = 0 ∧ 1 < x.exponentField then 1 else 2

theorem lowerGap_cases (x : Binary64) :
    (x.lowerGap = 1 ∧ x.significand = 2 ^ 52) ∨
      (x.lowerGap = 2 ∧ ¬ (x.significand = 2 ^ 52 ∧ minExponent < x.exponent)) := by
  have := x.fractionField_lt
  simp only [lowerGap, significand, exponent, minExponent, Nat.pow_eq]
  split <;> split <;> omega

end Fields

section Values

def Ratio.value (a : Ratio) : ℚ := a.num / a.den

theorem Ratio.le_iff {a b : Ratio} (ha : 0 < a.den) (hb : 0 < b.den) :
    a.le b ↔ a.value ≤ b.value := by
  have ha : (0 : ℚ) < a.den := by exact_mod_cast ha
  have hb : (0 : ℚ) < b.den := by exact_mod_cast hb
  rw [Ratio.value, Ratio.value, div_le_div_iff₀ ha hb, Ratio.le, decide_eq_true_iff]
  exact_mod_cast Iff.rfl

theorem Ratio.lt_iff {a b : Ratio} (ha : 0 < a.den) (hb : 0 < b.den) :
    a.lt b ↔ a.value < b.value := by
  have ha : (0 : ℚ) < a.den := by exact_mod_cast ha
  have hb : (0 : ℚ) < b.den := by exact_mod_cast hb
  rw [Ratio.value, Ratio.value, div_lt_div_iff₀ ha hb, Ratio.lt, decide_eq_true_iff]
  exact_mod_cast Iff.rfl

theorem Ratio.den_ofBinary (m : Nat) (q : Int) : 0 < (Ratio.ofBinary m q).den := by
  unfold Ratio.ofBinary
  split
  · exact Nat.pow_pos (by decide)
  · exact Nat.one_pos

theorem Ratio.den_ofDecimal (d : Decimal) : 0 < (Ratio.ofDecimal d).den := by
  unfold Ratio.ofDecimal
  split
  · exact Nat.pow_pos (by decide)
  · exact Nat.one_pos

/-- A power with an integer exponent, on the side of the fraction where the exponent is positive. -/
theorem zpow_eq_of_neg {b : ℚ} (h : q < 0) : b ^ q = (b ^ q.natAbs)⁻¹ := by
  obtain ⟨n, rfl⟩ : ∃ n : Nat, q = -n := ⟨q.natAbs, by omega⟩
  simp

theorem zpow_eq_of_nonneg {b : ℚ} (h : ¬ q < 0) : b ^ q = b ^ q.natAbs := by
  obtain ⟨n, rfl⟩ : ∃ n : Nat, q = n := ⟨q.natAbs, by omega⟩
  simp

@[simp]
theorem Ratio.value_ofBinary (m : Nat) (q : Int) : (Ratio.ofBinary m q).value = m * 2 ^ q := by
  unfold Ratio.ofBinary Ratio.value
  split
  · rename_i h
    simp [zpow_eq_of_neg h, div_eq_mul_inv]
  · rename_i h
    simp [zpow_eq_of_nonneg h]

@[simp]
theorem Ratio.value_ofDecimal (d : Decimal) : (Ratio.ofDecimal d).value = d.value := by
  unfold Ratio.ofDecimal Ratio.value Decimal.value
  split
  · rename_i h
    simp [zpow_eq_of_neg h, div_eq_mul_inv]
  · rename_i h
    simp [zpow_eq_of_nonneg h]

theorem Interval.contains_iff {i : Interval} (low : 0 < i.lower.den) (high : 0 < i.upper.den)
    (d : Decimal) :
    i.contains d ↔
      if i.closed then i.lower.value ≤ d.value ∧ d.value ≤ i.upper.value
      else i.lower.value < d.value ∧ d.value < i.upper.value := by
  have middle := Ratio.den_ofDecimal d
  unfold Interval.contains
  split
  · rw [Bool.and_eq_true, Ratio.le_iff low middle, Ratio.le_iff middle high, Ratio.value_ofDecimal]
  · rw [Bool.and_eq_true, Ratio.lt_iff low middle, Ratio.lt_iff middle high, Ratio.value_ofDecimal]

end Values

section Nearest
variable {x : Binary64} {r : ℚ}

/-- The rationals of the rounding interval; the ends belong to it if the significand is even. -/
structure Covers (x : Binary64) (r : ℚ) : Prop where
  lower : (4 * x.significand - x.lowerGap : ℚ) * 2 ^ (x.exponent - 2) ≤ r
  upper : r ≤ (4 * x.significand + 2 : ℚ) * 2 ^ (x.exponent - 2)
  strict : x.significand % 2 ≠ 0 →
    (4 * x.significand - x.lowerGap : ℚ) * 2 ^ (x.exponent - 2) < r ∧
      r < (4 * x.significand + 2 : ℚ) * 2 ^ (x.exponent - 2)

theorem contains_iff (nonzero : x.isZero = false) (d : Decimal) :
    x.interval.contains d ↔ x.Covers d.value := by
  have positive := significand_pos nonzero
  have gap : x.lowerGap ≤ 4 * x.significand := by
    unfold lowerGap
    split <;> omega
  have lower : x.interval.lower.value =
      (4 * x.significand - x.lowerGap : ℚ) * 2 ^ (x.exponent - 2) := by
    change (Ratio.ofBinary (4 * x.significand - x.lowerGap) (x.exponent - 2)).value = _
    rw [Ratio.value_ofBinary, Nat.cast_sub gap, Nat.cast_mul, Nat.cast_ofNat]
  have upper : x.interval.upper.value = (4 * x.significand + 2 : ℚ) * 2 ^ (x.exponent - 2) := by
    change (Ratio.ofBinary (4 * x.significand + 2) (x.exponent - 2)).value = _
    rw [Ratio.value_ofBinary, Nat.cast_add, Nat.cast_mul, Nat.cast_ofNat, Nat.cast_ofNat]
  have closed : x.interval.closed = true ↔ x.significand % 2 = 0 := decide_eq_true_iff
  rw [Interval.contains_iff (Ratio.den_ofBinary _ _) (Ratio.den_ofBinary _ _), lower, upper]
  split
  · rename_i even
    rw [closed] at even
    exact ⟨fun h => ⟨h.1, h.2, fun odd => absurd even odd⟩, fun h => ⟨h.lower, h.upper⟩⟩
  · rename_i odd
    rw [closed] at odd
    exact ⟨fun h => ⟨h.1.le, h.2.le, fun _ => h⟩, fun h => h.strict odd⟩

/-- The quotient is rounded to `m` from less than a half away, and from a half away if `m` is
even. -/
theorem divHalfEven_eq {m : Nat} (positive : 0 < den) (lower : 2 * (m * den) ≤ 2 * num + den)
    (upper : 2 * num ≤ 2 * (m * den) + den)
    (strict : m % 2 ≠ 0 → 2 * (m * den) < 2 * num + den ∧ 2 * num < 2 * (m * den) + den) :
    divHalfEven num den = m := by
  have division := Nat.div_add_mod num den
  have remainder := Nat.mod_lt num positive
  have quotient : num / den = m ∨ num / den + 1 = m := by
    have low : m ≤ num / den + 1 := by
      have : (m - 1) * den ≤ num := by
        rw [Nat.sub_mul]
        omega
      have := (Nat.le_div_iff_mul_le positive).2 this
      omega
    have high : num / den ≤ m := by
      by_contra above
      have : (m + 1) * den ≤ num := (Nat.le_div_iff_mul_le positive).1 (by omega)
      rw [Nat.add_mul] at this
      omega
    omega
  unfold divHalfEven
  rcases quotient with same | next
  · rw [same] at division ⊢
    rw [Nat.mul_comm] at division
    rw [if_neg]
    rintro (above | ⟨half, odd⟩)
    · omega
    · have := strict (by omega)
      omega
  · have product : m * den = den * (num / den) + den := by
      rw [← next]
      ring
    rw [product] at lower upper strict
    rw [if_pos, next]
    by_cases half : 2 * (num % den) = den
    · right
      refine ⟨half, ?_⟩
      by_contra even
      have := strict (by omega)
      omega
    · left
      omega

theorem divHalfEven_of_near {m : Nat} (positive : 0 < den) (lower : (m - 1 / 2 : ℚ) ≤ num / den)
    (upper : (num / den : ℚ) ≤ m + 1 / 2)
    (strict : m % 2 ≠ 0 → (m - 1 / 2 : ℚ) < num / den ∧ (num / den : ℚ) < m + 1 / 2) :
    divHalfEven num den = m := by
  have den_pos : (0 : ℚ) < den := by exact_mod_cast positive
  rw [le_div_iff₀ den_pos] at lower
  rw [div_le_iff₀ den_pos] at upper
  rw [lt_div_iff₀ den_pos, div_lt_iff₀ den_pos] at strict
  have low : (2 * (m * den) : ℚ) ≤ 2 * num + den := by linarith
  have high : (2 * num : ℚ) ≤ 2 * (m * den) + den := by linarith
  refine divHalfEven_eq positive (by exact_mod_cast low) (by exact_mod_cast high) fun odd => ?_
  obtain ⟨below, above⟩ := strict odd
  have low : (2 * (m * den) : ℚ) < 2 * num + den := by linarith
  have high : (2 * num : ℚ) < 2 * (m * den) + den := by linarith
  exact ⟨by exact_mod_cast low, by exact_mod_cast high⟩

theorem scaleBy_spec (num : Nat) (positive : 0 < den) (q : Int) :
    0 < (scaleBy num den q).2 ∧
      ((scaleBy num den q).1 : ℚ) / (scaleBy num den q).2 = num / den / 2 ^ q := by
  unfold scaleBy
  split
  · rename_i h
    refine ⟨positive, ?_⟩
    rw [zpow_eq_of_neg h, Nat.pow_eq, Nat.cast_mul, Nat.cast_pow, Nat.cast_ofNat]
    field_simp
  · rename_i h
    refine ⟨Nat.mul_pos positive (Nat.pow_pos (by decide)), ?_⟩
    rw [zpow_eq_of_nonneg h, Nat.pow_eq, Nat.cast_mul, Nat.cast_pow, Nat.cast_ofNat, div_div]

/-- The exponents of the leading bits leave a factor of four, which the comparison halves. -/
theorem log2_ratio (hn : 0 < num) (hd : 0 < den) :
    (2 : ℚ) ^ ((num.log2 : Int) - den.log2 - 1) < num / den ∧
      (num / den : ℚ) < 2 ^ ((num.log2 : Int) - den.log2 + 1) := by
  have two : (2 : ℚ) ≠ 0 := by norm_num
  have den_pos : (0 : ℚ) < den := by exact_mod_cast hd
  have num_low : (2 : ℚ) ^ num.log2 ≤ num := by exact_mod_cast Nat.log2_self_le hn.ne'
  have num_high : (num : ℚ) < 2 ^ (num.log2 + 1) := by exact_mod_cast Nat.lt_log2_self
  have den_low : (2 : ℚ) ^ den.log2 ≤ den := by exact_mod_cast Nat.log2_self_le hd.ne'
  have den_high : (den : ℚ) < 2 ^ (den.log2 + 1) := by exact_mod_cast Nat.lt_log2_self
  constructor
  · rw [lt_div_iff₀ den_pos]
    calc (2 : ℚ) ^ ((num.log2 : Int) - den.log2 - 1) * den
        < 2 ^ ((num.log2 : Int) - den.log2 - 1) * 2 ^ (den.log2 + 1) := by gcongr
      _ = 2 ^ num.log2 := by
        rw [← zpow_natCast, ← zpow_natCast, ← zpow_add₀ two]
        congr 1
        push_cast
        ring
      _ ≤ num := num_low
  · rw [div_lt_iff₀ den_pos]
    calc (num : ℚ) < 2 ^ (num.log2 + 1) := num_high
      _ = 2 ^ ((num.log2 : Int) - den.log2 + 1) * 2 ^ den.log2 := by
        rw [← zpow_natCast, ← zpow_natCast, ← zpow_add₀ two]
        congr 1
        push_cast
        ring
      _ ≤ 2 ^ ((num.log2 : Int) - den.log2 + 1) * den := by gcongr

theorem exponentOf_spec (hn : 0 < num) (hd : 0 < den) :
    minExponent ≤ exponentOf num den ∧ (num / den : ℚ) < 2 ^ 53 * 2 ^ exponentOf num den ∧
      (minExponent < exponentOf num den → 2 ^ 52 * 2 ^ exponentOf num den ≤ (num / den : ℚ)) := by
  have two : (2 : ℚ) ≠ 0 := by norm_num
  obtain ⟨low, high⟩ := log2_ratio hn hd
  obtain ⟨q, hq⟩ : ∃ q : Int, q = (num.log2 : Int) - den.log2 - 53 := ⟨_, rfl⟩
  have low : 2 ^ 52 * 2 ^ q < (num / den : ℚ) := by
    rw [← zpow_natCast, ← zpow_add₀ two, hq]
    convert low using 2
    push_cast
    ring
  have high : (num / den : ℚ) < 2 ^ 54 * 2 ^ q := by
    rw [← zpow_natCast, ← zpow_add₀ two, hq]
    convert high using 2
    push_cast
    ring
  obtain ⟨den_pos, value⟩ := scaleBy_spec num hd q
  have den_pos : (0 : ℚ) < (scaleBy num den q).2 := by exact_mod_cast den_pos
  have test : Nat.pow 2 53 * (scaleBy num den q).2 ≤ (scaleBy num den q).1 ↔
      2 ^ 53 * 2 ^ q ≤ (num / den : ℚ) := by
    rw [← le_div_iff₀ (by positivity), ← value, le_div_iff₀ den_pos, Nat.pow_eq]
    exact_mod_cast Iff.rfl
  have settled : ∃ p : Int, exponentOf num den = max p minExponent ∧
      2 ^ 52 * 2 ^ p ≤ (num / den : ℚ) ∧ (num / den : ℚ) < 2 ^ 53 * 2 ^ p := by
    by_cases above : 2 ^ 53 * 2 ^ q ≤ (num / den : ℚ)
    · refine ⟨q + 1, ?_, ?_, ?_⟩
      · simp only [exponentOf, ← hq]
        rw [if_pos (test.2 above)]
      · rw [zpow_add_one₀ two]
        linarith
      · rw [zpow_add_one₀ two]
        linarith
    · refine ⟨q, ?_, low.le, not_le.1 above⟩
      simp only [exponentOf, ← hq]
      rw [if_neg (mt test.1 above)]
  obtain ⟨p, here, p_low, p_high⟩ := settled
  rw [here]
  refine ⟨le_max_right _ _, ?_, fun normal => ?_⟩
  · have grows : (2 : ℚ) ^ p ≤ 2 ^ max p minExponent :=
      zpow_le_zpow_right₀ (by norm_num) (le_max_left _ _)
    linarith
  · rwa [max_eq_left (by omega)]

theorem two_zpow_eq_quarters (q : Int) : (2 : ℚ) ^ q = 4 * 2 ^ (q - 2) := by
  calc (2 : ℚ) ^ q = 2 ^ ((2 : Int) + (q - 2)) := by rw [add_sub_cancel]
    _ = 4 * 2 ^ (q - 2) := by
      rw [zpow_add₀ (by norm_num)]
      norm_num

theorem lowerGap_le (x : Binary64) : (x.lowerGap : ℚ) ≤ 2 := by
  rcases x.lowerGap_cases with ⟨gap, -⟩ | ⟨gap, -⟩ <;> rw [gap] <;> norm_num

theorem Covers.pos (nonzero : x.isZero = false) (h : x.Covers r) : 0 < r := by
  have positive : (1 : ℚ) ≤ x.significand := by exact_mod_cast significand_pos nonzero
  have gap := x.lowerGap_le
  have unit : (0 : ℚ) < 2 ^ (x.exponent - 2) := by positivity
  exact lt_of_lt_of_le (mul_pos (by linarith) unit) h.lower

/-- At its own exponent a covered rational is less than a half away from the significand, or a half
and the significand is even. -/
theorem Covers.near (h : x.Covers r) :
    (x.significand - 1 / 2 : ℚ) ≤ r / 2 ^ x.exponent ∧ r / 2 ^ x.exponent ≤ x.significand + 1 / 2 ∧
      (x.significand % 2 ≠ 0 →
        (x.significand - 1 / 2 : ℚ) < r / 2 ^ x.exponent ∧
          r / 2 ^ x.exponent < x.significand + 1 / 2) := by
  have unit : (0 : ℚ) < 2 ^ (x.exponent - 2) := by positivity
  have quarters := two_zpow_eq_quarters x.exponent
  have gap := x.lowerGap_le
  have wide : (x.lowerGap : ℚ) * 2 ^ (x.exponent - 2) ≤ 2 * 2 ^ (x.exponent - 2) := by gcongr
  rw [quarters, le_div_iff₀ (by positivity), div_le_iff₀ (by positivity),
    lt_div_iff₀ (by positivity), div_lt_iff₀ (by positivity)]
  refine ⟨by linarith [h.lower], by linarith [h.upper], fun odd => ?_⟩
  obtain ⟨lower, upper⟩ := h.strict odd
  exact ⟨by linarith, by linarith⟩

/-- The three ways in which the exponent of a covered ratio could differ from that of the pattern
leave one: a ratio just below a power of two is rounded up to it. -/
theorem Covers.exponent_cases (h : x.Covers r) {p : Int} (least : minExponent ≤ p)
    (high : r < 2 ^ 53 * 2 ^ p) (low : minExponent < p → 2 ^ 52 * 2 ^ p ≤ r) :
    p = x.exponent ∨
      (p + 1 = x.exponent ∧ x.significand = 2 ^ 52 ∧ (2 ^ 53 - 1 / 2 : ℚ) * 2 ^ p ≤ r) := by
  have two : (2 : ℚ) ≠ 0 := by norm_num
  have unit : (0 : ℚ) < 2 ^ (x.exponent - 2) := by positivity
  have quarters := two_zpow_eq_quarters x.exponent
  rcases lt_trichotomy p x.exponent with before | same | after
  · right
    have normal : (2 ^ 52 : ℚ) ≤ x.significand := by exact_mod_cast le_significand (by omega)
    have step : (2 : ℚ) ^ (p + 1) ≤ 2 ^ x.exponent := zpow_le_zpow_right₀ (by norm_num) (by omega)
    rw [zpow_add_one₀ two, quarters] at step
    have power : x.significand = 2 ^ 52 := by
      by_contra other
      have above : (2 ^ 52 + 1 : ℚ) ≤ x.significand := by
        exact_mod_cast lt_of_le_of_ne (le_significand (by omega)) (Ne.symm other)
      have gap : x.lowerGap = 2 := by
        rcases x.lowerGap_cases with ⟨-, power⟩ | ⟨gap, -⟩
        · exact absurd power other
        · exact gap
      have := h.lower
      rw [gap] at this
      push_cast at this
      nlinarith
    have gap : x.lowerGap = 1 := by
      rcases x.lowerGap_cases with ⟨gap, -⟩ | ⟨-, other⟩
      · exact gap
      · exact absurd ⟨power, by omega⟩ other
    have lower := h.lower
    rw [gap, power] at lower
    push_cast at lower
    have next : p + 1 = x.exponent := by
      by_contra further
      have step : (2 : ℚ) ^ (p + 2) ≤ 2 ^ x.exponent := zpow_le_zpow_right₀ (by norm_num) (by omega)
      rw [zpow_add₀ two, quarters] at step
      norm_num at step
      linarith
    refine ⟨next, power, ?_⟩
    rw [← next, zpow_add_one₀ two] at quarters
    rw [← next] at lower
    rw [← next] at unit
    linarith
  · exact .inl same
  · have normal := low (by have := x.minExponent_le; omega)
    have step : (2 : ℚ) ^ (x.exponent + 1) ≤ 2 ^ p := zpow_le_zpow_right₀ (by norm_num) (by omega)
    rw [zpow_add_one₀ two, quarters] at step
    have small : (x.significand : ℚ) + 1 ≤ 2 ^ 53 := by exact_mod_cast x.significand_lt
    have upper := h.upper
    nlinarith

theorem nearestBits_eq (positive : 0 < den) (finite : x.isFinite) (nonzero : x.isZero = false)
    (h : x.Covers (num / den)) : nearestBits num den = x.absBits := by
  have den_pos : (0 : ℚ) < den := by exact_mod_cast positive
  have num_pos : 0 < num := by
    have := mul_pos (h.pos nonzero) den_pos
    rw [div_mul_cancel₀ _ den_pos.ne'] at this
    exact_mod_cast this
  obtain ⟨least, high, low⟩ := exponentOf_spec num_pos positive
  obtain ⟨scaled_pos, scaled⟩ := scaleBy_spec num positive (exponentOf num den)
  have bits : (exponentOf num den - minExponent).toNat * 2 ^ 52 +
      divHalfEven (scaleBy num den (exponentOf num den)).1
      (scaleBy num den (exponentOf num den)).2 = x.absBits := by
    rw [x.absBits_eq]
    rcases h.exponent_cases least high low with same | ⟨next, power, near⟩
    · obtain ⟨below, above, strict⟩ := h.near
      rw [← same, ← scaled] at below above strict
      rw [divHalfEven_of_near scaled_pos below above strict, same]
    · have rounded : divHalfEven (scaleBy num den (exponentOf num den)).1
          (scaleBy num den (exponentOf num den)).2 = 2 ^ 53 := by
        have unit : (0 : ℚ) < 2 ^ exponentOf num den := by positivity
        refine divHalfEven_of_near scaled_pos ?_ ?_ (fun odd => absurd (by norm_num) odd)
        · rw [scaled, le_div_iff₀ unit]
          push_cast
          exact near
        · rw [scaled, div_le_iff₀ unit]
          push_cast
          linarith
      rw [rounded, power]
      omega
  have below : x.absBits < infinityBits := of_decide_eq_true finite
  simp only [nearestBits, num_pos.ne', if_false, Nat.pow_eq, bits]
  omega

end Nearest

end Binary64

end ScriptInference
