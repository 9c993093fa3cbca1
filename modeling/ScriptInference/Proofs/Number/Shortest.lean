import ScriptInference.Proofs.Number.Rounding

/-!
# The shortest decimal rounds to its number

The search for the shortest decimal ends inside the rounding interval. On a grid whose step is less
than the interval is wide, one of the two neighbours of the value lies in the interval. After
seventeen digits the step is at most the `10^16`-th part of the value, and the interval is wider: it
has a width of one unit in the last of at most 53 bits, or of three quarters of a unit at a power of
two.

The exponent of the leading digit is guessed from the exponent of the leading bit, by a factor just
above the logarithm of two. The guess is off by at most one as long as the exponents have few
digits.
-/

namespace ScriptInference.Binary64

section Powers

/-- The convergents `28/93` and `59/196` enclose the decimal logarithm of two. -/
theorem ten_zpow_le_two_zpow {a b : Int}
    (h : (0 ≤ b ∧ 196 * a ≤ 59 * b) ∨ (b ≤ 0 ∧ 93 * a ≤ 28 * b)) : (10 : ℚ) ^ a ≤ 2 ^ b := by
  have ten : (10 : ℚ) ≠ 0 := by norm_num
  rcases h with ⟨sign, slope⟩ | ⟨sign, slope⟩
  · refine le_of_pow_le_pow_left₀ (n := 196) (by decide) (by positivity) ?_
    calc ((10 : ℚ) ^ a) ^ 196 = 10 ^ (196 * a) := by rw [← zpow_natCast, ← zpow_mul, mul_comm]; rfl
      _ ≤ 10 ^ (59 * b) := zpow_le_zpow_right₀ (by norm_num) slope
      _ = (10 ^ 59) ^ b := by rw [zpow_mul]; rfl
      _ ≤ (2 ^ 196) ^ b := zpow_le_zpow_left₀ sign (by norm_num) (by norm_num)
      _ = (2 ^ b) ^ 196 := by rw [← zpow_natCast, ← zpow_natCast, ← zpow_mul, ← zpow_mul, mul_comm]
  · refine le_of_pow_le_pow_left₀ (n := 93) (by decide) (by positivity) ?_
    calc ((10 : ℚ) ^ a) ^ 93 = 10 ^ (93 * a) := by rw [← zpow_natCast, ← zpow_mul, mul_comm]; rfl
      _ ≤ 10 ^ (28 * b) := zpow_le_zpow_right₀ (by norm_num) slope
      _ = ((10 ^ 28) ^ (-b))⁻¹ := by rw [zpow_mul, zpow_neg, inv_inv]; rfl
      _ ≤ ((2 ^ 93) ^ (-b))⁻¹ :=
        inv_anti₀ (by positivity) (zpow_le_zpow_left₀ (by omega) (by norm_num) (by norm_num))
      _ = (2 ^ b) ^ 93 := by
        rw [zpow_neg, inv_inv, ← zpow_natCast, ← zpow_natCast, ← zpow_mul, ← zpow_mul, mul_comm]

theorem two_zpow_le_ten_zpow {a b : Int}
    (h : (b ≤ 0 ∧ 59 * b ≤ 196 * a) ∨ (0 ≤ b ∧ 28 * b ≤ 93 * a)) : (2 : ℚ) ^ b ≤ 10 ^ a := by
  have inverse : (10 : ℚ) ^ (-a) ≤ 2 ^ (-b) := ten_zpow_le_two_zpow (by omega)
  rw [zpow_neg, zpow_neg] at inverse
  exact (inv_le_inv₀ (by positivity) (by positivity)).1 inverse

/-- The guess for a decimal exponent, from a binary one. -/
theorem guess_bounds {k : Int} (low : -10000 ≤ k) (high : k ≤ 10000) :
    (10 : ℚ) ^ (k * 30103 / 100000 - 1) ≤ 2 ^ (k - 1) ∧
      (2 : ℚ) ^ (k + 1) ≤ 10 ^ (k * 30103 / 100000 + 2) := by
  constructor
  · apply ten_zpow_le_two_zpow
    omega
  · apply two_zpow_le_ten_zpow
    omega

end Powers

section Grid
variable {x : Binary64} {i : Interval}

theorem floorAt_spec {a : Ratio} (positive : 0 < a.den) (scale : Int) :
    (a.floorAt scale : ℚ) * 10 ^ scale ≤ a.value ∧
      a.value < (a.floorAt scale + 1) * 10 ^ scale := by
  have den_pos : (0 : ℚ) < a.den := by exact_mod_cast positive
  unfold Ratio.floorAt Ratio.value
  split
  · rename_i negative
    have power : (0 : ℚ) < 10 ^ scale.natAbs := by positivity
    have floor := Nat.div_mul_le_self (a.num * 10 ^ scale.natAbs) a.den
    have next := Nat.lt_div_mul_add (a := a.num * 10 ^ scale.natAbs) positive
    have floor :
        ((a.num * 10 ^ scale.natAbs / a.den : Nat) : ℚ) * a.den ≤ a.num * 10 ^ scale.natAbs := by
      exact_mod_cast floor
    have next : (a.num * 10 ^ scale.natAbs : ℚ) <
        (a.num * 10 ^ scale.natAbs / a.den : Nat) * a.den + a.den := by
      exact_mod_cast next
    rw [zpow_eq_of_neg negative, ← div_eq_mul_inv, ← div_eq_mul_inv, div_le_div_iff₀ power den_pos,
      div_lt_div_iff₀ den_pos power, Nat.pow_eq]
    constructor <;> linarith
  · rename_i nonneg
    have power : 0 < 10 ^ scale.natAbs := Nat.pow_pos (by decide)
    have floor := Nat.div_mul_le_self a.num (a.den * 10 ^ scale.natAbs)
    have next := Nat.lt_div_mul_add (a := a.num) (Nat.mul_pos positive power)
    have floor : ((a.num / (a.den * 10 ^ scale.natAbs) : Nat) : ℚ) * (a.den * 10 ^ scale.natAbs) ≤
        a.num := by
      exact_mod_cast floor
    have next : (a.num : ℚ) < (a.num / (a.den * 10 ^ scale.natAbs) : Nat) *
        (a.den * 10 ^ scale.natAbs) + a.den * 10 ^ scale.natAbs := by
      exact_mod_cast next
    rw [zpow_eq_of_nonneg nonneg, le_div_iff₀ den_pos, div_lt_iff₀ den_pos, Nat.pow_eq]
    constructor <;> linarith

/-- A neighbour is chosen, and rounds to the pattern, unless neither of the two does. -/
theorem gridNeighbour_cases (tie : TieRule) (i : Interval) (scale : Int) :
    (∃ d, gridNeighbour tie i scale = some d ∧ i.contains d ∧ d.scale = scale) ∨
      (gridNeighbour tie i scale = none ∧ i.contains ⟨i.value.floorAt scale, scale⟩ = false ∧
        i.contains ⟨i.value.floorAt scale + 1, scale⟩ = false) := by
  cases lower : i.contains ⟨i.value.floorAt scale, scale⟩ with
  | false =>
    cases upper : i.contains ⟨i.value.floorAt scale + 1, scale⟩ with
    | false => exact .inr ⟨by simp only [gridNeighbour, lower, upper], rfl, rfl⟩
    | true => exact .inl ⟨_, by simp only [gridNeighbour, lower, upper], upper, rfl⟩
  | true =>
    cases upper : i.contains ⟨i.value.floorAt scale + 1, scale⟩ with
    | false => exact .inl ⟨_, by simp only [gridNeighbour, lower, upper], lower, rfl⟩
    | true =>
      -- The nearer of the two is chosen, or the tie rule decides; either is inside.
      have chosen : gridNeighbour tie i scale = some ⟨i.value.floorAt scale, scale⟩ ∨
          gridNeighbour tie i scale = some ⟨i.value.floorAt scale + 1, scale⟩ := by
        simp only [gridNeighbour, lower, upper]
        split
        · exact .inl rfl
        · exact .inr rfl
        · cases tie with
          | up => exact .inr rfl
          | toEven =>
            dsimp only
            split
            · exact .inl rfl
            · exact .inr rfl
      rcases chosen with here | here
      · exact .inl ⟨_, here, lower, rfl⟩
      · exact .inl ⟨_, here, upper, rfl⟩

theorem contains_of_gridNeighbour {tie : TieRule} {scale : Int} {d : Decimal}
    (h : gridNeighbour tie i scale = some d) : i.contains d ∧ d.scale = scale := by
  rcases gridNeighbour_cases tie i scale with ⟨e, here, inside⟩ | ⟨here, -⟩
  · rw [here] at h
    cases h
    exact inside
  · simp [here] at h

theorem not_contains_of_gridNeighbour {tie : TieRule} {scale : Int}
    (h : gridNeighbour tie i scale = none) :
    i.contains ⟨i.value.floorAt scale, scale⟩ = false ∧
      i.contains ⟨i.value.floorAt scale + 1, scale⟩ = false := by
  rcases gridNeighbour_cases tie i scale with ⟨e, here, -⟩ | ⟨-, outside⟩
  · simp [here] at h
  · exact outside

theorem leadingExponent_spec {a : Ratio} (num_pos : 0 < a.num) (den_pos : 0 < a.den)
    (low : -10000 ≤ (a.num.log2 : Int) - a.den.log2)
    (high : (a.num.log2 : Int) - a.den.log2 ≤ 10000) :
    10 ^ leadingExponent a ≤ a.value ∧ a.value < 10 ^ (leadingExponent a + 1) := by
  obtain ⟨below, above⟩ := log2_ratio num_pos den_pos
  obtain ⟨under, beyond⟩ := guess_bounds low high
  have under := under.trans below.le
  have beyond := above.trans_le beyond
  have unit (n : Int) : (Decimal.mk 1 n).value = 10 ^ n := by simp [Decimal.value]
  unfold leadingExponent
  simp only [Ratio.lt_iff den_pos (Ratio.den_ofDecimal _),
    Ratio.le_iff (Ratio.den_ofDecimal _) den_pos, Ratio.value_ofDecimal, unit]
  split
  · rename_i smaller
    exact ⟨under, by rwa [sub_add_cancel]⟩
  · rename_i large
    split
    · rename_i larger
      exact ⟨larger, by rwa [add_assoc, one_add_one_eq_two]⟩
    · rename_i small
      exact ⟨not_lt.1 large, not_le.1 small⟩

theorem value_eq (x : Binary64) :
    x.interval.value.value = 4 * x.significand * 2 ^ (x.exponent - 2) := by
  change (Ratio.ofBinary (4 * x.significand) (x.exponent - 2)).value = _
  rw [Ratio.value_ofBinary, Nat.cast_mul, Nat.cast_ofNat]

theorem leadingExponent_value (finite : x.isFinite) (nonzero : x.isZero = false) :
    10 ^ leadingExponent x.interval.value ≤ x.interval.value.value ∧
      x.interval.value.value < 10 ^ (leadingExponent x.interval.value + 1) := by
  have positive := significand_pos nonzero
  have small : 4 * x.significand < 2 ^ 55 := by
    have := x.significand_lt
    omega
  have least := x.minExponent_le
  have most := exponent_le finite
  simp only [minExponent] at least
  obtain ⟨k, power⟩ : ∃ k : Nat, (x.exponent - 2).natAbs = k := ⟨_, rfl⟩
  have value : x.interval.value = Ratio.ofBinary (4 * x.significand) (x.exponent - 2) := rfl
  have den_pos : 0 < x.interval.value.den := Ratio.den_ofBinary _ _
  have num_pos : 0 < x.interval.value.num := by
    rw [value, Ratio.ofBinary]
    split
    · exact Nat.mul_pos (by decide) positive
    · exact Nat.mul_pos (Nat.mul_pos (by decide) positive) (Nat.pow_pos (by decide))
  have num_log : x.interval.value.num.log2 < 55 + k := by
    rw [Nat.log2_lt num_pos.ne', value, Ratio.ofBinary, power, Nat.pow_add]
    have one : 1 ≤ 2 ^ k := Nat.one_le_two_pow
    split
    · exact small.trans_le (Nat.le_mul_of_pos_right _ one)
    · exact Nat.mul_lt_mul_of_pos_right small one
  have den_log : x.interval.value.den.log2 ≤ k := by
    rw [value, Ratio.ofBinary, power]
    split
    · exact Nat.log2_two_pow.le
    · exact Nat.zero_le k
  exact leadingExponent_spec num_pos den_pos (by omega) (by omega)

/-- A step that is too fine to jump over the interval. -/
theorem step_lt_width (finite : x.isFinite) (nonzero : x.isZero = false) :
    (10 : ℚ) ^ (leadingExponent x.interval.value - 16) <
      (2 + x.lowerGap) * 2 ^ (x.exponent - 2) := by
  have leading := (leadingExponent_value finite nonzero).1
  rw [value_eq] at leading
  have unit : (0 : ℚ) < 2 ^ (x.exponent - 2) := by positivity
  have step : (10 : ℚ) ^ (leadingExponent x.interval.value - 16) * 10 ^ 16 ≤
      4 * x.significand * 2 ^ (x.exponent - 2) := by
    refine le_trans (le_of_eq ?_) leading
    rw [zpow_sub₀ (by norm_num)]
    norm_num
  rcases x.lowerGap_cases with ⟨gap, power⟩ | ⟨gap, -⟩
  · rw [power] at step
    rw [gap]
    push_cast at step ⊢
    nlinarith
  · have small : (x.significand : ℚ) + 1 ≤ 2 ^ 53 := by exact_mod_cast x.significand_lt
    rw [gap]
    push_cast
    nlinarith

theorem exists_gridNeighbour (finite : x.isFinite) (nonzero : x.isZero = false) (tie : TieRule) :
    (gridNeighbour tie x.interval (leadingExponent x.interval.value - 16)).isSome := by
  rw [Option.isSome_iff_ne_none]
  intro missed
  obtain ⟨lower, upper⟩ := not_contains_of_gridNeighbour missed
  obtain ⟨floor, next⟩ := floorAt_spec (a := x.interval.value) (Ratio.den_ofBinary _ _)
    (leadingExponent x.interval.value - 16)
  have narrow := step_lt_width finite nonzero
  have unit : (0 : ℚ) < 2 ^ (x.exponent - 2) := by positivity
  have gap : (0 : ℚ) < x.lowerGap := by
    rcases x.lowerGap_cases with ⟨gap, -⟩ | ⟨gap, -⟩ <;> rw [gap] <;> norm_num
  have gap := mul_pos gap unit
  rw [value_eq] at floor next
  rw [← Bool.not_eq_true, contains_iff nonzero] at lower upper
  simp only [Decimal.value] at lower upper
  push_cast at upper
  -- Both neighbours miss the interval only if it fits between them.
  have before : (x.interval.value.floorAt (leadingExponent x.interval.value - 16) : ℚ) *
      10 ^ (leadingExponent x.interval.value - 16) ≤
        (4 * x.significand - x.lowerGap) * 2 ^ (x.exponent - 2) := by
    by_contra inside
    rw [not_le] at inside
    exact lower ⟨inside.le, by linarith, fun _ => ⟨inside, by linarith⟩⟩
  have after : (4 * x.significand + 2 : ℚ) * 2 ^ (x.exponent - 2) ≤
      (x.interval.value.floorAt (leadingExponent x.interval.value - 16) + 1) *
        10 ^ (leadingExponent x.interval.value - 16) := by
    by_contra inside
    rw [not_le] at inside
    exact upper ⟨by linarith, inside.le, fun _ => ⟨by linarith, inside⟩⟩
  linarith

/-- The search stops no later than at a grid with a neighbour in the interval. -/
theorem searchGrids_spec (tie : TieRule) (n : Nat) (scale : Int)
    (found : ∃ k < n, (gridNeighbour tie i (scale - k)).isSome) :
    i.contains (searchGrids tie i n scale) ∧ scale - n < (searchGrids tie i n scale).scale := by
  induction n generalizing scale with
  | zero =>
    obtain ⟨k, impossible, -⟩ := found
    omega
  | succ n ih =>
    unfold searchGrids
    cases here : gridNeighbour tie i scale with
    | some d =>
      obtain ⟨inside, rfl⟩ := contains_of_gridNeighbour here
      refine ⟨inside, ?_⟩
      simp only [Option.getD_some]
      omega
    | none =>
      obtain ⟨k, bound, hit⟩ := found
      have later : k ≠ 0 := by
        rintro rfl
        rw [Nat.cast_zero, sub_zero, here] at hit
        simp at hit
      have deeper : ∃ k < n, (gridNeighbour tie i (scale - 1 - k)).isSome := by
        refine ⟨k - 1, by omega, ?_⟩
        convert hit using 3
        omega
      obtain ⟨inside, fine⟩ := ih (scale - 1) deeper
      refine ⟨inside, ?_⟩
      simp only [Option.getD_none]
      omega

theorem value_stripZeros (n : Nat) (d : Decimal) : (stripZeros n d).value = d.value := by
  induction n generalizing d with
  | zero => rfl
  | succ n ih =>
    unfold stripZeros
    split
    · rename_i zero
      rw [ih]
      have digits : (d.digits : ℚ) = (d.digits / 10 : Nat) * 10 := by
        exact_mod_cast (Nat.div_mul_cancel (Nat.dvd_of_mod_eq_zero zero)).symm
      simp only [Decimal.value]
      rw [zpow_add_one₀ (by norm_num), digits]
      ring
    · rfl

/-- Stripping zeros moves the point to the right. -/
theorem scale_stripZeros (n : Nat) (d : Decimal) : d.scale ≤ (stripZeros n d).scale := by
  induction n generalizing d with
  | zero => exact le_rfl
  | succ n ih =>
    unfold stripZeros
    split
    · have := ih ⟨d.digits / 10, d.scale + 1⟩
      dsimp only at this
      omega
    · exact le_rfl

/-- The shortest decimal rounds to the number, and has at most eighteen digits. -/
theorem shortest_spec (finite : x.isFinite) (nonzero : x.isZero = false) (tie : TieRule) :
    x.Covers (x.shortest tie).value ∧ 0 < (x.shortest tie).digits ∧
      (x.shortest tie).digits < 10 ^ 18 := by
  obtain ⟨inside, fine⟩ := searchGrids_spec tie 17 (leadingExponent x.interval.value)
    ⟨16, by decide, exists_gridNeighbour finite nonzero tie⟩
  have covers : x.Covers (x.shortest tie).value := by
    rw [Binary64.shortest, value_stripZeros]
    exact (contains_iff nonzero _).1 inside
  have scale : leadingExponent x.interval.value - 16 ≤ (x.shortest tie).scale := by
    have stripped :=
      scale_stripZeros 17 (searchGrids tie x.interval 17 (leadingExponent x.interval.value))
    rw [Binary64.shortest]
    push_cast at fine
    omega
  have power : (0 : ℚ) < 10 ^ (x.shortest tie).scale := by positivity
  have positive := covers.pos nonzero
  refine ⟨covers, ?_, ?_⟩
  · rw [Decimal.value] at positive
    exact_mod_cast pos_of_mul_pos_left positive power.le
  · have leading := (leadingExponent_value finite nonzero).2
    have grid : (10 : ℚ) ^ (leadingExponent x.interval.value + 1) ≤
        10 ^ 17 * 10 ^ (x.shortest tie).scale := by
      rw [← zpow_natCast, ← zpow_add₀ (by norm_num)]
      exact zpow_le_zpow_right₀ (by norm_num) (by push_cast; omega)
    have upper := covers.upper
    have one : (1 : ℚ) ≤ x.significand := by exact_mod_cast significand_pos nonzero
    have unit : (0 : ℚ) < 2 ^ (x.exponent - 2) := by positivity
    rw [value_eq] at leading
    rw [Decimal.value] at upper
    have digits : ((x.shortest tie).digits : ℚ) * 10 ^ (x.shortest tie).scale <
        10 ^ 18 * 10 ^ (x.shortest tie).scale := by nlinarith
    exact_mod_cast lt_of_mul_lt_mul_right digits power.le

end Grid

end ScriptInference.Binary64
