import CallByNeed.Decimal.Shortest
import Mathlib.Algebra.Order.Field.Power
import Mathlib.Algebra.Order.Ring.Rat
import Mathlib.Tactic.FieldSimp
import Mathlib.Tactic.GCongr
import Mathlib.Tactic.Linarith
import Mathlib.Tactic.NormNum
import Mathlib.Tactic.Positivity
import Mathlib.Tactic.Ring

/-!
# Rounding to the nearest double

`patternValue b` is the rational number that the bit pattern `b` stands for. Consecutive patterns
stand for consecutive doubles, so rounding is a statement about patterns: `nearestBits n d` is the
pattern between whose midpoints with its neighbours `n / d` lies.

* `roundedPattern_le_mid`, `mid_le_roundedPattern`: the rounded pattern is a nearest one;
* `nearestBits_eq_of_mid_lt`: a pattern with `n / d` strictly between its midpoints is the result;
* `nearestBits_congr`, `nearestBits_mono`: the result depends on the value of `n / d` only, and
  grows with it.
-/

namespace CallByNeed

/-! ## The values of bit patterns -/

/-- The positive and the negative part of an exponent. -/
theorem pow_toNat_div_pow_toNat (a : ℚ) (e : ℤ) :
    a ^ e.toNat / a ^ (-e).toNat = a ^ e := by
  rcases le_total 0 e with he | he
  · rw [Int.toNat_of_nonpos (by omega : -e ≤ 0), pow_zero, div_one, ← zpow_natCast,
      Int.toNat_of_nonneg he]
  · rw [Int.toNat_of_nonpos he, pow_zero, one_div, ← zpow_natCast,
      Int.toNat_of_nonneg (by omega : 0 ≤ -e), zpow_neg, inv_inv]

/-- Powers of two are those of the rational numbers. -/
@[simp]
theorem cast_twoTo (n : ℕ) : (twoTo n : ℚ) = 2 ^ n := by
  simp [twoTo]

/-- A power of two is positive. -/
theorem twoTo_pos (n : ℕ) : 0 < twoTo n :=
  Nat.pow_pos (by decide)

/-- The rational number that a magnitude stands for. -/
def Magnitude.value (m : Magnitude) : ℚ :=
  m.significand * 2 ^ m.exponent

/-- The denominator of a magnitude is positive. -/
theorem Magnitude.den_pos (m : Magnitude) : 0 < m.den :=
  twoTo_pos _

/-- A magnitude is the fraction of its numerator and denominator. -/
theorem Magnitude.num_div_den (m : Magnitude) : (m.num : ℚ) / m.den = m.value := by
  rw [num, den, value, Nat.cast_mul, cast_twoTo, cast_twoTo, mul_div_assoc,
    pow_toNat_div_pow_toNat]

namespace Binary64

/-- The rational number that a bit pattern without sign stands for. -/
def patternValue (b : ℕ) : ℚ :=
  (Magnitude.ofBits b).value

/-- The distance from a bit pattern to the next one. -/
def patternGap (b : ℕ) : ℚ :=
  2 ^ (Magnitude.ofBits b).exponent

/-- Neighbouring doubles differ. -/
theorem patternGap_pos (b : ℕ) : 0 < patternGap b := by
  unfold patternGap
  positivity

/-- There are doubles between two powers of two. -/
theorem gridSize_pos : 0 < gridSize := by
  decide

/-- There are `2 ^ 52` doubles from one power of two to the next. -/
theorem cast_gridSize : (gridSize : ℚ) = 2 ^ 52 := by
  norm_num [gridSize]

/-- The magnitude of a pattern below the first grid. -/
theorem ofBits_of_lt {b : ℕ} (hb : b < gridSize) : Magnitude.ofBits b = ⟨b, -1074⟩ := by
  unfold Magnitude.ofBits
  rw [if_pos (Nat.div_eq_of_lt hb), Nat.mod_eq_of_lt hb]

/-- The magnitude of a pattern in the `k + 1`-st grid. -/
theorem ofBits_add {k r : ℕ} (hr : r < gridSize) :
    Magnitude.ofBits ((k + 1) * gridSize + r) = ⟨gridSize + r, (k : ℤ) - 1074⟩ := by
  have hdiv : ((k + 1) * gridSize + r) / gridSize = k + 1 := by
    rw [Nat.add_comm, Nat.add_mul_div_right _ _ gridSize_pos, Nat.div_eq_of_lt hr, zero_add]
  have hmod : ((k + 1) * gridSize + r) % gridSize = r := by
    rw [Nat.add_comm, Nat.add_mul_mod_self_right, Nat.mod_eq_of_lt hr]
  unfold Magnitude.ofBits
  rw [hdiv, hmod, if_neg (Nat.succ_ne_zero k)]
  congr 1
  push_cast
  ring

/-- The patterns that start `k` grids from zero. A significand may have one bit too many: there the
next grid begins. -/
theorem patternValue_add {k r : ℕ} (hr : r ≤ 2 * gridSize) (hk : k = 0 ∨ gridSize ≤ r) :
    patternValue (k * gridSize + r) = r * 2 ^ ((k : ℤ) - 1074) := by
  rw [patternValue]
  rcases Nat.lt_or_ge r gridSize with hlt | hge
  · obtain rfl : k = 0 := hk.resolve_right (by omega)
    rw [zero_mul, zero_add, ofBits_of_lt hlt, Magnitude.value, Nat.cast_zero, zero_sub]
  · obtain ⟨s, rfl⟩ := Nat.exists_eq_add_of_le hge
    rw [← add_assoc, ← add_one_mul k gridSize]
    rcases Nat.lt_or_ge s gridSize with hlt | hge'
    · rw [ofBits_add hlt, Magnitude.value]
    · -- one bit too many is the first pattern of the next grid
      obtain rfl : s = gridSize := by omega
      have h := ofBits_add (k := k + 1) gridSize_pos
      rw [add_zero, add_one_mul (k + 1)] at h
      rw [h, Magnitude.value]
      push_cast
      rw [add_sub_right_comm, zpow_add_one₀ two_ne_zero]
      ring

/-- Every pattern lies in a grid. -/
theorem exists_grid (b : ℕ) : ∃ k r, b = k * gridSize + r ∧ r < 2 * gridSize ∧
    (k = 0 ∨ gridSize ≤ r) ∧ (Magnitude.ofBits b).exponent = (k : ℤ) - 1074 := by
  rcases Nat.lt_or_ge b gridSize with hlt | hge
  · exact ⟨0, b, by simp, by omega, .inl rfl, by rw [ofBits_of_lt hlt]; rfl⟩
  · obtain ⟨k, hk⟩ : ∃ k, b / gridSize = k + 1 :=
      ⟨b / gridSize - 1, by have := Nat.div_pos hge gridSize_pos; omega⟩
    have hmod := Nat.mod_lt b gridSize_pos
    have hb : b = (k + 1) * gridSize + b % gridSize := by
      rw [← hk, Nat.mul_comm]
      exact (Nat.div_add_mod b gridSize).symm
    refine ⟨k, gridSize + b % gridSize, ?_, by omega, .inr (by omega), ?_⟩
    · rw [← add_assoc, ← add_one_mul]
      exact hb
    · rw [hb, ofBits_add hmod]

/-- The next pattern stands for the next double. -/
theorem patternValue_succ (b : ℕ) : patternValue (b + 1) = patternValue b + patternGap b := by
  obtain ⟨k, r, rfl, hr, hk, he⟩ := exists_grid b
  rw [patternGap, he, add_assoc, patternValue_add (by omega) (hk.imp_right (by omega)),
    patternValue_add hr.le hk]
  push_cast
  ring

/-- Doubles are ordered as their patterns are. -/
theorem patternValue_strictMono : StrictMono patternValue :=
  strictMono_nat_of_lt_succ fun b => by
    rw [patternValue_succ]
    exact lt_add_of_pos_right _ (patternGap_pos b)

/-- The first pattern is that of zero. -/
theorem patternValue_zero : patternValue 0 = 0 := by
  rw [patternValue, ofBits_of_lt gridSize_pos, Magnitude.value, Nat.cast_zero, zero_mul]

/-! ## Rounding on a grid -/

/-- A rounded fraction is at most half a unit away from the fraction. -/
theorem roundHalfEven_bounds (n : ℕ) {d : ℕ} (hd : 0 < d) :
    2 * (roundHalfEven n d * d) ≤ 2 * n + d ∧ 2 * n ≤ 2 * (roundHalfEven n d * d) + d := by
  have hdiv : d * (n / d) + n % d = n := Nat.div_add_mod n d
  have hmod : n % d < d := Nat.mod_lt n hd
  rw [Nat.mul_comm] at hdiv
  unfold roundHalfEven
  dsimp only
  split
  · constructor <;> omega
  · split
    · rw [add_one_mul]
      constructor <;> omega
    · rcases Nat.mod_two_eq_zero_or_one (n / d) with h | h <;> rw [h]
      · rw [add_zero]
        constructor <;> omega
      · rw [add_one_mul]
        constructor <;> omega

/-- Rounding does not change when both sides of the fraction are scaled. -/
theorem roundHalfEven_mul_right (n d : ℕ) {k : ℕ} (hk : 0 < k) :
    roundHalfEven (n * k) (d * k) = roundHalfEven n d := by
  have hlt : 2 * (n % d * k) < d * k ↔ 2 * (n % d) < d := by
    rw [← mul_assoc]
    exact Nat.mul_lt_mul_right hk
  have hgt : d * k < 2 * (n % d * k) ↔ d < 2 * (n % d) := by
    rw [← mul_assoc]
    exact Nat.mul_lt_mul_right hk
  unfold roundHalfEven
  simp only [Nat.mul_div_mul_right _ _ hk, Nat.mul_mod_mul_right, hlt, hgt]

/-- Rounding depends on the value of the fraction only. -/
theorem roundHalfEven_congr {n d n' d' : ℕ} (hd : 0 < d) (hd' : 0 < d')
    (h : n * d' = n' * d) : roundHalfEven n d = roundHalfEven n' d' := by
  rw [← roundHalfEven_mul_right n d hd', ← roundHalfEven_mul_right n' d' hd, h,
    Nat.mul_comm d' d]

/-- A positive number lies between two powers of two. -/
theorem pow_log2_le {n : ℕ} (hn : 0 < n) :
    (2 : ℚ) ^ (n.log2 : ℤ) ≤ n ∧ (n : ℚ) < 2 ^ ((n.log2 : ℤ) + 1) := by
  constructor
  · rw [zpow_natCast]
    exact_mod_cast Nat.log2_self_le hn.ne'
  · have h := Nat.lt_log2_self (n := n)
    rw [← Nat.cast_one, ← Nat.cast_add, zpow_natCast]
    exact_mod_cast h

/-- The leading bit of a fraction. -/
theorem leadingExponent_bounds {n d : ℕ} (hn : 0 < n) (hd : 0 < d) :
    (2 : ℚ) ^ leadingExponent n d ≤ n / d ∧ (n / d : ℚ) < 2 ^ (leadingExponent n d + 1) := by
  obtain ⟨hn₁, hn₂⟩ := pow_log2_le hn
  obtain ⟨hd₁, hd₂⟩ := pow_log2_le hd
  have hd₀ : (0 : ℚ) < d := by exact_mod_cast hd
  set l : ℤ := (n.log2 : ℤ) - d.log2 with hl
  -- the logarithms alone leave two candidates
  have hlow : (2 : ℚ) ^ (l - 1) ≤ n / d := by
    rw [le_div_iff₀ hd₀]
    calc (2 : ℚ) ^ (l - 1) * d ≤ 2 ^ (l - 1) * 2 ^ ((d.log2 : ℤ) + 1) := by gcongr
      _ = 2 ^ (n.log2 : ℤ) := by
        rw [← zpow_add₀ two_ne_zero]
        congr 1
        omega
      _ ≤ n := hn₁
  have hhigh : (n / d : ℚ) < 2 ^ (l + 1) := by
    rw [div_lt_iff₀ hd₀]
    calc (n : ℚ) < 2 ^ ((n.log2 : ℤ) + 1) := hn₂
      _ = 2 ^ (l + 1) * 2 ^ (d.log2 : ℤ) := by
        rw [← zpow_add₀ two_ne_zero]
        congr 1
        omega
      _ ≤ 2 ^ (l + 1) * d := by gcongr
  have htest : n * twoTo (-l).toNat < d * twoTo l.toNat ↔ (n / d : ℚ) < 2 ^ l := by
    rw [← pow_toNat_div_pow_toNat, div_lt_div_iff₀ hd₀ (by positivity), ← cast_twoTo,
      ← cast_twoTo, Nat.mul_comm d]
    exact_mod_cast Iff.rfl
  unfold leadingExponent
  rw [← hl]
  dsimp only
  split
  · next h =>
    rw [htest] at h
    exact ⟨hlow, by rwa [sub_add_cancel]⟩
  · next h =>
    rw [htest, not_lt] at h
    exact ⟨h, hhigh⟩

/-- The leading bit depends on the value of the fraction only. -/
theorem leadingExponent_congr {n d n' d' : ℕ} (hn : 0 < n) (hd : 0 < d) (hn' : 0 < n')
    (hd' : 0 < d') (h : (n / d : ℚ) = n' / d') :
    leadingExponent n d = leadingExponent n' d' := by
  obtain ⟨h₁, h₂⟩ := leadingExponent_bounds hn hd
  obtain ⟨h₃, h₄⟩ := leadingExponent_bounds hn' hd'
  rw [h] at h₁ h₂
  have hle := (zpow_lt_zpow_iff_right₀ one_lt_two).1 (h₁.trans_lt h₄)
  have hge := (zpow_lt_zpow_iff_right₀ one_lt_two).1 (h₃.trans_lt h₂)
  omega

/-! ## The rounded pattern -/

/-- The rounded pattern of `n / d`, which may lie beyond the finite ones. -/
def roundedPattern (n d : ℕ) : ℕ :=
  (gridExponent n d + 1074).toNat * gridSize +
    roundHalfEven (n * twoTo (-gridExponent n d).toNat) (d * twoTo (gridExponent n d).toNat)

/-- Rounding takes the nearest pattern, up to that of infinity. -/
theorem nearestBits_eq_min {n : ℕ} (hn : 0 < n) (d : ℕ) :
    nearestBits n d = min (roundedPattern n d) infinityBits := by
  unfold nearestBits roundedPattern
  rw [if_neg hn.ne']
  dsimp only
  split <;> omega

/-- The grid on which a fraction is rounded is the one in which it lies. -/
theorem gridExponent_spec {n d : ℕ} (hn : 0 < n) (hd : 0 < d) :
    ∃ k : ℕ, gridExponent n d = k - 1074 ∧
      (n / d : ℚ) < 2 * gridSize * 2 ^ ((k : ℤ) - 1074) ∧
      (k = 0 ∨ (gridSize : ℚ) * 2 ^ ((k : ℤ) - 1074) ≤ n / d) := by
  obtain ⟨hlow, hhigh⟩ := leadingExponent_bounds hn hd
  have hgrid : ∀ e : ℤ, (gridSize : ℚ) * 2 ^ (e - 52) = 2 ^ e := fun e => by
    rw [cast_gridSize, ← zpow_natCast, ← zpow_add₀ two_ne_zero]
    congr 1
    omega
  unfold gridExponent
  dsimp only
  -- all fractions that are too small for a leading bit of their own share the first grid
  split
  · next h =>
    refine ⟨0, by simp, ?_, .inl rfl⟩
    calc (n / d : ℚ) < 2 ^ (leadingExponent n d + 1) := hhigh
      _ ≤ 2 ^ (-1022 + 1 : ℤ) := zpow_le_zpow_right₀ one_le_two (by omega)
      _ = 2 * gridSize * 2 ^ (((0 : ℕ) : ℤ) - 1074) := by
        rw [zpow_add_one₀ two_ne_zero, ← hgrid, mul_comm, ← mul_assoc, Nat.cast_zero]
        rfl
  · next h =>
    obtain ⟨k, hk⟩ := Int.eq_ofNat_of_zero_le (by omega : 0 ≤ leadingExponent n d - 52 + 1074)
    obtain hk' : leadingExponent n d - 52 = (k : ℤ) - 1074 := by omega
    refine ⟨k, hk', ?_, .inr ?_⟩
    · rw [← hk', mul_assoc, hgrid, mul_comm, ← zpow_add_one₀ two_ne_zero]
      exact hhigh
    · rw [← hk', hgrid]
      exact hlow

/-- The rounded pattern of `n / d` as a grid and a significand on it, at most half a unit of the
grid away. -/
theorem exists_roundedPattern {n d : ℕ} (hn : 0 < n) (hd : 0 < d) :
    ∃ k r : ℕ, roundedPattern n d = k * gridSize + r ∧ r ≤ 2 * gridSize ∧
      (k = 0 ∨ gridSize ≤ r) ∧
      (n / d : ℚ) < 2 * gridSize * 2 ^ ((k : ℤ) - 1074) ∧
      (k = 0 ∨ (gridSize : ℚ) * 2 ^ ((k : ℤ) - 1074) ≤ n / d) ∧
      2 * (r * 2 ^ ((k : ℤ) - 1074) : ℚ) ≤ 2 * (n / d) + 2 ^ ((k : ℤ) - 1074) ∧
      2 * (n / d : ℚ) ≤ 2 * (r * 2 ^ ((k : ℤ) - 1074)) + 2 ^ ((k : ℤ) - 1074) := by
  obtain ⟨k, hk, hhigh, hlow⟩ := gridExponent_spec hn hd
  have hd₀ : (0 : ℚ) < d := by exact_mod_cast hd
  set u : ℚ := 2 ^ ((k : ℤ) - 1074) with hu
  have hu₀ : 0 < u := by positivity
  have hscale : u = twoTo ((k : ℤ) - 1074).toNat / twoTo (-((k : ℤ) - 1074)).toNat := by
    rw [hu, ← pow_toNat_div_pow_toNat, cast_twoTo, cast_twoTo]
  have hden : 0 < d * twoTo ((k : ℤ) - 1074).toNat := Nat.mul_pos hd (twoTo_pos _)
  obtain ⟨hr₁, hr₂⟩ :=
    roundHalfEven_bounds (n * twoTo (-((k : ℤ) - 1074)).toNat) hden
  set r := roundHalfEven (n * twoTo (-((k : ℤ) - 1074)).toNat) (d * twoTo ((k : ℤ) - 1074).toNat)
  have ha : (0 : ℚ) < twoTo ((k : ℤ) - 1074).toNat := by exact_mod_cast twoTo_pos _
  have hb : (0 : ℚ) < twoTo (-((k : ℤ) - 1074)).toNat := by exact_mod_cast twoTo_pos _
  -- rounding happened in units of the grid, so the bounds are scaled by one unit
  have hdown : 2 * (r * u) ≤ 2 * (n / d) + u := by
    have h : (2 * (r * (d * twoTo ((k : ℤ) - 1074).toNat)) : ℚ) ≤
        2 * (n * twoTo (-((k : ℤ) - 1074)).toNat) + d * twoTo ((k : ℤ) - 1074).toNat := by
      exact_mod_cast hr₁
    rw [hscale]
    field_simp
    linarith
  have hup : 2 * (n / d : ℚ) ≤ 2 * (r * u) + u := by
    have h : (2 * (n * twoTo (-((k : ℤ) - 1074)).toNat) : ℚ) ≤
        2 * (r * (d * twoTo ((k : ℤ) - 1074).toNat)) + d * twoTo ((k : ℤ) - 1074).toNat := by
      exact_mod_cast hr₂
    rw [hscale]
    field_simp
    linarith
  refine ⟨k, r, ?_, ?_, ?_, hhigh, hlow, hdown, hup⟩
  · rw [roundedPattern, hk]
    congr 2
    omega
  · have h : (r : ℚ) * u < (2 * gridSize + 1 : ℕ) * u := by
      push_cast
      linarith
    have h' : (r : ℚ) < (2 * gridSize + 1 : ℕ) := lt_of_mul_lt_mul_right h hu₀.le
    exact Nat.lt_succ_iff.1 (by exact_mod_cast h')
  · refine hlow.imp_right fun hlow => ?_
    have h : (gridSize : ℚ) * u < (r + 1 : ℕ) * u := by
      push_cast
      linarith
    have h' : (gridSize : ℚ) < (r + 1 : ℕ) := lt_of_mul_lt_mul_right h hu₀.le
    exact Nat.lt_succ_iff.1 (by exact_mod_cast h')

/-- A fraction does not lie beyond the middle between its rounded pattern and the next one. -/
theorem roundedPattern_le_mid {n d : ℕ} (hn : 0 < n) (hd : 0 < d) :
    2 * (n / d : ℚ) ≤
      patternValue (roundedPattern n d) + patternValue (roundedPattern n d + 1) := by
  obtain ⟨k, r, hB, hr, hk, hhigh, -, -, hup⟩ := exists_roundedPattern hn hd
  have hvalue := patternValue_add hr hk
  rcases hr.lt_or_eq with hlt | heq
  · rw [hB, add_assoc, hvalue, patternValue_add (by omega) (hk.imp_right (by omega))]
    push_cast
    linarith
  · -- the significand carried into the next grid, above the fraction
    have hnext := patternValue_strictMono (Nat.lt_succ_self (k * gridSize + r))
    rw [Nat.succ_eq_add_one, hvalue] at hnext
    have hr' : (r : ℚ) = 2 * gridSize := by exact_mod_cast heq
    rw [hB, hvalue]
    rw [hr'] at hnext ⊢
    linarith

/-- A fraction does not lie before the middle between two patterns up to its rounded one. -/
theorem mid_le_roundedPattern {n d b : ℕ} (hn : 0 < n) (hd : 0 < d)
    (hb : b < roundedPattern n d) :
    patternValue b + patternValue (b + 1) ≤ 2 * (n / d : ℚ) := by
  obtain ⟨k, r, hB, hr, hk, -, hlow, hdown, -⟩ := exists_roundedPattern hn hd
  have hvalue := patternValue_add hr hk
  have hnext : patternValue (b + 1) ≤ patternValue (k * gridSize + r) :=
    patternValue_strictMono.monotone (by omega)
  have hstep := patternValue_strictMono (Nat.lt_succ_self b)
  rw [Nat.succ_eq_add_one] at hstep
  by_cases hedge : k = 0 ∨ gridSize < r
  · obtain ⟨s, rfl⟩ : ∃ s, r = s + 1 := by
      refine ⟨r - 1, (Nat.sub_add_cancel ?_).symm⟩
      rcases hedge with rfl | h <;> omega
    have hthis : patternValue b ≤ patternValue (k * gridSize + s) :=
      patternValue_strictMono.monotone (by omega)
    rw [hvalue] at hnext
    rw [patternValue_add (by omega) (by omega)] at hthis
    push_cast at hnext hdown
    linarith
  · -- the first significand of a grid, not above the fraction
    obtain rfl : r = gridSize := by omega
    have hlow := hlow.resolve_left (by omega)
    rw [hvalue] at hnext
    linarith

/-- A pattern whose midpoints with its neighbours enclose the fraction is the rounded one. -/
theorem roundedPattern_eq_of_mid_lt {n d b : ℕ} (hn : 0 < n) (hd : 0 < d)
    (hlow : ∀ a < b, patternValue a + patternValue (a + 1) < 2 * (n / d : ℚ))
    (hhigh : 2 * (n / d : ℚ) < patternValue b + patternValue (b + 1)) :
    roundedPattern n d = b := by
  rcases Nat.lt_trichotomy (roundedPattern n d) b with h | h | h
  · exact absurd (roundedPattern_le_mid hn hd) (hlow _ h).not_ge
  · exact h
  · exact absurd (mid_le_roundedPattern hn hd h) hhigh.not_ge

/-- A finite pattern whose midpoints with its neighbours enclose the fraction is the nearest. -/
theorem nearestBits_eq_of_mid_lt {n d b : ℕ} (hn : 0 < n) (hd : 0 < d) (hb : b < infinityBits)
    (hlow : ∀ a < b, patternValue a + patternValue (a + 1) < 2 * (n / d : ℚ))
    (hhigh : 2 * (n / d : ℚ) < patternValue b + patternValue (b + 1)) :
    nearestBits n d = b := by
  rw [nearestBits_eq_min hn, roundedPattern_eq_of_mid_lt hn hd hlow hhigh, min_eq_left hb.le]

/-- The rounded pattern depends on the value of the fraction only. -/
theorem roundedPattern_congr {n d n' d' : ℕ} (hn : 0 < n) (hd : 0 < d) (hn' : 0 < n')
    (hd' : 0 < d') (h : (n / d : ℚ) = n' / d') : roundedPattern n d = roundedPattern n' d' := by
  have hcross : n * d' = n' * d := by
    rw [div_eq_div_iff (by exact_mod_cast hd.ne') (by exact_mod_cast hd'.ne')] at h
    exact_mod_cast h
  have hgrid : gridExponent n d = gridExponent n' d' := by
    unfold gridExponent
    rw [leadingExponent_congr hn hd hn' hd' h]
  unfold roundedPattern
  rw [hgrid]
  congr 1
  refine roundHalfEven_congr (Nat.mul_pos hd (twoTo_pos _)) (Nat.mul_pos hd' (twoTo_pos _)) ?_
  rw [mul_mul_mul_comm, hcross, mul_mul_mul_comm]

/-- The nearest pattern grows with the fraction. -/
theorem nearestBits_mono {n d n' d' : ℕ} (hd : 0 < d) (hd' : 0 < d')
    (h : (n / d : ℚ) ≤ n' / d') : nearestBits n d ≤ nearestBits n' d' := by
  rcases Nat.eq_zero_or_pos n with rfl | hn
  · exact Nat.zero_le _
  have hd₀ : (0 : ℚ) < d := by exact_mod_cast hd
  have hd₀' : (0 : ℚ) < d' := by exact_mod_cast hd'
  have hn₀ : (0 : ℚ) < n := by exact_mod_cast hn
  have hn' : 0 < n' := by
    have : (0 : ℚ) < n' / d' := (by positivity : (0 : ℚ) < n / d).trans_le h
    exact_mod_cast (div_pos_iff_of_pos_right hd₀').1 this
  rw [nearestBits_eq_min hn, nearestBits_eq_min hn']
  refine min_le_min_right _ (Nat.le_of_not_lt fun hlt => hlt.ne' ?_)
  -- a smaller pattern would need both fractions at the same midpoint
  have hup := roundedPattern_le_mid hn' hd'
  have hdown := mid_le_roundedPattern hn hd hlt
  exact roundedPattern_congr hn hd hn' hd' (by linarith)

/-- The nearest pattern depends on the value of the fraction only. -/
theorem nearestBits_congr {n d n' d' : ℕ} (hd : 0 < d) (hd' : 0 < d')
    (h : (n / d : ℚ) = n' / d') : nearestBits n d = nearestBits n' d' :=
  (nearestBits_mono hd hd' h.le).antisymm (nearestBits_mono hd' hd h.ge)

end Binary64

end CallByNeed
