import CallByNeed.Number
import CallByNeed.Proofs.Rounding
import Mathlib.Data.Nat.Cast.Order.Field

/-!
# The shortest decimal number reads back

A decimal number that is closer to a double than one part in `2 ^ 54` reads as that double
(`Binary64.nearestBits_eq_of_near`). Of the multiples of a power of ten sixteen places behind the
leading digit of a double, one is that close, so the search for the shortest decimal number ends
with one that reads back (`Decimal.nearestBits_shortest`).

Since reading is monotone, the place of the decimal point of the shortest number tells how large the
double is (`Decimal.point_shortest_iff`).
-/

namespace CallByNeed

namespace Decimal

/-- The rational number that a decimal number stands for. -/
def value (d : Decimal) : ℚ :=
  d.coefficient * 10 ^ d.exponent

/-- Powers of ten are those of the rational numbers. -/
@[simp]
theorem cast_tenTo (n : ℕ) : (tenTo n : ℚ) = 10 ^ n := by
  simp [tenTo]

/-- A power of ten is positive. -/
theorem tenTo_pos (n : ℕ) : 0 < tenTo n :=
  Nat.pow_pos (by decide)

/-- The denominator of a decimal number is positive. -/
theorem den_pos (d : Decimal) : 0 < d.den :=
  tenTo_pos _

/-- A decimal number is the fraction of its numerator and denominator. -/
theorem num_div_den (d : Decimal) : (d.num : ℚ) / d.den = d.value := by
  rw [num, den, value, Nat.cast_mul, cast_tenTo, cast_tenTo, mul_div_assoc,
    pow_toNat_div_pow_toNat]

/-- What a decimal number reads as depends on its value only. -/
theorem nearestBits_congr {d d' : Decimal} (h : d.value = d'.value) :
    d.nearestBits = d'.nearestBits :=
  Binary64.nearestBits_congr d.den_pos d'.den_pos (by rw [num_div_den, num_div_den, h])

/-- A greater decimal number does not read as a smaller double. -/
theorem nearestBits_mono {d d' : Decimal} (h : d.value ≤ d'.value) :
    d.nearestBits ≤ d'.nearestBits :=
  Binary64.nearestBits_mono d.den_pos d'.den_pos (by rwa [num_div_den, num_div_den])

/-- Zero reads as zero, whatever its exponent. -/
theorem nearestBits_zero (e : ℤ) : nearestBits ⟨0, e⟩ = 0 := by
  simp [nearestBits, num, Binary64.nearestBits]

/-! ## The number of digits -/

/-- A positive number has as many digits as its size demands. -/
theorem pow_length_toDigits {n : ℕ} (hn : 0 < n) :
    10 ^ ((Nat.toDigits 10 n).length - 1) ≤ n ∧ n < 10 ^ (Nat.toDigits 10 n).length := by
  have hpos : 0 < (Nat.toDigits 10 n).length := Nat.length_toDigits_pos
  refine ⟨?_, (Nat.length_toDigits_le_iff (by decide) hpos).1 le_rfl⟩
  rcases Nat.eq_zero_or_pos ((Nat.toDigits 10 n).length - 1) with h | h
  · rw [h, pow_zero]
    exact hn
  · refine Nat.le_of_not_lt fun hlt => ?_
    have := (Nat.length_toDigits_le_iff (by decide) h).2 hlt
    omega

/-- A positive decimal number lies between the powers of ten before and at its point. -/
theorem pow_point_le {d : Decimal} (hd : 0 < d.coefficient) :
    (10 : ℚ) ^ (d.point - 1) ≤ d.value ∧ d.value < 10 ^ d.point := by
  obtain ⟨hlow, hhigh⟩ := pow_length_toDigits hd
  have hpos : 0 < d.digits.length := Nat.length_toDigits_pos
  have hlow : ((10 : ℚ) ^ (d.digits.length - 1)) ≤ d.coefficient := by exact_mod_cast hlow
  have hhigh : (d.coefficient : ℚ) < 10 ^ d.digits.length := by exact_mod_cast hhigh
  unfold value point
  constructor
  · rw [add_sub_right_comm, zpow_add₀ (by norm_num), ← Nat.cast_pred hpos, zpow_natCast]
    gcongr
  · rw [zpow_add₀ (by norm_num), zpow_natCast]
    gcongr

/-- The leading digit of a fraction that is not too small. -/
theorem pow_leadingPoint_le {n d : ℕ} (hd : 0 < d)
    (h : (1 : ℚ) ≤ n / d * 10 ^ scaleShift) : (10 : ℚ) ^ (leadingPoint n d - 1) ≤ n / d := by
  have hd₀ : (0 : ℚ) < d := by exact_mod_cast hd
  set scaled := n * tenTo scaleShift / d with hscaled
  have hle : (scaled : ℚ) ≤ n / d * 10 ^ scaleShift := by
    calc (scaled : ℚ) ≤ (n * tenTo scaleShift : ℕ) / d := Nat.cast_div_le
      _ = n / d * 10 ^ scaleShift := by
        rw [Nat.cast_mul, cast_tenTo]
        ring
  have hpos : 0 < scaled := by
    refine Nat.div_pos ?_ hd
    rw [div_mul_eq_mul_div, le_div_iff₀ hd₀, one_mul, ← cast_tenTo] at h
    exact_mod_cast h
  have hdigits := (pow_length_toDigits hpos).1
  have hlength : 0 < (Nat.toDigits 10 scaled).length := Nat.length_toDigits_pos
  rw [leadingPoint, ← hscaled, sub_right_comm, zpow_sub₀ (by norm_num), zpow_natCast,
    ← Nat.cast_pred hlength, zpow_natCast, div_le_iff₀ (by positivity)]
  refine le_trans ?_ hle
  exact_mod_cast hdigits

/-! ## Trailing zeros -/

/-- Moving zeros into the exponent changes no value. -/
theorem value_trimBy (fuel : ℕ) (d : Decimal) : (trimBy fuel d).value = d.value := by
  induction fuel generalizing d with
  | zero => rfl
  | succ fuel ih =>
    rw [trimBy]
    split
    · next h =>
      obtain ⟨c, hc⟩ := Nat.dvd_of_mod_eq_zero h.2
      have hdiv : d.coefficient / 10 = c := by omega
      rw [ih, value, value, hdiv, hc, zpow_add_one₀ (by norm_num)]
      push_cast
      ring
    · rfl

/-- Trimming keeps the value. -/
theorem value_trim (d : Decimal) : d.trim.value = d.value :=
  value_trimBy _ d

end Decimal

namespace Binary64

/-! ## Close numbers read back -/

/-- A pattern has at most 53 significant bits. -/
theorem patternValue_succ_le (b : ℕ) : patternValue (b + 1) ≤ 2 ^ 53 * patternGap b := by
  obtain ⟨k, r, rfl, hr, hk, he⟩ := exists_grid b
  have hcast : ((r + 1 : ℕ) : ℚ) ≤ 2 ^ 53 := by
    have h : ((r + 1 : ℕ) : ℚ) ≤ (2 * gridSize : ℕ) := by exact_mod_cast hr
    rw [Nat.cast_mul, cast_gridSize, Nat.cast_ofNat] at h
    linarith
  rw [patternGap, he, add_assoc, patternValue_add (by omega) (hk.imp_right (by omega))]
  gcongr

/-- A fraction that is closer to a double than one part in `2 ^ 54` reads as that double. -/
theorem nearestBits_eq_of_near {n d b : ℕ} (hn : 0 < n) (hd : 0 < d) (hb : b < infinityBits)
    (hdown : 2 ^ 54 * (patternValue b - n / d) < patternValue b)
    (hup : 2 ^ 54 * ((n / d : ℚ) - patternValue b) < patternValue b) : nearestBits n d = b := by
  -- the gap between neighbours is at least one part in `2 ^ 53` of the larger one
  refine nearestBits_eq_of_mid_lt hn hd hb (fun a ha => ?_) ?_
  · obtain ⟨c, rfl⟩ : ∃ c, b = c + 1 := ⟨b - 1, by omega⟩
    have hthis : patternValue a ≤ patternValue c :=
      patternValue_strictMono.monotone (by omega)
    have hnext : patternValue (a + 1) ≤ patternValue (c + 1) :=
      patternValue_strictMono.monotone (by omega)
    have hgap := patternValue_succ_le c
    have hsucc := patternValue_succ c
    linarith
  · have hgap := patternValue_succ_le b
    have hsucc := patternValue_succ b
    have hpos := patternGap_pos b
    linarith

/-- A fraction that is a double reads as that double. -/
theorem nearestBits_eq_of_eq {n d b : ℕ} (hd : 0 < d) (hb : b < infinityBits)
    (h : (n / d : ℚ) = patternValue b) : nearestBits n d = b := by
  rcases Nat.eq_zero_or_pos b with rfl | hpos
  · have hn : n = 0 := by
      rw [patternValue_zero, div_eq_zero_iff] at h
      exact_mod_cast h.resolve_right (by exact_mod_cast hd.ne')
    rw [hn, nearestBits, if_pos rfl]
  · have hvalue : 0 < patternValue b := by
      rw [← patternValue_zero]
      exact patternValue_strictMono hpos
    have hn : 0 < n := by
      rw [← h] at hvalue
      exact_mod_cast (div_pos_iff_of_pos_right (by exact_mod_cast hd)).1 hvalue
    exact nearestBits_eq_of_near hn hd hb (by rwa [h, sub_self, mul_zero])
      (by rwa [h, sub_self, mul_zero])

/-- Every positive double is at least `10 ^ -324`. -/
theorem one_le_patternValue_mul {b : ℕ} (hb : 0 < b) :
    1 ≤ patternValue b * 10 ^ Decimal.scaleShift := by
  have hpow : (2 : ℚ) ^ (1074 : ℕ) ≤ 10 ^ (324 : ℕ) := by
    calc (2 : ℚ) ^ (1074 : ℕ) = (2 ^ 179) ^ 6 := by rw [← pow_mul]
      _ ≤ (10 ^ 54) ^ 6 := pow_le_pow_left₀ (by positivity) (by norm_num) 6
      _ = 10 ^ (324 : ℕ) := by rw [← pow_mul]
  have hone : patternValue 1 = (2 ^ (1074 : ℕ))⁻¹ := by
    rw [patternValue, ofBits_of_lt (by decide), Magnitude.value, Nat.cast_one, one_mul, zpow_neg,
      zpow_ofNat]
  have hle : patternValue 1 ≤ patternValue b := patternValue_strictMono.monotone hb
  have htwo : (0 : ℚ) < 2 ^ (1074 : ℕ) := pow_pos two_pos 1074
  rw [hone] at hle
  rw [Decimal.scaleShift]
  generalize (2 : ℚ) ^ (1074 : ℕ) = two at *
  generalize (10 : ℚ) ^ (324 : ℕ) = ten at *
  calc (1 : ℚ) = two⁻¹ * two := (inv_mul_cancel₀ htwo.ne').symm
    _ ≤ patternValue b * ten := mul_le_mul hle hpow htwo.le ((inv_pos.2 htwo).le.trans hle)

end Binary64

namespace Decimal

open Binary64

/-! ## The search -/

/-- What is found on a grid reads back. -/
theorem nearestBits_of_onGrid? {n d bits : ℕ} {e : ℤ} {found : Decimal}
    (h : onGrid? n d bits e = some found) : found.nearestBits = bits := by
  unfold onGrid? at h
  grind

/-- If one of the neighbours on a grid reads back, something is found there. -/
theorem onGrid?_isSome {n d bits : ℕ} {e : ℤ}
    (h : nearestBits ⟨(gridBelow n d e).1, e⟩ = bits ∨
      nearestBits ⟨(gridBelow n d e).1 + 1, e⟩ = bits) : (onGrid? n d bits e).isSome := by
  unfold onGrid?
  grind

/-- If something is found on one of the grids, the result of the search reads back. -/
theorem nearestBits_searchGrids {n d bits k : ℕ} {e : ℤ} {fuel : ℕ} (hk : k < fuel)
    (h : (onGrid? n d bits (e - k)).isSome) : (searchGrids n d bits fuel e).nearestBits = bits := by
  induction fuel generalizing k e with
  | zero => omega
  | succ fuel ih =>
    rw [searchGrids]
    split
    · next found hfound => exact nearestBits_of_onGrid? hfound
    · next hnone =>
      cases k with
      | zero =>
        rw [Nat.cast_zero, sub_zero, hnone] at h
        exact absurd h (by decide)
      | succ k =>
        refine ih (k := k) (by omega) ?_
        rwa [Nat.cast_succ, add_comm, ← sub_sub] at h

/-- The neighbours of a fraction on a grid enclose it. -/
theorem gridBelow_le {n d : ℕ} (hd : 0 < d) (e : ℤ) :
    value ⟨(gridBelow n d e).1, e⟩ ≤ (n / d : ℚ) ∧
      (n / d : ℚ) < value ⟨(gridBelow n d e).1 + 1, e⟩ := by
  have hd₀ : (0 : ℚ) < d := by exact_mod_cast hd
  have hden : 0 < d * tenTo e.toNat := Nat.mul_pos hd (tenTo_pos _)
  have hlow := Nat.div_mul_le_self (n * tenTo (-e).toNat) (d * tenTo e.toNat)
  have hhigh := Nat.lt_div_mul_add hden (a := n * tenTo (-e).toNat)
  unfold gridBelow value
  set below := n * tenTo (-e).toNat / (d * tenTo e.toNat)
  have hup : (0 : ℚ) < tenTo e.toNat := by exact_mod_cast tenTo_pos _
  have hdown : (0 : ℚ) < tenTo (-e).toNat := by exact_mod_cast tenTo_pos _
  rw [← add_one_mul] at hhigh
  have hlow : (below * (d * tenTo e.toNat) : ℚ) ≤ n * tenTo (-e).toNat := by exact_mod_cast hlow
  have hhigh : (n * tenTo (-e).toNat : ℚ) < (below + 1) * (d * tenTo e.toNat) := by
    exact_mod_cast hhigh
  rw [← pow_toNat_div_pow_toNat, ← cast_tenTo, ← cast_tenTo]
  dsimp only
  constructor
  · rw [← mul_div_assoc, div_le_div_iff₀ hdown hd₀]
    linarith
  · rw [← mul_div_assoc, div_lt_div_iff₀ hd₀ hdown, Nat.cast_add_one]
    linarith

/-- Sixteen places behind the leading digit of a double, a neighbour of the double reads back. -/
theorem onGrid?_isSome_of_pow_le {bits : ℕ} {e : ℤ} (hbits : bits < infinityBits)
    (he : 10 ^ (e + 16) ≤ patternValue bits) :
    (onGrid? (Magnitude.ofBits bits).num (Magnitude.ofBits bits).den bits e).isSome := by
  have hexact := Magnitude.num_div_den (Magnitude.ofBits bits)
  rw [← patternValue] at hexact
  obtain ⟨hlow, hhigh⟩ := gridBelow_le (n := (Magnitude.ofBits bits).num)
    (Magnitude.den_pos (Magnitude.ofBits bits)) e
  set below := (gridBelow (Magnitude.ofBits bits).num (Magnitude.ofBits bits).den e).1
  rw [hexact] at hlow hhigh
  have hunit : (10 : ℚ) ^ (16 : ℕ) * 10 ^ e ≤ patternValue bits := by
    rwa [zpow_add₀ (by norm_num), mul_comm] at he
  have hpos : (0 : ℚ) < 10 ^ e := by positivity
  have hsucc : value ⟨below + 1, e⟩ = value ⟨below, e⟩ + 10 ^ e := by
    rw [value, value, Nat.cast_add_one, add_one_mul]
  have hnum : ∀ d : Decimal, 0 < d.value → 0 < d.num := by
    intro d hd
    rw [← num_div_den] at hd
    exact_mod_cast (div_pos_iff_of_pos_right (by exact_mod_cast d.den_pos)).1 hd
  apply onGrid?_isSome
  -- the nearer neighbour is at most half a unit away
  rcases le_total (2 * (patternValue bits - value ⟨below, e⟩)) (10 ^ e) with hnear | hnear
  · refine .inl (nearestBits_eq_of_near (hnum _ ?_) (den_pos _) hbits ?_ ?_)
    · norm_num at hunit
      linarith
    · rw [num_div_den]
      norm_num at hunit ⊢
      linarith
    · rw [num_div_den]
      norm_num at hunit ⊢
      linarith
  · refine .inr (nearestBits_eq_of_near (hnum _ ?_) (den_pos _) hbits ?_ ?_)
    · norm_num at hunit
      linarith
    · rw [num_div_den]
      norm_num at hunit ⊢
      linarith
    · rw [num_div_den]
      norm_num at hunit ⊢
      linarith

/-- The shortest decimal number for a double reads back as that double. -/
theorem nearestBits_shortest {bits : ℕ} (h₀ : 0 < bits) (hbits : bits < infinityBits) :
    (shortest bits).nearestBits = bits := by
  have hexact := Magnitude.num_div_den (Magnitude.ofBits bits)
  rw [← patternValue] at hexact
  have hlead := pow_leadingPoint_le (n := (Magnitude.ofBits bits).num)
    (Magnitude.den_pos (Magnitude.ofBits bits)) (by rw [hexact]; exact one_le_patternValue_mul h₀)
  rw [hexact] at hlead
  -- the search covers seventeen grids, the last of which is fine enough
  rw [shortest, nearestBits_congr (value_trim _)]
  refine nearestBits_searchGrids (by decide : 16 < 17) (onGrid?_isSome_of_pow_le hbits ?_)
  rwa [Nat.cast_ofNat, sub_add_cancel]

/-- What reads as a positive double has a digit that is not zero. -/
theorem coefficient_pos_of_nearestBits {d : Decimal} (h : 0 < d.nearestBits) :
    0 < d.coefficient := by
  refine Nat.pos_of_ne_zero fun hzero => ?_
  obtain ⟨c, e⟩ := d
  subst hzero
  rw [nearestBits_zero] at h
  exact absurd h (lt_irrefl 0)

/-- If a power of ten is written with one digit, the shortest decimal number for a double has its
point after that of the power exactly if the double is not below the power. -/
theorem point_shortest_iff {bits : ℕ} (h₀ : 0 < bits) (hbits : bits < infinityBits) {e : ℤ}
    (he : shortest (nearestBits ⟨1, e⟩) = ⟨1, e⟩) :
    e < (shortest bits).point ↔ nearestBits ⟨1, e⟩ ≤ bits := by
  have hreads := nearestBits_shortest h₀ hbits
  obtain ⟨hlow, hhigh⟩ := pow_point_le (coefficient_pos_of_nearestBits (hreads.symm ▸ h₀))
  have hpower : value ⟨1, e⟩ = 10 ^ e := by simp [value]
  constructor
  · intro h
    rw [← hreads]
    refine nearestBits_mono (le_trans ?_ hlow)
    rw [hpower]
    exact zpow_le_zpow_right₀ (by norm_num) (by omega)
  · intro h
    by_contra hle
    -- a smaller number can only read as the power itself, which has its point elsewhere
    have hbelow : (shortest bits).value ≤ value ⟨1, e⟩ := by
      rw [hpower]
      exact hhigh.le.trans (zpow_le_zpow_right₀ (by norm_num) (by omega))
    have hge := nearestBits_mono hbelow
    rw [hreads] at hge
    rw [le_antisymm hge h, he] at hle
    exact hle (by simp [point, digits, Nat.toDigits_of_lt_base])

end Decimal

end CallByNeed
