import CallByNeed.Proofs.NumberDisplay

/-!
# The shortest decimal number

`Decimal.IsShortest b d` says which decimal number is to be written for the double with the pattern
`b`: one that reads as the double, with as few digits as possible, as near to the double as
possible, and with an even last digit if two are equally near. There is no more than one
(`Decimal.IsShortest.unique`), and the search finds it (`Decimal.isShortest_shortest`).

The numbers that read as a double lie around it without gaps (`Decimal.reads_of_le`,
`Decimal.reads_of_ge`). So if any number with `j + 1` digits reads as the double, then so does one
of the two neighbours of the double on the grid `j` places behind its leading digit, and that one is
no farther away (`Decimal.exists_neighbour`). The search ends on the first grid on which a neighbour
reads back (`Decimal.exists_takenOnGrid`).
-/

namespace CallByNeed

open Binary64

namespace Decimal

/-! ## Numbers between a double and one that reads as it -/

/-- A decimal number that is at most a double reads as at most that double. -/
theorem nearestBits_le {b : ℕ} (hb : b < infinityBits) {d : Decimal}
    (h : d.value ≤ patternValue b) : d.nearestBits ≤ b := by
  have hexact := Magnitude.num_div_den (Magnitude.ofBits b)
  rw [← nearestBits_eq_of_eq (Magnitude.den_pos (Magnitude.ofBits b)) hb hexact]
  refine Binary64.nearestBits_mono d.den_pos (Magnitude.den_pos _) ?_
  rwa [num_div_den, hexact]

/-- A decimal number that is at least a double reads as at least that double. -/
theorem le_nearestBits {b : ℕ} (hb : b < infinityBits) {d : Decimal}
    (h : patternValue b ≤ d.value) : b ≤ d.nearestBits := by
  have hexact := Magnitude.num_div_den (Magnitude.ofBits b)
  rw [← nearestBits_eq_of_eq (Magnitude.den_pos (Magnitude.ofBits b)) hb hexact]
  refine Binary64.nearestBits_mono (Magnitude.den_pos _) d.den_pos ?_
  rwa [num_div_den, hexact]

/-- What lies between a double and a number below it that reads as the double reads as it too. -/
theorem reads_of_le {b : ℕ} (hb : b < infinityBits) {d d' : Decimal} (hd : d.nearestBits = b)
    (hle : d.value ≤ d'.value) (hbelow : d'.value ≤ patternValue b) : d'.nearestBits = b :=
  (nearestBits_le hb hbelow).antisymm (hd ▸ nearestBits_mono hle)

/-- What lies between a double and a number above it that reads as the double reads as it too. -/
theorem reads_of_ge {b : ℕ} (hb : b < infinityBits) {d d' : Decimal} (hd : d.nearestBits = b)
    (hle : d'.value ≤ d.value) (habove : patternValue b ≤ d'.value) : d'.nearestBits = b :=
  (hd ▸ nearestBits_mono hle : d'.nearestBits ≤ b).antisymm (le_nearestBits hb habove)

/-- A number with a positive coefficient is positive. -/
theorem num_pos {d : Decimal} (hpos : 0 < d.coefficient) : 0 < d.num :=
  Nat.mul_pos hpos (tenTo_pos _)

/-- The pattern that a number reads as is the rounded one. -/
theorem roundedPattern_of_reads {b : ℕ} (hb : b < infinityBits) {d : Decimal}
    (hpos : 0 < d.coefficient) (hd : d.nearestBits = b) : roundedPattern d.num d.den = b := by
  rw [nearestBits, nearestBits_eq_min (num_pos hpos)] at hd
  omega

/-- What reads as a double does not lie beyond the middle between it and the next one. -/
theorem two_mul_value_le {b : ℕ} {d : Decimal} (hpos : 0 < d.coefficient) (hb : b < infinityBits)
    (hd : d.nearestBits = b) : 2 * d.value ≤ patternValue b + patternValue (b + 1) := by
  have h := roundedPattern_le_mid (num_pos hpos) d.den_pos
  rwa [num_div_den, roundedPattern_of_reads hb hpos hd] at h

/-- What reads as a double does not lie before the middle between it and the one before. -/
theorem le_two_mul_value {a : ℕ} {d : Decimal} (hpos : 0 < d.coefficient)
    (hb : a + 1 < infinityBits) (hd : d.nearestBits = a + 1) :
    patternValue a + patternValue (a + 1) ≤ 2 * d.value := by
  have hlt : a < roundedPattern d.num d.den := by
    rw [roundedPattern_of_reads hb hpos hd]
    exact Nat.lt_succ_self a
  have h := mid_le_roundedPattern (num_pos hpos) d.den_pos hlt
  rwa [num_div_den] at h

/-! ## Numbers without trailing zeros -/

/-- Trimming moves zeros, and nothing else, from the coefficient to the exponent. -/
theorem exists_trimBy (fuel : ℕ) (d : Decimal) : ∃ k : ℕ,
    d.coefficient = (trimBy fuel d).coefficient * 10 ^ k ∧
      (trimBy fuel d).exponent = d.exponent + k := by
  induction fuel generalizing d with
  | zero => exact ⟨0, by simp [trimBy]⟩
  | succ fuel ih =>
    rw [trimBy]
    split
    · next h =>
      obtain ⟨k, hcoefficient, hexponent⟩ := ih ⟨d.coefficient / 10, d.exponent + 1⟩
      refine ⟨k + 1, ?_, ?_⟩
      · rw [pow_succ, ← mul_assoc, ← hcoefficient]
        exact (Nat.div_mul_cancel (Nat.dvd_of_mod_eq_zero h.2)).symm
      · rw [hexponent]
        push_cast
        ring
    · exact ⟨0, by simp⟩

/-- A trimmed coefficient does not end in a zero. -/
theorem trim_mod_ne {d : Decimal} (hd : 0 < d.coefficient) : d.trim.coefficient % 10 ≠ 0 :=
  trimBy_mod_ne hd.ne' (pow_length_toDigits hd).2

/-- A smaller number has no more digits. -/
theorem length_toDigits_mono {m n : ℕ} (h : m ≤ n) :
    (Nat.toDigits 10 m).length ≤ (Nat.toDigits 10 n).length := by
  have hpos : 0 < (Nat.toDigits 10 n).length := Nat.length_toDigits_pos
  refine (Nat.length_toDigits_le_iff (by decide) hpos).2 (h.trans_lt ?_)
  exact (Nat.length_toDigits_le_iff (by decide) hpos).1 le_rfl

/-- The next number has as many digits, unless it ends in zero. -/
theorem length_toDigits_succ {n : ℕ} (h : (n + 1) % 10 ≠ 0) :
    (Nat.toDigits 10 (n + 1)).length = (Nat.toDigits 10 n).length := by
  rcases Nat.lt_or_ge n 10 with hlt | hge
  · rw [Nat.toDigits_of_lt_base hlt, Nat.toDigits_of_lt_base (by omega)]
    rfl
  · rw [Nat.toDigits_of_base_le (by decide) hge, Nat.toDigits_of_base_le (by decide) (by omega),
      List.length_append, List.length_append, show (n + 1) / 10 = n / 10 by omega]
    rfl

/-- Numbers with the same exponent are ordered as their coefficients. -/
theorem value_lt_value_iff {c c' : ℕ} {e : ℤ} : value ⟨c, e⟩ < value ⟨c', e⟩ ↔ c < c' := by
  rw [value, value, mul_lt_mul_iff_left₀ (by positivity), Nat.cast_lt]

/-- Numbers on one grid are ordered as their coefficients are. -/
theorem value_le_value_iff {c c' : ℕ} {e : ℤ} : value ⟨c, e⟩ ≤ value ⟨c', e⟩ ↔ c ≤ c' := by
  rw [← not_lt, value_lt_value_iff, not_lt]

/-- Numbers on one grid are equal if their coefficients are. -/
theorem value_inj {c c' : ℕ} {e : ℤ} : value ⟨c, e⟩ = value ⟨c', e⟩ ↔ c = c' := by
  rw [le_antisymm_iff, value_le_value_iff, value_le_value_iff, ← le_antisymm_iff]

/-- The number with a smaller exponent. -/
theorem value_scaled (c k : ℕ) (e : ℤ) : value ⟨c, e + k⟩ = value ⟨c * 10 ^ k, e⟩ := by
  rw [value, value, zpow_add₀ (by norm_num), zpow_natCast]
  push_cast
  ring

/-- Of two numbers with as many digits, the greater one has no smaller exponent. -/
theorem exponent_le_of_value_lt {d d' : Decimal} (hd : 0 < d.coefficient)
    (hd' : 0 < d'.coefficient) (hlength : d.digits.length = d'.digits.length)
    (h : d.value < d'.value) : d.exponent ≤ d'.exponent := by
  have hlow := (pow_point_le hd).1
  have hhigh := (pow_point_le hd').2
  have hpoint := (zpow_lt_zpow_iff_right₀ (by norm_num)).1 ((hlow.trans_lt h).trans hhigh)
  rw [point, point, hlength] at hpoint
  omega

/-- A multiple of a power of ten ends in a zero. -/
theorem mul_pow_succ_mod (c k : ℕ) : c * 10 ^ (k + 1) % 10 = 0 := by
  rw [pow_succ, ← mul_assoc]
  exact Nat.mul_mod_left _ _

/-- Two decimal numbers of the same value, the first without trailing zeros: the second has the
digits of the first and zeros behind them. -/
theorem exists_zeros_of_value_eq {d d' : Decimal} (hd : d.coefficient % 10 ≠ 0)
    (h : d'.value = d.value) : ∃ k : ℕ, d'.coefficient = d.coefficient * 10 ^ k ∧
      d.exponent = d'.exponent + k := by
  obtain ⟨c, e⟩ := d
  obtain ⟨c', e'⟩ := d'
  dsimp only at hd ⊢
  rcases le_total e' e with hle | hle
  · obtain ⟨k, rfl⟩ : ∃ k : ℕ, e = e' + k := ⟨(e - e').toNat, by omega⟩
    rw [value_scaled] at h
    exact ⟨k, value_inj.1 h, rfl⟩
  · -- a coarser second number could have no last digit but zero
    obtain ⟨k, rfl⟩ : ∃ k : ℕ, e' = e + k := ⟨(e' - e).toNat, by omega⟩
    rw [value_scaled] at h
    obtain rfl := value_inj.1 h
    cases k with
    | zero => exact ⟨0, by simp⟩
    | succ k => exact absurd (mul_pow_succ_mod c' k) hd

/-- No decimal number of the same value has fewer digits than the one without trailing zeros. -/
theorem length_digits_le {d d' : Decimal} (hd : d.coefficient % 10 ≠ 0)
    (h : d'.value = d.value) : d.digits.length ≤ d'.digits.length := by
  obtain ⟨k, hk, -⟩ := exists_zeros_of_value_eq hd h
  refine length_toDigits_mono ?_
  rw [hk]
  exact Nat.le_mul_of_pos_right _ (Nat.pow_pos (by decide))

/-- Decimal numbers without trailing zeros are equal if their values are. -/
theorem eq_of_value_eq {d d' : Decimal} (hd : d.coefficient % 10 ≠ 0)
    (hd' : d'.coefficient % 10 ≠ 0) (h : d'.value = d.value) : d' = d := by
  obtain ⟨k, hcoefficient, hexponent⟩ := exists_zeros_of_value_eq hd h
  cases k with
  | zero =>
    obtain ⟨c, e⟩ := d
    obtain ⟨c', e'⟩ := d'
    simp_all
  | succ k => exact absurd (hcoefficient ▸ mul_pow_succ_mod d.coefficient k) hd'

/-- A number with a trailing zero is not the shortest of its value. -/
theorem exists_shorter {d : Decimal} (hpos : 0 < d.coefficient) (hmod : d.coefficient % 10 = 0) :
    ∃ d' : Decimal, d'.value = d.value ∧ d'.digits.length < d.digits.length := by
  obtain ⟨c, hc⟩ := Nat.dvd_of_mod_eq_zero hmod
  refine ⟨⟨c, d.exponent + 1⟩, ?_, ?_⟩
  · rw [value, value, hc, zpow_add_one₀ (by norm_num)]
    push_cast
    ring
  · rw [digits, digits, Nat.toDigits_of_base_le (n := d.coefficient) (by decide) (by omega),
      List.length_append, show d.coefficient / 10 = c by omega]
    exact Nat.lt_succ_self _

/-- A number with as many digits as one without trailing zeros and of the same value is the same. -/
theorem eq_of_value_eq_of_length {d d' : Decimal} (hd : d.coefficient % 10 ≠ 0)
    (h : d'.value = d.value) (hlength : d'.digits.length = d.digits.length) : d' = d := by
  refine eq_of_value_eq hd (fun hmod => ?_) h
  have hpos : 0 < d'.coefficient := by
    obtain ⟨k, hk, -⟩ := exists_zeros_of_value_eq hd h
    rw [hk]
    exact Nat.mul_pos (by omega) (Nat.pow_pos (by decide))
  obtain ⟨f, hf, hlt⟩ := exists_shorter hpos hmod
  exact hlt.not_ge (hlength ▸ length_digits_le hd (hf.trans h))

/-- A number with at most as many digits as it has without trailing zeros has none. -/
theorem trim_coefficient {d : Decimal} (hd : 0 < d.coefficient)
    (h : d.coefficient < 10 ^ d.trim.digits.length) : d.trim.coefficient = d.coefficient := by
  have hle : d.digits.length ≤ d.trim.digits.length :=
    (Nat.length_toDigits_le_iff (by decide) Nat.length_toDigits_pos).2 h
  have hmod := trim_mod_ne hd
  have hlength := hle.antisymm (length_digits_le hmod (value_trim d).symm)
  rw [← eq_of_value_eq_of_length hmod (value_trim d).symm hlength]

/-- A power of ten has one digit without its trailing zeros. -/
theorem length_trim_of_pow {d : Decimal} {k : ℕ} (h : d.coefficient = 10 ^ k) :
    d.trim.digits.length ≤ 1 := by
  have hpos : 0 < d.coefficient := h ▸ Nat.pow_pos (by decide)
  have hvalue : value ⟨1, d.exponent + k⟩ = d.trim.value := by
    rw [value_trim, value_scaled, one_mul, ← h]
  simpa [digits, Nat.toDigits_of_lt_base] using length_digits_le (trim_mod_ne hpos) hvalue

/-! ## The shortest decimal numbers -/

/-- How far a decimal number is from a double. -/
def distance (b : ℕ) (d : Decimal) : ℚ :=
  |d.value - patternValue b|

/-- What lies between two numbers that are equally far from a double is nearer. -/
theorem distance_lt {b : ℕ} {d d' f : Decimal} (h : distance b d = distance b d')
    (habove : d.value < f.value) (hbelow : f.value < d'.value) : distance b f < distance b d := by
  have hlow : -(d.value - patternValue b) ≤ distance b d := neg_le_abs _
  have hhigh : d'.value - patternValue b ≤ distance b d' := le_abs_self _
  exact abs_lt.2 ⟨by linarith, by linarith⟩

/-- The decimal number reads as the double with the pattern `b`, no decimal number with fewer digits
does so, among those with as many digits it is nearest to the double, and if another one is just as
near, its last digit is even. -/
structure IsShortest (b : ℕ) (d : Decimal) : Prop where
  reads : d.nearestBits = b
  least : ∀ d' : Decimal, d'.nearestBits = b → d.digits.length ≤ d'.digits.length
  nearest : ∀ d' : Decimal, d'.nearestBits = b → d'.digits.length = d.digits.length →
    distance b d ≤ distance b d'
  even : ∀ d' : Decimal, d'.nearestBits = b → d'.digits.length = d.digits.length →
    distance b d' = distance b d → d' ≠ d → d.coefficient % 2 = 0

namespace IsShortest

variable {b : ℕ} {d d' : Decimal}

/-- The shortest number for a double other than zero is not zero. -/
theorem coefficient_pos (h₀ : 0 < b) (h : IsShortest b d) : 0 < d.coefficient :=
  coefficient_pos_of_nearestBits (h.reads.symm ▸ h₀)

/-- Trailing zeros could be left out. -/
theorem mod_ne (h₀ : 0 < b) (h : IsShortest b d) : d.coefficient % 10 ≠ 0 := by
  intro hmod
  obtain ⟨f, hf, hlt⟩ := exists_shorter (h.coefficient_pos h₀) hmod
  exact hlt.not_ge (h.least f ((nearestBits_congr hf).trans h.reads))

/-- Of two shortest numbers none is greater. Both would end in an even digit, and the number next to
one of them would be nearer. -/
theorem value_le (h₀ : 0 < b) (h : IsShortest b d) (h' : IsShortest b d') :
    d'.value ≤ d.value := by
  refine le_of_not_gt fun hlt => ?_
  have hlength : d.digits.length = d'.digits.length :=
    (h.least d' h'.reads).antisymm (h'.least d h.reads)
  have hdistance : distance b d = distance b d' :=
    (h.nearest d' h'.reads hlength.symm).antisymm (h'.nearest d h.reads hlength)
  have hne : d' ≠ d := by
    rintro rfl
    exact lt_irrefl _ hlt
  have heven := h.even d' h'.reads hlength.symm hdistance.symm hne
  have heven' := h'.even d h.reads hlength hdistance hne.symm
  obtain ⟨c, e⟩ := d
  obtain ⟨c', e'⟩ := d'
  obtain ⟨k, rfl⟩ : ∃ k : ℕ, e' = e + k := by
    have he := exponent_le_of_value_lt (h.coefficient_pos h₀) (h'.coefficient_pos h₀) hlength hlt
    exact ⟨(e' - e).toNat, by dsimp only at he; omega⟩
  dsimp only at heven heven'
  -- the next number is between the two and has as many digits
  have habove : value ⟨c, e⟩ < value ⟨c + 1, e⟩ := value_lt_value_iff.2 (Nat.lt_succ_self c)
  have hbelow : value ⟨c + 1, e⟩ < value ⟨c', e + k⟩ := by
    rw [value_scaled] at hlt ⊢
    have hparity : c' * 10 ^ k % 2 = 0 := by rw [Nat.mul_mod, heven', zero_mul, Nat.zero_mod]
    have := value_lt_value_iff.1 hlt
    exact value_lt_value_iff.2 (by omega)
  have hdigits : (digits ⟨c + 1, e⟩).length = (digits ⟨c, e⟩).length :=
    length_toDigits_succ (by omega)
  have hreads : nearestBits ⟨c + 1, e⟩ = b :=
    (h'.reads ▸ nearestBits_mono hbelow.le : _ ≤ b).antisymm (h.reads ▸ nearestBits_mono habove.le)
  exact (h.nearest _ hreads hdigits).not_gt (distance_lt hdistance habove hbelow)

/-- There is one shortest decimal number for a double. -/
theorem unique (h₀ : 0 < b) (h : IsShortest b d) (h' : IsShortest b d') : d = d' :=
  eq_of_value_eq (h'.mod_ne h₀) (h.mod_ne h₀) ((h'.value_le h₀ h).antisymm (h.value_le h₀ h'))

end IsShortest

/-! ## The neighbours of a double on a grid -/

/-- How far a fraction is from the middle between its neighbours on a grid, in units of the
remainder that is compared. -/
theorem sub_middle_gridBelow {n m : ℕ} (hm : 0 < m) (e : ℤ) : ∃ r : ℕ,
    ∃ unit : ℚ, 0 < unit ∧
      (gridBelow n m e).2 = compare (2 * r) (m * tenTo e.toNat) ∧
      2 * (n / m : ℚ) - (value ⟨(gridBelow n m e).1, e⟩ + value ⟨(gridBelow n m e).1 + 1, e⟩) =
        ((2 * r : ℕ) - (m * tenTo e.toNat : ℕ)) * unit := by
  have hm₀ : (0 : ℚ) < m := by exact_mod_cast hm
  have hup : (0 : ℚ) < tenTo e.toNat := by exact_mod_cast tenTo_pos _
  have hdown : (0 : ℚ) < tenTo (-e).toNat := by exact_mod_cast tenTo_pos _
  have hdiv := Nat.div_add_mod (n * tenTo (-e).toNat) (m * tenTo e.toNat)
  refine ⟨_, (m * tenTo (-e).toNat : ℚ)⁻¹, by positivity, rfl, ?_⟩
  unfold gridBelow value
  dsimp only
  generalize n * tenTo (-e).toNat / (m * tenTo e.toNat) = below at *
  generalize n * tenTo (-e).toNat % (m * tenTo e.toNat) = r at *
  have hdiv : (m * tenTo e.toNat * below + r : ℚ) = n * tenTo (-e).toNat := by exact_mod_cast hdiv
  rw [← pow_toNat_div_pow_toNat, ← cast_tenTo, ← cast_tenTo]
  push_cast
  field_simp
  linarith

/-- On which side of the middle between its neighbours on a grid a fraction is. -/
theorem compares_gridBelow {n m : ℕ} (hm : 0 < m) (e : ℤ) :
    (gridBelow n m e).2.Compares (2 * (n / m : ℚ))
      (value ⟨(gridBelow n m e).1, e⟩ + value ⟨(gridBelow n m e).1 + 1, e⟩) := by
  obtain ⟨r, unit, hunit, hside, hmiddle⟩ := sub_middle_gridBelow (n := n) hm e
  have hcompares := (compare_iff (2 * r) (m * tenTo e.toNat)).1 hside.symm
  cases hcase : (gridBelow n m e).2 with
  | lt =>
    rw [hcase] at hcompares
    have hlt : ((2 * r : ℕ) : ℚ) < (m * tenTo e.toNat : ℕ) := by exact_mod_cast hcompares
    rw [Ordering.compares_lt, ← sub_neg, hmiddle]
    exact mul_neg_of_neg_of_pos (sub_neg.2 hlt) hunit
  | eq =>
    rw [hcase] at hcompares
    rw [Ordering.compares_eq, ← sub_eq_zero, hmiddle, show 2 * r = _ from hcompares, sub_self,
      zero_mul]
  | gt =>
    rw [hcase] at hcompares
    have hlt : ((m * tenTo e.toNat : ℕ) : ℚ) < (2 * r : ℕ) := by exact_mod_cast hcompares
    rw [Ordering.compares_gt, gt_iff_lt, ← sub_pos, hmiddle]
    exact mul_pos (sub_pos.2 hlt) hunit

/-- The greatest multiple of `10 ^ e` that is not above a double. -/
def gridLow (b : ℕ) (e : ℤ) : Decimal :=
  ⟨(gridBelow (Magnitude.ofBits b).num (Magnitude.ofBits b).den e).1, e⟩

/-- The next multiple of `10 ^ e`. -/
def gridHigh (b : ℕ) (e : ℤ) : Decimal :=
  ⟨(gridLow b e).coefficient + 1, e⟩

section Grid

variable {b : ℕ} {e : ℤ} {d : Decimal}

/-- A double lies between its neighbours on a grid. -/
theorem gridLow_le (b : ℕ) (e : ℤ) :
    (gridLow b e).value ≤ patternValue b ∧ patternValue b < (gridHigh b e).value := by
  have hexact := Magnitude.num_div_den (Magnitude.ofBits b)
  rw [patternValue, ← hexact]
  exact gridBelow_le (Magnitude.den_pos _) e

/-- A number on the grid that is not above the double is not above its lower neighbour. -/
theorem le_gridLow (he : e ≤ d.exponent) (h : d.value ≤ patternValue b) :
    d.value ≤ (gridLow b e).value := by
  obtain ⟨c, e'⟩ := d
  obtain ⟨k, rfl⟩ : ∃ k : ℕ, e' = e + k := ⟨(e' - e).toNat, by dsimp only at he; omega⟩
  rw [value_scaled] at h ⊢
  have hlt := value_lt_value_iff.1 (h.trans_lt (gridLow_le b e).2)
  exact value_le_value_iff.2 (Nat.lt_succ_iff.1 hlt)

/-- A number on the grid that is above the double is not below its upper neighbour. -/
theorem gridHigh_le (he : e ≤ d.exponent) (h : patternValue b < d.value) :
    (gridHigh b e).value ≤ d.value := by
  obtain ⟨c, e'⟩ := d
  obtain ⟨k, rfl⟩ : ∃ k : ℕ, e' = e + k := ⟨(e' - e).toNat, by dsimp only at he; omega⟩
  rw [value_scaled] at h ⊢
  have hlt := value_lt_value_iff.1 ((gridLow_le b e).1.trans_lt h)
  exact value_le_value_iff.2 hlt

/-- What the search takes on a grid: a neighbour of the double that reads as it, the nearer one if
there is a choice, and the even one if both are equally near. -/
structure TakenOnGrid (b : ℕ) (e : ℤ) (d : Decimal) : Prop where
  mem : d = gridLow b e ∨ d = gridHigh b e
  reads : d.nearestBits = b
  nearest : ∀ d', d' = gridLow b e ∨ d' = gridHigh b e → d'.nearestBits = b →
    distance b d ≤ distance b d'
  even : ∀ d', d' = gridLow b e ∨ d' = gridHigh b e → d'.nearestBits = b →
    distance b d' = distance b d → d' ≠ d → d.coefficient % 2 = 0

/-- What is found on a grid is the lower neighbour, or the upper one. If the other one reads back
too, it is not the nearer one. -/
theorem onGrid?_cases {n m : ℕ} (h : onGrid? n m b e = some d) :
    (d = ⟨(gridBelow n m e).1, e⟩ ∧
      (nearestBits ⟨(gridBelow n m e).1 + 1, e⟩ = b → (gridBelow n m e).2 = .lt ∨
        (gridBelow n m e).2 = .eq ∧ (gridBelow n m e).1 % 2 = 0)) ∨
    (d = ⟨(gridBelow n m e).1 + 1, e⟩ ∧
      (nearestBits ⟨(gridBelow n m e).1, e⟩ = b → (gridBelow n m e).2 = .gt ∨
        (gridBelow n m e).2 = .eq ∧ ((gridBelow n m e).1 + 1) % 2 = 0)) := by
  unfold onGrid? at h
  grind

/-- Which of the neighbours of a double is the nearer one. -/
theorem compares_distance (b : ℕ) (e : ℤ) :
    (gridBelow (Magnitude.ofBits b).num (Magnitude.ofBits b).den e).2.Compares
      (distance b (gridLow b e)) (distance b (gridHigh b e)) := by
  obtain ⟨hlow, hhigh⟩ := gridLow_le b e
  have hside := compares_gridBelow (n := (Magnitude.ofBits b).num)
    (Magnitude.den_pos (Magnitude.ofBits b)) e
  rw [Magnitude.num_div_den] at hside
  change Ordering.Compares _ (2 * patternValue b) ((gridLow b e).value + (gridHigh b e).value)
    at hside
  rw [distance, distance, abs_of_nonpos (sub_nonpos.2 hlow), abs_of_pos (sub_pos.2 hhigh)]
  cases h : (gridBelow (Magnitude.ofBits b).num (Magnitude.ofBits b).den e).2 <;>
    rw [h] at hside <;> simp only [Ordering.Compares] at hside ⊢ <;> linarith

/-- What the search takes on a grid reads back, and is the closest that does. -/
theorem takenOnGrid_of_onGrid?
    (h : onGrid? (Magnitude.ofBits b).num (Magnitude.ofBits b).den b e = some d) :
    TakenOnGrid b e d := by
  have hside := compares_distance b e
  have hreads := nearestBits_of_onGrid? h
  rcases onGrid?_cases h with ⟨hd, hother⟩ | ⟨hd, hother⟩
  · obtain rfl : d = gridLow b e := hd
    refine ⟨.inl rfl, hreads, ?_, ?_⟩
    · rintro d' (rfl | rfl) hd'
      · exact le_rfl
      · rcases hother hd' with hlt | ⟨heq, -⟩
        · exact (hside.eq_lt.1 hlt).le
        · exact (hside.eq_eq.1 heq).le
    · rintro d' (rfl | rfl) hd' hdistance hne
      · exact absurd rfl hne
      · rcases hother hd' with hlt | ⟨-, heven⟩
        · exact absurd hdistance (hside.eq_lt.1 hlt).ne'
        · exact heven
  · obtain rfl : d = gridHigh b e := hd
    refine ⟨.inr rfl, hreads, ?_, ?_⟩
    · rintro d' (rfl | rfl) hd'
      · rcases hother hd' with hgt | ⟨heq, -⟩
        · exact (hside.eq_gt.1 hgt).le
        · exact (hside.eq_eq.1 heq).ge
      · exact le_rfl
    · rintro d' (rfl | rfl) hd' hdistance hne
      · rcases hother hd' with hgt | ⟨-, heven⟩
        · exact absurd hdistance (hside.eq_gt.1 hgt).ne'
        · exact heven
      · exact absurd rfl hne

end Grid

/-! ## The search -/

/-- The search ends on the first grid on which something is found. -/
theorem exists_searchGrids {n m bits k : ℕ} {e : ℤ} {fuel : ℕ} (hk : k < fuel)
    (h : (onGrid? n m bits (e - k)).isSome) :
    ∃ j : ℕ, onGrid? n m bits (e - j) = some (searchGrids n m bits fuel e) ∧
      j < fuel ∧ ∀ i < j, onGrid? n m bits (e - i) = none := by
  induction fuel generalizing k e with
  | zero => omega
  | succ fuel ih =>
    rw [searchGrids]
    split
    · next found hfound => exact ⟨0, by simpa using hfound, Nat.succ_pos _, by simp⟩
    · next hnone =>
      cases k with
      | zero =>
        rw [Nat.cast_zero, sub_zero, hnone] at h
        exact absurd h (by decide)
      | succ k =>
        have hstep : ∀ i : ℕ, e - (i + 1 : ℕ) = e - 1 - i := fun i => by push_cast; ring
        obtain ⟨j, hfound, hj, hbefore⟩ := ih (k := k) (e := e - 1) (by omega) (hstep k ▸ h)
        refine ⟨j + 1, (hstep j).symm ▸ hfound, by omega, fun i hi => ?_⟩
        cases i with
        | zero => simpa using hnone
        | succ i => exact (hstep i).symm ▸ hbefore i (by omega)

/-- A fraction is below the power of ten at its leading point. -/
theorem lt_pow_leadingPoint {n m : ℕ} (hm : 0 < m) : (n / m : ℚ) < 10 ^ leadingPoint n m := by
  have hm₀ : (0 : ℚ) < m := by exact_mod_cast hm
  set scaled := n * tenTo scaleShift / m with hscaled
  have hlength : 0 < (Nat.toDigits 10 scaled).length := Nat.length_toDigits_pos
  have hdigits := (Nat.length_toDigits_le_iff (b := 10) (by decide) hlength).1 le_rfl
  have hlt := (Nat.div_lt_iff_lt_mul hm).1 hdigits
  rw [leadingPoint, ← hscaled, zpow_sub₀ (by norm_num), zpow_natCast, zpow_natCast,
    div_lt_div_iff₀ hm₀ (by positivity), ← cast_tenTo]
  exact_mod_cast hlt

/-- The number of digits before the decimal point of a double, negative if zeros follow the
point. -/
def leadingPlace (b : ℕ) : ℤ :=
  leadingPoint (Magnitude.ofBits b).num (Magnitude.ofBits b).den

/-- The leading place of a double is that of its first digit. -/
theorem pow_leadingPlace {b : ℕ} (h₀ : 0 < b) :
    10 ^ (leadingPlace b - 1) ≤ patternValue b ∧ patternValue b < 10 ^ leadingPlace b := by
  have hexact : _ = patternValue b := Magnitude.num_div_den (Magnitude.ofBits b)
  have hden := Magnitude.den_pos (Magnitude.ofBits b)
  have hlow := pow_leadingPoint_le (n := (Magnitude.ofBits b).num) hden
    (by rw [hexact]; exact one_le_patternValue_mul h₀)
  have hhigh := lt_pow_leadingPoint (n := (Magnitude.ofBits b).num) hden
  rw [hexact] at hlow hhigh
  exact ⟨hlow, hhigh⟩

section Search

variable {b j : ℕ} {d : Decimal}

/-- The neighbours of a double on the grid `j` places behind its leading digit have `j + 1` digits,
unless the upper one is a power of ten. -/
theorem gridLow_coefficient (h₀ : 0 < b) (j : ℕ) :
    10 ^ j ≤ (gridLow b (leadingPlace b - 1 - j)).coefficient ∧
      (gridLow b (leadingPlace b - 1 - j)).coefficient < 10 ^ (j + 1) := by
  obtain ⟨hlead, hbound⟩ := pow_leadingPlace h₀
  obtain ⟨hlow, hhigh⟩ := gridLow_le b (leadingPlace b - 1 - j)
  have hpow : ∀ k : ℕ,
      (10 : ℚ) ^ (leadingPlace b - 1 - j + k) = value ⟨10 ^ k, leadingPlace b - 1 - j⟩ := by
    intro k
    rw [← one_mul (10 ^ k), ← value_scaled, value, Nat.cast_one, one_mul]
  rw [show leadingPlace b - 1 = leadingPlace b - 1 - j + (j : ℕ) by ring, hpow] at hlead
  rw [show leadingPlace b = leadingPlace b - 1 - j + (j + 1 : ℕ) by push_cast; ring, hpow] at hbound
  exact ⟨Nat.lt_succ_iff.1 (value_lt_value_iff.1 (hlead.trans_lt hhigh)),
    value_lt_value_iff.1 (hlow.trans_lt hbound)⟩

/-- A number with `j + 1` digits that reads as a double lies on the grid `j` places behind the
leading digit of the double, or below a power of ten on it. So a neighbour of the double on that
grid lies between the two. -/
theorem exists_neighbour (h₀ : 0 < b) (hb : b < infinityBits) (hd : d.nearestBits = b)
    (hlength : d.digits.length = j + 1) :
    ∃ g, (g = gridLow b (leadingPlace b - 1 - j) ∨ g = gridHigh b (leadingPlace b - 1 - j)) ∧
      g.nearestBits = b ∧ distance b g ≤ distance b d ∧
      (distance b g = distance b d → g.value = d.value) := by
  obtain ⟨hlead, hbound⟩ := pow_leadingPlace h₀
  obtain ⟨hlow, hhigh⟩ := gridLow_le b (leadingPlace b - 1 - j)
  obtain ⟨hdlow, hdhigh⟩ := pow_point_le (coefficient_pos_of_nearestBits (hd.symm ▸ h₀))
  have hten : (1 : ℚ) < 10 := by norm_num
  have hpoint : d.point = j + 1 + d.exponent := by rw [point, hlength]; push_cast; ring
  rcases le_or_gt d.value (patternValue b) with hle | hgt
  · have hbelow : d.value ≤ (gridLow b (leadingPlace b - 1 - j)).value := by
      rcases le_or_gt (leadingPlace b - 1 - j) d.exponent with he | he
      · exact le_gridLow he hle
      · -- a finer number with as many digits is below the leading power of ten
        have hpower : value ⟨1, leadingPlace b - 1⟩ = 10 ^ (leadingPlace b - 1) := by simp [value]
        calc d.value ≤ 10 ^ d.point := hdhigh.le
          _ ≤ 10 ^ (leadingPlace b - 1) := zpow_le_zpow_right₀ hten.le (by omega)
          _ = value ⟨1, leadingPlace b - 1⟩ := hpower.symm
          _ ≤ _ := le_gridLow (by dsimp only; omega) (hpower ▸ hlead)
    have hreads := reads_of_le hb hd hbelow hlow
    refine ⟨_, .inl rfl, hreads, ?_, ?_⟩
    all_goals
      rw [distance, distance, abs_of_nonpos (by linarith), abs_of_nonpos (by linarith)]
    · linarith
    · intro h
      linarith
  · have he : leadingPlace b - 1 - j ≤ d.exponent := by
      have := (zpow_lt_zpow_iff_right₀ hten).1 ((hlead.trans_lt hgt).trans hdhigh)
      omega
    have habove := gridHigh_le he hgt
    have hreads := reads_of_ge hb hd habove hhigh.le
    refine ⟨_, .inr rfl, hreads, ?_, ?_⟩
    all_goals
      rw [distance, distance, abs_of_nonneg (by linarith), abs_of_nonneg (by linarith)]
    · linarith
    · intro h
      linarith

/-- A number that reads as a double has more than `j` digits, if nothing is found on the first `j`
grids. -/
theorem lt_length_of_reads (h₀ : 0 < b) (hb : b < infinityBits) (hd : d.nearestBits = b)
    (hnone : ∀ i < j, onGrid? (Magnitude.ofBits b).num (Magnitude.ofBits b).den b
      (leadingPlace b - 1 - i) = none) : j < d.digits.length := by
  have hpos : 0 < d.digits.length := Nat.length_toDigits_pos
  by_contra hle
  obtain ⟨i, hi⟩ : ∃ i, d.digits.length = i + 1 := ⟨d.digits.length - 1, by omega⟩
  obtain ⟨g, hg, hreads, -⟩ := exists_neighbour h₀ hb hd hi
  have hsome : (onGrid? (Magnitude.ofBits b).num (Magnitude.ofBits b).den b
      (leadingPlace b - 1 - i)).isSome := by
    apply onGrid?_isSome
    rcases hg with rfl | rfl
    · exact .inl hreads
    · exact .inr hreads
  rw [hnone i (by omega)] at hsome
  cases hsome

/-- Where the search ends, and that all numbers that read as the double have as many digits as the
neighbours there. -/
theorem exists_takenOnGrid (h₀ : 0 < b) (hb : b < infinityBits) :
    ∃ (j : ℕ) (d : Decimal), shortest b = d.trim ∧ TakenOnGrid b (leadingPlace b - 1 - j) d ∧
      ∀ d' : Decimal, d'.nearestBits = b → j < d'.digits.length := by
  have hfinest : (onGrid? (Magnitude.ofBits b).num (Magnitude.ofBits b).den b
      (leadingPlace b - 1 - (16 : ℕ))).isSome := by
    refine onGrid?_isSome_of_pow_le hb ?_
    rw [Nat.cast_ofNat, sub_add_cancel]
    exact (pow_leadingPlace h₀).1
  obtain ⟨j, hfound, -, hnone⟩ := exists_searchGrids (by decide : 16 < 17) hfinest
  exact ⟨j, _, rfl, takenOnGrid_of_onGrid? hfound, fun d' hd' => lt_length_of_reads h₀ hb hd' hnone⟩

/-- Without its trailing zeros, the number that is found has as many digits as the place where the
search ends demands. -/
theorem length_digits_trim (h₀ : 0 < b) (hd : TakenOnGrid b (leadingPlace b - 1 - j) d)
    (hleast : ∀ d' : Decimal, d'.nearestBits = b → j < d'.digits.length) :
    d.trim.digits.length = j + 1 := by
  obtain ⟨hlow, hhigh⟩ := gridLow_coefficient h₀ j
  have hreads : d.trim.nearestBits = b := (nearestBits_congr (value_trim d)).trans hd.reads
  have hmod := trim_mod_ne (coefficient_pos_of_nearestBits (hd.reads.symm ▸ h₀))
  have hle : d.coefficient ≤ 10 ^ (j + 1) := by
    rcases hd.mem with rfl | rfl
    · exact hhigh.le
    · exact hhigh
  refine le_antisymm ?_ (hleast _ hreads)
  rw [digits, Nat.length_toDigits_le_iff (by decide) (Nat.succ_pos j)]
  obtain ⟨k, hk, -⟩ := exists_trimBy d.digits.length d
  change d.coefficient = d.trim.coefficient * 10 ^ k at hk
  have htrim : d.trim.coefficient ≤ d.coefficient :=
    hk ▸ Nat.le_mul_of_pos_right _ (Nat.pow_pos (by decide))
  -- a power of ten ends in zero
  refine lt_of_le_of_ne (htrim.trans hle) fun heq => hmod ?_
  rw [heq, ← one_mul (10 ^ (j + 1))]
  exact mul_pow_succ_mod 1 j

/-- A multiple of ten is not nineteen times a power of two. -/
theorem mul_ten_pow_ne (r m p : ℕ) : 2 * r * 10 ^ (m + 1) ≠ 19 * 2 ^ p := by
  intro h
  have hdvd : 5 ∣ 19 * 2 ^ p := by
    rw [← h, pow_succ]
    exact Dvd.dvd.mul_left (Dvd.dvd.mul_left (by decide) _) _
  rcases (Nat.Prime.dvd_mul Nat.prime_five).1 hdvd with h | h
  · exact absurd h (by decide)
  · exact absurd (Nat.prime_five.dvd_of_dvd_pow h) (by decide)

/-- The middle between `9` and `10` at some place is no double that both read as. The gap between
doubles would be so large there that they are multiples of `2 ^ -1074`, and the middle is none. -/
theorem two_mul_patternValue_ne {e : ℤ} (hb : b < infinityBits) (h : nearestBits ⟨10, e⟩ = b) :
    2 * patternValue b ≠ 19 * 10 ^ e := by
  intro heq
  have hten : (0 : ℚ) < 10 ^ e := by positivity
  have hmid := two_mul_value_le (d := ⟨10, e⟩) (Nat.succ_pos 9) hb h
  rw [patternValue_succ, value] at hmid
  push_cast at hmid
  have hgap : 10 ^ e ≤ patternGap b := by linarith
  obtain ⟨k, r, hbits, hr, hk, hexponent⟩ := exists_grid b
  rw [patternGap, hexponent] at hgap
  rw [hbits, patternValue_add hr.le hk] at heq
  have hunit : (0 : ℚ) < 2 ^ ((k : ℤ) - 1074) := by positivity
  have hsmall : (r : ℚ) < 10 := by
    by_contra hge
    nlinarith
  have hsmall : r < 10 := by exact_mod_cast hsmall
  have hgrid : 10 ≤ gridSize := by decide
  obtain rfl : k = 0 := hk.resolve_right (by omega)
  rw [Nat.cast_zero, zero_sub] at heq hgap
  have hneg : e < 0 := by
    by_contra hnonneg
    have hone : (1 : ℚ) ≤ 10 ^ e := one_le_zpow₀ (by norm_num) (not_lt.1 hnonneg)
    have hlt : (2 : ℚ) ^ (-1074 : ℤ) < 1 := zpow_lt_one_of_neg₀ (by norm_num) (by decide)
    linarith
  obtain ⟨m, rfl⟩ : ∃ m : ℕ, e = -((m + 1 : ℕ) : ℤ) := ⟨(-e).toNat - 1, by omega⟩
  -- in whole numbers, a multiple of five would be none
  refine mul_ten_pow_ne r m 1074 ?_
  rw [show (-1074 : ℤ) = -((1074 : ℕ) : ℤ) from rfl, zpow_neg, zpow_neg, zpow_natCast, zpow_natCast]
    at heq
  generalize 1074 = p at heq ⊢
  field_simp at heq
  rw [mul_comm 19]
  exact_mod_cast heq

/-- If both neighbours of a double are equally near, the search ends with an even digit. -/
theorem trim_even (h₀ : 0 < b) (hb : b < infinityBits)
    (hd : TakenOnGrid b (leadingPlace b - 1 - j) d) (hlength : d.trim.digits.length = j + 1)
    {g : Decimal} (hg : g = gridLow b (leadingPlace b - 1 - j) ∨
      g = gridHigh b (leadingPlace b - 1 - j))
    (hreads : g.nearestBits = b) (hdistance : distance b g = distance b d) (hne : g ≠ d) :
    d.trim.coefficient % 2 = 0 := by
  have heven := hd.even g hg hreads hdistance hne
  have hpos := coefficient_pos_of_nearestBits (hd.reads.symm ▸ h₀)
  have hbound := (gridLow_coefficient h₀ j).2
  by_cases hlt : d.coefficient < 10 ^ (j + 1)
  · rwa [trim_coefficient hpos (hlength.symm ▸ hlt)]
  · -- the number is a power of ten above its neighbour, both with one digit
    exfalso
    obtain rfl : d = gridHigh b (leadingPlace b - 1 - j) :=
      hd.mem.resolve_left fun h => hlt (h ▸ hbound)
    obtain rfl := hg.resolve_right hne
    have hpow : (gridHigh b (leadingPlace b - 1 - j)).coefficient = 10 ^ (j + 1) :=
      le_antisymm hbound (not_lt.1 hlt)
    obtain rfl : j = 0 := by
      have := length_trim_of_pow hpow
      omega
    have hhigh : gridHigh b (leadingPlace b - 1 - (0 : ℕ)) = ⟨10, leadingPlace b - 1 - (0 : ℕ)⟩ :=
      congrArg (Decimal.mk · _) hpow
    have hlow : gridLow b (leadingPlace b - 1 - (0 : ℕ)) = ⟨9, leadingPlace b - 1 - (0 : ℕ)⟩ :=
      congrArg (Decimal.mk · _) (Nat.succ.inj hpow)
    obtain ⟨hle, hlt⟩ := gridLow_le b (leadingPlace b - 1 - (0 : ℕ))
    refine two_mul_patternValue_ne hb (hhigh ▸ hd.reads) ?_
    rw [distance, distance, abs_of_nonpos (sub_nonpos.2 hle), abs_of_pos (sub_pos.2 hlt), hlow,
      hhigh, value, value] at hdistance
    push_cast at hdistance ⊢
    linarith

/-- The search gives the shortest decimal number for a double. -/
theorem isShortest_shortest (h₀ : 0 < b) (hb : b < infinityBits) : IsShortest b (shortest b) := by
  obtain ⟨j, d, hd, htaken, hleast⟩ := exists_takenOnGrid h₀ hb
  have hlength := length_digits_trim h₀ htaken hleast
  have hmod := shortest_mod_ne h₀ hb
  have hdistance : distance b d.trim = distance b d := by rw [distance, distance, value_trim]
  refine ⟨nearestBits_shortest h₀ hb, fun d' hd' => ?_, fun d' hd' hlength' => ?_,
    fun d' hd' hlength' hdistance' hne => ?_⟩
  · rw [hd, hlength]
    exact hleast d' hd'
  · rw [hd, hlength] at hlength'
    obtain ⟨g, hg, hreads, hle, -⟩ := exists_neighbour h₀ hb hd' hlength'
    rw [hd, hdistance]
    exact (htaken.nearest g hg hreads).trans hle
  · rw [hd] at hmod hlength' hdistance' hne ⊢
    obtain ⟨g, hg, hreads, hle, hvalue⟩ := exists_neighbour h₀ hb hd' (hlength'.trans hlength)
    -- the neighbour is just as near, and so it is that number
    rw [hdistance', hdistance] at hle hvalue
    have hsame := hle.antisymm (htaken.nearest g hg hreads)
    refine trim_even h₀ hb htaken hlength hg hreads hsame ?_
    rintro rfl
    refine hne (eq_of_value_eq_of_length hmod ?_ hlength')
    rw [value_trim, hvalue rfl]

end Search

end Decimal

end CallByNeed
