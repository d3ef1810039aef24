import CallByNeed.Proofs.Lexemes

/-!
# The texts of numbers

A number that is not below zero is displayed either as a numeral that reads back as the number, or
with an exponent, or as a word. It is a numeral exactly for zero and for the numbers from `1e-6` to
below `1e21` (`Number.Plain`): `display_of_plain` and `display_of_not_plain`.
-/

namespace CallByNeed

open Lexeme

/-! ## The values of digits -/

/-- The digits of a natural number have it as their value. -/
theorem digitsValue_toDigits (n : ℕ) : digitsValue (Nat.toDigits 10 n) = n :=
  Nat.ofDigitChars_toDigits (by decide) (by decide)

/-- The value of digits is found from the left, part by part. -/
theorem digitsValue_append (cs ds : List Char) :
    digitsValue (cs ++ ds) =
      ds.foldl (fun n c => 10 * n + (c.toNat - '0'.toNat)) (digitsValue cs) :=
  List.foldl_append

/-- Zeros at the end multiply by powers of ten. -/
theorem digitsValue_append_zeros (ds : List Char) (k : ℕ) :
    digitsValue (ds ++ List.replicate k '0') = digitsValue ds * 10 ^ k := by
  rw [digitsValue_append]
  generalize digitsValue ds = n
  induction k generalizing n with
  | zero => simp
  | succ k ih =>
    rw [List.replicate_succ, List.foldl_cons, ih]
    simp only [Nat.sub_self, Nat.add_zero]
    ring

/-- Zeros at the front do not count. -/
theorem digitsValue_zeros_append (k : ℕ) (ds : List Char) :
    digitsValue (List.replicate k '0' ++ ds) = digitsValue ds := by
  have hzeros := digitsValue_append_zeros [] k
  rw [digitsValue_append, ← List.nil_append (List.replicate k '0'), hzeros]
  simp [digitsValue]

/-- The digits of a decimal number are digits. -/
theorem isDigit_digits (d : Decimal) : ∀ c ∈ d.digits, c.isDigit :=
  fun _ hc => Nat.isDigit_of_mem_toDigits (by decide) (by decide) hc

/-- Zeros are digits. -/
theorem isDigit_replicate (k : ℕ) : ∀ c ∈ List.replicate k '0', c.isDigit := by
  intro c hc
  rw [(List.mem_replicate.1 hc).2]
  rfl

/-- The digits of a decimal number have its coefficient as their value. -/
theorem digitsValue_digits (d : Decimal) : digitsValue d.digits = d.coefficient :=
  digitsValue_toDigits d.coefficient

/-! ## Layouts -/

/-- A text that is a numeral of the given value. -/
def IsNumeral (t : List Char) (v : ℚ) : Prop :=
  ∃ whole part, t = numeral whole part ∧ whole ≠ [] ∧ (∀ c ∈ whole, c.isDigit) ∧
    (∀ c ∈ part, c.isDigit) ∧ (numeralValue whole part).value = v

/-- The value of a numeral with the digits of a decimal number, the point where it belongs. -/
theorem value_numeralValue {d : Decimal} {whole part : List Char} {k : ℕ}
    (hdigits : digitsValue (whole ++ part) = d.coefficient * 10 ^ k)
    (hpart : d.exponent = k - part.length) : (numeralValue whole part).value = d.value := by
  rw [Decimal.value, Decimal.value, numeralValue, hdigits, hpart, Nat.cast_mul, Nat.cast_pow,
    mul_assoc, ← zpow_natCast, Nat.cast_ofNat, ← zpow_add₀ (by norm_num)]
  rfl

namespace Decimal

/-- The digits before the point. A number below one has a zero there, and zeros make up for the
digits that a large number lacks. -/
def whole (d : Decimal) : List Char :=
  if d.point ≤ 0 then ['0']
  else d.digits.take d.point.toNat ++ List.replicate (d.point.toNat - d.digits.length) '0'

/-- The digits behind the point. -/
def part (d : Decimal) : List Char :=
  if d.point ≤ 0 then List.replicate (-d.point).toNat '0' ++ d.digits
  else d.digits.drop d.point.toNat

/-- A decimal number has a digit. -/
theorem digits_ne_nil (d : Decimal) : d.digits ≠ [] :=
  Nat.toDigits_ne_nil

/-- There is a digit before the point. -/
theorem whole_ne_nil (d : Decimal) : d.whole ≠ [] := by
  unfold whole
  split
  · simp
  · intro hnil
    rcases List.take_eq_nil_iff.1 (List.append_eq_nil_iff.1 hnil).1 with h | h
    · omega
    · exact d.digits_ne_nil h

/-- Only digits stand before the point. -/
theorem isDigit_whole (d : Decimal) : ∀ c ∈ d.whole, c.isDigit := by
  unfold whole
  split
  · simp
  · intro c hc
    rcases List.mem_append.1 hc with hc | hc
    · exact isDigit_digits d c (List.mem_of_mem_take hc)
    · exact isDigit_replicate _ c hc

/-- Only digits stand behind the point. -/
theorem isDigit_part (d : Decimal) : ∀ c ∈ d.part, c.isDigit := by
  unfold part
  split
  · intro c hc
    rcases List.mem_append.1 hc with hc | hc
    · exact isDigit_replicate _ c hc
    · exact isDigit_digits d c hc
  · exact fun c hc => isDigit_digits d c (List.mem_of_mem_drop hc)

/-- The digits before and behind the point have the value of the number. -/
theorem value_whole_part (d : Decimal) : (numeralValue d.whole d.part).value = d.value := by
  have hpoint : d.point = d.digits.length + d.exponent := rfl
  unfold whole part
  split
  · refine value_numeralValue (k := 0) ?_ ?_
    · rw [← List.append_assoc, ← List.replicate_one, List.replicate_append_replicate,
        digitsValue_zeros_append, digitsValue_digits, pow_zero, mul_one]
    · simp only [List.length_append, List.length_replicate]
      omega
  · by_cases h : d.point.toNat ≤ d.digits.length
    · -- the point stands between two digits or behind the last one
      rw [Nat.sub_eq_zero_of_le h]
      refine value_numeralValue (k := 0) ?_ ?_
      · rw [List.replicate_zero, List.append_nil, List.take_append_drop, digitsValue_digits,
          pow_zero, mul_one]
      · rw [List.length_drop]
        omega
    · rw [List.take_of_length_le (by omega), List.drop_of_length_le (by omega)]
      refine value_numeralValue (k := d.point.toNat - d.digits.length) ?_ ?_
      · rw [List.append_nil, digitsValue_append_zeros, digitsValue_digits]
      · rw [List.length_nil]
        omega

/-- The positional text of a decimal number has the point between these digits. -/
theorem positional_eq_numeral (d : Decimal) :
    Number.displayLayout.positional d.digits d.point = numeral d.whole d.part := by
  unfold Layout.positional whole part
  split
  · simp [numeral, d.digits_ne_nil]
  · split
    · next h =>
      have hdrop : d.digits.drop d.point.toNat ≠ [] := by
        rw [ne_eq, List.drop_eq_nil_iff]
        omega
      have hzeros : d.point.toNat - d.digits.length = 0 := by omega
      simp [numeral, hdrop, hzeros]
    · next h =>
      rw [List.take_of_length_le (by omega), List.drop_of_length_le (by omega)]
      simp [numeral, Number.displayLayout]

end Decimal

/-- The positional text of a decimal number is a numeral of its value. -/
theorem isNumeral_positional (d : Decimal) :
    IsNumeral (Number.displayLayout.positional d.digits d.point) d.value :=
  ⟨d.whole, d.part, d.positional_eq_numeral, d.whole_ne_nil, d.isDigit_whole, d.isDigit_part,
    d.value_whole_part⟩

/-- The text with an exponent has one digit before the point. -/
theorem scientific_eq_numeral (l : Layout) (d : Decimal) (point : ℤ) :
    l.scientific d.digits point =
      numeral (d.digits.take 1) (d.digits.drop 1) ++ 'e' :: (if point > 0 then '+' else '-') ::
        (List.replicate (l.exponentWidth - (Nat.toDigits 10 (point - 1).natAbs).length) '0' ++
          Nat.toDigits 10 (point - 1).natAbs) := by
  unfold Layout.scientific numeral
  by_cases h : d.digits.length > 1
  · have htail : d.digits.tail ≠ [] := by
      rw [ne_eq, ← List.drop_one, List.drop_eq_nil_iff]
      omega
    simp [h, htail]
  · have htail : d.digits.tail = [] := by
      rw [← List.drop_one, List.drop_eq_nil_iff]
      omega
    simp [h, htail]

/-- A numeral, the letter `e`, a sign and digits. -/
def HasExponent (t : List Char) : Prop :=
  ∃ mantissa v sign power, t = mantissa ++ 'e' :: sign :: power ∧ IsNumeral mantissa v ∧
    (sign = '+' ∨ sign = '-') ∧ power ≠ [] ∧ ∀ c ∈ power, c.isDigit

/-- A number in scientific notation has an exponent. -/
theorem hasExponent_scientific (l : Layout) (d : Decimal) (point : ℤ) :
    HasExponent (l.scientific d.digits point) := by
  refine ⟨_, _, _, _, scientific_eq_numeral l d point, ⟨_, _, rfl, ?_, ?_, ?_, rfl⟩, ?_, ?_, ?_⟩
  · rw [ne_eq, List.take_eq_nil_iff, not_or]
    exact ⟨by decide, d.digits_ne_nil⟩
  · exact fun c hc => isDigit_digits d c (List.mem_of_mem_take hc)
  · exact fun c hc => isDigit_digits d c (List.mem_of_mem_drop hc)
  · split
    · exact .inl rfl
    · exact .inr rfl
  · simp
  · intro c hc
    rcases List.mem_append.1 hc with hc | hc
    · exact isDigit_replicate _ c hc
    · exact Nat.isDigit_of_mem_toDigits (by decide) (by decide) hc

/-! ## Plain numbers -/

namespace Number

open Binary64

/-- Zero, or a number from `1e-6` to below `1e21`. -/
def Plain (x : Float) : Prop :=
  (x == 0) = true ∨ 1e-6 ≤ x ∧ x < 1e21

instance (x : Float) : Decidable (Plain x) :=
  inferInstanceAs (Decidable (_ ∨ _))

/-- A number, the zero with a sign apart. -/
def unsigned (x : Float) : Float :=
  if x == 0 then 0 else x

/-- The double next to `10 ^ -6` is finite. -/
theorem shape_micro : shape 1e-6 = .finite false (Decimal.nearestBits ⟨1, -6⟩) := by
  decide +kernel

/-- The double next to `10 ^ 21` is finite. -/
theorem shape_sextillion : shape 1e21 = .finite false (Decimal.nearestBits ⟨1, 21⟩) := by
  decide +kernel

/-- Which positive numbers are plain, by their patterns. -/
theorem plain_iff_of_shape {x : Float} {b : ℕ} (hx : shape x = .finite false b) (hb : 0 < b) :
    Plain x ↔ Decimal.nearestBits ⟨1, -6⟩ ≤ b ∧ b < Decimal.nearestBits ⟨1, 21⟩ := by
  have hzero : ¬(x == 0) = true := by
    rw [beq_zero_iff, hx]
    rintro ⟨negative, h⟩
    cases h
    exact absurd hb (lt_irrefl 0)
  rw [Plain, le_iff_of_shape shape_micro hx, lt_iff_of_shape hx shape_sextillion]
  exact or_iff_right hzero

/-- Which numbers have a positional text. -/
theorem positional_iff {b : ℕ} (h₀ : 0 < b) (hb : b < infinityBits) :
    (displayLayout.pointAbove < (Decimal.shortest b).point ∧
      (Decimal.shortest b).point ≤ displayLayout.pointUpTo) ↔
      Decimal.nearestBits ⟨1, -6⟩ ≤ b ∧ b < Decimal.nearestBits ⟨1, 21⟩ := by
  have hlow : Decimal.shortest (Decimal.nearestBits ⟨1, -6⟩) = ⟨1, -6⟩ := by decide +kernel
  have hhigh : Decimal.shortest (Decimal.nearestBits ⟨1, 21⟩) = ⟨1, 21⟩ := by decide +kernel
  have hbelow := Decimal.point_shortest_iff h₀ hb hlow
  have habove := Decimal.point_shortest_iff h₀ hb hhigh
  have hlayout : displayLayout.pointAbove = -6 ∧ displayLayout.pointUpTo = 21 := ⟨rfl, rfl⟩
  rw [hlayout.1, hlayout.2, hbelow]
  exact and_congr_right fun _ => by rw [← not_lt, habove, not_le]

/-- A double that is a natural number stands for it. -/
theorem patternValue_of_toNat? {b n : ℕ} (h : (Magnitude.ofBits b).toNat? = some n) :
    patternValue b = n := by
  unfold Magnitude.toNat? at h
  split at h
  · next hmod =>
    cases h
    rw [patternValue, ← Magnitude.num_div_den, Nat.cast_div (Nat.dvd_of_mod_eq_zero hmod)]
    exact_mod_cast (Magnitude.den_pos _).ne'
  · cases h

/-- A number of value `n` has the digits of `n` as its text, and reads back. -/
theorem nearestBits_of_toNat? {b n : ℕ} (hb : b < infinityBits)
    (h : (Magnitude.ofBits b).toNat? = some n) {d : Decimal} (hd : d.value = n) :
    d.nearestBits = b := by
  refine nearestBits_eq_of_eq d.den_pos hb ?_
  rw [Decimal.num_div_den, hd, patternValue_of_toNat? h]

/-- A natural number below the bound is plain. -/
theorem plain_of_toNat? {b n : ℕ} (h₀ : 0 < b) (hb : b < infinityBits)
    (h : (Magnitude.ofBits b).toNat? = some n) (hn : n < integerBound) :
    Decimal.nearestBits ⟨1, -6⟩ ≤ b ∧ b < Decimal.nearestBits ⟨1, 21⟩ := by
  have hvalue : Decimal.value ⟨n, 0⟩ = n := by simp [Decimal.value]
  have hreads := nearestBits_of_toNat? hb h hvalue
  have hpos : 0 < n := Decimal.coefficient_pos_of_nearestBits (d := ⟨n, 0⟩) (by rwa [hreads])
  have hone : (1 : ℚ) ≤ n := by exact_mod_cast hpos
  constructor
  · rw [← hreads]
    refine Decimal.nearestBits_mono ?_
    rw [hvalue]
    refine le_trans ?_ hone
    norm_num [Decimal.value]
  · -- the bound itself is a double, so a number below it cannot read as the bound
    have hle : Decimal.nearestBits ⟨n, 0⟩ ≤ Decimal.nearestBits ⟨1, 21⟩ := by
      refine Decimal.nearestBits_mono ?_
      rw [hvalue, Decimal.value, Nat.cast_one, one_mul, zpow_ofNat]
      have : n ≤ 10 ^ 21 := hn.le
      exact_mod_cast this
    rw [hreads] at hle
    refine lt_of_le_of_ne hle fun heq => ?_
    have hbound : (Magnitude.ofBits (Decimal.nearestBits ⟨1, 21⟩)).toNat? =
        some integerBound := by decide +kernel
    rw [← heq, h] at hbound
    cases hbound
    exact lt_irrefl _ hn

/-- The text of a plain number is a numeral that reads back. -/
theorem isNumeral_display {x : Float} {b : ℕ} (hx : shape x = .finite false b) (h₀ : 0 < b)
    (hb : b < infinityBits)
    (h : Decimal.nearestBits ⟨1, -6⟩ ≤ b ∧ b < Decimal.nearestBits ⟨1, 21⟩) :
    ∃ d : Decimal, IsNumeral (display x).toList d.value ∧ d.nearestBits = b := by
  have hwrite : displayLayout.write (Decimal.shortest b) = String.ofList
      (displayLayout.positional (Decimal.shortest b).digits (Decimal.shortest b).point) := by
    unfold Layout.write
    dsimp only
    rw [if_pos ((positional_iff h₀ hb).2 h)]
  have hshortest : IsNumeral (displayLayout.write (Decimal.shortest b)).toList
      (Decimal.shortest b).value := by
    rw [hwrite, String.toList_ofList]
    exact isNumeral_positional _
  -- natural numbers below the bound are written with their digits, others with the shortest ones
  unfold display
  rw [hx]
  dsimp only [signed]
  split
  · next n hn =>
    split
    · refine ⟨⟨n, 0⟩, ⟨Nat.toDigits 10 n, [], ?_, Nat.toDigits_ne_nil, ?_, by simp, ?_⟩, ?_⟩
      · simp [numeral]
      · exact fun c hc => Nat.isDigit_of_mem_toDigits (by decide) (by decide) hc
      · refine value_numeralValue (k := 0) ?_ (by simp)
        rw [List.append_nil, digitsValue_toDigits, pow_zero, mul_one]
      · exact nearestBits_of_toNat? hb hn (by simp [Decimal.value])
    · exact ⟨_, hshortest, Decimal.nearestBits_shortest h₀ hb⟩
  · exact ⟨_, hshortest, Decimal.nearestBits_shortest h₀ hb⟩

/-- The text of another positive number has an exponent. -/
theorem hasExponent_display {x : Float} {b : ℕ} (hx : shape x = .finite false b) (h₀ : 0 < b)
    (hb : b < infinityBits)
    (h : ¬(Decimal.nearestBits ⟨1, -6⟩ ≤ b ∧ b < Decimal.nearestBits ⟨1, 21⟩)) :
    HasExponent (display x).toList := by
  have hwrite : HasExponent (displayLayout.write (Decimal.shortest b)).toList := by
    unfold Layout.write
    dsimp only
    rw [if_neg (mt (positional_iff h₀ hb).1 h), String.toList_ofList]
    exact hasExponent_scientific _ _ _
  unfold display
  rw [hx]
  dsimp only [signed]
  split
  · next n hn =>
    split
    · next hlt => exact absurd (plain_of_toNat? h₀ hb hn hlt) h
    · exact hwrite
  · exact hwrite

/-- Both zeros have the same text. -/
theorem display_of_shape_zero {x : Float} {negative : Bool} (hx : shape x = .finite negative 0) :
    display x = "0" := by
  have hzero : (Magnitude.ofBits 0).toNat? = some 0 := by decide +kernel
  unfold display
  rw [hx]
  dsimp only
  rw [hzero]
  dsimp only
  rw [if_pos (by decide), bne_self_eq_false, Bool.and_false]
  rfl

/-- The sign of zero is not displayed. -/
theorem display_unsigned (x : Float) : display (unsigned x) = display x := by
  unfold unsigned
  split
  · next h =>
    obtain ⟨negative, hx⟩ := beq_zero_iff.1 h
    rw [display_of_shape_zero hx, display_of_shape_zero shape_zero]
  · rfl

/-- The sign of zero does not matter to equality. -/
theorem unsigned_beq {x : Float} (hx : 0 ≤ x) : (unsigned x == x) = true := by
  unfold unsigned
  split
  · next h =>
    obtain ⟨negative, hx⟩ := beq_zero_iff.1 h
    exact beq_of_shape_zero shape_zero hx
  · refine beq_self_of_shape fun hnan => ?_
    rcases shape_of_nonneg hx with h | ⟨b, h⟩ | h <;> rw [h] at hnan <;> cases hnan

/-- The pattern of a number that is too large is that of infinity. -/
theorem nearestBits_le_infinityBits (d : Decimal) : d.nearestBits ≤ infinityBits := by
  unfold Decimal.nearestBits Binary64.nearestBits
  split
  · exact Nat.zero_le _
  · dsimp only
    split
    · next h => exact h.le
    · exact le_rfl

/-- A number without sign is not below zero, not even one that is too large. -/
theorem nonneg_toFloat (d : Decimal) : 0 ≤ d.toFloat false :=
  nonneg_ofSignBits (nearestBits_le_infinityBits d)

/-- A zero that is written without sign has none. -/
theorem unsigned_toFloat (d : Decimal) : unsigned (d.toFloat false) = d.toFloat false := by
  unfold unsigned
  split
  · next hzero =>
    obtain ⟨negative, hshape⟩ := beq_zero_iff.1 hzero
    rcases (nearestBits_le_infinityBits d).lt_or_eq with hlt | heq
    · -- a zero by its value is the pattern without any bits
      rw [Decimal.toFloat, shape_ofSignBits hlt] at hshape
      injection hshape with _ hbits
      rw [Decimal.toFloat, hbits]
      decide +kernel
    · rw [Decimal.toFloat, heq] at hzero
      exact absurd hzero (by decide +kernel)
  · rfl

/-- The pattern of a finite number is below that of infinity. -/
theorem lt_infinityBits_of_shape {x : Float} {negative : Bool} {b : ℕ}
    (hx : shape x = .finite negative b) : b < infinityBits := by
  unfold shape at hx
  dsimp only at hx
  split at hx
  · next h =>
    cases hx
    exact h
  · split at hx <;> cases hx

/-- The text of a plain number is a numeral that reads back. -/
theorem display_of_plain {x : Float} (hx : 0 ≤ x) (h : Plain x) :
    ∃ whole part, (display x).toList = numeral whole part ∧ whole ≠ [] ∧
      (∀ c ∈ whole, c.isDigit) ∧ (∀ c ∈ part, c.isDigit) ∧
      (numeralValue whole part).toFloat false = unsigned x := by
  by_cases hzero : (x == 0) = true
  · obtain ⟨negative, hshape⟩ := beq_zero_iff.1 hzero
    refine ⟨['0'], [], ?_, by simp, by simp, by simp, ?_⟩
    · rw [display_of_shape_zero hshape]
      rfl
    · rw [unsigned, if_pos hzero]
      decide +kernel
  · obtain ⟨b, hshape⟩ : ∃ b, shape x = .finite false b := by
      rcases shape_of_nonneg hx with hinf | hfinite | hneg
      · exact absurd (h.resolve_left hzero).2 (not_lt_of_shape_infinite hinf shape_sextillion)
      · exact hfinite
      · exact absurd (beq_zero_iff.2 ⟨true, hneg⟩) hzero
    have h₀ : 0 < b := Nat.pos_of_ne_zero fun hb =>
      hzero (beq_zero_iff.2 ⟨false, by rw [hshape, hb]⟩)
    have hb := lt_infinityBits_of_shape hshape
    -- the numeral reads as the pattern of the number, and that determines the number
    obtain ⟨d, ⟨whole, part, htext, hne, hwhole, hpart, hvalue⟩, hreads⟩ :=
      isNumeral_display hshape h₀ hb ((plain_iff_of_shape hshape h₀).1 h)
    refine ⟨whole, part, htext, hne, hwhole, hpart, ?_⟩
    rw [unsigned, if_neg hzero, Decimal.toFloat, Decimal.nearestBits_congr hvalue, hreads]
    refine eq_of_shape ?_ ?_
    · rw [shape_ofSignBits hb, hshape]
    · rw [shape_ofSignBits hb]
      exact Shape.noConfusion

/-- The text of any other number that is not below zero is a word or has an exponent. -/
theorem display_of_not_plain {x : Float} (hx : 0 ≤ x) (h : ¬Plain x) :
    display x = "Infinity" ∨ HasExponent (display x).toList := by
  rcases shape_of_nonneg hx with hinf | ⟨b, hshape⟩ | hneg
  · left
    unfold display
    rw [hinf]
    rfl
  · right
    have h₀ : 0 < b := Nat.pos_of_ne_zero fun hb =>
      h (.inl (beq_zero_iff.2 ⟨false, by rw [hshape, hb]⟩))
    exact hasExponent_display hshape h₀ (lt_infinityBits_of_shape hshape)
      (mt (plain_iff_of_shape hshape h₀).2 h)
  · exact absurd (.inl (beq_zero_iff.2 ⟨true, hneg⟩)) h

end Number

end CallByNeed
