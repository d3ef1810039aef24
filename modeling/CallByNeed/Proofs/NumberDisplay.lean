import CallByNeed.Proofs.NumberText

/-!
# What the text of a number denotes

A `DecimalText` is a decimal numeral as it is written: a sign, digits with or without a fraction,
and an exponent with or without a sign. It is read in one way only (`DecimalText.eq_of_chars`), and
its value is an exact rational number. `Number.Shows text v` says that a text is such a numeral of
the value `v`, that it has no superfluous zeros, and that it has an exponent exactly if `v` is very
large or very small.

Every decimal number is laid out as a text that shows it (`shows_write`), wherever its point stands.
An integer that is not too large is written with all its digits (`shows_toDigits`), and so the text
of a double shows either the double itself or the shortest decimal number that reads back as it.
-/

namespace CallByNeed

open Lexeme

/-! ## First and last digits -/

/-- A positive number does not start with a zero. -/
theorem head?_toDigits_ne {n : ℕ} (hn : 0 < n) : (Nat.toDigits 10 n).head? ≠ some '0' := by
  induction n using Nat.strong_induction_on with
  | _ n ih =>
    by_cases h : n < 10
    · rw [Nat.toDigits_of_lt_base h]
      interval_cases n <;> decide
    · -- the first digit is that of the number without its last digit
      rw [Nat.toDigits_of_base_le (by decide) (not_lt.1 h),
        List.head?_append_of_ne_nil _ Nat.toDigits_ne_nil]
      exact ih (n / 10) (by omega) (by omega)

/-- The last digit is the remainder by ten. -/
theorem getLast?_toDigits (n : ℕ) :
    (Nat.toDigits 10 n).getLast? = some (Nat.digitChar (n % 10)) := by
  by_cases h : n < 10
  · rw [Nat.toDigits_of_lt_base h, Nat.mod_eq_of_lt h]
    rfl
  · rw [Nat.toDigits_of_base_le (by decide) (not_lt.1 h), List.getLast?_concat]

/-- A coefficient that is no multiple of ten does not end in a zero. -/
theorem getLast?_digits_ne {d : Decimal} (hd : d.coefficient % 10 ≠ 0) :
    d.digits.getLast? ≠ some '0' := by
  have hlt : d.coefficient % 10 < 10 := Nat.mod_lt _ (by decide)
  rw [Decimal.digits, getLast?_toDigits]
  generalize d.coefficient % 10 = r at hd hlt
  interval_cases r <;> first | exact absurd rfl hd | decide

/-! ## Decimal numerals -/

/-- A number with or without a minus sign. -/
def withSign {α : Type} [Neg α] (negative : Bool) (a : α) : α :=
  if negative then -a else a

/-- A decimal numeral as it is written. -/
structure DecimalText where
  /-- Whether there is a minus sign at the front. -/
  negative : Bool
  /-- The digits before the point. -/
  whole : List Char
  /-- The digits behind the point. Without any there is no point. -/
  part : List Char
  /-- The exponent, if there is one: whether it has a minus sign, and its digits. -/
  power : Option (Bool × List Char)
  whole_ne_nil : whole ≠ []
  isDigit_whole : ∀ c ∈ whole, c.isDigit
  isDigit_part : ∀ c ∈ part, c.isDigit
  isDigit_power : ∀ p ∈ power, p.2 ≠ [] ∧ ∀ c ∈ p.2, c.isDigit

/-- How an exponent is written, with either sign. -/
def exponentText : Option (Bool × List Char) → List Char
  | none => []
  | some (negative, digits) => 'e' :: (if negative then '-' else '+') :: digits

/-- The number that an exponent stands for. -/
def exponentValue : Option (Bool × List Char) → ℤ
  | none => 0
  | some (negative, digits) => withSign negative (Nat.ofDigitChars 10 digits 0)

namespace DecimalText

/-- The characters of the numeral. -/
def chars (t : DecimalText) : List Char :=
  (if t.negative then ['-'] else []) ++ (numeral t.whole t.part ++ exponentText t.power)

/-- The number that the numeral stands for. -/
def value (t : DecimalText) : ℚ :=
  withSign t.negative (Decimal.value
    ⟨Nat.ofDigitChars 10 (t.whole ++ t.part) 0, exponentValue t.power - t.part.length⟩)

/-- The numeral has no superfluous zeros: neither the digits before the point nor those of the
exponent start with one, unless it is the only digit, and the fraction does not end with one. It has
a sign only if it needs one. -/
structure Tidy (t : DecimalText) : Prop where
  whole : t.whole = ['0'] ∨ t.whole.head? ≠ some '0'
  part : t.part.getLast? ≠ some '0'
  power : ∀ p ∈ t.power, p.2 = ['0'] ∨ p.2.head? ≠ some '0'
  sign : t.negative = true ↔ t.value < 0

end DecimalText

/-! ### A numeral is read in one way -/

/-- Digits are divided from what follows them in one way. -/
theorem digits_append_inj {ds ds' rest rest' : List Char} (hds : ∀ c ∈ ds, c.isDigit)
    (hds' : ∀ c ∈ ds', c.isDigit) (hrest : ∀ c ∈ rest.head?, c.isDigit = false)
    (hrest' : ∀ c ∈ rest'.head?, c.isDigit = false) (h : ds ++ rest = ds' ++ rest') :
    ds = ds' ∧ rest = rest' := by
  have htake := congrArg (List.takeWhile Char.isDigit) h
  rw [takeWhile_isDigit hds hrest, takeWhile_isDigit hds' hrest'] at htake
  subst htake
  exact ⟨rfl, List.append_cancel_left h⟩

/-- An exponent begins with its letter. -/
theorem exponentText_head {power : Option (Bool × List Char)} :
    ∀ c ∈ (exponentText power).head?, c = 'e' := by
  cases power with
  | none => simp [exponentText]
  | some p => simp [exponentText]

/-- The text of an exponent tells its sign and its digits. -/
theorem exponentText_injective {p q : Option (Bool × List Char)}
    (h : exponentText p = exponentText q) : p = q := by
  rcases p with _ | ⟨⟨⟩, ds⟩ <;> rcases q with _ | ⟨⟨⟩, ds'⟩ <;> simp_all [exponentText]

/-- What follows the digits before the point is no digit. -/
theorem fractionText_head {part : List Char} {power : Option (Bool × List Char)} :
    ∀ c ∈ ((if part.isEmpty then [] else '.' :: part) ++ exponentText power).head?,
      c.isDigit = false := by
  intro c hc
  split at hc
  · rw [exponentText_head c hc]
    rfl
  · obtain rfl : '.' = c := by simpa using hc
    rfl

/-- The fraction and the exponent are divided in one way. -/
theorem fractionText_inj {part part' : List Char} {power power' : Option (Bool × List Char)}
    (hpart : ∀ c ∈ part, c.isDigit) (hpart' : ∀ c ∈ part', c.isDigit)
    (h : (if part.isEmpty then [] else '.' :: part) ++ exponentText power =
      (if part'.isEmpty then [] else '.' :: part') ++ exponentText power') :
    part = part' ∧ power = power' := by
  have hdigit : ∀ {power : Option (Bool × List Char)}, ∀ c ∈ (exponentText power).head?,
      c.isDigit = false := fun c hc => by
    rw [exponentText_head c hc]
    rfl
  -- a point cannot be mistaken for the letter of an exponent
  have hpoint : ∀ {power : Option (Bool × List Char)} {cs : List Char},
      exponentText power ≠ '.' :: cs := fun {power} {cs} heq => by
    have hhead : '.' ∈ (exponentText power).head? → '.' = 'e' := exponentText_head '.'
    rw [heq] at hhead
    exact absurd (hhead rfl) (by decide)
  cases part with
  | nil =>
    cases part' with
    | nil => exact ⟨rfl, exponentText_injective h⟩
    | cons d part' => exact absurd h hpoint
  | cons c part =>
    cases part' with
    | nil => exact absurd h.symm hpoint
    | cons d part' =>
      obtain ⟨hparts, hpowers⟩ :=
        digits_append_inj hpart hpart' hdigit hdigit (List.cons.inj h).2
      exact ⟨hparts, exponentText_injective hpowers⟩

/-- A minus sign is divided from the digits behind it in one way. -/
theorem sign_append_inj {negative negative' : Bool} {ds ds' rest rest' : List Char}
    (hne : ds ≠ []) (hds : ∀ c ∈ ds, c.isDigit) (hne' : ds' ≠ []) (hds' : ∀ c ∈ ds', c.isDigit)
    (h : (if negative then ['-'] else []) ++ (ds ++ rest) =
      (if negative' then ['-'] else []) ++ (ds' ++ rest')) :
    negative = negative' ∧ ds ++ rest = ds' ++ rest' := by
  -- it is no digit
  have hsign : ∀ {ds cs rest : List Char}, ds ≠ [] → (∀ c ∈ ds, c.isDigit) →
      ds ++ rest ≠ '-' :: cs := by
    intro ds cs rest hne hds heq
    obtain ⟨d, ds, rfl⟩ := List.exists_cons_of_ne_nil hne
    obtain rfl := (List.cons.inj heq).1
    exact absurd (hds '-' List.mem_cons_self) (by decide)
  cases negative with
  | false =>
    cases negative' with
    | false => exact ⟨rfl, h⟩
    | true =>
      have h : ds ++ rest = '-' :: (ds' ++ rest') := h
      exact absurd h (hsign hne hds)
  | true =>
    cases negative' with
    | false =>
      have h : '-' :: (ds ++ rest) = ds' ++ rest' := h
      exact absurd h.symm (hsign hne' hds')
    | true => exact ⟨rfl, (List.cons.inj h).2⟩

/-- A text is a decimal numeral in one way at most. -/
theorem DecimalText.eq_of_chars {t u : DecimalText} (h : t.chars = u.chars) : t = u := by
  obtain ⟨negative, whole, part, power, hne, hwhole, hpart, hpower⟩ := t
  obtain ⟨negative', whole', part', power', hne', hwhole', hpart', hpower'⟩ := u
  unfold chars numeral at h
  dsimp only at h
  rw [List.append_assoc, List.append_assoc] at h
  -- first the sign, then the digits before the point, then the fraction and the exponent
  obtain ⟨rfl, hdigits⟩ := sign_append_inj hne hwhole hne' hwhole' h
  obtain ⟨rfl, hrest⟩ :=
    digits_append_inj hwhole hwhole' fractionText_head fractionText_head hdigits
  obtain ⟨rfl, rfl⟩ := fractionText_inj hpart hpart' hrest
  rfl

/-! ## Texts that show a number -/

namespace Number

/-- The text is a decimal numeral of the value `v`, and can be read as no other one. It has no
superfluous zeros, and it has an exponent exactly if `v` is `10 ^ 21` or more, or is not zero but
below `10 ^ -6`, apart from its sign. -/
def Shows (text : String) (v : ℚ) : Prop :=
  ∃ t : DecimalText, (∀ u : DecimalText, u.chars = text.toList ↔ u = t) ∧ t.value = v ∧ t.Tidy ∧
    (t.power.isSome ↔ v ≠ 0 ∧ (10 ^ 21 ≤ |v| ∨ |v| < (10 : ℚ) ^ (-6 : ℤ)))

/-- A sign is written before the text. -/
theorem toList_signed (negative : Bool) (text : String) :
    (signed negative text).toList = (if negative then ['-'] else []) ++ text.toList := by
  cases negative <;> simp [signed]

/-- A text that shows a positive number shows its negation with a minus sign. -/
theorem shows_signed {t : DecimalText} (ht : t.Tidy) (hpos : 0 < t.value)
    (hpower : t.power.isSome ↔ 10 ^ 21 ≤ t.value ∨ t.value < (10 : ℚ) ^ (-6 : ℤ))
    {text : String} (htext : text.toList = t.chars) (negative : Bool) :
    Shows (signed negative text) (withSign negative t.value) := by
  have hunsigned : t.negative = false := by
    rw [← Bool.not_eq_true, ht.sign]
    exact hpos.not_gt
  let u : DecimalText := { t with negative := negative }
  have hchars : u.chars = (signed negative text).toList := by
    rw [toList_signed, htext, DecimalText.chars, DecimalText.chars, hunsigned]
    rfl
  have hvalue : u.value = withSign negative t.value := by
    rw [DecimalText.value, DecimalText.value, hunsigned]
    rfl
  have habs : |withSign negative t.value| = t.value := by
    cases negative with
    | false => exact abs_of_pos hpos
    | true => exact (abs_neg _).trans (abs_of_pos hpos)
  refine ⟨u, fun w => ⟨fun hw => DecimalText.eq_of_chars (hw.trans hchars.symm),
    fun hw => hw ▸ hchars⟩, hvalue, ⟨ht.whole, ht.part, ht.power, ?_⟩, ?_⟩
  · rw [hvalue]
    cases negative with
    | false => simpa [u, withSign] using hpos.le
    | true => simpa [u, withSign] using hpos
  · have hne : withSign negative t.value ≠ 0 := by
      rw [← abs_pos, habs]
      exact hpos
    rw [habs, and_iff_right hne]
    exact hpower

/-! ### Decimal numbers -/

/-- How the place of the point tells which numbers are very large or very small. -/
theorem point_bounds {d : Decimal} (hd : 0 < d.coefficient) :
    (displayLayout.pointAbove < d.point ∧ d.point ≤ displayLayout.pointUpTo) ↔
      ¬(10 ^ 21 ≤ d.value ∨ d.value < (10 : ℚ) ^ (-6 : ℤ)) := by
  obtain ⟨hlow, hhigh⟩ := Decimal.pow_point_le hd
  have hten : (1 : ℚ) < 10 := by norm_num
  have hlayout : displayLayout.pointAbove = -6 ∧ displayLayout.pointUpTo = 21 := ⟨rfl, rfl⟩
  have hpow : (10 : ℚ) ^ 21 = 10 ^ (21 : ℤ) := (zpow_natCast 10 21).symm
  rw [hlayout.1, hlayout.2, not_or, not_le, not_lt, hpow]
  constructor
  · rintro ⟨habove, hupTo⟩
    exact ⟨hhigh.trans_le (zpow_le_zpow_right₀ hten.le hupTo),
      (zpow_le_zpow_right₀ hten.le (by omega)).trans hlow⟩
  · rintro ⟨hlarge, hsmall⟩
    have habove := (zpow_lt_zpow_iff_right₀ hten).1 (hsmall.trans_lt hhigh)
    have hupTo := (zpow_lt_zpow_iff_right₀ hten).1 (hlow.trans_lt hlarge)
    omega

/-- The digits of a decimal number with the point among them. -/
def positionalText (d : Decimal) : DecimalText :=
  ⟨false, d.whole, d.part, none, d.whole_ne_nil, d.isDigit_whole, d.isDigit_part, by simp⟩

/-- The text without an exponent shows the value of the number. -/
theorem value_positionalText (d : Decimal) : (positionalText d).value = d.value := by
  rw [← d.value_whole_part, numeralValue, ← zero_sub]
  rfl

/-- The text without an exponent has no zeros that could be left out. -/
theorem tidy_positionalText {d : Decimal} (hd : d.coefficient % 10 ≠ 0) :
    (positionalText d).Tidy := by
  have hpos : 0 < d.coefficient := by omega
  have hlast := getLast?_digits_ne hd
  have hfirst : d.digits.head? ≠ some '0' := head?_toDigits_ne hpos
  refine ⟨?_, ?_, by simp [positionalText], ?_⟩
  · dsimp only [positionalText, Decimal.whole]
    split
    · exact .inl rfl
    · -- the first digit of the number stands first
      right
      rw [List.head?_append_of_ne_nil, List.head?_take, if_neg (by omega)]
      · exact hfirst
      · rw [ne_eq, List.take_eq_nil_iff, not_or]
        exact ⟨by omega, d.digits_ne_nil⟩
  · dsimp only [positionalText, Decimal.part]
    split
    · rwa [List.getLast?_append_of_ne_nil _ d.digits_ne_nil]
    · -- the last digit of the number stands last, or there is no fraction
      rw [List.getLast?_drop]
      split
      · simp
      · exact hlast
  · rw [value_positionalText]
    have : 0 ≤ d.value := by
      rw [Decimal.value]
      positivity
    simpa [positionalText] using this

/-- The digits of a decimal number with the point behind the first one, and the exponent that makes
up for that. -/
def scientificText (d : Decimal) : DecimalText :=
  ⟨false, d.digits.take 1, d.digits.drop 1,
    some (decide (d.point ≤ 0), Nat.toDigits 10 (d.point - 1).natAbs),
    by
      rw [ne_eq, List.take_eq_nil_iff, not_or]
      exact ⟨by decide, d.digits_ne_nil⟩,
    fun c hc => isDigit_digits d c (List.mem_of_mem_take hc),
    fun c hc => isDigit_digits d c (List.mem_of_mem_drop hc), by
      rintro p hp
      cases hp
      exact ⟨Nat.toDigits_ne_nil,
        fun c hc => Nat.isDigit_of_mem_toDigits (by decide) (by decide) hc⟩⟩

/-- The text with an exponent shows the value of the number. -/
theorem value_scientificText (d : Decimal) : (scientificText d).value = d.value := by
  have hlength : 0 < d.digits.length := Nat.length_toDigits_pos
  have hpoint : d.point = d.digits.length + d.exponent := rfl
  -- the exponent is one less than the point, whatever its sign
  have hpower : exponentValue (scientificText d).power = d.point - 1 := by
    have hdigits : Nat.ofDigitChars 10 (Nat.toDigits 10 (d.point - 1).natAbs) 0 =
        (d.point - 1).natAbs := Nat.ofDigitChars_ten_toDigits
    simp only [scientificText, exponentValue, hdigits, withSign, decide_eq_true_eq]
    split <;> omega
  have hcoefficient : Nat.ofDigitChars 10 ((scientificText d).whole ++ (scientificText d).part) 0 =
      d.coefficient := by
    simp only [scientificText, List.take_append_drop]
    exact Nat.ofDigitChars_ten_toDigits
  have hexponent : d.point - 1 - ((scientificText d).part.length : ℤ) = d.exponent := by
    simp only [scientificText, List.length_drop]
    omega
  rw [DecimalText.value, hpower, hcoefficient, hexponent]
  rfl

/-- The text with an exponent has no zeros that could be left out. -/
theorem tidy_scientificText {d : Decimal} (hd : d.coefficient % 10 ≠ 0) (hpoint : d.point ≠ 1) :
    (scientificText d).Tidy := by
  have hpos : 0 < d.coefficient := by omega
  have hfirst : d.digits.head? ≠ some '0' := head?_toDigits_ne hpos
  refine ⟨.inr ?_, ?_, ?_, ?_⟩
  · simpa [scientificText, List.head?_take] using hfirst
  · simp only [scientificText, List.getLast?_drop]
    split
    · simp
    · exact getLast?_digits_ne hd
  · rintro p hp
    cases hp
    exact .inr (head?_toDigits_ne (by omega))
  · rw [value_scientificText]
    have : 0 ≤ d.value := by
      rw [Decimal.value]
      positivity
    simpa [scientificText] using this

/-- Every decimal number without trailing zeros is written as a text that shows it. -/
theorem shows_write {d : Decimal} (hd : d.coefficient % 10 ≠ 0) (negative : Bool) :
    Shows (signed negative (displayLayout.write d)) (withSign negative d.value) := by
  have hpos : 0 < d.coefficient := by omega
  have hvalue : 0 < d.value := by
    rw [Decimal.value]
    positivity
  have hbounds := point_bounds hpos
  unfold Layout.write
  dsimp only
  split
  · next h =>
    rw [← value_positionalText d] at hvalue hbounds ⊢
    refine shows_signed (tidy_positionalText hd) hvalue ?_ ?_ negative
    · simpa [positionalText] using hbounds.1 h
    · rw [String.toList_ofList, d.positional_eq_numeral, DecimalText.chars]
      simp [positionalText, exponentText]
  · next h =>
    have hpoint : d.point ≠ 1 := by
      rintro hpoint
      rw [hpoint] at h
      exact h (by decide)
    rw [← value_scientificText d] at hvalue hbounds ⊢
    refine shows_signed (tidy_scientificText hd hpoint) hvalue ?_ ?_ negative
    · exact iff_of_true rfl (not_not.1 (mt hbounds.2 h))
    · -- no zeros are put before the digits of the exponent
      have hwidth : displayLayout.exponentWidth - (Nat.toDigits 10 (d.point - 1).natAbs).length =
          0 := by
        have : 0 < (Nat.toDigits 10 (d.point - 1).natAbs).length := Nat.length_toDigits_pos
        have : displayLayout.exponentWidth = 1 := rfl
        omega
      rw [String.toList_ofList, scientific_eq_numeral, hwidth, DecimalText.chars]
      by_cases hsign : d.point > 0
      · simp [scientificText, exponentText, hsign, not_le.2 hsign]
      · simp [scientificText, exponentText, hsign, not_lt.1 hsign]

/-! ### Integers -/

/-- All the digits of a natural number. -/
def integerText (n : ℕ) : DecimalText :=
  ⟨false, Nat.toDigits 10 n, [], none, Nat.toDigits_ne_nil,
    fun _ hc => Nat.isDigit_of_mem_toDigits (by decide) (by decide) hc, by simp, by simp⟩

/-- The text of an integer shows its value. -/
theorem value_integerText (n : ℕ) : (integerText n).value = n := by
  have hdigits : Nat.ofDigitChars 10 (Nat.toDigits 10 n) 0 = n := Nat.ofDigitChars_ten_toDigits
  simp [DecimalText.value, integerText, withSign, Decimal.value, exponentValue, hdigits]

/-- The text of an integer has no zeros that could be left out. -/
theorem tidy_integerText (n : ℕ) : (integerText n).Tidy := by
  refine ⟨?_, by simp [integerText], by simp [integerText], ?_⟩
  · rcases Nat.eq_zero_or_pos n with rfl | hn
    · exact .inl rfl
    · exact .inr (head?_toDigits_ne hn)
  · rw [value_integerText]
    simp [integerText]

/-- An integer is written as its digits. -/
theorem chars_integerText (n : ℕ) : (integerText n).chars = Nat.toDigits 10 n := by
  simp [DecimalText.chars, integerText, numeral, exponentText]

/-- The digits of a natural number below the bound show it, with a sign unless it is zero. -/
theorem shows_toDigits {n : ℕ} (hn : n < 10 ^ 21) (negative : Bool) :
    Shows (signed (negative && n != 0) (String.ofList (Nat.toDigits 10 n)))
      (withSign negative (n : ℚ)) := by
  rcases Nat.eq_zero_or_pos n with rfl | hpos
  · -- zero has no sign, and it is small but has no exponent
    have hzero : withSign negative ((0 : ℕ) : ℚ) = 0 := by cases negative <;> simp [withSign]
    rw [bne_self_eq_false, Bool.and_false, hzero]
    refine ⟨integerText 0, fun u => ?_, by simp [value_integerText], tidy_integerText 0,
      by simp [integerText]⟩
    have htext : (signed false (String.ofList (Nat.toDigits 10 0))).toList =
        (integerText 0).chars := by rw [chars_integerText, toList_signed, String.toList_ofList]; rfl
    rw [htext]
    exact ⟨DecimalText.eq_of_chars, fun hu => hu ▸ rfl⟩
  · have hsign : (negative && n != 0) = negative := by simp [hpos.ne']
    have hone : (1 : ℚ) ≤ n := by exact_mod_cast hpos
    have hbound : (n : ℚ) < 10 ^ 21 := by exact_mod_cast hn
    have hsmall : (10 : ℚ) ^ (-6 : ℤ) ≤ 1 := by norm_num
    rw [hsign, ← value_integerText]
    rw [← value_integerText] at hone hbound
    refine shows_signed (tidy_integerText n) (by linarith) ?_ ?_ negative
    · refine iff_of_false (by simp [integerText]) (not_or.2 ⟨not_le.2 hbound, not_lt.2 ?_⟩)
      exact hsmall.trans hone
    · rw [String.toList_ofList, chars_integerText]

end Number

/-! ## Doubles -/

namespace Decimal

/-- With enough fuel, all trailing zeros are moved into the exponent. -/
theorem trimBy_mod_ne {fuel : ℕ} {d : Decimal} (hpos : d.coefficient ≠ 0)
    (hlt : d.coefficient < 10 ^ fuel) : (trimBy fuel d).coefficient % 10 ≠ 0 := by
  induction fuel generalizing d with
  | zero => exact absurd (Nat.lt_one_iff.1 hlt) hpos
  | succ fuel ih =>
    rw [trimBy]
    split
    · rw [pow_succ] at hlt
      exact ih (by dsimp only; omega) (by dsimp only; omega)
    · next h => exact fun hmod => h ⟨hpos, hmod⟩

/-- The shortest decimal number that reads back as a positive double has no trailing zeros. -/
theorem shortest_mod_ne {b : ℕ} (h₀ : 0 < b) (hb : b < Binary64.infinityBits) :
    (shortest b).coefficient % 10 ≠ 0 := by
  have hpos : 0 < (shortest b).coefficient := by
    apply coefficient_pos_of_nearestBits
    rwa [nearestBits_shortest h₀ hb]
  obtain ⟨d, hd⟩ : ∃ d : Decimal, shortest b = d.trim := ⟨_, rfl⟩
  rw [hd] at hpos ⊢
  -- trimming keeps the value, and so the coefficient was positive before
  have hne : d.coefficient ≠ 0 := by
    intro hzero
    have hvalue := value_trim d
    rw [value, value, hzero, Nat.cast_zero, zero_mul] at hvalue
    have : (0 : ℚ) < d.trim.coefficient * 10 ^ d.trim.exponent := by positivity
    exact this.ne' hvalue
  exact trimBy_mod_ne hne (pow_length_toDigits (Nat.pos_of_ne_zero hne)).2

end Decimal

namespace Number

open Binary64

/-- A double that stands for a natural number is one. -/
theorem toNat?_of_patternValue {b n : ℕ} (h : patternValue b = n) :
    (Magnitude.ofBits b).toNat? = some n := by
  have hden := (Magnitude.ofBits b).den_pos
  have hnum : (Magnitude.ofBits b).num = n * (Magnitude.ofBits b).den := by
    rw [patternValue, ← Magnitude.num_div_den, div_eq_iff (by positivity)] at h
    exact_mod_cast h
  rw [Magnitude.toNat?, hnum, if_pos (Nat.mul_mod_left _ _), Nat.mul_div_left _ hden]

/-- Integers are written out below `10 ^ 21`. -/
theorem integerBound_eq : integerBound = 10 ^ 21 := by
  norm_num [integerBound]

/-- The text of a number denotes the right number. Whatever the digits, without zeros at either end,
and the exponent of a decimal number are, its text shows it, with either sign. The text of a finite
double shows the double itself if that is an integer below `10 ^ 21`, apart from its sign, both
zeros being shown as zero. The text of any other finite double shows the shortest decimal number,
which has no zeros at the end and reads back as the double. -/
theorem display_denotes_number :
    (∀ (negative : Bool) (d : Decimal), d.coefficient % 10 ≠ 0 →
      Shows (signed negative (displayLayout.write d)) (withSign negative d.value)) ∧
    ∀ (x : Float) (negative : Bool) (b : ℕ), shape x = .finite negative b →
      ((∃ n : ℕ, n < 10 ^ 21 ∧ patternValue b = n) →
        Shows (display x) (withSign negative (patternValue b))) ∧
      ((¬∃ n : ℕ, n < 10 ^ 21 ∧ patternValue b = n) →
        Shows (display x) (withSign negative (Decimal.shortest b).value) ∧
          (Decimal.shortest b).coefficient % 10 ≠ 0 ∧ (Decimal.shortest b).nearestBits = b) := by
  refine ⟨fun negative d hd => shows_write hd negative, fun x negative b hx => ⟨?_, ?_⟩⟩
  · rintro ⟨n, hn, hvalue⟩
    have hbound : n < integerBound := integerBound_eq ▸ hn
    unfold display
    rw [hx, hvalue]
    dsimp only
    rw [toNat?_of_patternValue hvalue]
    dsimp only
    rw [if_pos hbound]
    exact shows_toDigits hn negative
  · intro hnot
    have hb := lt_infinityBits_of_shape hx
    have h₀ : 0 < b := by
      apply Nat.pos_of_ne_zero
      rintro rfl
      exact hnot ⟨0, by positivity, by simpa using patternValue_zero⟩
    have hmod := Decimal.shortest_mod_ne h₀ hb
    refine ⟨?_, hmod, Decimal.nearestBits_shortest h₀ hb⟩
    unfold display
    rw [hx]
    dsimp only
    split
    · next n hn =>
      -- an integer that is not below the bound is laid out as other numbers are
      have hbound : ¬n < integerBound := fun hlt =>
        hnot ⟨n, integerBound_eq ▸ hlt, patternValue_of_toNat? hn⟩
      rw [if_neg hbound]
      exact shows_write hmod negative
    · exact shows_write hmod negative

/-- An integer that has shorter decimal numbers around it is shown exactly, and a small number below
zero by its shortest digits and with an exponent. -/
theorem display_denotes_number_power :
    (display 590295810358705651712 = "590295810358705651712" ∧
        Shows (display 590295810358705651712) 590295810358705651712) ∧
      display (-1.5e-7) = "-1.5e-7" ∧ Shows (display (-1.5e-7)) (-(15 * 10 ^ (-8 : ℤ))) ∧
      Shows (signed true (displayLayout.write ⟨15, -8⟩)) (-(15 * 10 ^ (-8 : ℤ))) := by
  obtain ⟨hwrite, hdouble⟩ := display_denotes_number
  have hshape : shape 590295810358705651712 = .finite false 0x4440000000000000 := by decide +kernel
  have hinteger : patternValue 0x4440000000000000 = (590295810358705651712 : ℕ) :=
    patternValue_of_toNat? (by decide +kernel)
  have hshape' : shape (-1.5e-7) = .finite true 0x3e8421f5f40d8376 := by decide +kernel
  have hfraction : ¬∃ n : ℕ, n < 10 ^ 21 ∧ patternValue 0x3e8421f5f40d8376 = n := by
    rintro ⟨n, -, hn⟩
    have hnone : (Magnitude.ofBits 0x3e8421f5f40d8376).toNat? = none := by decide +kernel
    cases hnone.symm.trans (toNat?_of_patternValue hn)
  have hshortest : Decimal.shortest 0x3e8421f5f40d8376 = ⟨15, -8⟩ := by decide +kernel
  have hlarge := (hdouble _ _ _ hshape).1 ⟨590295810358705651712, by norm_num, hinteger⟩
  have hsmall := ((hdouble _ _ _ hshape').2 hfraction).1
  rw [hinteger] at hlarge
  rw [hshortest] at hsmall
  refine ⟨⟨by decide +kernel, ?_⟩, by decide +kernel, ?_, ?_⟩
  · simpa [withSign] using hlarge
  · simpa [withSign, Decimal.value] using hsmall
  · simpa [withSign, Decimal.value] using hwrite true ⟨15, -8⟩ (by decide)

-- the first and the last power of ten without an exponent, and those next to them
example : display 1e-7 = "1e-7" ∧ display 1e-6 = "0.000001" := by decide +kernel
example : display 1e20 = "100000000000000000000" ∧ display 1e21 = "1e+21" := by decide +kernel

end Number

end CallByNeed
