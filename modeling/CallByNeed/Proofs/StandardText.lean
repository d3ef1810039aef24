import CallByNeed.Proofs.ShortestDigits

/-!
# The standard text of a number

`Number.StandardText x text` says that JavaScript writes the number `x` as `text`: the shortest
digits that read as `x`, laid out by the place of the decimal point (`Number.standardDigits`). Every
number has one standard text, and `Number.display` follows the same layout (`write_displayLayout`).

The two differ where an integer below `10 ^ 21` has more digits than are needed to read it back. The
standard then puts zeros for the digits that are not needed, and `Number.display` writes them all.
Such a `Number.LongInteger` is at least `2 ^ 53`: below, doubles are at most one apart, and no other
integer reads as the same double (`eq_of_reads_safe`).
-/

namespace CallByNeed

open Binary64

namespace Number

/-! ## The standard text of a number -/

/-- The digits of a number `0.DIGITS · 10 ^ n`, laid out as the standard has it. -/
def standardDigits (digits : List Char) (n : ℤ) : List Char :=
  if digits.length ≤ n ∧ n ≤ 21 then digits ++ List.replicate (n - digits.length).toNat '0'
  else if 0 < n ∧ n ≤ 21 then digits.take n.toNat ++ '.' :: digits.drop n.toNat
  else if -6 < n ∧ n ≤ 0 then '0' :: '.' :: List.replicate (-n).toNat '0' ++ digits
  else
    let power := (if 0 < n - 1 then '+' else '-') :: Nat.toDigits 10 (n - 1).natAbs
    if digits.length = 1 then digits ++ 'e' :: power
    else digits.take 1 ++ '.' :: digits.drop 1 ++ 'e' :: power

/-- Positional notation is that of the standard, in its range. -/
theorem positional_displayLayout {n : ℤ} (hn : -6 < n ∧ n ≤ 21) {digits : List Char}
    (hdigits : digits ≠ []) : displayLayout.positional digits n = standardDigits digits n := by
  have hlength := List.length_pos_iff.2 hdigits
  unfold Layout.positional standardDigits
  rcases le_or_gt n 0 with hneg | hpos
  · have hpad : ¬(digits.length ≤ n ∧ n ≤ 21) := by omega
    have hsplit : ¬(0 < n ∧ n ≤ 21) := by omega
    rw [if_pos hneg, if_neg hpad, if_neg hsplit, if_pos ⟨hn.1, hneg⟩]
  · rw [if_neg (not_le.2 hpos)]
    rcases lt_or_ge n digits.length with hlt | hge
    · have hpad : ¬(digits.length ≤ n ∧ n ≤ 21) := by omega
      rw [if_pos hlt, if_neg hpad, if_pos ⟨hpos, hn.2⟩]
    · rw [if_neg (not_lt.2 hge), if_pos (show _ ∧ _ from ⟨hge, hn.2⟩)]
      have hzeros : (n - digits.length).toNat = n.toNat - digits.length := by omega
      rw [hzeros]
      exact List.append_nil _

/-- Scientific notation is that of the standard, out of the range of the other. -/
theorem scientific_displayLayout {n : ℤ} (hn : ¬(-6 < n ∧ n ≤ 21)) {digits : List Char}
    (hdigits : digits ≠ []) : displayLayout.scientific digits n = standardDigits digits n := by
  have hlength := List.length_pos_iff.2 hdigits
  have hpad : ¬(digits.length ≤ n ∧ n ≤ 21) := by omega
  have hsplit : ¬(0 < n ∧ n ≤ 21) := by omega
  have hzeros : ¬(-6 < n ∧ n ≤ 0) := by omega
  have hsign : (if n > 0 then '+' else '-') = if 0 < n - 1 then '+' else '-' := by
    split_ifs <;> first | rfl | omega
  -- no zeros are put before the digits of the exponent
  have hwidth : displayLayout.exponentWidth - (Nat.toDigits 10 (n - 1).natAbs).length = 0 := by
    have : 0 < (Nat.toDigits 10 (n - 1).natAbs).length := Nat.length_toDigits_pos
    have : displayLayout.exponentWidth = 1 := rfl
    omega
  unfold Layout.scientific standardDigits
  dsimp only
  rw [if_neg hpad, if_neg hsplit, if_neg hzeros, hwidth, hsign]
  rcases eq_or_ne digits.length 1 with hone | hone
  · rw [if_neg hone.not_gt, if_pos hone, List.take_of_length_le hone.le]
    simp
  · have hmany : digits.length > 1 := by omega
    rw [if_pos hmany, if_neg hone]
    simp

/-- The layout of the display is the standard one. -/
theorem write_displayLayout (d : Decimal) :
    displayLayout.write d = String.ofList (standardDigits d.digits d.point) := by
  unfold Layout.write
  dsimp only
  split
  · next h => rw [positional_displayLayout h d.digits_ne_nil]
  · next h => rw [scientific_displayLayout h d.digits_ne_nil]

/-- The text that the standard gives a number: the names of what is no finite number, `0` for both
zeros, and for any other number its shortest digits. -/
def StandardText (x : Float) (text : String) : Prop :=
  match shape x with
  | .nan => text = "NaN"
  | .infinite negative => text = signed negative "Infinity"
  | .finite negative b =>
    if b = 0 then text = "0"
    else ∃ d, Decimal.IsShortest b d ∧
      text = signed negative (String.ofList (standardDigits d.digits d.point))

/-- An integer below `10 ^ 21`, apart from its sign, whose digits are not the shortest: a decimal
number with fewer digits reads as the same double. -/
def LongInteger (x : Float) : Prop :=
  ∃ negative b n, shape x = .finite negative b ∧ patternValue b = (n : ℕ) ∧ n < 10 ^ 21 ∧
    ∃ d : Decimal, d.nearestBits = b ∧ d.digits.length < (Decimal.trim ⟨n, 0⟩).digits.length

/-- The standard text of a positive double has the digits that the search gives. -/
theorem standardText_iff {x : Float} {negative : Bool} {b : ℕ}
    (hx : shape x = .finite negative b) (h₀ : 0 < b) {text : String} :
    StandardText x text ↔
      text = signed negative (displayLayout.write (Decimal.shortest b)) := by
  have hb := lt_infinityBits_of_shape hx
  have hshortest := Decimal.isShortest_shortest h₀ hb
  rw [StandardText, hx]
  dsimp only
  rw [if_neg h₀.ne', write_displayLayout]
  refine ⟨?_, fun h => ⟨_, hshortest, h⟩⟩
  rintro ⟨d, hd, rfl⟩
  rw [hd.unique h₀ hshortest]

/-- Every number has one standard text. -/
theorem exists_unique_standardText (x : Float) : ∃! text, StandardText x text := by
  cases hx : shape x with
  | nan => exact ⟨"NaN", by simp [StandardText, hx], by simp [StandardText, hx]⟩
  | infinite negative =>
    exact ⟨signed negative "Infinity", by simp [StandardText, hx], by simp [StandardText, hx]⟩
  | finite negative b =>
    rcases Nat.eq_zero_or_pos b with rfl | h₀
    · exact ⟨"0", by simp [StandardText, hx], by simp [StandardText, hx]⟩
    · refine ⟨_, (standardText_iff hx h₀).2 rfl, fun text h => ?_⟩
      exact (standardText_iff hx h₀).1 h

/-! ## Integers -/

/-- Zeros behind the digits of a number are the digits of its multiple by a power of ten. -/
theorem toDigits_mul_pow {n : ℕ} (hn : 0 < n) (k : ℕ) :
    Nat.toDigits 10 (n * 10 ^ k) = Nat.toDigits 10 n ++ List.replicate k '0' := by
  induction k with
  | zero => simp
  | succ k ih =>
    have hpos : 0 < n * 10 ^ k := Nat.mul_pos hn (Nat.pow_pos (by decide))
    rw [pow_succ, ← mul_assoc, Nat.toDigits_of_base_le (by decide) (by omega),
      Nat.mul_div_left _ (by decide), Nat.mul_mod_left, ih, List.replicate_succ', List.append_assoc]
    rfl

/-- An integer below the bound is laid out with all its digits. -/
theorem write_trim {n : ℕ} (hpos : 0 < n) (hn : n < 10 ^ 21) :
    displayLayout.write (Decimal.trim ⟨n, 0⟩) = String.ofList (Nat.toDigits 10 n) := by
  obtain ⟨k, hcoefficient, hexponent⟩ := Decimal.exists_trimBy (Decimal.digits ⟨n, 0⟩).length ⟨n, 0⟩
  change n = (Decimal.trim ⟨n, 0⟩).coefficient * 10 ^ k at hcoefficient
  change (Decimal.trim ⟨n, 0⟩).exponent = 0 + (k : ℤ) at hexponent
  have hmod := Decimal.trim_mod_ne (d := ⟨n, 0⟩) hpos
  have hdigits : Nat.toDigits 10 n =
      (Decimal.trim ⟨n, 0⟩).digits ++ List.replicate k '0' := by
    rw [Decimal.digits, ← toDigits_mul_pow (by omega), ← hcoefficient]
  have hlength := (Nat.length_toDigits_le_iff (b := 10) (by decide) (by decide : 0 < 21)).2 hn
  rw [hdigits, List.length_append, List.length_replicate] at hlength
  have hpoint : (Decimal.trim ⟨n, 0⟩).point = (Decimal.trim ⟨n, 0⟩).digits.length + k := by
    rw [Decimal.point, hexponent, zero_add]
  rw [write_displayLayout, hdigits, standardDigits, hpoint, if_pos (by omega)]
  simp

/-! ## Safe integers -/

/-- The pattern of a positive integer is not that of zero. -/
theorem pos_of_patternValue {b n : ℕ} (hn : 0 < n) (h : patternValue b = n) : 0 < b := by
  rw [← patternValue_strictMono.lt_iff_lt, patternValue_zero, h]
  exact_mod_cast hn

/-- Doubles below `2 ^ 53` are at most one apart. -/
theorem patternGap_le_one {b : ℕ} (h : patternValue b < 2 ^ 53) : patternGap b ≤ 1 := by
  obtain ⟨k, r, rfl, hr, hk, hexponent⟩ := exists_grid b
  rw [patternValue_add hr.le hk] at h
  rw [patternGap, hexponent]
  refine zpow_le_one_of_nonpos₀ one_le_two ?_
  rcases hk with rfl | hk
  · decide
  · by_contra hpos
    have hunit : (2 : ℚ) ^ (1 : ℤ) ≤ 2 ^ ((k : ℤ) - 1074) :=
      zpow_le_zpow_right₀ one_le_two (by omega)
    have hsignificand : (2 : ℚ) ^ 52 ≤ r := by
      rw [← cast_gridSize]
      exact_mod_cast hk
    nlinarith

/-- Below `2 ^ 53`, only the integer itself reads as the double that it is. -/
theorem eq_of_reads_safe {b n m : ℕ} (h₀ : 0 < b) (hb : b < infinityBits)
    (hvalue : patternValue b = n) (hn : n < 2 ^ 53) {d : Decimal} (hd : d.nearestBits = b)
    (hm : d.value = m) : m = n := by
  have hsafe : patternValue b < 2 ^ 53 := by
    rw [hvalue]
    exact_mod_cast hn
  have hpos := Decimal.coefficient_pos_of_nearestBits (hd.symm ▸ h₀)
  obtain ⟨a, rfl⟩ : ∃ a, b = a + 1 := ⟨b - 1, by omega⟩
  have hup := Decimal.two_mul_value_le hpos hb hd
  have hdown := Decimal.le_two_mul_value hpos hb hd
  have hgap := patternGap_le_one hsafe
  have hgap' := patternGap_le_one ((patternValue_strictMono (Nat.lt_succ_self a)).trans hsafe)
  have hsucc := patternValue_succ a
  rw [patternValue_succ (a + 1), hm] at hup
  rw [hm] at hdown
  -- twice the distance is at most one, and even
  have hle : 2 * (m : ℚ) ≤ 2 * n + 1 := by linarith
  have hge : 2 * (n : ℚ) ≤ 2 * m + 1 := by linarith
  have hle : 2 * m ≤ 2 * n + 1 := by exact_mod_cast hle
  have hge : 2 * n ≤ 2 * m + 1 := by exact_mod_cast hge
  omega

/-- An integer below `2 ^ 53` has the fewest digits that read as it. -/
theorem length_digits_le_of_safe {b n : ℕ} (hb : b < infinityBits) (hpos : 0 < n)
    (hvalue : patternValue b = n) (hn : n < 2 ^ 53) {d : Decimal} (hd : d.nearestBits = b) :
    (Decimal.trim ⟨n, 0⟩).digits.length ≤ d.digits.length := by
  have h₀ := pos_of_patternValue hpos hvalue
  have hmod := Decimal.trim_mod_ne (d := ⟨n, 0⟩) hpos
  rcases lt_or_ge d.exponent 0 with hneg | hnonneg
  · -- a power of ten with more digits would lie between the two
    by_contra hlt
    have hlength : 0 < d.digits.length := Nat.length_toDigits_pos
    have hlonger : _ ≤ (Nat.toDigits 10 n).length :=
      Decimal.length_digits_le hmod (Decimal.value_trim ⟨n, 0⟩).symm
    have hpower : Decimal.value ⟨1, d.digits.length⟩ = (10 ^ d.digits.length : ℕ) := by
      simp [Decimal.value]
    have hge : 10 ^ d.digits.length ≤ n :=
      (Nat.pow_le_pow_right (by decide) (by omega)).trans (Decimal.pow_length_toDigits hpos).1
    have hle : d.value ≤ Decimal.value ⟨1, d.digits.length⟩ := by
      have hcoefficient := Decimal.coefficient_pos_of_nearestBits (hd.symm ▸ h₀)
      refine (Decimal.pow_point_le hcoefficient).2.le.trans ?_
      rw [hpower, Nat.cast_pow, Nat.cast_ofNat, ← zpow_natCast]
      exact zpow_le_zpow_right₀ (by norm_num) (by rw [Decimal.point]; omega)
    have hreads : Decimal.nearestBits ⟨1, d.digits.length⟩ = b := by
      refine Decimal.reads_of_le hb hd hle ?_
      rw [hpower, hvalue]
      exact_mod_cast hge
    have heq := eq_of_reads_safe h₀ hb hvalue hn hreads hpower
    have := Decimal.length_trim_of_pow (d := ⟨n, 0⟩) heq.symm
    omega
  · -- an integer that reads as this one is this one
    refine Decimal.length_digits_le hmod ?_
    obtain ⟨c, e⟩ := d
    obtain ⟨k, rfl⟩ : ∃ k : ℕ, e = 0 + k := ⟨e.toNat, by dsimp only at hnonneg; omega⟩
    have hinteger : Decimal.value ⟨c, 0 + k⟩ = (c * 10 ^ k : ℕ) := by
      rw [Decimal.value_scaled, Decimal.value, zpow_zero, mul_one]
    rw [hinteger, eq_of_reads_safe h₀ hb hvalue hn hd hinteger, Decimal.value_trim, Decimal.value,
      zpow_zero, mul_one]

/-! ## The text of a number -/

/-- A text shows one number. -/
theorem Shows.unique {text : String} {v w : ℚ} (hv : Shows text v) (hw : Shows text w) : v = w := by
  obtain ⟨t, ht, rfl, -⟩ := hv
  obtain ⟨u, hu, rfl, -⟩ := hw
  rw [(hu t).1 ((ht t).2 rfl)]

/-- The text of a double that is an integer below `10 ^ 21`, apart from its sign. -/
theorem display_of_integer {x : Float} {negative : Bool} {b n : ℕ}
    (hx : shape x = .finite negative b) (h₀ : 0 < n) (hvalue : patternValue b = n)
    (hn : n < 10 ^ 21) : display x = signed negative (String.ofList (Nat.toDigits 10 n)) := by
  have hbound : n < integerBound := integerBound_eq ▸ hn
  have hsign : (negative && n != 0) = negative := by simp [h₀.ne']
  unfold display
  rw [hx]
  dsimp only
  rw [toNat?_of_patternValue hvalue]
  dsimp only
  rw [if_pos hbound, hsign]

/-- The text of any other finite double. -/
theorem display_of_not_integer {x : Float} {negative : Bool} {b : ℕ}
    (hx : shape x = .finite negative b) (h : ¬∃ n : ℕ, patternValue b = n ∧ n < 10 ^ 21) :
    display x = signed negative (displayLayout.write (Decimal.shortest b)) := by
  unfold display
  rw [hx]
  dsimp only
  split
  · next n hn =>
    have hbound : ¬n < integerBound := fun hlt =>
      h ⟨n, patternValue_of_toNat? hn, integerBound_eq ▸ hlt⟩
    rw [if_neg hbound]
  · rfl

/-- An integer whose digits are the shortest is the shortest decimal number for itself. -/
theorem isShortest_trim {b n : ℕ} (hb : b < infinityBits) (hpos : 0 < n)
    (hvalue : patternValue b = n)
    (hleast : ∀ d : Decimal, d.nearestBits = b →
      (Decimal.trim ⟨n, 0⟩).digits.length ≤ d.digits.length) :
    Decimal.IsShortest b (Decimal.trim ⟨n, 0⟩) := by
  have hexact : (Decimal.trim ⟨n, 0⟩).value = patternValue b := by
    rw [Decimal.value_trim, Decimal.value, zpow_zero, mul_one, hvalue]
  have hdistance : Decimal.distance b (Decimal.trim ⟨n, 0⟩) = 0 := by
    rw [Decimal.distance, hexact, sub_self, abs_zero]
  refine ⟨?_, hleast, fun d _ _ => hdistance ▸ abs_nonneg _, fun d _ hlength hsame hne => ?_⟩
  · exact (Decimal.nearestBits_le hb hexact.le).antisymm (Decimal.le_nearestBits hb hexact.ge)
  · -- no other number is as near
    rw [hdistance, Decimal.distance, abs_eq_zero, sub_eq_zero, ← hexact] at hsame
    exact absurd (Decimal.eq_of_value_eq_of_length (Decimal.trim_mod_ne hpos) hsame hlength) hne

/-- An integer is written in the standard way exactly if its digits are the shortest. -/
theorem standardText_integer_iff {x : Float} {negative : Bool} {b n : ℕ}
    (hx : shape x = .finite negative b) (hpos : 0 < n) (hvalue : patternValue b = n)
    (hn : n < 10 ^ 21) :
    StandardText x (display x) ↔ ∀ d : Decimal, d.nearestBits = b →
      (Decimal.trim ⟨n, 0⟩).digits.length ≤ d.digits.length := by
  have hb := lt_infinityBits_of_shape hx
  have h₀ := pos_of_patternValue hpos hvalue
  have hshortest := Decimal.isShortest_shortest h₀ hb
  have hmod := Decimal.trim_mod_ne (d := ⟨n, 0⟩) hpos
  rw [standardText_iff hx h₀, display_of_integer hx hpos hvalue hn, ← write_trim hpos hn]
  constructor
  · intro htext d hd
    -- the same text shows one number only
    have hshows := shows_write hmod negative
    rw [htext] at hshows
    have hsame := hshows.unique (shows_write (hshortest.mod_ne h₀) negative)
    have hsame : (Decimal.trim ⟨n, 0⟩).value = (Decimal.shortest b).value := by
      cases negative with
      | false => exact hsame
      | true => exact neg_injective hsame
    exact (Decimal.length_digits_le hmod hsame.symm).trans (hshortest.least d hd)
  · intro hleast
    rw [(isShortest_trim hb hpos hvalue hleast).unique h₀ hshortest]

/-- Zero is not too long. -/
theorem pos_of_shorter {n : ℕ} {d : Decimal}
    (h : d.digits.length < (Decimal.trim ⟨n, 0⟩).digits.length) : 0 < n := by
  refine Nat.pos_of_ne_zero ?_
  rintro rfl
  have hone : (Decimal.trim ⟨0, 0⟩).digits.length = 1 := by decide
  have : 0 < d.digits.length := Nat.length_toDigits_pos
  omega

/-- An integer is long exactly if fewer digits read back as the same double. -/
theorem longInteger_iff {x : Float} {negative : Bool} {b n : ℕ} (hx : shape x = .finite negative b)
    (hvalue : patternValue b = n) (hn : n < 10 ^ 21) :
    LongInteger x ↔ ∃ d : Decimal, d.nearestBits = b ∧
      d.digits.length < (Decimal.trim ⟨n, 0⟩).digits.length := by
  refine ⟨?_, fun h => ⟨negative, b, n, hx, hvalue, hn, h⟩⟩
  rintro ⟨negative', b', n', hx', hvalue', -, h⟩
  obtain ⟨-, rfl⟩ := Shape.finite.inj (hx'.symm.trans hx)
  obtain rfl : n' = n := by exact_mod_cast hvalue'.symm.trans hvalue
  exact h

/-- The text of a number is the standard one, unless the number is a long integer. -/
theorem standardText_display_iff (x : Float) : StandardText x (display x) ↔ ¬LongInteger x := by
  cases hx : shape x with
  | nan =>
    refine iff_of_true (by simp [StandardText, display, hx]) ?_
    rintro ⟨negative, b, n, h, -⟩
    cases h.symm.trans hx
  | infinite negative =>
    refine iff_of_true (by simp [StandardText, display, hx]) ?_
    rintro ⟨negative, b, n, h, -⟩
    cases h.symm.trans hx
  | finite negative b =>
    -- only integers below 10²¹ are written from their own digits, not from the shortest ones
    by_cases hinteger : ∃ n : ℕ, patternValue b = n ∧ n < 10 ^ 21
    · obtain ⟨n, hvalue, hn⟩ := hinteger
      rw [longInteger_iff hx hvalue hn]
      rcases Nat.eq_zero_or_pos n with rfl | hpos
      · obtain rfl : b = 0 := by
          rw [Nat.cast_zero, ← patternValue_zero] at hvalue
          exact patternValue_strictMono.injective hvalue
        refine iff_of_true ?_ ?_
        · rw [StandardText, hx, display_of_shape_zero hx]
          simp
        · rintro ⟨d, -, hlt⟩
          exact absurd (pos_of_shorter hlt) (lt_irrefl 0)
      · rw [standardText_integer_iff hx hpos hvalue hn]
        push Not
        rfl
    · have h₀ : 0 < b := by
        refine Nat.pos_of_ne_zero ?_
        rintro rfl
        exact hinteger ⟨0, by simpa using patternValue_zero, by positivity⟩
      refine iff_of_true ?_ ?_
      · rw [standardText_iff hx h₀, display_of_not_integer hx hinteger]
      · rintro ⟨negative', b', n, hx', hvalue, hn, -⟩
        obtain ⟨-, rfl⟩ := Shape.finite.inj (hx'.symm.trans hx)
        exact hinteger ⟨n, hvalue, hn⟩

/-- Every number has one standard text, and its text is the standard one unless it is a long
integer. A long integer is not below `2 ^ 53`, and it is written with all its digits. -/
theorem display_standard_unless_long (x : Float) :
    (∃! text, StandardText x text) ∧
    (StandardText x (display x) ↔ ¬LongInteger x) ∧
    (LongInteger x → ∃ negative b n, shape x = .finite negative b ∧ patternValue b = (n : ℕ) ∧
      2 ^ 53 ≤ n ∧ n < 10 ^ 21 ∧
      display x = signed negative (String.ofList (Nat.toDigits 10 n))) := by
  refine ⟨exists_unique_standardText x, standardText_display_iff x, ?_⟩
  rintro ⟨negative, b, n, hx, hvalue, hn, d, hd, hlt⟩
  have hb := lt_infinityBits_of_shape hx
  have hpos := pos_of_shorter hlt
  refine ⟨negative, b, n, hx, hvalue, ?_, hn, display_of_integer hx hpos hvalue hn⟩
  by_contra hsafe
  exact hlt.not_ge (length_digits_le_of_safe hb hpos hvalue (not_le.1 hsafe) hd)

/-- `2 ^ 69` is a long integer, and its text is not the standard one. `123456789` is none, being too
small, and its text is. -/
theorem display_standard_unless_long_power :
    (LongInteger 590295810358705651712 ∧
      ¬StandardText 590295810358705651712 (display 590295810358705651712)) ∧
    ¬LongInteger 123456789 ∧ StandardText 123456789 "123456789" := by
  have hlong : LongInteger 590295810358705651712 :=
    ⟨false, 0x4440000000000000, 590295810358705651712, by decide +kernel,
      patternValue_of_toNat? (by decide +kernel), by norm_num, ⟨5902958103587057, 5⟩,
      by decide +kernel, by decide +kernel⟩
  have hshort : ¬LongInteger 123456789 := by
    intro h
    obtain ⟨negative, b, n, hx, hvalue, hn, -⟩ := (display_standard_unless_long 123456789).2.2 h
    have hx' : shape 123456789 = .finite false 0x419d6f3454000000 := by decide +kernel
    obtain ⟨-, rfl⟩ := Shape.finite.inj (hx'.symm.trans hx)
    have hvalue' : patternValue 0x419d6f3454000000 = (123456789 : ℕ) :=
      patternValue_of_toNat? (by decide +kernel)
    have : n = 123456789 := by exact_mod_cast hvalue.symm.trans hvalue'
    omega
  have hdisplay : display 123456789 = "123456789" := by decide +kernel
  refine ⟨⟨hlong, fun h => ?_⟩, hshort, ?_⟩
  · exact (display_standard_unless_long 590295810358705651712).2.1.1 h hlong
  · exact hdisplay ▸ (display_standard_unless_long 123456789).2.1.2 hshort

/-- The standard text of `2 ^ 69` has its shortest digits and zeros behind them, and that is not the
text that is written. -/
theorem display_long_integer_nonstandard :
    StandardText 590295810358705651712 "590295810358705700000" ∧
      display 590295810358705651712 = "590295810358705651712" ∧
      ¬StandardText 590295810358705651712 (display 590295810358705651712) := by
  have hx : shape 590295810358705651712 = .finite false 0x4440000000000000 := by decide +kernel
  have hstandard := @standardText_iff _ _ _ hx (by decide)
  have hwrite : displayLayout.write (Decimal.shortest 0x4440000000000000) =
    "590295810358705700000" := by decide +kernel
  have hdisplay : display 590295810358705651712 = "590295810358705651712" := by decide +kernel
  refine ⟨hstandard.2 (by rw [hwrite]; rfl), hdisplay, fun h => ?_⟩
  rw [hstandard, hdisplay, hwrite] at h
  exact absurd h (by decide)

end Number

end CallByNeed
