import CallByNeed.Proofs.ShortestDecimal
import Mathlib

/-!
# The order of the doubles

Doubles are compared by sign, exponent and significand. For those without a sign this is the order
of their bit patterns, so that a condition on the size of a number is a condition on its pattern
(`lt_iff_of_shape`, `le_iff_of_shape`).

A number that is not below zero is infinite, has a pattern without sign, or is the zero with a sign
(`shape_of_nonneg`), and every pattern without sign up to infinity is the pattern of such a number
(`shape_ofSignBits`, `nonneg_ofSignBits`).
-/

namespace CallByNeed.Binary64

open Float.Model Float.Model.UnpackedFloat

/-! ## The parts of a bit pattern -/

/-- The sign of a number. -/
def signOf (negative : Bool) : Sign :=
  if negative then .negative else .positive

/-- The exponent is what stands between the sign and the significand. -/
theorem toNat_unpackExponent (w : UInt64) :
    (@unpackExponent .binary64 w.toBitVec).toNat =
      w.toNat % signWeight / gridSize := by
  rw [unpackExponent_def, BitVec.extractLsb'_toNat, Nat.shiftRight_eq_div_pow]
  change w.toNat / 2 ^ 52 % 2 ^ 11 = _
  unfold signWeight gridSize
  omega

/-- The significand is what stands in the last 52 bits. -/
theorem toNat_unpackMantissa (w : UInt64) :
    (@unpackMantissa .binary64 w.toBitVec).toNat =
      w.toNat % signWeight % gridSize := by
  rw [unpackMantissa_def, BitVec.extractLsb'_toNat, Nat.shiftRight_eq_div_pow]
  change w.toNat / 2 ^ 0 % 2 ^ 52 = _
  unfold signWeight gridSize
  omega

/-- The sign is the first bit. -/
theorem ofBitVec_unpackSign (w : UInt64) :
    Sign.ofBitVec (@unpackSign .binary64 w.toBitVec) =
      signOf (decide (signWeight ≤ w.toNat)) := by
  have hbound := w.toNat_lt
  have hsign : (@unpackSign .binary64 w.toBitVec).toNat = w.toNat / signWeight := by
    rw [unpackSign_def, BitVec.extractLsb'_toNat, Nat.shiftRight_eq_div_pow]
    change w.toNat / 2 ^ 63 % 2 ^ 1 = _
    unfold signWeight
    omega
  have hzero : @unpackSign .binary64 w.toBitVec = 0#1 ↔ w.toNat < signWeight := by
    rw [← BitVec.toNat_inj, hsign, BitVec.toNat_ofNat, Nat.zero_mod]
    exact Nat.div_eq_zero_iff_lt (by decide)
  by_cases h : w.toNat < signWeight
  · rw [hzero.2 h, decide_eq_false (Nat.not_le.2 h)]
    rfl
  · rw [Sign.ofBitVec, if_neg (mt hzero.1 h), decide_eq_true (Nat.not_lt.1 h)]
    rfl

/-- What the parts of a double of each kind are. -/
inductive Unpacks : Shape → UnpackedFloat → Prop where
  | nan : Unpacks .nan .notANumber
  | infinite (negative : Bool) : Unpacks (.infinite negative) (.infinity (signOf negative))
  | zero (negative : Bool) : Unpacks (.finite negative 0) (.zero (signOf negative))
  | finite (negative : Bool) (b : ℕ) (h : 0 < (Magnitude.ofBits b).significand) :
    Unpacks (.finite negative b)
      (.finite (signOf negative) (Magnitude.ofBits b).significand (Magnitude.ofBits b).exponent h)

/-- A finite pattern is unpacked into its significand and exponent. -/
theorem Unpacks.of_ofBits {negative : Bool} {b m : ℕ} {e : ℤ} (hm : 0 < m)
    (h : Magnitude.ofBits b = ⟨m, e⟩) :
    Unpacks (.finite negative b) (.finite (signOf negative) m e hm) := by
  have hfinite := Unpacks.finite negative b (by rwa [h])
  simpa only [h] using hfinite

/-- A finite double is unpacked to its sign, significand and exponent. -/
theorem unpacks (x : Float) : Unpacks (shape x) x.toModel.unpack := by
  have hexp := toNat_unpackExponent x.toBits
  have hman := toNat_unpackMantissa x.toBits
  have hlt : x.toBits.toNat % signWeight < signWeight := Nat.mod_lt _ (by decide)
  change Unpacks _ (UnpackedFloat.unpack .binary64 x.toBits.toBitVec)
  unfold shape UnpackedFloat.unpack
  dsimp only
  rw [ofBitVec_unpackSign]
  generalize decide (signWeight ≤ x.toBits.toNat) = negative
  generalize x.toBits.toNat % signWeight = b at *
  have hones : @unpackExponent .binary64 x.toBits.toBitVec = -1#11 ↔ b / gridSize = 2047 := by
    rw [← BitVec.toNat_inj, hexp]
    rfl
  have hzeros : @unpackExponent .binary64 x.toBits.toBitVec = 0#11 ↔ b / gridSize = 0 := by
    rw [← BitVec.toNat_inj, hexp]
    rfl
  have hnone : @unpackMantissa .binary64 x.toBits.toBitVec = 0#52 ↔ b % gridSize = 0 := by
    rw [← BitVec.toNat_inj, hman]
    rfl
  have hbias : (Format.binary64.exponentBias : ℤ) = 1023 := rfl
  have hsize : infinityBits = 2047 * gridSize := rfl
  have hweight : signWeight = 2048 * gridSize := rfl
  have hpos := gridSize_pos
  have hsplit := Nat.div_add_mod b gridSize
  have hrest := Nat.mod_lt b gridSize_pos
  -- all ones in the exponent stand for infinity and what is no number, all zeros for zero and the
  -- numbers of the first grid
  by_cases hE : b / gridSize = 2047
  · rw [hE] at hsplit
    rw [if_neg (by omega), if_pos (hones.2 hE)]
    by_cases hM : b % gridSize = 0
    · rw [if_pos (by omega), if_pos (hnone.2 hM)]
      exact .infinite negative
    · rw [if_neg (by omega), if_neg (mt hnone.1 hM)]
      exact .nan
  · have hstored : b / gridSize < 2047 := by
      have := (Nat.div_lt_iff_lt_mul hpos).2 (hweight ▸ hlt)
      omega
    rw [if_pos (hsize ▸ (Nat.div_lt_iff_lt_mul hpos).1 hstored), if_neg (mt hones.1 hE)]
    by_cases hE₀ : b / gridSize = 0
    · rw [hE₀, mul_zero, zero_add] at hsplit
      rw [if_pos (hzeros.2 hE₀)]
      by_cases hM : b % gridSize = 0
      · rw [dif_pos (hnone.2 hM), ← hsplit, hM]
        exact .zero negative
      · rw [dif_neg (mt hnone.1 hM)]
        refine .of_ofBits _ ?_
        rw [ofBits_of_lt (by omega), hman, hsplit, hexp, hE₀, hbias]
        rfl
    · rw [if_neg (mt hzeros.1 hE₀)]
      refine .of_ofBits _ ?_
      -- the leading bit is not stored, and is put before the others
      have happend := Nat.shiftLeft_add_eq_or_of_lt (i := 52) hrest 1
      rw [BitVec.toNat_append, hman, hexp, hbias]
      unfold Magnitude.ofBits
      rw [if_neg hE₀]
      congr 1

/-! ## The order -/

/-- The order of patterns is that of exponents first and significands then. -/
theorem ofBits_lt {b c : ℕ} (h : b < c) :
    (Magnitude.ofBits b).exponent < (Magnitude.ofBits c).exponent ∨
      (Magnitude.ofBits b).exponent = (Magnitude.ofBits c).exponent ∧
        (Magnitude.ofBits b).significand < (Magnitude.ofBits c).significand := by
  unfold Magnitude.ofBits gridSize
  dsimp only
  split <;> split <;> dsimp only <;> omega

/-- Comparing exponents first and then significands is comparing patterns. -/
theorem compare_ofBits (b c : ℕ) :
    (compare (Magnitude.ofBits b).exponent (Magnitude.ofBits c).exponent).then
      (compare (Magnitude.ofBits b).significand (Magnitude.ofBits c).significand) =
        compare b c := by
  rcases Nat.lt_trichotomy b c with h | rfl | h
  · rw [Nat.compare_eq_lt.2 h, Ordering.then_eq_lt, compare_lt_iff_lt, compare_lt_iff_lt,
      compare_eq_iff_eq]
    exact ofBits_lt h
  · simp
  · rw [Nat.compare_eq_gt.2 h, Ordering.then_eq_gt, compare_gt_iff_gt, compare_gt_iff_gt,
      compare_eq_iff_eq]
    exact (ofBits_lt h).imp_right fun h => ⟨h.1.symm, h.2⟩

/-- The pattern of zero has no significand. -/
theorem significand_zero : (Magnitude.ofBits 0).significand = 0 :=
  rfl

/-- Doubles without sign are compared by their patterns. -/
theorem compare_of_shape {x y : Float} {b c : ℕ} (hx : shape x = .finite false b)
    (hy : shape y = .finite false c) :
    x.toModel.unpack.compare y.toModel.unpack = some (compare b c) := by
  have hux := unpacks x
  have huy := unpacks y
  rw [hx] at hux
  rw [hy] at huy
  generalize x.toModel.unpack = u at *
  generalize y.toModel.unpack = v at *
  have hpos : ∀ {b : ℕ}, 0 < (Magnitude.ofBits b).significand → 0 < b := fun h =>
    Nat.pos_of_ne_zero fun hzero => by rw [hzero, significand_zero] at h; omega
  cases hux with
  | zero =>
    cases huy with
    | zero => rfl
    | finite _ _ h => exact congrArg some (Nat.compare_eq_lt.2 (hpos h)).symm
  | finite _ _ h =>
    cases huy with
    | zero => exact congrArg some (Nat.compare_eq_gt.2 (hpos h)).symm
    | finite _ _ h' => exact congrArg some (compare_ofBits b c)

/-- Doubles without sign are in the order of their patterns. -/
theorem le_iff_of_shape {x y : Float} {b c : ℕ} (hx : shape x = .finite false b)
    (hy : shape y = .finite false c) : x ≤ y ↔ b ≤ c := by
  change decide ((x.toModel.unpack.compare y.toModel.unpack).any (·.isLE) = true) = true ↔ _
  rw [compare_of_shape hx hy, decide_eq_true_eq, Option.any_some, Nat.isLE_compare]

/-- Positive doubles are ordered as their patterns are. -/
theorem lt_iff_of_shape {x y : Float} {b c : ℕ} (hx : shape x = .finite false b)
    (hy : shape y = .finite false c) : x < y ↔ b < c := by
  change decide ((x.toModel.unpack.compare y.toModel.unpack == some .lt) = true) = true ↔ _
  rw [compare_of_shape hx hy, decide_eq_true_eq, beq_iff_eq, Option.some_inj, Nat.compare_eq_lt]

/-! ## Numbers and their kinds -/

/-- The bit pattern of a number, by its kind. -/
theorem toNat_toBits_of_shape {x : Float} (h : shape x ≠ .nan) :
    ∃ negative b, (shape x = .finite negative b ∨ b = infinityBits ∧ shape x = .infinite negative) ∧
      x.toBits.toNat = b + if negative then signWeight else 0 := by
  have hlt := x.toBits.toNat_lt
  refine ⟨decide (signWeight ≤ x.toBits.toNat), x.toBits.toNat % signWeight, ?_, ?_⟩
  · unfold shape at h ⊢
    dsimp only at h ⊢
    split at h
    · next hfinite => exact .inl (if_pos hfinite)
    · next hfinite =>
      split at h
      · next hinf => exact .inr ⟨hinf, by rw [if_neg hfinite, if_pos hinf]⟩
      · exact absurd rfl h
  · unfold signWeight
    simp only [decide_eq_true_eq]
    split <;> omega

/-- Numbers of the same kind are the same. -/
theorem eq_of_shape {x y : Float} (hxy : shape x = shape y) (h : shape x ≠ .nan) : x = y := by
  obtain ⟨n, b, hx, hxb⟩ := toNat_toBits_of_shape h
  obtain ⟨m, c, hy, hyc⟩ := toNat_toBits_of_shape (hxy ▸ h)
  have hsame : n = m ∧ b = c := by
    rw [hxy] at hx
    grind
  obtain ⟨rfl, rfl⟩ := hsame
  rw [← Float.ofBits_toBits x, ← Float.ofBits_toBits y, UInt64.toNat_inj.1 (hxb.trans hyc.symm)]

/-- What is a number is not unpacked to something else. -/
theorem unpack_ne_notANumber {x : Float} (h : shape x ≠ .nan) :
    x.toModel.unpack ≠ .notANumber := by
  intro hnan
  have hx := unpacks x
  rw [hnan] at hx
  generalize shape x = s at *
  cases hx
  exact h rfl

/-- A number equals itself. -/
theorem beq_self_of_shape {x : Float} (h : shape x ≠ .nan) : (x == x) = true :=
  (beq_iff_ne_notANumber_and_eq _ _).2 ⟨unpack_ne_notANumber h, unpack_ne_notANumber h, .inl rfl⟩

/-- Only numbers equal themselves. -/
theorem beq_self_iff {x : Float} : (x == x) = true ↔ shape x ≠ .nan := by
  refine ⟨fun heq hnan => ?_, beq_self_of_shape⟩
  have hx := unpacks x
  rw [hnan] at hx
  refine ((beq_iff_ne_notANumber_and_eq _ _).1 heq).1 ?_
  generalize x.toModel.unpack = u at *
  cases hx
  rfl

/-- Zero has the first pattern. -/
theorem shape_zero : shape 0 = .finite false 0 := by
  decide +kernel

/-- A zero is unpacked to a zero. -/
theorem unpack_of_shape_zero {x : Float} {negative : Bool} (h : shape x = .finite negative 0) :
    x.toModel.unpack = .zero (signOf negative) := by
  have hx := unpacks x
  rw [h] at hx
  generalize x.toModel.unpack = u at *
  cases hx with
  | zero => rfl
  | finite _ _ h => exact absurd h (by decide)

/-- The zeros are the numbers that equal zero. -/
theorem beq_zero_iff {x : Float} : (x == 0) = true ↔ ∃ negative, shape x = .finite negative 0 := by
  have hzero : (0 : Float).toModel.unpack = .zero .positive := unpack_of_shape_zero shape_zero
  have hx := unpacks x
  have hiff : (x == 0) = true ↔ x.toModel.unpack = .zero .positive ∨
      x.toModel.unpack = .zero .negative := by
    refine (beq_iff_ne_notANumber_and_eq _ _).trans ?_
    rw [hzero]
    grind
  rw [hiff]
  generalize x.toModel.unpack = u at *
  generalize shape x = s at *
  cases hx with
  | nan => simp
  | infinite => simp
  | zero negative => cases negative <;> simp [signOf]
  | finite negative b h =>
    have hb : b ≠ 0 := fun hb => by rw [hb, significand_zero] at h; omega
    simp [hb]

/-- All zeros are equal. -/
theorem beq_of_shape_zero {x y : Float} {n m : Bool} (hx : shape x = .finite n 0)
    (hy : shape y = .finite m 0) : (x == y) = true := by
  refine (beq_iff_ne_notANumber_and_eq _ _).2 ?_
  rw [unpack_of_shape_zero hx, unpack_of_shape_zero hy]
  cases n <;> cases m <;> simp [signOf]

/-- A number that is not below zero has no sign, unless it is zero. -/
theorem shape_of_nonneg {x : Float} (h : 0 ≤ x) :
    shape x = .infinite false ∨ (∃ b, shape x = .finite false b) ∨ shape x = .finite true 0 := by
  have hzero : (0 : Float).toModel.unpack = .zero .positive := unpack_of_shape_zero shape_zero
  change decide (((0 : Float).toModel.unpack.compare x.toModel.unpack).any (·.isLE) = true) = true
    at h
  have hx := unpacks x
  rw [hzero, decide_eq_true_eq] at h
  generalize x.toModel.unpack = u at *
  generalize shape x = s at *
  cases hx with
  | nan => exact absurd h (by decide)
  | infinite negative =>
    cases negative with
    | false => exact .inl rfl
    | true => exact absurd h (by decide)
  | zero negative =>
    cases negative with
    | false => exact .inr (.inl ⟨0, rfl⟩)
    | true => exact .inr (.inr rfl)
  | finite negative b hb =>
    cases negative with
    | false => exact .inr (.inl ⟨b, rfl⟩)
    | true => exact absurd h (by simp [signOf, UnpackedFloat.compare])

/-- Infinity is not below any pattern without sign. -/
theorem not_lt_of_shape_infinite {x y : Float} {c : ℕ} (hx : shape x = .infinite false)
    (hy : shape y = .finite false c) : ¬x < y := by
  have hux := unpacks x
  have huy := unpacks y
  rw [hx] at hux
  rw [hy] at huy
  change ¬decide ((x.toModel.unpack.compare y.toModel.unpack == some .lt) = true) = true
  generalize x.toModel.unpack = u at *
  generalize y.toModel.unpack = v at *
  cases hux
  cases huy <;> simp [signOf, UnpackedFloat.compare]

/-! ## Doubles without sign -/

/-- A pattern below that of infinity is the pattern of a finite number. -/
theorem shape_ofSignBits {b : ℕ} (hb : b < infinityBits) :
    shape (ofSignBits false b) = .finite false b := by
  have hsize : b < 2 ^ 64 := hb.trans (by decide)
  have hweight : b < signWeight := hb.trans (by decide)
  have hword : (UInt64.ofNat b).toNat = b := UInt64.toNat_ofNat_of_lt' hsize
  have hnan : @isNaNBits .binary64 (UInt64.ofNat b).toBitVec = false := by
    refine decide_eq_false fun h => ?_
    have hexp := toNat_unpackExponent (UInt64.ofNat b)
    rw [h.1, hword, Nat.mod_eq_of_lt hweight] at hexp
    have hdiv : b / gridSize < 2047 := (Nat.div_lt_iff_lt_mul gridSize_pos).2 hb
    rw [← hexp] at hdiv
    exact absurd hdiv (by decide)
  -- only patterns of what is no number change when they are unpacked and packed again
  have hbits : (ofSignBits false b).toBits.toBitVec = (UInt64.ofNat b).toBitVec := by
    have hpack := @pack_unpack .binary64 (UInt64.ofNat b).toBitVec (by decide)
    rwa [hnan] at hpack
  have htoNat : (ofSignBits false b).toBits.toNat = b := by
    rw [← UInt64.toNat_toBitVec, hbits, UInt64.toNat_toBitVec, hword]
  unfold shape
  dsimp only
  rw [htoNat, Nat.mod_eq_of_lt hweight, if_pos hb, decide_eq_false (Nat.not_le.2 hweight)]

/-- A double without sign is not below zero. -/
theorem nonneg_ofSignBits {b : ℕ} (hb : b ≤ infinityBits) : 0 ≤ ofSignBits false b := by
  rcases hb.lt_or_eq with hlt | rfl
  · exact (le_iff_of_shape shape_zero (shape_ofSignBits hlt)).2 (Nat.zero_le b)
  · decide +kernel

end CallByNeed.Binary64
