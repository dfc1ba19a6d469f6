import Formula.Number.Decimal
import Formula.Proofs.Number.Bits

/-! Quotients that are numbers themselves. Main statement: the nearest number to a quotient that a
number is equal to is this number. -/
namespace Formula.Number

theorem scale_pos (num : Nat) {den : Nat} (hden : 0 < den) (exponent : Int) :
    0 < (scale num den exponent).2 := by
  unfold scale
  split
  · exact hden
  · have hpow : 0 < 2 ^ exponent.natAbs := Nat.two_pow_pos _
    rw [Nat.shiftLeft_eq]
    exact Nat.mul_pos hden hpow

theorem scale_value (num : Nat) {den : Nat} (hden : 0 < den) (exponent : Int) :
    ((scale num den exponent).1 : ℚ) / (scale num den exponent).2 =
      num / den * 2 ^ (-exponent) := by
  have hne : (den : ℚ) ≠ 0 := by positivity
  unfold scale
  split
  · have habs : -exponent = (exponent.natAbs : Int) := by omega
    rw [habs, zpow_natCast, Nat.shiftLeft_eq]
    push_cast
    ring
  · have habs : exponent = (exponent.natAbs : Int) := by omega
    rw [zpow_neg, habs, zpow_natCast, Nat.shiftLeft_eq, Int.natAbs_natCast]
    push_cast
    field_simp

/-- A natural lies between the power of two of its logarithm and the next. -/
theorem log2_bounds {n : Nat} (h : 0 < n) :
    (2 : ℚ) ^ (n.log2 : Int) ≤ n ∧ (n : ℚ) < 2 ^ (n.log2 + 1 : Int) := by
  have hlow : 2 ^ n.log2 ≤ n := Nat.log2_self_le (by omega)
  have hhigh : n < 2 ^ (n.log2 + 1) := Nat.lt_log2_self
  constructor
  · rw [zpow_natCast]
    exact_mod_cast hlow
  · exact_mod_cast hhigh

/-- The guess at the exponent is right or one too small. -/
theorem guess_bounds {num den : Nat} (hnum : 0 < num) (hden : 0 < den) :
    (2 : ℚ) ^ (52 : Int) < num / den * 2 ^ (-(num.log2 - den.log2 - 53 : Int)) ∧
      (num : ℚ) / den * 2 ^ (-(num.log2 - den.log2 - 53 : Int)) < 2 ^ (54 : Int) := by
  obtain ⟨hnlow, hnhigh⟩ := log2_bounds hnum
  obtain ⟨hdlow, hdhigh⟩ := log2_bounds hden
  have hpos : (0 : ℚ) < den := by positivity
  have hscale : (0 : ℚ) < 2 ^ (-(num.log2 - den.log2 - 53 : Int)) := by positivity
  rw [div_mul_eq_mul_div, lt_div_iff₀ hpos, div_lt_iff₀ hpos]
  constructor
  · calc (2 : ℚ) ^ (52 : Int) * den < 2 ^ (52 : Int) * 2 ^ (den.log2 + 1 : Int) := by gcongr
      _ = 2 ^ (num.log2 : Int) * 2 ^ (-(num.log2 - den.log2 - 53 : Int)) := by
        rw [← zpow_add₀ (by norm_num), ← zpow_add₀ (by norm_num)]
        congr 1
        ring
      _ ≤ num * 2 ^ (-(num.log2 - den.log2 - 53 : Int)) := by gcongr
  · calc (num : ℚ) * 2 ^ (-(num.log2 - den.log2 - 53 : Int))
        < 2 ^ (num.log2 + 1 : Int) * 2 ^ (-(num.log2 - den.log2 - 53 : Int)) := by gcongr
      _ = 2 ^ (54 : Int) * 2 ^ (den.log2 : Int) := by
        rw [← zpow_add₀ (by norm_num), ← zpow_add₀ (by norm_num)]
        congr 1
        ring
      _ ≤ 2 ^ (54 : Int) * den := by gcongr

/-- With the exponent that is chosen a quotient lies in the range of mantissas of 53 bits. -/
theorem chosen_bounds {num den : Nat} (hnum : 0 < num) (hden : 0 < den) :
    ∃ exponent : Int, exponentFor num den = max (-1074) exponent ∧
      (2 : ℚ) ^ (52 : Int) ≤ num / den * 2 ^ (-exponent) ∧
      (num : ℚ) / den * 2 ^ (-exponent) < 2 ^ (53 : Int) := by
  obtain ⟨hlow, hhigh⟩ := guess_bounds hnum hden
  let guess : Int := num.log2 - den.log2 - 53
  let scaled := scale num den guess
  have hscaled : (scaled.1 : ℚ) / scaled.2 = num / den * 2 ^ (-guess) := scale_value num hden guess
  have hpos : 0 < scaled.2 := scale_pos num hden guess
  have hfloor : 2 * unit ≤ scaled.1 / scaled.2 ↔
      (2 : ℚ) ^ (53 : Int) ≤ num / den * 2 ^ (-guess) := by
    have hunit : (2 : ℚ) ^ (53 : Int) = ((2 * unit : Nat) : ℚ) := by norm_num [unit]
    rw [Nat.le_div_iff_mul_le hpos, ← hscaled, le_div_iff₀ (by positivity), hunit]
    exact_mod_cast Iff.rfl
  by_cases h : 2 * unit ≤ scaled.1 / scaled.2
  · have hhalf : (num : ℚ) / den * 2 ^ (-(guess + 1)) = num / den * 2 ^ (-guess) / 2 := by
      rw [neg_add, zpow_add₀ (by norm_num)]
      norm_num
      ring
    have hle := hfloor.1 h
    refine ⟨guess + 1, ?_, ?_, ?_⟩
    · unfold exponentFor
      dsimp only
      rw [if_pos h]
    · rw [hhalf]
      norm_num at hle ⊢
      linarith
    · rw [hhalf]
      change (num : ℚ) / den * 2 ^ (-guess) < 2 ^ (54 : Int) at hhigh
      norm_num at hhigh ⊢
      linarith
  · refine ⟨guess, ?_, le_of_lt hlow, ?_⟩
    · unfold exponentFor
      dsimp only
      rw [if_neg h]
    · exact lt_of_not_ge fun hle => h (hfloor.2 hle)

theorem exponentFor_eq {num den mantissa : Nat} {exponent : Int} (hden : 0 < den)
    (hm : 0 < mantissa) (h : (Shape.finite false mantissa exponent).Canonical)
    (hq : (num : ℚ) / den = mantissa * 2 ^ exponent) : exponentFor num den = exponent := by
  obtain ⟨hsmall, hleast, _, hnormal⟩ := h
  have hnum : 0 < num := by
    have hpos : (0 : ℚ) < num / den := by
      rw [hq]
      positivity
    rcases Nat.eq_zero_or_pos num with rfl | hnum
    · simp at hpos
    · exact hnum
  obtain ⟨chosen, hchosen, hlow, hhigh⟩ := chosen_bounds hnum hden
  have hvalue : (num : ℚ) / den * 2 ^ (-chosen) = mantissa * 2 ^ (exponent - chosen) := by
    rw [hq, mul_assoc, ← zpow_add₀ (by norm_num), sub_eq_add_neg]
  rw [hvalue] at hlow hhigh
  rw [hchosen]
  have hbits : mantissa < 9007199254740992 := hsmall
  have hsmall' : (mantissa : ℚ) < 9007199254740992 := by exact_mod_cast hbits
  have hpositive : (0 : ℚ) < mantissa := by positivity
  -- A larger exponent would leave too small a mantissa.
  have hle : chosen ≤ exponent := by
    by_contra hlt
    have hhalf : (2 : ℚ) ^ (exponent - chosen) ≤ 2 ^ (-1 : Int) :=
      zpow_le_zpow_right₀ (by norm_num) (by omega)
    have hbound : (mantissa : ℚ) * 2 ^ (exponent - chosen) ≤ mantissa * 2 ^ (-1 : Int) := by gcongr
    norm_num at hbound hlow
    linarith
  rcases hnormal with hunit | rfl
  · have hge : exponent ≤ chosen := by
      by_contra hlt
      have hdouble : (2 : ℚ) ^ (1 : Int) ≤ 2 ^ (exponent - chosen) :=
        zpow_le_zpow_right₀ (by norm_num) (by omega)
      have hbound : (mantissa : ℚ) * 2 ^ (1 : Int) ≤ mantissa * 2 ^ (exponent - chosen) := by gcongr
      have hbits : 4503599627370496 ≤ mantissa := hunit
      have hlarge : (4503599627370496 : ℚ) ≤ mantissa := by exact_mod_cast hbits
      norm_num at hbound hhigh
      linarith
    omega
  · omega

theorem roundEven_exact {num den mantissa : Nat} (hden : 0 < den) (h : num = mantissa * den) :
    roundEven num den = mantissa := by
  unfold roundEven
  dsimp only
  rw [h, Nat.mul_div_cancel _ hden, Nat.mul_mod_left, if_pos (by omega)]

/-- Packing makes the number of a shape. -/
theorem shape_packed {mantissa : Nat} {exponent : Int}
    (h : (Shape.finite false mantissa exponent).Canonical) :
    shape (pack mantissa exponent) = .finite false mantissa exponent := by
  obtain ⟨hsmall, hleast, hmost, hnormal⟩ := h
  have hunit : unit = 4503599627370496 := rfl
  have hbits : (Shape.finite false mantissa exponent).bits =
      (exponent + 1074).toNat * unit + mantissa := by
    rw [Shape.bits, Bool.toNat_false, Nat.zero_mul, Nat.zero_add]
  have hpattern : (UInt64.ofNat
      (min ((exponent + 1074).toNat * unit + mantissa) (2047 * unit))).toNat =
      (Shape.finite false mantissa exponent).bits := by
    rw [UInt64.toNat_ofNat', hbits, hunit]
    omega
  have hshape := Shape.ofBits_bits (s := .finite false mantissa exponent)
    ⟨hsmall, hleast, hmost, hnormal⟩
  unfold pack
  rw [shape_ofBits (by rw [hpattern, hshape]; exact fun h => by cases h), hpattern, hshape]

/-- A quotient that is a number is rounded to it. -/
theorem ofRatio_exact {x : Float} {num den mantissa : Nat} {exponent : Int}
    (hx : shape x = .finite false mantissa exponent) (hden : 0 < den)
    (hq : (num : ℚ) / den = mantissa * 2 ^ exponent) : ofRatio num den = x := by
  have hcanonical := canonical_shape x
  rw [hx] at hcanonical
  have hne : (den : ℚ) ≠ 0 := by positivity
  have hpow : (2 : ℚ) ^ exponent ≠ 0 := by positivity
  unfold ofRatio
  by_cases hnum : num = 0
  · subst hnum
    have hzero : (mantissa : ℚ) * 2 ^ exponent = 0 := by
      rw [← hq]
      simp
    obtain rfl : mantissa = 0 := by simpa [hpow] using hzero
    obtain ⟨_, _, _, hnormal⟩ := hcanonical
    obtain rfl : exponent = -1074 := hnormal.resolve_left (by decide)
    rw [if_pos rfl]
    apply eq_of_shape_eq
    rw [hx]
    decide
  · have hm : 0 < mantissa := by
      rcases Nat.eq_zero_or_pos mantissa with rfl | hm
      · have hzero : (num : ℚ) / den = 0 := by simpa using hq
        simp [hne, hnum] at hzero
      · exact hm
    have hexponent := exponentFor_eq hden hm hcanonical hq
    have hpos := scale_pos num hden exponent
    have hvalue := scale_value num hden exponent
    rw [hq, mul_assoc, ← zpow_add₀ (by norm_num), add_neg_cancel, zpow_zero, mul_one] at hvalue
    have hround : roundEven (scale num den exponent).1 (scale num den exponent).2 = mantissa := by
      apply roundEven_exact hpos
      rw [div_eq_iff (by positivity)] at hvalue
      exact_mod_cast hvalue
    rw [if_neg hnum]
    dsimp only
    rw [hexponent, hround]
    apply eq_of_shape_eq
    rw [shape_packed hcanonical, hx]

end Formula.Number
