import Formula.Number.Binary
import Mathlib

/-! The bits of numbers. Main statements: the shape of a number is what arithmetic sees of it, a
number has the bits that it is made of unless these are a NaN, and only one pattern is a NaN. -/
namespace Formula.Number

open Float.Model Float.Model.UnpackedFloat

/-- The format of numbers. -/
abbrev double : Format := .binary64

/-! ### Fields -/

section
variable (b : BitVec 64)

theorem toNat_unpackMantissa : (@unpackMantissa double b).toNat = b.toNat % 2 ^ 52 := by
  simp [unpackMantissa]

theorem toNat_unpackExponent : (@unpackExponent double b).toNat = b.toNat / 2 ^ 52 % 2 ^ 11 := by
  simp [unpackExponent, Nat.shiftRight_eq_div_pow]

theorem toNat_unpackSign : (@unpackSign double b).toNat = b.toNat / 2 ^ 63 := by
  have := b.isLt
  simp [unpackSign, Nat.shiftRight_eq_div_pow]
  omega

theorem toNat_packComponents (sign : Sign) (exponent : BitVec 11) (mantissa : BitVec 52) :
    (packComponents double sign exponent mantissa).toNat =
      (sign.toBitVec.toNat * 2 ^ 11 + exponent.toNat) * 2 ^ 52 + mantissa.toNat := by
  have he := exponent.isLt
  have hm := mantissa.isLt
  unfold packComponents
  rw [BitVec.toNat_append, BitVec.toNat_append, ← Nat.shiftLeft_add_eq_or_of_lt he,
    ← Nat.shiftLeft_add_eq_or_of_lt hm, Nat.shiftLeft_eq, Nat.shiftLeft_eq]

end

def sign (negative : Bool) : Sign := if negative then .negative else .positive

theorem toNat_sign (negative : Bool) : (sign negative).toBitVec.toNat = negative.toNat := by
  cases negative <;> rfl

theorem ofBitVec_unpackSign (b : BitVec 64) :
    Sign.ofBitVec (@unpackSign double b) = sign (decide (2 ^ 63 ≤ b.toNat)) := by
  have hb := b.isLt
  have hs := toNat_unpackSign b
  by_cases h : 2 ^ 63 ≤ b.toNat
  · have hone : @unpackSign double b = 1#1 := by
      apply BitVec.eq_of_toNat_eq
      rw [hs, BitVec.toNat_ofNat]
      omega
    rw [hone, decide_eq_true h]
    rfl
  · have hzero : @unpackSign double b = 0#1 := by
      apply BitVec.eq_of_toNat_eq
      rw [hs, BitVec.toNat_ofNat]
      omega
    rw [hzero, decide_eq_false h]
    rfl

/-! ### Shapes -/

namespace Shape

/-- The shape of a pattern of bits. -/
def ofBits (bits : Nat) : Shape :=
  let negative := decide (2048 * unit ≤ bits)
  let biased : Nat := bits / unit % 2048
  let fraction := bits % unit
  if biased = 2047 then
    if fraction = 0 then .infinite negative else .nan
  else if biased = 0 then .finite negative fraction (-1074)
  else .finite negative (unit + fraction) ((biased : Int) - 1075)

/-- What arithmetic works on. -/
def unpacked : Shape → UnpackedFloat
  | .nan => .notANumber
  | .infinite negative => .infinity (sign negative)
  | .finite negative mantissa exponent =>
    if h : mantissa = 0 then .zero (sign negative)
    else .finite (sign negative) mantissa exponent (Nat.pos_of_ne_zero h)

theorem unpacked_finite {negative : Bool} {mantissa m : Nat} {exponent e : Int} (h : 0 < m)
    (hm : m = mantissa) (he : e = exponent) :
    .finite (sign negative) m e h = (finite negative mantissa exponent).unpacked := by
  subst hm he
  rw [unpacked, dif_neg (Nat.pos_iff_ne_zero.1 h)]

end Shape

theorem shape_eq (x : Float) : shape x = .ofBits x.toBits.toNat := rfl

theorem unpack_eq (b : BitVec 64) :
    UnpackedFloat.unpack double b = (Shape.ofBits b.toNat).unpacked := by
  have hm := toNat_unpackMantissa b
  have he := toNat_unpackExponent b
  have hunit : unit = 2 ^ 52 := rfl
  have hbig : 2048 * unit = 2 ^ 63 := rfl
  have hmod : 2048 = 2 ^ 11 := rfl
  have hall : (@unpackExponent double b = -1#_) ↔ b.toNat / unit % 2048 = 2047 := by
    rw [← BitVec.toNat_inj, he, hunit, hmod]
    rfl
  have hzero : (@unpackExponent double b = 0#_) ↔ b.toNat / unit % 2048 = 0 := by
    rw [← BitVec.toNat_inj, he, hunit, hmod]
    rfl
  have hempty : (@unpackMantissa double b = 0#_) ↔ b.toNat % unit = 0 := by
    rw [← BitVec.toNat_inj, hm, hunit]
    rfl
  have hbias : (double.exponentBias : Int) + double.mantissaBitsWithoutImplicit = 1075 := by decide
  unfold UnpackedFloat.unpack Shape.ofBits
  simp only [hall, hzero, hempty, ofBitVec_unpackSign, hbig, hbias]
  split
  · split <;> rfl
  · split
    · rename_i hbiased
      split
      · rename_i hfraction
        rw [hfraction, Shape.unpacked, dif_pos rfl]
      · refine Shape.unpacked_finite _ (by rw [hm, hunit]) ?_
        rw [he, ← hmod, ← hunit, hbiased]
        rfl
    · refine Shape.unpacked_finite _ ?_ (by rw [he, ← hmod, ← hunit])
      rw [BitVec.toNat_append, ← Nat.shiftLeft_add_eq_or_of_lt (BitVec.isLt _), hm, hunit]
      rfl

/-! ### Patterns -/

namespace Shape

/-- A mantissa of 53 bits, or fewer at the least exponent, and no exponent that is too large. -/
def Canonical : Shape → Prop
  | .finite _ mantissa exponent =>
    mantissa < 2 * unit ∧ -1074 ≤ exponent ∧ exponent ≤ 971 ∧ (unit ≤ mantissa ∨ exponent = -1074)
  | _ => True

/-- The pattern of bits of a shape; a NaN has one pattern only. -/
def bits : Shape → Nat
  | .nan => 0x7FF8000000000000
  | .infinite negative => negative.toNat * (2048 * unit) + 2047 * unit
  | .finite negative mantissa exponent =>
    negative.toNat * (2048 * unit) + (exponent + 1074).toNat * unit + mantissa

theorem canonical_ofBits (n : Nat) : (ofBits n).Canonical := by
  have hmod : n % unit < unit := Nat.mod_lt n (by decide)
  unfold ofBits
  dsimp only
  split
  · split <;> trivial
  · split
    · exact ⟨by omega, by omega, by omega, .inr rfl⟩
    · exact ⟨by omega, by omega, by omega, .inl (by omega)⟩

theorem bits_ofBits {n : Nat} (hn : n < 4096 * unit) (h : ofBits n ≠ .nan) :
    (ofBits n).bits = n := by
  have hunit : unit = 4503599627370496 := rfl
  have hdiv : n / unit = n / 4503599627370496 := rfl
  have hmod : n % unit = n % 4503599627370496 := rfl
  have hneg : (decide (2048 * unit ≤ n)).toNat = n / 9223372036854775808 := by
    by_cases hle : 2048 * unit ≤ n
    · rw [decide_eq_true hle, Bool.toNat_true]
      omega
    · rw [decide_eq_false hle, Bool.toNat_false]
      omega
  have hsign : n / 9223372036854775808 * (2048 * unit) =
    n / 9223372036854775808 * 9223372036854775808 := rfl
  revert h
  unfold ofBits
  dsimp only
  split
  · split
    · intro _
      rw [bits, hneg, hsign]
      omega
    · exact fun h => absurd rfl h
  · split
    · intro _
      have hzero : (-1074 + 1074 : Int).toNat * unit = 0 := rfl
      rw [bits, hneg, hsign, hzero]
      omega
    · intro _
      have hexponent : ((n / unit % 2048 : Nat) - 1075 + 1074 : Int).toNat * unit =
        ((n / unit % 2048 : Nat) - 1075 + 1074 : Int).toNat * 4503599627370496 := rfl
      rw [bits, hneg, hsign, hexponent]
      omega

theorem ofBits_bits {s : Shape} (h : s.Canonical) : ofBits s.bits = s := by
  have hunit : unit = 4503599627370496 := rfl
  cases s with
  | nan => decide
  | infinite negative => cases negative <;> decide
  | finite negative mantissa exponent =>
    obtain ⟨hm, hlow, hhigh, hnormal⟩ := h
    have hbits : (finite negative mantissa exponent).bits =
        negative.toNat * 9223372036854775808 + (exponent + 1074).toNat * 4503599627370496 +
          mantissa := rfl
    generalize (finite negative mantissa exponent).bits = n at hbits
    have hdiv : n / unit = n / 4503599627370496 := rfl
    have hmod : n % unit = n % 4503599627370496 := rfl
    have hneg : decide (2048 * unit ≤ n) = negative := by
      cases negative with
      | true => exact decide_eq_true (by simp at hbits; omega)
      | false => exact decide_eq_false (by simp at hbits; omega)
    have hsign : negative.toNat ≤ 1 := Bool.toNat_le negative
    unfold ofBits
    dsimp only
    rw [hneg]
    by_cases hsub : mantissa < unit
    · obtain rfl : exponent = -1074 := by omega
      rw [if_neg (by omega), if_pos (by omega)]
      congr 1
      omega
    · rw [if_neg (by omega), if_neg (by omega)]
      congr 1 <;> omega

/-- A mantissa has its leading bit in place exactly if it is no smaller than the least one. -/
theorem fills_mantissaBits {mantissa : Nat} (hzero : mantissa ≠ 0) (hm : mantissa < 2 * unit) :
    mantissa.log2 + 1 = double.mantissaBits ↔ unit ≤ mantissa := by
  have hwidth : double.mantissaBits = 53 := rfl
  have hlt : mantissa.log2 < 53 := (Nat.log2_lt hzero).2 hm
  have hle : 52 ≤ mantissa.log2 ↔ unit ≤ mantissa := Nat.le_log2 hzero
  omega

theorem toNat_pack {s : Shape} (h : s.Canonical) :
    (UnpackedFloat.pack double s.unpacked).toNat = s.bits := by
  have hunit : unit = 4503599627370496 := rfl
  cases s with
  | nan => decide
  | infinite negative => cases negative <;> decide
  | finite negative mantissa exponent =>
    obtain ⟨hm, hlow, hhigh, hnormal⟩ := h
    have hbits : (finite negative mantissa exponent).bits =
        negative.toNat * 9223372036854775808 + (exponent + 1074).toNat * 4503599627370496 +
          mantissa := rfl
    rw [unpacked, hbits]
    by_cases hzero : mantissa = 0
    · obtain rfl : exponent = -1074 := by omega
      subst hzero
      cases negative <;> decide
    · have hbiased : (exponent + (double.exponentBias : Int) +
          (double.mantissaBitsWithoutImplicit : Int)).toNat = (exponent + 1075).toNat := by
        have hbias : (double.exponentBias : Int) = 1023 := rfl
        have hwidth : (double.mantissaBitsWithoutImplicit : Int) = 52 := rfl
        omega
      have hroom : ¬2 ^ double.exponentBits ≤ (exponent + 1075).toNat + 1 := by
        have hpow : 2 ^ double.exponentBits = 2048 := rfl
        omega
      rw [dif_neg hzero]
      unfold UnpackedFloat.pack
      dsimp only
      rw [hbiased, if_neg hroom]
      by_cases hsub : mantissa < unit
      · have hlog : ¬mantissa.log2 + 1 = double.mantissaBits := by
          rw [fills_mantissaBits hzero hm]
          omega
        obtain rfl : exponent = -1074 := by omega
        have hmantissa : (BitVec.ofNat 52 mantissa).toNat = mantissa := by
          rw [BitVec.toNat_ofNat]
          exact Nat.mod_eq_of_lt hsub
        rw [if_neg hlog, toNat_packComponents, toNat_sign, hmantissa]
        have hexponent : (0#11).toNat = 0 := rfl
        rw [hexponent]
        omega
      · have hlog : mantissa.log2 + 1 = double.mantissaBits :=
          (fills_mantissaBits hzero hm).2 (by omega)
        have hmantissa : (BitVec.ofNat 52 mantissa).toNat = mantissa - unit := by
          rw [BitVec.toNat_ofNat, hunit]
          omega
        have hexponent : (BitVec.ofNat 11 (exponent + 1075).toNat).toNat =
            (exponent + 1075).toNat := by
          rw [BitVec.toNat_ofNat]
          omega
        rw [if_pos hlog, toNat_packComponents, toNat_sign, hmantissa, hexponent]
        omega

end Shape

/-! ### Numbers -/

/-- The bits of a number are those of its shape, for a NaN too. -/
theorem toNat_toBits (x : Float) : x.toBits.toNat = (shape x).bits := by
  have hpack := pack_unpack_of_valid x.toModel.valid
  rw [unpack_eq] at hpack
  rw [shape_eq, ← Shape.toNat_pack (Shape.canonical_ofBits _)]
  exact congrArg BitVec.toNat hpack.symm

theorem eq_of_shape_eq {x y : Float} (h : shape x = shape y) : x = y := by
  apply Float.toBits_inj.1
  apply UInt64.toNat.inj
  rw [toNat_toBits, toNat_toBits, h]

theorem toBits_ofBits {b : UInt64} (h : Shape.ofBits b.toNat ≠ .nan) :
    (Float.ofBits b).toBits = b := by
  have hb : b.toBitVec.toNat < 4096 * unit := b.toNat_lt
  change UInt64.ofBitVec (UnpackedFloat.pack double (UnpackedFloat.unpack double b.toBitVec)) = b
  apply UInt64.toNat.inj
  rw [unpack_eq]
  exact (Shape.toNat_pack (Shape.canonical_ofBits _)).trans (Shape.bits_ofBits hb h)

theorem shape_ofBits {b : UInt64} (h : Shape.ofBits b.toNat ≠ .nan) :
    shape (Float.ofBits b) = Shape.ofBits b.toNat := by
  rw [shape_eq, toBits_ofBits h]

theorem canonical_shape (x : Float) : (shape x).Canonical := Shape.canonical_ofBits _

/-- The shape of what arithmetic comes to. -/
theorem shape_pack {s : Shape} (h : s.Canonical) :
    shape (.ofModel (.pack s.unpacked)) = s := by
  change Shape.ofBits (UnpackedFloat.pack double s.unpacked).toNat = s
  rw [Shape.toNat_pack h, Shape.ofBits_bits h]

theorem unpack_toModel (x : Float) : x.toModel.unpack = (shape x).unpacked := unpack_eq _

namespace Shape

def neg : Shape → Shape
  | .nan => .nan
  | .infinite negative => .infinite !negative
  | .finite negative mantissa exponent => .finite (!negative) mantissa exponent

theorem Canonical.neg {s : Shape} (h : s.Canonical) : s.neg.Canonical := by
  cases s with
  | finite => exact h
  | _ => trivial

theorem unpacked_neg (s : Shape) : s.unpacked.neg = s.neg.unpacked := by
  have hsign : ∀ negative, -sign negative = sign !negative := by
    rintro (_ | _) <;> rfl
  cases s with
  | nan => rfl
  | infinite negative => exact congrArg _ (hsign negative)
  | finite negative mantissa exponent =>
    rw [Shape.neg, unpacked, unpacked]
    split
    · exact congrArg _ (hsign negative)
    · rw [UnpackedFloat.neg, hsign]

end Shape

theorem shape_neg (x : Float) : shape (-x) = (shape x).neg := by
  have h : -x = .ofModel (.pack (shape x).unpacked.neg) :=
    congrArg (fun f => Float.ofModel (.pack (UnpackedFloat.neg f))) (unpack_toModel x)
  rw [h, Shape.unpacked_neg, shape_pack (canonical_shape x).neg]

/-! ### Signs -/

section
variable {x : Float} {negative : Bool} {mantissa : Nat} {exponent : Int}

theorem isFinite_of_shape (h : shape x = .finite negative mantissa exponent) :
    isFinite x = true := by
  rw [isFinite, h]

theorem isNegative_of_shape (h : shape x = .finite negative mantissa exponent) :
    isNegative x = negative := by
  unfold shape at h
  dsimp only at h
  unfold isNegative
  split at h
  · split at h <;> simp at h
  · split at h <;>
    · rw [Shape.finite.injEq] at h
      exact h.1

theorem shape_zero : shape 0 = .finite false 0 (-1074) := by
  decide +kernel

/-- The only zero with a sign is negative zero. -/
theorem eq_neg_zero_of_shape (h : shape x = .finite true 0 exponent) : x = -0 := by
  have hcanonical := canonical_shape x
  rw [h] at hcanonical
  obtain ⟨_, _, _, hleast⟩ := hcanonical
  have hexponent : exponent = -1074 := by
    rcases hleast with hunit | hleast
    · exact absurd hunit (by decide)
    · exact hleast
  apply eq_of_shape_eq
  rw [h, hexponent, shape_neg, shape_zero]
  rfl

theorem shape_one : shape 1 = .finite false unit (-52) := by
  decide +kernel

theorem shape_neg_one : shape (-1) = .finite true unit (-52) := by
  rw [shape_neg, shape_one]
  rfl

theorem ne_neg_zero (h : shape x = .finite negative mantissa exponent)
    (hsign : negative = false ∨ 0 < mantissa) : x ≠ -0 := by
  rintro rfl
  rw [shape_neg, shape_zero, Shape.neg, Shape.finite.injEq] at h
  obtain ⟨hnegative, hmantissa, _⟩ := h
  rcases hsign with hsign | hsign
  · rw [← hnegative] at hsign
    cases hsign
  · omega

theorem mantissa_pos (hx : x ≠ -0) (h : shape x = .finite true mantissa exponent) :
    0 < mantissa := by
  apply Nat.pos_of_ne_zero
  rintro rfl
  exact hx (eq_neg_zero_of_shape h)

end
end Formula.Number
