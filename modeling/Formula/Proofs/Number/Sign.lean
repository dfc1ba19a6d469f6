import Formula.Proofs.Number.Bits
import Formula.Token

/-! Signs of numbers. Main statement: a numeral is read as a number without a sign. Sums and
products of such numbers, which make the value of a hexadecimal numeral, have no sign either. -/
namespace Formula.Number

open Float.Model Float.Model.UnpackedFloat

/-! ### Arithmetic -/

/-- Without a sign, or not a number. -/
def Positive : UnpackedFloat → Prop
  | .notANumber => True
  | .infinity s | .zero s | .finite s .. => s = .positive

variable {u v : UnpackedFloat} {x y : Float}

theorem positive_roundWithAccuracy (mantissa : Nat) (exponent : Int) (accuracy : Accuracy) :
    Positive (roundWithAccuracy double .positive mantissa exponent accuracy) := by
  unfold roundWithAccuracy
  dsimp only
  split <;> rfl

theorem Positive.mul (hu : Positive u) (hv : Positive v) :
    Positive (UnpackedFloat.mul double u v) := by
  cases u with
  | notANumber => cases v <;> trivial
  | infinity s =>
    obtain rfl : s = .positive := hu
    cases v with
    | notANumber | zero s => trivial
    | infinity s | finite s m e hm =>
      obtain rfl : s = .positive := hv
      rfl
  | zero s =>
    obtain rfl : s = .positive := hu
    cases v with
    | notANumber | infinity s => trivial
    | zero s | finite s m e hm =>
      obtain rfl : s = .positive := hv
      rfl
  | finite s m e hm =>
    obtain rfl : s = .positive := hu
    cases v with
    | notANumber => trivial
    | infinity s | zero s =>
      obtain rfl : s = .positive := hv
      rfl
    | finite s m e hm =>
      obtain rfl : s = .positive := hv
      exact positive_roundWithAccuracy _ _ _

/-- A sum of naturals is rounded to a number without a sign. -/
theorem positive_normalize (mantissa : Nat) (exponent : Int) :
    Positive (UnpackedFloat.normalize double mantissa exponent .positive) := by
  unfold UnpackedFloat.normalize
  split
  · rename_i hlt
    rw [Int.compare_eq_lt] at hlt
    omega
  · rfl
  · exact positive_roundWithAccuracy _ _ _

theorem Positive.add (hu : Positive u) (hv : Positive v) :
    Positive (UnpackedFloat.add double u v) := by
  cases u with
  | notANumber => cases v <;> trivial
  | infinity s =>
    obtain rfl : s = .positive := hu
    cases v with
    | notANumber => trivial
    | infinity s =>
      obtain rfl : s = .positive := hv
      rfl
    | zero s | finite s m e hm => rfl
  | zero s =>
    obtain rfl : s = .positive := hu
    cases v with
    | notANumber => trivial
    | infinity s | zero s | finite s m e hm =>
      obtain rfl : s = .positive := hv
      rfl
  | finite s m e hm =>
    obtain rfl : s = .positive := hu
    cases v with
    | notANumber => trivial
    | infinity s =>
      obtain rfl : s = .positive := hv
      rfl
    | zero s => rfl
    | finite s m e hm =>
      obtain rfl : s = .positive := hv
      exact positive_normalize _ _

theorem isNegative_of_infinite {negative : Bool} (h : shape x = .infinite negative) :
    isNegative x = negative := by
  unfold shape at h
  dsimp only at h
  unfold isNegative
  split at h
  · split at h
    · exact Shape.infinite.inj h
    · cases h
  · split at h <;> cases h

theorem positive_unpack (hx : isNegative x = false) : Positive x.toModel.unpack := by
  rw [unpack_toModel]
  cases hshape : shape x with
  | nan => trivial
  | infinite negative =>
    rw [isNegative_of_infinite hshape] at hx
    subst hx
    rfl
  | finite negative mantissa exponent =>
    rw [isNegative_of_shape hshape] at hx
    subst hx
    rw [Shape.unpacked]
    split <;> rfl

theorem packComponents_lt (exponent : BitVec 11) (mantissa : BitVec 52) :
    (packComponents double .positive exponent mantissa).toNat < 2048 * unit := by
  have hexponent := exponent.isLt
  have hmantissa := mantissa.isLt
  have hsign : Sign.positive.toBitVec.toNat = 0 := rfl
  have hunit : unit = 2 ^ 52 := rfl
  rw [toNat_packComponents, hsign]
  omega

theorem isNegative_pack (hu : Positive u) : isNegative (.ofModel (.pack u)) = false := by
  have hlt : (UnpackedFloat.pack double u).toNat < 2048 * unit := by
    cases u with
    | notANumber => exact packComponents_lt _ _
    | infinity s | zero s =>
      obtain rfl : s = .positive := hu
      exact packComponents_lt _ _
    | finite s m e hm =>
      obtain rfl : s = .positive := hu
      unfold UnpackedFloat.pack
      dsimp only
      split
      · exact packComponents_lt _ _
      · split <;> exact packComponents_lt _ _
  exact decide_eq_false (Nat.not_le.2 hlt)

theorem isNegative_mul (hx : isNegative x = false) (hy : isNegative y = false) :
    isNegative (x * y) = false :=
  isNegative_pack ((positive_unpack hx).mul (positive_unpack hy))

theorem isNegative_add (hx : isNegative x = false) (hy : isNegative y = false) :
    isNegative (x + y) = false :=
  isNegative_pack ((positive_unpack hx).add (positive_unpack hy))

/-! ### Numerals -/

theorem ofBits_ne_nan {n : Nat} (h : n ≤ 2047 * unit) : Shape.ofBits n ≠ .nan := by
  have hunit : unit = 4503599627370496 := rfl
  have hdiv : n / unit = n / 4503599627370496 := rfl
  have hmod : n % unit = n % 4503599627370496 := rfl
  unfold Shape.ofBits
  dsimp only
  split
  · rw [if_pos (by omega)]
    exact Shape.noConfusion
  · split <;> exact Shape.noConfusion

theorem isNegative_pack_bits (mantissa : Nat) (exponent : Int) :
    isNegative (pack mantissa exponent) = false := by
  obtain ⟨bits, hbits⟩ : ∃ bits, min ((exponent + 1074).toNat * unit + mantissa) (2047 * unit) =
      bits := ⟨_, rfl⟩
  have hle : bits ≤ 2047 * unit := by
    rw [← hbits]
    exact Nat.min_le_right _ _
  have hunit : unit = 4503599627370496 := rfl
  have hnat : (UInt64.ofNat bits).toNat = bits := by
    rw [UInt64.toNat_ofNat']
    omega
  have hne : Shape.ofBits (UInt64.ofNat bits).toNat ≠ .nan := by
    rw [hnat]
    exact ofBits_ne_nan hle
  unfold isNegative pack
  rw [hbits, toBits_ofBits hne, hnat]
  exact decide_eq_false (by omega)

theorem isNegative_ofRatio (num den : Nat) : isNegative (ofRatio num den) = false := by
  unfold ofRatio
  split
  · decide +kernel
  · exact isNegative_pack_bits _ _

theorem isNegative_ofDecimal (digits : Nat) (exponent : Int) :
    isNegative (ofDecimal digits exponent) = false := by
  unfold ofDecimal
  split
  · decide +kernel
  · split
    · decide +kernel
    · split
      · decide +kernel
      · split <;> exact isNegative_ofRatio _ _

end Formula.Number

namespace Formula.Token

open Number

theorem isNegative_hexadecimalValue (digits : List Char) :
    isNegative (hexadecimalValue digits) = false := by
  have hsixteen : isNegative 16 = false := by decide +kernel
  have hfold : ∀ value, isNegative value = false →
      isNegative (digits.foldl (fun value c =>
        value * 16 + ofRatio (digitsValue 16 [c]) 1) value) = false := by
    induction digits with
    | nil => exact fun _ h => h
    | cons c digits ih =>
      intro value h
      exact ih _ (isNegative_add (isNegative_mul h hsixteen) (isNegative_ofRatio _ _))
  exact hfold 0 (by decide +kernel)

/-- A sign is no part of a numeral. -/
theorem isNegative_numeral? {cs : List Char} {value : Float} {length : Nat}
    (h : numeral? cs = some (value, length)) : isNegative value = false := by
  unfold numeral? at h
  split at h
  · cases h
    exact isNegative_hexadecimalValue _
  · obtain ⟨⟨numeral, _⟩, -, hvalue⟩ := Option.map_eq_some_iff.1 h
    cases hvalue
    exact isNegative_ofDecimal _ _

end Formula.Token
