/-! Numbers as a sign, a mantissa and a power of two, and the nearest number to a quotient of
naturals. What is read, printed or compared with whole numbers goes through this view. -/
namespace Formula.Number

/-- A finite number is `mantissa * 2 ^ exponent` with a sign. -/
inductive Shape where
  | nan
  | infinite (negative : Bool)
  | finite (negative : Bool) (mantissa : Nat) (exponent : Int)
deriving DecidableEq

/-- The least mantissa of 53 bits, and the distance of two exponents in the bits of a number. -/
def unit : Nat := 0x10000000000000

/-- A mantissa of 53 bits, or fewer at the least exponent, -1074. -/
def shape (x : Float) : Shape :=
  let bits := x.toBits.toNat
  let negative := decide (2048 * unit ≤ bits)
  let biased : Nat := bits / unit % 2048
  let fraction := bits % unit
  if biased = 2047 then
    if fraction = 0 then .infinite negative else .nan
  else if biased = 0 then .finite negative fraction (-1074)
  else .finite negative (unit + fraction) ((biased : Int) - 1075)

def isNegative (x : Float) : Bool := decide (2048 * unit ≤ x.toBits.toNat)

def isFinite (x : Float) : Bool :=
  match shape x with
  | .finite .. => true
  | _ => false

/-- The nearest natural to `num / den`, the even one of two. -/
def roundEven (num den : Nat) : Nat :=
  let low := num / den
  let twice := 2 * (num % den)
  if twice < den then low else if den < twice then low + 1 else low + low % 2

theorem roundEven_error {den : Nat} (num : Nat) (h : 0 < den) :
    2 * (den * roundEven num den) ≤ 2 * num + den ∧
      2 * num ≤ 2 * (den * roundEven num den) + den := by
  have hdiv := Nat.div_add_mod num den
  have hmod := Nat.mod_lt num h
  have hodd : num / den % 2 = 0 ∨ num / den % 2 = 1 := by omega
  unfold roundEven
  dsimp only
  split
  · omega
  · split
    · rw [Nat.mul_add]
      omega
    · rcases hodd with hodd | hodd <;> rw [hodd, Nat.mul_add] <;> omega

@[simp] theorem roundEven_one (num : Nat) : roundEven num 1 = num := by
  have := roundEven_error num Nat.one_pos
  omega

/-- `num / (den * 2 ^ exponent)` as a quotient of naturals. -/
def scale (num den : Nat) (exponent : Int) : Nat × Nat :=
  if exponent < 0 then (num <<< exponent.natAbs, den) else (num, den <<< exponent.natAbs)

/-- The exponent that gives `num / den` a mantissa of 53 bits, but at least -1074. -/
def exponentFor (num den : Nat) : Int :=
  let guess : Int := num.log2 - den.log2 - 53
  let scaled := scale num den guess
  max (-1074) (if 2 * unit ≤ scaled.1 / scaled.2 then guess + 1 else guess)

/-- A mantissa that rounding carried past 53 bits runs over into the exponent, and past the
largest exponent the number is infinite. -/
def pack (mantissa : Nat) (exponent : Int) : Float :=
  .ofBits (.ofNat (min ((exponent + 1074).toNat * unit + mantissa) (2047 * unit)))

/-- The nearest number to `num / den`, a half going to the even mantissa. -/
def ofRatio (num den : Nat) : Float :=
  if num = 0 then 0 else
  let exponent := exponentFor num den
  let scaled := scale num den exponent
  pack (roundEven scaled.1 scaled.2) exponent

/-- The magnitude of `mantissa * 2 ^ exponent` as a quotient of naturals. -/
def ratio (mantissa : Nat) (exponent : Int) : Nat × Nat := scale mantissa 1 (-exponent)

def signed (negative : Bool) (magnitude : Float) : Float := if negative then -magnitude else magnitude

/-- The whole number that `x` is, if it has no fraction and its magnitude is below `2 ^ 53`. -/
def integer? (x : Float) : Option Int :=
  match shape x with
  | .finite negative mantissa exponent =>
    let (num, den) := ratio mantissa exponent
    if num % den = 0 ∧ num / den < 2 * unit then
      some (if negative then -(num / den : Nat) else (num / den : Nat))
    else none
  | _ => none

/-- The natural number that `x` is, for subscripts. -/
def natural? (x : Float) : Option Nat := (integer? x).bind Int.toNat?

/-- The exact remainder of division toward zero, with the sign of the dividend. -/
def remainder (x y : Float) : Float :=
  match shape x, shape y with
  | .finite negative m p, .finite _ n q =>
    if n = 0 then 0 / 0 else
    let low := min p q
    let rest := (m <<< (p - low).toNat) % (n <<< (q - low).toNat)
    let (num, den) := ratio rest low
    signed negative (ofRatio num den)
  | .finite .., .infinite _ => x
  | _, _ => 0 / 0

/-- The larger number; a NaN gives way to the other, and of equal numbers the second is taken,
which shows in the sign of a zero. -/
def larger (x y : Float) : Float := if y.isNaN then x else if y < x then x else y

/-- The smaller number; a NaN gives way to the other, and of equal numbers the second is taken,
which shows in the sign of a zero. -/
def smaller (x y : Float) : Float := if y.isNaN then x else if x < y then x else y

/-- Zero is false, all else is true. -/
def truthy (x : Float) : Bool := x != 0

def ofBool (b : Bool) : Float := if b then 1 else 0

end Formula.Number
