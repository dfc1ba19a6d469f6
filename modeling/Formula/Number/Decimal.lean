import Formula.Number.Binary

/-! Decimal numerals: the nearest number to one, and the text of a number. The text has the
fewest digits that read back, is always positional, and shows a whole number below `2 ^ 53`
without a point. Of the shortest candidates the nearest is written, and the greater of two
equally near ones. -/
namespace Formula.Number

def tenTo (n : Nat) : Nat := Nat.pow 10 n

/-- The nearest number to `digits * 10 ^ exponent`. Exponents past the range of numbers are cut
off before a power of ten is formed. -/
def ofDecimal (digits : Nat) (exponent : Int) : Float :=
  if digits = 0 then 0
  else if 400 < exponent then 1 / 0
  else if exponent + (digits.log2 / 3 : Nat) < -400 then 0
  else if exponent < 0 then ofRatio digits (tenTo exponent.natAbs)
  else ofRatio (digits * tenTo exponent.natAbs) 1

/-- The value of a run of digits in the given base. -/
def digitsValue (base : Nat) (digits : List Char) : Nat :=
  digits.foldl (fun value c => base * value + digitValue c) 0
where
  digitValue (c : Char) : Nat :=
    if 'a' ≤ c then c.toNat - 87 else if 'A' ≤ c then c.toNat - 55 else c.toNat - 48

/-- A decimal numeral without its sign. -/
structure Numeral where
  whole : List Char
  fraction : List Char
  negativeExponent : Bool
  exponent : List Char

def Numeral.toFloat (n : Numeral) : Float :=
  let power : Int := digitsValue 10 n.exponent
  ofDecimal (digitsValue 10 (n.whole ++ n.fraction))
    ((if n.negativeExponent then -power else power) - n.fraction.length)

/-- A decimal that stands for a number in text: `digits * 10 ^ exponent`. -/
structure Digits where
  digits : Nat
  exponent : Int

namespace Digits

def toFloat (d : Digits) : Float :=
  if d.exponent < 0 then ofDecimal d.digits d.exponent
  else ofDecimal (d.digits * tenTo d.exponent.natAbs) 0

/-- Positional notation, with a zero before a leading point. -/
def text (d : Digits) : String :=
  let shown := toString d.digits
  let places := d.exponent.natAbs
  if 0 ≤ d.exponent then shown ++ "".pushn '0' (if d.digits = 0 then 0 else places)
  else
    let padded := "".pushn '0' (places + 1 - shown.length) ++ shown
    let chars := padded.toList
    let split := chars.length - places
    String.ofList (chars.take split ++ '.' :: chars.drop split)

/-- The one of two decimals that is nearer to `num / den`, the second on a tie. -/
def nearer (num den : Nat) (low high : Digits) : Digits :=
  let (up, down) := if low.exponent < 0 then (tenTo low.exponent.natAbs, 1)
    else (1, tenTo low.exponent.natAbs)
  let below := num * up - low.digits * den * down
  let above := high.digits * den * down - num * up
  if below < above then low else high

/-- The decimal with the given exponent that reads back as `x`, the number `num / den`. -/
def at? (x : Float) (num den : Nat) (exponent : Int) : Option Digits :=
  let floor := if exponent < 0 then num * tenTo exponent.natAbs / den
    else num / (den * tenTo exponent.natAbs)
  let low : Digits := ⟨floor, exponent⟩
  let high : Digits := ⟨floor + 1, exponent⟩
  match decide (low.toFloat = x), decide (high.toFloat = x) with
  | true, true => some (nearer num den low high)
  | true, false => some low
  | false, true => some high
  | false, false => none

/-- The first hit among `count` exponents downward from `exponent`. -/
def search? (x : Float) (num den : Nat) (exponent : Int) : Nat → Option Digits
  | 0 => none
  | count + 1 =>
    match at? x num den exponent with
    | some d => some d
    | none => search? x num den (exponent - 1) count

/-- All digits of `mantissa * 2 ^ exponent`. -/
def exact (mantissa : Nat) (exponent : Int) : Digits :=
  if exponent < 0 then ⟨mantissa * Nat.pow 5 exponent.natAbs, exponent⟩
  else ⟨mantissa <<< exponent.natAbs, 0⟩

/-- A bound on the decimal exponent of `num / den`, exceeded by at most two. -/
def topExponent (num den : Nat) : Int :=
  ((num.log2 : Int) - den.log2 + 1) * 30103 / 100000 + 1

/-- The fewest digits that read back as the magnitude `x`, which is `mantissa * 2 ^ exponent`. -/
def shortest (x : Float) (mantissa : Nat) (exponent : Int) : Digits :=
  let (num, den) := ratio mantissa exponent
  (search? x num den (topExponent num den) 22).getD (exact mantissa exponent)

end Digits

/-- The text of a number. -/
def format (x : Float) : String :=
  match integer? x with
  | some n => toString n
  | none =>
    match shape x with
    | .nan => "NaN"
    | .infinite negative => if negative then "-inf" else "inf"
    | .finite negative mantissa exponent =>
      let magnitude := (Digits.shortest (signed negative x) mantissa exponent).text
      if negative then "-" ++ magnitude else magnitude

end Formula.Number
