import Formula.Token

/-! Numbers as a user writes them outside a formula: with a sign, with a point at either end, or
by name. -/
namespace Formula.Number

/-- The names of the numbers without digits, in any case. -/
def named? (cs : List Char) : Option Float :=
  let name := String.ofList (cs.map Char.toLower)
  if name = "inf" ∨ name = "infinity" then some (1 / 0)
  else if name = "nan" then some (0 / 0)
  else none

/-- Digits with at most one point somewhere, and maybe an exponent. -/
def unsigned? (cs : List Char) : Option Float :=
  let whole := cs.takeWhile Char.isDigit
  let (fraction, rest) := match cs.dropWhile Char.isDigit with
    | '.' :: rest => (rest.takeWhile Char.isDigit, rest.dropWhile Char.isDigit)
    | rest => ([], rest)
  let (negative, exponent, length) := Token.exponent rest
  if (whole.isEmpty && fraction.isEmpty) || rest.length ≠ length then none
  else some (Numeral.toFloat ⟨whole, fraction, negative, exponent⟩)

def ofText? (text : String) : Option Float :=
  let (negative, cs) := match text.toList with
    | '-' :: cs => (true, cs)
    | '+' :: cs => (false, cs)
    | cs => (false, cs)
  ((named? cs).or (unsigned? cs)).map (signed negative)

end Formula.Number
