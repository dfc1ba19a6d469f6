/-! How a formula is bound and evaluated. -/
namespace Formula

structure Options where
  /-- Replaces constant parts of a formula by their value before it is evaluated. -/
  optimize : Bool := true
  /-- Binds the truth values, comparisons, logical operators and conditionals. -/
  logic : Bool := false
  /-- Trusts the functions and operators of the host to depend on their arguments only. -/
  pureSymbols : Bool := false

end Formula
