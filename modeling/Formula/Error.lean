import Formula.Symbol

/-! What can go wrong while a formula is read or evaluated, and how it is told. -/
namespace Formula

inductive Error where
  /-- Raised by the host of the formula in its own words. -/
  | message (text : String)
  | unexpectedToken (token : String)
  | missingDelimiter (delimiter : String)
  | undefinedSymbol (symbol : Symbol)
  | arityMismatch (symbol : Symbol)
  | arrayBounds (index : Float) (symbol : Symbol)
  | typeMismatch (symbol : Symbol) (types : List String)
deriving BEq

namespace Error

def capitalize (text : String) : String :=
  match text.toList with
  | c :: cs => String.ofList (c.toUpper :: cs)
  | [] => ""

def text : Error → String
  | message text => text
  | unexpectedToken token =>
    if token.isEmpty then "Empty expression" else "Unexpected token \x60" ++ token ++ "\x60"
  | missingDelimiter delimiter => "Missing \x60" ++ delimiter ++ "\x60"
  | undefinedSymbol symbol => "Undefined " ++ symbol.describe
  | arityMismatch (.function name arity) =>
    "Function " ++ (Symbol.function name arity).written ++ "() expects " ++ toString arity ++
      (if arity = 1 then " argument" else " arguments")
  | arityMismatch symbol => "Arity mismatch for " ++ symbol.describe
  | arrayBounds index symbol =>
    "Index " ++ Number.format index ++ " out of bounds for " ++ symbol.describe
  | typeMismatch symbol types =>
    capitalize symbol.describe ++ " cannot be used with arguments of type (" ++
      ", ".intercalate types ++ ")"

/-- The text that the error is about, to be looked for in the source. -/
def token? : Error → Option String
  | message _ | missingDelimiter _ => none
  | unexpectedToken token => if token.isEmpty then none else some token
  | undefinedSymbol symbol | arityMismatch symbol | arrayBounds _ symbol | typeMismatch symbol _ =>
    some symbol.name

end Error
end Formula
