import Formula.Error

/-! An error shown against the source it was raised for. Places are counted in bytes of UTF-8. -/
namespace Formula

structure Span where
  offset : Nat
  length : Nat
deriving DecidableEq

namespace Span

/-- The bytes before the first occurrence of `text`, counted from `offset`. -/
def offsetOf? (text : List Char) : List Char → Nat → Option Nat
  | [], offset => if text.isEmpty then some offset else none
  | c :: cs, offset =>
    if text.isPrefixOf (c :: cs) then some offset else offsetOf? text cs (offset + c.utf8Size)

def whole (source : String) : Span := ⟨0, max 1 source.utf8ByteSize⟩

/-- The first occurrence of the token that the error is about. A delimiter is missing at the end,
and an error about no token, or about one that the source does not spell, concerns all of it. -/
def ofError (source : String) (error : Error) : Span :=
  match error with
  | .missingDelimiter _ => ⟨source.utf8ByteSize - 1, 1⟩
  | error =>
    match error.token? with
    | none => whole source
    | some token =>
      match offsetOf? token.toList source.toList 0 with
      | some offset => ⟨offset, max 1 token.utf8ByteSize⟩
      | none => whole source

end Span

structure Report where
  error : Error
  source : String

namespace Report

def location (r : Report) : Span := .ofError r.source r.error

def code (r : Report) : String :=
  match r.error with
  | .message _ => "xpr::message"
  | .unexpectedToken _ => "xpr::unexpected_token"
  | .missingDelimiter _ => "xpr::missing_delimiter"
  | .undefinedSymbol _ => "xpr::undefined_symbol"
  | .arityMismatch _ => "xpr::arity_mismatch"
  | .arrayBounds .. => "xpr::array_bounds"
  | .typeMismatch .. => "xpr::type_mismatch"

/-- Advice to whoever wrote the formula. -/
def help? (r : Report) : Option String :=
  match r.error with
  | .unexpectedToken token =>
    some (if token.isEmpty then
      "The expression is empty. Write a value, variable or function call."
    else "Check for misplaced operators or missing operands.")
  | .missingDelimiter delimiter => some ("Add the missing \x60" ++ delimiter ++ "\x60.")
  | .undefinedSymbol (.var name) =>
    some ("Define \x60" ++ name ++ "\x60 as a constant, e.g. \x60-D " ++ name ++ "=1\x60.")
  | .undefinedSymbol _ =>
    some "Check the spelling, or enable the boolean symbols with \x60--bool\x60."
  | .arityMismatch _ => some "Check the number of arguments passed to the function."
  | .message _ | .arrayBounds .. | .typeMismatch .. => none

def labels (r : Report) : List (String × Span) := [(r.error.text, r.location)]

end Report
end Formula
