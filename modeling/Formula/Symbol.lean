import Formula.Token

/-! Symbols: the named points at which a formula is bound to values and functions. -/
namespace Formula

inductive Symbol where
  | var (name : String)
  | infixOp (name : String)
  | prefixOp (name : String)
  | postfixOp (name : String)
  | function (name : String) (arity : Nat)
  | array (name : String)
deriving DecidableEq

namespace Symbol

def name : Symbol → String
  | var name | infixOp name | prefixOp name | postfixOp name | function name _ | array name => name

def isOperator : Symbol → Bool
  | infixOp _ | prefixOp _ | postfixOp _ => true
  | _ => false

/-- Operators and names that scan as one token stand for themselves; any other name is put
between backquotes. -/
def written (s : Symbol) : String :=
  if s.isOperator || Quoted.isQuoted s.name || Token.isName s.name then s.name
  else Quoted.encode '\x60' s.name

def describe : Symbol → String
  | var name => "variable " ++ (var name).written
  | infixOp name => "infix operator " ++ name
  | prefixOp name => "prefix operator " ++ name
  | postfixOp name => "postfix operator " ++ name
  | function name arity => "function " ++ (function name arity).written ++ "()"
  | array name => "array " ++ (array name).written ++ "[]"

def rank : Symbol → Nat
  | var _ => 0
  | infixOp _ => 1
  | prefixOp _ => 2
  | postfixOp _ => 3
  | function .. => 4
  | array _ => 5

def arity : Symbol → Nat
  | function _ arity => arity
  | _ => 0

/-- The order of listings: by kind, then by name, then by arity. -/
def le (a b : Symbol) : Bool :=
  if a.rank ≠ b.rank then a.rank < b.rank
  else if a.name ≠ b.name then a.name < b.name
  else a.arity ≤ b.arity

def sort (symbols : List Symbol) : List Symbol := symbols.mergeSort le

end Symbol
end Formula
