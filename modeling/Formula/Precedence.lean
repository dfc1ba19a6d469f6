/-! How tightly infix operators bind. Operators that no class names share one between ranges and
products. -/
namespace Formula

/-- From loosest to tightest. -/
inductive Precedence where
  | comma
  | assignment
  | ternary
  | or
  | and
  | comparison
  | coalescing
  | cast
  | range
  | ordinary
  | product
  | shift
deriving DecidableEq

namespace Precedence

def classes : List (Precedence × List String) :=
  [(shift, ["<<", ">>", ">>>"]),
   (product, ["*", "/", "%", "&"]),
   (range, ["..", "...", "..<"]),
   (cast, ["is", "as", "isa"]),
   (coalescing, ["??", "?:"]),
   (comparison, ["<", "<=", ">=", ">", "==", "!=", "<>", "===", "!==", "lt", "le", "lte", "gt",
     "ge", "gte", "eq", "ne"]),
   (and, ["&&", "and"]),
   (or, ["||", "or"]),
   (ternary, ["?", ":"]),
   (assignment, ["=", "*=", "/=", "%=", "+=", "-=", "<<=", ">>=", "&=", "^=", "|=", ":="]),
   (comma, [","])]

def of (op : String) : Precedence :=
  ((classes.find? fun entry => entry.2.contains op).map Prod.fst).getD ordinary

def rank : Precedence → Nat
  | comma => 0
  | assignment => 1
  | ternary => 2
  | or => 3
  | and => 4
  | comparison => 5
  | coalescing => 6
  | cast => 7
  | range => 8
  | ordinary => 9
  | product => 10
  | shift => 11

def isRightAssociative : Precedence → Bool
  | comparison | assignment | ternary => true
  | _ => false

/-- Whether `a left b right c` groups as `(a left b) right c`. -/
def bindsFirst (left right : String) : Bool :=
  let l := of left
  let r := of right
  r.rank < l.rank || (l == r && !l.isRightAssociative)

/-- Whether an operator that follows this one must be a prefix operator. -/
def isKnownInfix (op : String) : Bool := of op != ordinary || op == "+" || op == "-"

end Precedence
end Formula
