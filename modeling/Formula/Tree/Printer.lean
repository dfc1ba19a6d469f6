import Formula.Tree.Basic
import Formula.Precedence

/-! The text of a tree. Parentheses stand where the parser would otherwise group differently,
infix operators between blanks, and numbers without a numeral of their own are written as the
quotient that yields them. -/
namespace Formula.Tree

/-- An argument and its text. -/
structure Piece where
  tree : Tree Float
  text : String

namespace Piece

/-- How tightly the operator at the top binds; other trees never need parentheses. -/
def precedence? (p : Piece) : Option Precedence :=
  match p.tree with
  | apply (.infixOp op) [_, _] => some (.of op)
  | t => if t.isTernary then some .ternary else none

def looserThan (p : Piece) (bound : Precedence) : Bool :=
  p.precedence?.any fun own => own.rank < bound.rank

def asLooseAs (p : Piece) (bound : Precedence) : Bool :=
  p.precedence?.any fun own => own == bound

def wrapped (p : Piece) (wrap : Bool) : String := if wrap then "(" ++ p.text ++ ")" else p.text

/-- The operand of a prefix operator keeps clear of other operators and signs. -/
def asPrefixed (p : Piece) : String :=
  p.wrapped <| match p.tree with
    | apply symbol _ => symbol.isOperator
    | literal value => Number.isFinite value && Number.isNegative value
    | malformed .. => false

/-- A prefix operator stays with its operand before a postfix operator. -/
def asPostfixed (p : Piece) : String :=
  p.wrapped <| match p.tree with
    | apply (.infixOp _) _ | apply (.postfixOp _) _ => true
    | _ => false

end Piece

/-- A blank keeps a word apart from its operand. -/
def gap (op : String) : String := if Token.isName op then " " else ""

def commaSeparated (pieces : List Piece) : String := ", ".intercalate (pieces.map Piece.text)

def ternaryText (condition yes no : Piece) : String :=
  condition.wrapped (condition.looserThan .ternary || condition.asLooseAs .ternary) ++ " ? " ++
    yes.text ++ " : " ++ no.wrapped (no.looserThan .ternary)

def infixText (op : String) (left right : Piece) : String :=
  let own := Precedence.of op
  left.wrapped (left.looserThan own || (left.asLooseAs own && own.isRightAssociative)) ++
    (if op = "," then ", " else " " ++ op ++ " ") ++
    right.wrapped (right.looserThan own || (right.asLooseAs own && !own.isRightAssociative))

/-- The text of a symbol applied to arguments. What has no operator form is written as a call. -/
def layout (symbol : Symbol) (pieces : List Piece) : String :=
  let call := symbol.written ++ "(" ++ commaSeparated pieces ++ ")"
  match symbol, pieces with
  | .infixOp op, [left, right] => infixText op left right
  | .infixOp op, [condition, yes, no] => if op = "?:" then ternaryText condition yes no else call
  | .prefixOp op, [arg] => op ++ gap op ++ arg.asPrefixed
  | .postfixOp op, [arg] => arg.asPostfixed ++ gap op ++ op
  | .array _, pieces => symbol.written ++ "[" ++ commaSeparated pieces ++ "]"
  | .var _, [] => symbol.written
  | _, _ => call

def literalText (value : Float) : String :=
  match Number.shape value with
  | .nan => "(0 / 0)"
  | .infinite negative => if negative then "(-1 / 0)" else "(1 / 0)"
  | .finite .. => Number.format value

mutual

def text : Tree Float → String
  | literal value => literalText value
  | apply symbol args => layout symbol (pieces args)
  | malformed _ source => source

def pieces : List (Tree Float) → List Piece
  | [] => []
  | arg :: args => ⟨arg, text arg⟩ :: pieces args

end

end Formula.Tree
