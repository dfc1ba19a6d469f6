import Formula.Stack

/-! How a token goes on the stack. Every decision that looks at the stack, the token and the
blanks around it is made here, without reading further. -/
namespace Formula.Parser

open Item Formula.Tree

/-- The stack of one subexpression while its tokens are read, the top first. -/
structure State where
  items : List Item
  /-- Whether a blank, a delimiter or nothing stands before the next token. -/
  spaced : Bool

/-- What a token asks for. -/
inductive Action where
  | push (item : Item)
  | comma
  /-- A subexpression in parentheses. -/
  | group
  /-- The arguments of a call, in place of the variable on top. -/
  | call (name : String)
  /-- A subscript, in place of the variable on top. -/
  | subscript (name : String)
  /-- The first branch of a conditional, or the operator itself if there is none. -/
  | ternary (operator : Item)
  /-- The token must not stand here. -/
  | refuse (token : String)

namespace State

def start : State := ⟨[], true⟩

def push (s : State) (item : Item) (spaced : Bool) : State := ⟨item :: s.items, spaced⟩

/-- Puts an operand in place of the top. -/
def replace (s : State) (tree : Tree Float) (spaced : Bool) : State :=
  ⟨operand tree :: s.items.drop 1, spaced⟩

/-- An operator before a comma has no right operand. -/
def comma (s : State) : State :=
  let items := match s.items with
    | operator .infixOp op :: below => operator .postfixOp op :: below
    | items => items
  ⟨operator .infixOp "," :: items, true⟩

def afterOperand (s : State) : Bool :=
  match s.items with
  | operand _ :: _ => true
  | _ => false

def afterPostfix (s : State) : Bool :=
  match s.items with
  | operator .postfixOp _ :: _ => true
  | _ => false

/-- The variable on top, which a parenthesis or bracket turns into a call or a subscript. -/
def callee? (s : State) : Option String :=
  match s.items with
  | operand (apply (.var name) []) :: _ => some name
  | _ => none

def finish (s : State) : Except Error (Tree Float) := Stack.finish s.items.reverse

end State

/-- An operator with a blank on one side only belongs to what is on the other side. -/
def role (before after : Bool) : Role :=
  match before, after with
  | true, false => .prefixOp
  | false, true => .postfixOp
  | _, _ => .infixOp

def parenthesis (s : State) : Action :=
  match s.callee? with
  | some name => .call name
  | none => if s.afterOperand then .refuse "(" else .group

def bracket (s : State) : Action :=
  match s.callee? with
  | some name => .subscript name
  | none => .refuse "["

/-- What the token asks for; `followed` tells whether a blank or nothing stands after it. -/
def action (s : State) (followed : Bool) : Token → Action
  | .number value => .push (operand (literal value))
  | .name name => .push (if s.afterOperand then operator .infixOp name else operand (named name))
  | .quoted name => .push (operand (named name))
  | .punctuation c =>
    if c = '(' then parenthesis s
    else if c = '[' then bracket s
    else if c = ',' then .comma
    else .refuse (String.singleton c)
  | .operator op =>
    let item := operator (role s.spaced followed) op
    if op = "?" ∧ (s.afterOperand ∨ s.afterPostfix) then .ternary item else .push item

end Formula.Parser
