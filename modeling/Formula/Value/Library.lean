import Formula.Value.Table
import Formula.Options

/-! The operators on values of any kind. An operator that declines leaves the call to the library
of numbers. -/
namespace Formula.Value.Library

/-- An operator sees its arguments as words and as values. -/
abbrev Function := Symbol → List Word → List Value → Except Error (Option Value)

/-- What a value counts for in a condition. -/
def truthy (symbol : Symbol) (values : List Value) : Value → Except Error Bool
  | .bool b => .ok b
  | .number x => .ok (Number.truthy x)
  | .nil => .ok false
  | _ => .error (.mismatch symbol values)

def orderNumbers (x y : Float) : Option Ordering :=
  if x < y then some .lt else if x == y then some .eq else if x > y then some .gt else none

/-- By code points. -/
def orderTexts (s t : String) : Ordering :=
  if s < t then .lt else if s = t then .eq else .gt

/-- Numbers compare with numbers and texts with texts; nothing holds of a NaN. -/
def compare (accepts : Ordering → Bool) : Function := fun symbol _ values =>
  match values with
  | [.number x, .number y] => .ok (some (.bool ((orderNumbers x y).any accepts)))
  | [.string s, .string t] => .ok (some (.bool (accepts (orderTexts s t))))
  | _ => .error (.mismatch symbol values)

/-- Joins texts if either side is one. -/
def join : Function := fun _ _ values =>
  match values with
  | [left, right] =>
    match left, right with
    | .string _, _ | _, .string _ => .ok (some (.string (left.text ++ right.text)))
    | _, _ => .ok none
  | _ => .ok none

def equal (wanted : Bool) : Function := fun _ words _ =>
  match words with
  | [a, b] => .ok (some (.bool (a.same b == wanted)))
  | _ => .ok none

def coalesce : Function := fun _ _ values =>
  match values with
  | [left, right] => .ok (some (if left.isNil then right else left))
  | _ => .ok none

/-- The truth of both sides is looked at, whatever the first one is. -/
def logical (f : Bool → Bool → Bool) : Function := fun symbol _ values =>
  match values with
  | [left, right] => do
    let l ← truthy symbol values left
    let r ← truthy symbol values right
    return some (.bool (f l r))
  | _ => .ok none

def negate : Function := fun symbol _ values =>
  match values with
  | [operand] => do return some (.bool !(← truthy symbol values operand))
  | _ => .ok none

/-- All branches have been evaluated when the condition is looked at. -/
def choose : Function := fun symbol _ values =>
  match values with
  | [condition, yes, no] => do
    return some (if ← truthy symbol values condition then yes else no)
  | [left, right] => do return some (if ← truthy symbol values left then left else right)
  | _ => .ok none

def always (value : Value) : Function := fun _ _ _ => .ok (some value)

def general : List (Symbol × Function) :=
  [(.var "nil", always .nil),
   (.infixOp "+", join),
   (.infixOp "==", equal true),
   (.infixOp "!=", equal false),
   (.infixOp "??", coalesce)]

def logic : List (Symbol × Function) :=
  [(.var "true", always (.bool true)),
   (.var "false", always (.bool false)),
   (.infixOp "&&", logical fun l r => l && r),
   (.infixOp "||", logical fun l r => l || r),
   (.prefixOp "!", negate),
   (.infixOp "<", compare Ordering.isLT),
   (.infixOp "<=", compare Ordering.isLE),
   (.infixOp ">", compare Ordering.isGT),
   (.infixOp ">=", compare Ordering.isGE),
   (.infixOp "?:", choose)]

def lookup? (options : Options) (symbol : Symbol) : Option Function :=
  (if options.logic then general ++ logic else general).lookup symbol

end Formula.Value.Library
