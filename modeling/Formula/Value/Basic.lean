import Formula.Error

/-! Values of mixed formulas: numbers, texts, truth values, lists, nil and objects of the host. -/
namespace Formula

/-- Something of the host that formulas pass on unread. Two mentions of one object have one
identity. -/
structure Object where
  identity : Nat
  text : String
  type : String
deriving DecidableEq

inductive Value where
  | nil
  | bool (b : Bool)
  | number (x : Float)
  | string (s : String)
  | list (values : List Value)
  | object (o : Object)

namespace Value

def type : Value → String
  | nil => "nil"
  | bool _ => "boolean"
  | number _ => "number"
  | string _ => "string"
  | list _ => "array"
  | object o => o.type

def isNil : Value → Bool
  | nil => true
  | _ => false

def number? : Value → Option Float
  | number x => some x
  | _ => none

mutual

/-- Numbers are equal as numbers, so a NaN differs from itself and both zeros are equal; objects
are equal if they are the same. -/
protected def beq : Value → Value → Bool
  | nil, nil => true
  | bool a, bool b => a == b
  | number x, number y => x == y
  | string s, string t => s == t
  | list as, list bs => Value.beqAll as bs
  | object o, object p => o == p
  | _, _ => false

protected def beqAll : List Value → List Value → Bool
  | [], [] => true
  | a :: as, b :: bs => Value.beq a b && Value.beqAll as bs
  | _, _ => false

end

instance : BEq Value := ⟨Value.beq⟩

mutual

def text : Value → String
  | nil => "nil"
  | bool b => if b then "true" else "false"
  | number x => Number.format x
  | string s => s
  | list values => "[" ++ ", ".intercalate (texts values) ++ "]"
  | object o => o.text

def texts : List Value → List String
  | [] => []
  | value :: values => text value :: texts values

end

def expected (wanted : String) (value : Value) : Error :=
  .message ("Expected " ++ wanted ++ ", found " ++ value.type)

def toNumber : Value → Except Error Float
  | number x => .ok x
  | value => .error (expected "number" value)

def toBool : Value → Except Error Bool
  | bool b => .ok b
  | value => .error (expected "boolean" value)

def toText : Value → Except Error String
  | string s => .ok s
  | value => .error (expected "string" value)

end Value

/-- The error of a symbol that does not take values of these types. -/
def Error.mismatch (symbol : Symbol) (values : List Value) : Error :=
  .typeMismatch symbol (values.map Value.type)

end Formula
