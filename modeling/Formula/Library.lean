import Formula.Options
import Formula.Error

/-! The functions and operators on numbers that need no host. -/
namespace Formula

namespace Library

abbrev Function := List Float → Float

/-- The argument at a place; a NaN stands in for one that is missing. -/
def arg (args : List Float) (place : Nat) : Float := args.getD place (0 / 0)

def unary (f : Float → Float) : Function := fun args => f (arg args 0)

def binary (f : Float → Float → Float) : Function := fun args => f (arg args 0) (arg args 1)

def truth (f : Float → Float → Bool) : Function := binary fun x y => Number.ofBool (f x y)

/-- The circle constant. -/
def pi : Float := .ofBits 0x400921FB54442D18

/-- Both branches have been evaluated when the condition is looked at. -/
def choose : Function
  | [condition, yes, no] => if Number.truthy condition then yes else no
  | [left, right] => if Number.truthy left then left else right
  | _ => 0 / 0

/-- An operator written together with the sign of its right operand negates it first. -/
def arithmetic : List (Symbol × Function) :=
  [(.var "pi", fun _ => pi),
   (.infixOp "+", binary (· + ·)),
   (.infixOp "-", binary (· - ·)),
   (.infixOp "*", binary (· * ·)),
   (.infixOp "/", binary (· / ·)),
   (.infixOp "%", binary Number.remainder),
   (.infixOp "+-", binary fun x y => x + -y),
   (.infixOp "*-", binary fun x y => x * -y),
   (.infixOp "/-", binary fun x y => x / -y),
   (.prefixOp "-", unary fun x => -x),
   (.function "sqrt" 1, unary Float.sqrt),
   (.function "floor" 1, unary Float.floor),
   (.function "ceil" 1, unary Float.ceil),
   (.function "round" 1, unary Float.round),
   (.function "cos" 1, unary Float.cos),
   (.function "acos" 1, unary Float.acos),
   (.function "sin" 1, unary Float.sin),
   (.function "asin" 1, unary Float.asin),
   (.function "tan" 1, unary Float.tan),
   (.function "atan" 1, unary Float.atan),
   (.function "abs" 1, unary Float.abs),
   (.function "pow" 2, binary Float.pow),
   (.function "max" 2, binary Number.larger),
   (.function "min" 2, binary Number.smaller),
   (.function "atan2" 2, binary Float.atan2),
   (.function "mod" 2, binary Number.remainder)]

/-- Truth values are the numbers one and zero. -/
def logic : List (Symbol × Function) :=
  [(.var "true", fun _ => 1),
   (.var "false", fun _ => 0),
   (.infixOp "==", truth (· == ·)),
   (.infixOp "!=", truth (· != ·)),
   (.infixOp ">", truth (· > ·)),
   (.infixOp ">=", truth (· ≥ ·)),
   (.infixOp "<", truth (· < ·)),
   (.infixOp "<=", truth (· ≤ ·)),
   (.infixOp "&&", truth fun x y => Number.truthy x && Number.truthy y),
   (.infixOp "||", truth fun x y => Number.truthy x || Number.truthy y),
   (.prefixOp "!", unary fun x => Number.ofBool !(Number.truthy x)),
   (.infixOp "?:", choose)]

def entries (options : Options) : List (Symbol × Function) :=
  if options.logic then arithmetic ++ logic else arithmetic

def lookup? (options : Options) (symbol : Symbol) : Option Function :=
  (entries options).lookup symbol

end Library

/-- The arities of the functions with a name. -/
def aritiesOf (name : String) (symbols : List Symbol) : List Nat :=
  symbols.filterMap fun
    | .function other arity => if other = name then some arity else none
    | _ => none

/-- The difference of two arities. -/
def arityDistance (a b : Nat) : Nat := (a - b) + (b - a)

/-- The closest of some arities, the smaller one of two. -/
def nearestArity? (arity : Nat) : List Nat → Option Nat
  | [] => none
  | known :: others =>
    match nearestArity? arity others with
    | none => some known
    | some other =>
      let a := arityDistance known arity
      let b := arityDistance other arity
      some (if a < b ∨ (a = b ∧ known ≤ other) then known else other)

theorem nearestArity?_eq_none {arity : Nat} {arities : List Nat} :
    nearestArity? arity arities = none ↔ arities = [] := by
  cases arities with
  | nil => simp [nearestArity?]
  | cons known others =>
    simp only [nearestArity?, reduceCtorEq, iff_false]
    split <;> simp

theorem nearestArity?_mem {arity known : Nat} {arities : List Nat}
    (h : nearestArity? arity arities = some known) : known ∈ arities := by
  induction arities generalizing known with
  | nil => simp [nearestArity?] at h
  | cons first others ih =>
    simp only [nearestArity?] at h
    split at h
    · simp_all
    · rename_i other hother
      simp only [Option.some.injEq] at h
      split at h
      · exact h ▸ List.mem_cons_self
      · exact h ▸ List.mem_cons_of_mem _ (ih hother)

theorem nearestArity?_le {arity known : Nat} {arities : List Nat}
    (h : nearestArity? arity arities = some known) {other : Nat} (hmem : other ∈ arities) :
    arityDistance known arity < arityDistance other arity ∨
      arityDistance known arity = arityDistance other arity ∧ known ≤ other := by
  induction arities generalizing known with
  | nil => simp at hmem
  | cons first others ih =>
    simp only [nearestArity?] at h
    split at h
    · rename_i hnone
      simp_all [nearestArity?_eq_none.1 hnone]
    · rename_i best hbest
      simp only [Option.some.injEq] at h
      rcases List.mem_cons.1 hmem with rfl | hmem
      · subst h
        split <;> omega
      · have := ih hbest hmem
        subst h
        split <;> omega

/-- The error of a symbol that nothing is bound to. A function that takes other numbers of
arguments is reported by the closest of them. -/
def Error.unbound (symbol : Symbol) (arities : List Nat) : Error :=
  match symbol with
  | .function name arity =>
    match nearestArity? arity arities with
    | some known => arityMismatch (.function name known)
    | none => undefinedSymbol symbol
  | symbol => undefinedSymbol symbol

end Formula
