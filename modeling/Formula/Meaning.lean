import Formula.Tree.Basic

/-! Evaluation and constant folding of a tree whose symbols have been given a meaning. Both run
in the state of the host, which a call may change also when it fails. -/
namespace Formula

abbrev Action (σ α : Type) := ExceptT Error (StateM σ) α

/-- What the symbols of a formula do to a state `σ` and values `ν`. -/
structure Meaning (σ ν : Type) where
  call : Symbol → List ν → Action σ ν
  /-- The call depends on its arguments only, so it may be made ahead of evaluation. -/
  isPure : Symbol → Bool

namespace Tree

variable {σ ν : Type}

mutual

/-- Every argument is evaluated, left to right, before the symbol is called; the first error ends
the evaluation. -/
def evaluate (m : Meaning σ ν) : Tree ν → Action σ ν
  | literal value => pure value
  | apply symbol args => do
    let values ← evaluateAll m args
    m.call symbol values
  | malformed error _ => throw error

def evaluateAll (m : Meaning σ ν) : List (Tree ν) → Action σ (List ν)
  | [] => pure []
  | arg :: args => do
    let value ← evaluate m arg
    let values ← evaluateAll m args
    pure (value :: values)

end

/-- The values of arguments that are all literals. -/
def literals? : List (Tree ν) → Option (List ν)
  | [] => some []
  | literal value :: args => (literals? args).map (value :: ·)
  | _ :: _ => none

/-- A pure call of literals becomes its value. A call that fails stays, so that its error is
raised by evaluation. -/
def foldCall (m : Meaning σ ν) (symbol : Symbol) (args : List (Tree ν)) : StateM σ (Tree ν) :=
  if m.isPure symbol then
    match literals? args with
    | none => pure (apply symbol args)
    | some values => do
      match ← (m.call symbol values).run with
      | .ok value => pure (literal value)
      | .error _ => pure (apply symbol args)
  else pure (apply symbol args)

mutual

/-- Makes the pure calls of literals, innermost first and left to right. -/
def fold (m : Meaning σ ν) : Tree ν → StateM σ (Tree ν)
  | apply symbol args => do
    let args ← foldAll m args
    foldCall m symbol args
  | tree => pure tree

def foldAll (m : Meaning σ ν) : List (Tree ν) → StateM σ (List (Tree ν))
  | [] => pure []
  | arg :: args => do
    let arg ← fold m arg
    let args ← foldAll m args
    pure (arg :: args)

end

end Tree
end Formula
