import Formula.Library
import Formula.Meaning
import Formula.Tree.Printer

/-! Formulas over numbers: the constants, arrays and functions of a host bound to the symbols of
a tree. Constants and arrays come first, then the functions of the host, then its evaluator, then
the library. -/
namespace Formula

/-- Asked about a symbol, an evaluator may decline, which leaves the symbol to the library. -/
abbrev Evaluator (σ ν : Type) := Symbol → List ν → Action σ (Option ν)

/-- What a host binds; of two entries for the same name or symbol the first counts. -/
structure Bindings (σ : Type) where
  options : Options := {}
  constants : List (String × Float) := []
  arrays : List (String × List Float) := []
  symbols : List (Symbol × (List Float → Action σ Float)) := []
  evaluator : Option (Evaluator σ Float) := none

/-- What lasts from one evaluation to the next: the state of the host, and the symbols that its
evaluator is no longer asked about. -/
structure Memory (σ : Type) where
  host : σ
  settled : List Symbol := []

namespace Memory

variable {σ α : Type}

/-- Runs an action of the host. -/
def onHost (action : Action σ α) : Action (Memory σ) α := fun memory =>
  let (result, host) := action.run memory.host
  (result, { memory with host })

def settle (symbol : Symbol) : Action (Memory σ) Unit :=
  modify fun memory => { memory with settled := symbol :: memory.settled }

def isSettled (symbol : Symbol) : Action (Memory σ) Bool := do
  return (← get).settled.contains symbol

end Memory

/-- What a symbol is bound to. -/
inductive Binding (σ : Type) where
  | constant (value : Float)
  | array (values : List Float)
  | host (f : List Float → Action σ Float)
  | evaluator (ask : List Float → Action σ (Option Float)) (fallback : Option Library.Function)
    (missing : Error)
  | library (f : Library.Function)
  | unbound (error : Error)

namespace Bindings

variable {σ : Type}

def missing (b : Bindings σ) (symbol : Symbol) : Error :=
  .unbound symbol <| aritiesOf symbol.name <|
    b.symbols.map Prod.fst ++ (Library.entries b.options).map Prod.fst

/-- The host's value for the symbol itself. -/
def data? (b : Bindings σ) : Symbol → Option (Binding σ)
  | .var name => (b.constants.lookup name).map .constant
  | .array name => (b.arrays.lookup name).map .array
  | _ => none

def resolve (b : Bindings σ) (symbol : Symbol) : Binding σ :=
  match b.data? symbol with
  | some data => data
  | none =>
    match b.symbols.lookup symbol with
    | some f => .host f
    | none =>
      let fallback := Library.lookup? b.options symbol
      match b.evaluator with
      | some ask => .evaluator (ask symbol) fallback (b.missing symbol)
      | none =>
        match fallback with
        | some f => .library f
        | none => .unbound (b.missing symbol)

/-- Variables of the host may change between evaluations, whatever is trusted. -/
def isPure (b : Bindings σ) (symbol : Symbol) : Bool :=
  b.options.optimize &&
    match b.resolve symbol with
    | .constant _ | .array _ | .library _ => true
    | .host _ => b.options.pureSymbols && !(symbol matches .var _)
    | .evaluator .. | .unbound _ => false

/-- The element at a subscript, which has to be a whole number inside the array. -/
def element (symbol : Symbol) (values : List Float) (args : List Float) :
    Except Error Float :=
  let index := Library.arg args 0
  match (Number.natural? index).bind fun place => values[place]? with
  | some value => .ok value
  | none => .error (.arrayBounds index symbol)

/-- Once the evaluator has declined a symbol that the library knows, it is not asked again when
the formula is optimized. -/
def callEvaluator (settles : Bool) (symbol : Symbol) (ask : List Float → Action σ (Option Float))
    (fallback : Option Library.Function) (missing : Error) (args : List Float) :
    Action (Memory σ) Float := do
  match fallback with
  | none =>
    match ← Memory.onHost (ask args) with
    | some value => return value
    | none => throw missing
  | some f =>
    if ← Memory.isSettled symbol then return f args
    match ← Memory.onHost (ask args) with
    | some value => return value
    | none =>
      if settles then Memory.settle symbol
      return f args

def call (b : Bindings σ) (symbol : Symbol) (args : List Float) : Action (Memory σ) Float :=
  match b.resolve symbol with
  | .constant value => pure value
  | .array values => liftExcept (element symbol values args)
  | .host f => Memory.onHost (f args)
  | .evaluator ask fallback missing =>
    callEvaluator b.options.optimize symbol ask fallback missing args
  | .library f => pure (f args)
  | .unbound error => throw error
where
  liftExcept {α : Type} : Except Error α → Action (Memory σ) α
    | .ok value => pure value
    | .error error => throw error

def meaning (b : Bindings σ) : Meaning (Memory σ) Float := ⟨b.call, b.isPure⟩

end Bindings

/-- A tree with its bindings, ready to be evaluated again and again. -/
structure Expression (σ : Type) where
  bindings : Bindings σ
  tree : Tree Float

namespace Expression

variable {σ : Type}

def build (b : Bindings σ) (tree : Tree Float) : StateM (Memory σ) (Expression σ) := do
  if b.options.optimize then return ⟨b, ← tree.fold b.meaning⟩
  return ⟨b, tree⟩

def evaluate (e : Expression σ) : Action (Memory σ) Float := e.tree.evaluate e.bindings.meaning

def symbols (e : Expression σ) : List Symbol := e.tree.symbols

def text (e : Expression σ) : String := e.tree.text

end Expression
end Formula
