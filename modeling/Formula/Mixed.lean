import Formula.Value.Library
import Formula.Expression

/-! Formulas over values of any kind. They are evaluated as formulas over words: constants and
texts are put into a table when the formula is built, results while it is evaluated. A symbol has
a list of handlers, and the first that accepts the arguments answers. -/
namespace Formula.Mixed

/-- What a host binds; of two entries for the same name or symbol the first counts. A numeric
symbol accepts numbers only and leaves other arguments to the handlers after it. -/
structure Bindings (σ : Type) where
  options : Options := {}
  constants : List (String × Value) := []
  numericSymbols : List (Symbol × (List Float → Action σ Float)) := []
  symbols : List (Symbol × (List Value → Action σ Value)) := []
  evaluator : Option (Evaluator σ Value) := none

structure Memory (σ : Type) extends Formula.Memory σ where
  table : Table := .empty

namespace Memory

variable {σ α : Type}

def onBase (action : Action (Formula.Memory σ) α) : Action (Memory σ) α := fun memory =>
  let (result, base) := action.run memory.toMemory
  (result, { memory with toMemory := base })

def onHost (action : Action σ α) : Action (Memory σ) α := onBase (Formula.Memory.onHost action)

def box (value : Value) : StateM (Memory σ) Word := fun memory =>
  let (word, table) := memory.table.box value
  (word, { memory with table })

end Memory

/-- One way to evaluate a symbol. -/
inductive Handler (σ : Type) where
  | numeric (f : List Float → Action σ Float)
  | general (f : List Value → Action σ Value)
  | evaluator (ask : List Value → Action σ (Option Value))
  | operator (f : Value.Library.Function)
  /-- Fails unless all arguments are numbers. -/
  | library (f : Library.Function)
  | subscript (value : Value)

/-- The text of a variable between single or double quotes. -/
def textLiteral? : Symbol → Option String
  | .var name => (Quoted.unquote? '\x27' name).or (Quoted.unquote? '\x22' name)
  | _ => none

/-- The element of a list or the character of a text at a subscript. -/
def element (symbol : Symbol) (value : Value) (args : List Value) : Except Error Value :=
  match args with
  | [.number index] =>
    match Number.natural? index with
    | none => .error (.arrayBounds index symbol)
    | some place =>
      let found := match value with
        | .list values => some values[place]?
        | .string s => some (s.toList[place]?.map fun c => .string (String.singleton c))
        | _ => none
      match found with
      | some (some element) => .ok element
      | some none => .error (.arrayBounds index symbol)
      | none => .error (.mismatch symbol [value, .number index])
  | _ => .error (.mismatch symbol args)

def numbers? (values : List Value) : Option (List Float) := values.mapM Value.number?

namespace Handler

variable {σ : Type}

def isPure (trusted : Bool) : Handler σ → Bool
  | numeric _ | general _ => trusted
  | evaluator _ => false
  | operator _ | library _ | subscript _ => true

def isEvaluator : Handler σ → Bool
  | evaluator _ => true
  | _ => false

def isLibrary : Handler σ → Bool
  | operator _ | library _ => true
  | _ => false

def isNumeric : Handler σ → Bool
  | numeric _ => true
  | _ => false

def liftExcept {α : Type} : Except Error α → Action σ α
  | .ok value => pure value
  | .error error => throw error

/-- The answer, or nothing if the handler declines. -/
def call (symbol : Symbol) (words : List Word) (values : List Value) :
    Handler σ → Action σ (Option Value)
  | numeric f =>
    match numbers? values with
    | some numbers => do return some (.number (← f numbers))
    | none => pure none
  | general f => do return some (← f values)
  | evaluator ask => ask values
  | operator f => liftExcept (f symbol words values)
  | library f =>
    match numbers? values with
    | some numbers => pure (some (.number (f numbers)))
    | none => throw (.mismatch symbol values)
  | subscript value => liftExcept ((element symbol value values).map some)

end Handler

namespace Bindings

variable {σ : Type}

/-- The value of a symbol that stands for one: the text of a literal, or a constant. -/
def constant? (b : Bindings σ) (symbol : Symbol) : Option Value :=
  match textLiteral? symbol with
  | some text => some (.string text)
  | none =>
    match symbol with
    | .var name => b.constants.lookup name
    | _ => none

/-- The constant that an array symbol takes an element of. -/
def subscripted? (b : Bindings σ) : Symbol → Option Value
  | .array name => b.constants.lookup name
  | _ => none

/-- Functions of numbers come before functions of values, these before the evaluator, and it
before the library. -/
def handlers (b : Bindings σ) (symbol : Symbol) : List (Handler σ) :=
  match b.subscripted? symbol with
  | some value => [.subscript value]
  | none =>
    ((b.numericSymbols.lookup symbol).map Handler.numeric).toList ++
    ((b.symbols.lookup symbol).map Handler.general).toList ++
    (b.evaluator.map fun ask => Handler.evaluator (ask symbol)).toList ++
    ((Value.Library.lookup? b.options symbol).map Handler.operator).toList ++
    ((Library.lookup? {} symbol).map Handler.library).toList

def missing (b : Bindings σ) (symbol : Symbol) : Error :=
  .unbound symbol <| aritiesOf symbol.name <|
    b.numericSymbols.map Prod.fst ++ b.symbols.map Prod.fst ++ (Library.entries {}).map Prod.fst

/-- The answer of the first handler that gives one; `declined` tells whether the evaluator was
asked before. Once it has declined and the library answered, it is passed over from then on when
the formula is optimized. -/
def answer (b : Bindings σ) (symbol : Symbol) (words : List Word) (values : List Value) :
    (declined : Bool) → List (Handler σ) → Action (Memory σ) (Option Value)
  | _, [] => pure none
  | declined, handler :: handlers => do
    if handler.isEvaluator && (← Memory.onBase (Formula.Memory.isSettled symbol)) then
      answer b symbol words values declined handlers
    else
      match ← Memory.onHost (handler.call symbol words values) with
      | some value =>
        if declined && b.options.optimize && handler.isLibrary then
          Memory.onBase (Formula.Memory.settle symbol)
        return some value
      | none => answer b symbol words values (declined || handler.isEvaluator) handlers

/-- Calls the handlers of a symbol. If all decline, a numeric symbol was given other values. -/
def dispatch (b : Bindings σ) (symbol : Symbol) (words : List Word) : Action (Memory σ) Word := do
  let handlers := b.handlers symbol
  let table := (← get).table
  let values := words.map table.unbox
  match ← b.answer symbol words values false handlers with
  | some value => (Memory.box value : StateM (Memory σ) Word)
  | none =>
    throw (if handlers.any Handler.isNumeric then .mismatch symbol values else b.missing symbol)

/-- The words of the symbols that stand for a value. -/
abbrev Words := List (Symbol × Word)

def boxConstants (b : Bindings σ) : List Symbol → StateM (Memory σ) Words
  | [] => pure []
  | symbol :: symbols =>
    match b.constant? symbol with
    | none => boxConstants b symbols
    | some value => do
      let word ← Memory.box value
      let words ← boxConstants b symbols
      return (symbol, word) :: words

/-- Variables of the host may change between evaluations, whatever is trusted. -/
def isPure (b : Bindings σ) (symbol : Symbol) : Bool :=
  let trusted := b.options.pureSymbols && !(symbol matches .var _)
  let handlers := b.handlers symbol
  !handlers.isEmpty && handlers.all (Handler.isPure trusted)

def meaning (b : Bindings σ) (words : Words) : Meaning (Memory σ) Word where
  call symbol args :=
    match words.lookup symbol with
    | some word => pure word
    | none => b.dispatch symbol args
  isPure symbol := b.options.optimize && ((words.lookup symbol).isSome || b.isPure symbol)

end Bindings

/-- A tree of words with its bindings, ready to be evaluated again and again. -/
structure Expression (σ : Type) where
  bindings : Bindings σ
  words : Bindings.Words
  tree : Tree Word

namespace Expression

variable {σ : Type}

/-- All words of the built formula are of frozen places. -/
def build (b : Bindings σ) (tree : Tree Float) : StateM (Memory σ) (Expression σ) := do
  let words ← b.boxConstants tree.symbols
  let tree := tree.map Word.ofNumber
  let tree ← if b.options.optimize then tree.fold (b.meaning words) else pure tree
  modify fun memory => { memory with table := memory.table.freeze }
  return ⟨b, words, tree⟩

/-- What an evaluation adds to the table is dropped when it ends, also by an error. -/
def evaluate (e : Expression σ) : Action (Memory σ) Value := fun memory =>
  let (result, memory) := (e.tree.evaluate (e.bindings.meaning e.words)).run memory
  (result.map memory.table.unbox, { memory with table := memory.table.reset })

/-- The symbols that are left, without those that stand for their own text. -/
def symbols (e : Expression σ) : List Symbol :=
  e.tree.symbols.filter fun symbol => (textLiteral? symbol).isNone

def shownLiteral (value : Value) : Tree Float :=
  match value with
  | .number x => .literal x
  | .string s => .named (Quoted.encode '\x27' s)
  | .nil | .bool _ => .named value.text
  | .list _ | .object _ => .named (Quoted.encode '\x27' value.text)

mutual

def shown (table : Table) : Tree Word → Tree Float
  | .literal word => shownLiteral (table.unbox word)
  | .apply symbol args => .apply symbol (shownAll table args)
  | .malformed error source => .malformed error source

def shownAll (table : Table) : List (Tree Word) → List (Tree Float)
  | [] => []
  | arg :: args => shown table arg :: shownAll table args

end

/-- The text of the formula; a word is written as what it stands for in the table. -/
def text (e : Expression σ) (table : Table) : String := (shown table e.tree).text

end Expression
end Formula.Mixed
