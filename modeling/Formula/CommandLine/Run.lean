import Formula.Cache
import Formula.CommandLine.Arguments
import Formula.Mixed
import Formula.Number.Constant
import Formula.Report

/-! What the command line prints: the answer to its expression, or to each line of the input. -/
namespace Formula.CommandLine

inductive Failure where
  | report (r : Report)
  /-- Without strings every constant has to be a number. -/
  | constant (name : String)
  | lines (count : Nat)

def Failure.text : Failure → String
  | report r => r.error.text
  | constant name =>
    "Constant \x60" ++ name ++ "\x60 is not a number, use --any for string values"
  | lines count => toString count ++ (if count = 1 then " expression" else " expressions") ++ " failed"

namespace Invocation

def options (i : Invocation) : Options :=
  ⟨!i.has .noOptimize, i.has .logic, i.has .pureSymbols⟩

def listing (symbols : List Symbol) : String :=
  "\n".intercalate ((Symbol.sort symbols).map Symbol.describe)

/-- The constants by name, the last definition of a name first. -/
def numbers : List Definition → Except Failure (List (String × Float))
  | [] => .ok []
  | d :: ds =>
    match Number.ofText? d.value with
    | none => .error (.constant d.name)
    | some x => do return (← numbers ds) ++ [(d.name, x)]

def values (definitions : List Definition) : List (String × Value) :=
  (definitions.map fun d =>
    (d.name, ((Number.ofText? d.value).map Value.number).getD (.string d.value))).reverse

def answerNumber (i : Invocation) (source : String) (tree : Tree Float) :
    Except Failure String := do
  let constants ← numbers i.definitions
  let (e, memory) := (Expression.build { options := i.options, constants } tree).run ⟨(), []⟩
  if i.has .print then return e.text
  if i.has .symbols then return listing e.symbols
  match (e.evaluate.run memory).1 with
  | .ok x => return Number.format x
  | .error error => throw (.report ⟨error, source⟩)

def answerValue (i : Invocation) (source : String) (tree : Tree Float) : Except Failure String := do
  let constants := values i.definitions
  let (e, memory) := (Mixed.Expression.build { options := i.options, constants } tree).run
    { host := () }
  if i.has .print then return e.text memory.table
  if i.has .symbols then return listing e.symbols
  match (e.evaluate.run memory).1 with
  | .ok v => return v.text
  | .error error => throw (.report ⟨error, source⟩)

/-- The answer to one source. -/
def answer (i : Invocation) (source : String) : StateM Cache (Except Failure String) := do
  let tree ← if i.has .noCache then pure (Tree.ofSource source)
    else modifyGet fun cache => cache.read source
  match tree.error? with
  | some error => return .error (.report ⟨error, source⟩)
  | none =>
    return if i.has .anyValue then i.answerValue source tree else i.answerNumber source tree

end Invocation

/-- The lines of a text, without their line feeds. -/
def linesOf : List Char → List (List Char)
  | [] => [[]]
  | c :: cs =>
    if c = '\n' then [] :: linesOf cs
    else match linesOf cs with
      | line :: lines => (c :: line) :: lines
      | [] => [[c]]

/-- The trimmed lines with something on them. -/
def sourcesOf (input : String) : List String :=
  ((linesOf input.toList).map Charset.trim).filterMap fun line =>
    if line.isEmpty then none else some (String.ofList line)

structure Outcome where
  output : String
  /-- The failures of single lines. -/
  failed : List Failure
  failure : Option Failure

namespace Invocation

def answerAll (i : Invocation) : List String → StateM Cache (String × List Failure)
  | [] => pure ("", [])
  | source :: sources => do
    let result ← i.answer source
    let (output, failed) ← answerAll i sources
    match result with
    | .ok text => return (text ++ "\n" ++ output, failed)
    | .error failure => return (output, failure :: failed)

/-- Answers the expression or, without one, every line of the input. A line that fails does not
keep the others from being answered. -/
def run (i : Invocation) (input : String) : Outcome :=
  match i.expression with
  | some source =>
    match (i.answer source {}).1 with
    | .ok text => ⟨text ++ "\n", [], none⟩
    | .error failure => ⟨"", [], some failure⟩
  | none =>
    let (output, failed) := (i.answerAll (sourcesOf input) {}).1
    ⟨output, failed, if failed.isEmpty then none else some (.lines failed.length)⟩

end Invocation
end Formula.CommandLine
