import Formula.Token

/-! The arguments of the command line. A definition may follow its option as the next argument;
it is looked at when the next option, the expression or the end is reached, so that of two faults
the earlier one is told. -/
namespace Formula.CommandLine

/-- Options that are given or not. -/
inductive Flag where
  | logic
  | noOptimize
  | pureSymbols
  | anyValue
  | print
  | symbols
  | noCache
  | verbose
deriving DecidableEq

inductive Opt where
  | define
  | flag (f : Flag)
  | help
  | version

/-- Why the arguments are not run. -/
inductive Refusal where
  /-- An option without a meaning, or a second expression. -/
  | unknownArgument
  | missingValue
  | invalidDefinition (reason : String)
  /-- A flag given twice, or two flags that exclude each other. -/
  | conflict
  /-- A value attached to an option that takes none. -/
  | needlessValue
  | help
  | version

structure Definition where
  name : String
  value : String

/-- What the command line asks for. -/
structure Invocation where
  expression : Option String := none
  definitions : List Definition := []
  flags : List Flag := []

def Invocation.has (i : Invocation) (f : Flag) : Bool := i.flags.contains f

def long? (name : String) : Option Opt :=
  [("define", .define), ("bool", .flag .logic), ("no-optimize", .flag .noOptimize),
   ("pure", .flag .pureSymbols), ("any", .flag .anyValue), ("print", .flag .print),
   ("symbols", .flag .symbols), ("no-cache", .flag .noCache), ("verbose", .flag .verbose),
   ("help", .help), ("version", .version)].lookup name

def short? (c : Char) : Option Opt :=
  [('D', .define), ('v', .flag .verbose), ('h', .help), ('V', .version)].lookup c

/-- The part before the first `=` and the part after it. -/
def splitEquals : List Char → List Char × Option (List Char)
  | [] => ([], none)
  | c :: cs =>
    if c = '=' then ([], some cs)
    else
      let (before, after) := splitEquals cs
      (c :: before, after)

def Definition.ofText (text : String) : Except String Definition :=
  let (before, after) := splitEquals text.toList
  let name := String.ofList (Charset.trim before)
  match after with
  | none => .error ("expected NAME=VALUE, found \x60" ++ text ++ "\x60")
  | some value =>
    if Token.isName name then .ok ⟨name, String.ofList (Charset.trim value)⟩
    else .error ("\x60" ++ name ++ "\x60 is not a valid name")

/-- A definition option whose value has not been looked at. -/
inductive Pending where
  | nothing
  | awaited
  | given (text : String)

structure Progress where
  invocation : Invocation := {}
  pending : Pending := .nothing

namespace Progress

def define (p : Progress) (text : String) : Except Refusal Progress :=
  match Definition.ofText text with
  | .ok d =>
    let i := p.invocation
    .ok ⟨{ i with definitions := i.definitions ++ [d] }, .nothing⟩
  | .error reason => .error (.invalidDefinition reason)

/-- Looks at the value of the last definition option. -/
def settle (p : Progress) : Except Refusal Progress :=
  match p.pending with
  | .nothing => .ok p
  | .awaited => .error .missingValue
  | .given text => p.define text

def raise (p : Progress) (f : Flag) : Except Refusal Progress := do
  let p ← p.settle
  let i := p.invocation
  if i.has f then throw .conflict
  return { p with invocation := { i with flags := i.flags ++ [f] } }

def apply (p : Progress) : Opt → Except Refusal Progress
  | .define => do return { ← p.settle with pending := .awaited }
  | .flag f => p.raise f
  | .help => do
    let _ ← p.settle
    throw .help
  | .version => do
    let _ ← p.settle
    throw .version

def long (p : Progress) (text : List Char) : Except Refusal Progress :=
  let (name, value) := splitEquals text
  match long? (String.ofList name), value with
  | none, _ => .error .unknownArgument
  | some .define, some value => do (← p.settle).define (String.ofList value)
  | some _, some _ => .error .needlessValue
  | some opt, none => p.apply opt

/-- Several short options may share an argument; what follows a definition option is its
value. -/
def short (p : Progress) : List Char → Except Refusal Progress
  | [] => .ok p
  | c :: cs =>
    match short? c with
    | none => .error .unknownArgument
    | some .define =>
      match cs with
      | [] => p.apply .define
      | '=' :: value => do (← p.settle).define (String.ofList value)
      | value => do (← p.settle).define (String.ofList value)
    | some opt => do short (← p.apply opt) cs

def expression (p : Progress) (text : String) : Except Refusal Progress := do
  if p.invocation.expression.isSome then throw .unknownArgument
  let p ← p.settle
  return { p with invocation := { p.invocation with expression := some text } }

/-- An argument that is no option: a value, if one is awaited, or the expression. -/
def plain (p : Progress) (text : String) : Except Refusal Progress :=
  match p.pending with
  | .awaited => .ok { p with pending := .given text }
  | _ => p.expression text

def argument (p : Progress) (text : String) : Except Refusal Progress :=
  match text.toList with
  | '-' :: '-' :: cs => p.long cs
  | ['-'] => p.plain text
  | '-' :: cs => p.short cs
  | _ => p.plain text

/-- After a bare `--` no argument is an option. -/
def read (p : Progress) : List String → Except Refusal Progress
  | [] => p.settle
  | arg :: args => do
    if arg = "--" then (← args.foldlM expression p).settle
    else read (← p.argument arg) args

end Progress

def Invocation.ofArguments (args : List String) : Except Refusal Invocation := do
  let i := (← Progress.read {} args).invocation
  if i.has .print && i.has .symbols then throw .conflict
  return i

end Formula.CommandLine
