import Formula.CommandLine.Run

/-! The command line program. -/
open Formula.CommandLine

namespace Formula.CommandLine

def usage : String :=
  "Evaluate arithmetic, logical and string expressions\n\n" ++
  "Usage: formula [OPTIONS] [EXPRESSION]\n\n" ++
  "Reads one expression per line from standard input when EXPRESSION is omitted.\n\n" ++
  "Options:\n" ++
  "  -D, --define <NAME=VALUE>  Define a constant\n" ++
  "      --bool                 Enable boolean and conditional operators\n" ++
  "      --no-optimize          Disable constant folding\n" ++
  "      --pure                 Fold calls of functions with constant arguments\n" ++
  "      --any                  Evaluate with strings, booleans and nil\n" ++
  "      --print                Print the optimized expression instead of its value\n" ++
  "      --symbols              Print the symbols that are left, one per line\n" ++
  "      --no-cache             Read every expression anew\n" ++
  "  -v, --verbose              Accepted, without effect\n" ++
  "  -h, --help                 Print help\n" ++
  "  -V, --version              Print version\n"

def Refusal.text : Refusal → String
  | unknownArgument => "unexpected argument"
  | missingValue => "a value is required for --define"
  | invalidDefinition reason => "invalid value for --define: " ++ reason
  | conflict => "the arguments cannot be used together"
  | needlessValue => "unexpected value for an option"
  | help => usage
  | version => "formula 0.3.0\n"

/-- Prints a refusal and gives the exit code. -/
def refuse (r : Refusal) : IO UInt32 := do
  match r with
  | .help | .version =>
    IO.print r.text
    return 0
  | _ =>
    IO.eprintln ("error: " ++ r.text)
    return 2

end Formula.CommandLine

def main (args : List String) : IO UInt32 := do
  match Invocation.ofArguments args with
  | .error r => refuse r
  | .ok i =>
    let input ← match i.expression with
      | some _ => pure ""
      | none => (← IO.getStdin).readToEnd
    let outcome := i.run input
    IO.print outcome.output
    outcome.failed.forM fun failure => IO.eprintln failure.text
    match outcome.failure with
    | none => return 0
    | some failure =>
      IO.eprintln ("Error: " ++ failure.text)
      return 1
