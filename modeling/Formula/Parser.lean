import Formula.Parser.Basic

/-! Trees from source text. Reading a whole source never fails: text that is no formula becomes
a tree that says so. -/
namespace Formula

/-- A reader that takes one subexpression after another from the same source. -/
structure Parser where
  rest : List Char
  branches : Parser.Branches

namespace Parser

def ofSource (source : String) : Parser := ⟨source.toList, ∅⟩

/-- Reads up to one of the delimiters, which is not taken, or to the end. After an error the
reader stands where reading stopped. -/
def read (p : Parser) (delimiters : List String) : Except Error (Tree Float) × Parser :=
  let parsed := subexpression delimiters p.rest p.branches
  (parsed.result, ⟨parsed.rest, parsed.branches⟩)

end Parser

namespace Tree

def ofSource (source : String) : Tree Float :=
  match ((Parser.ofSource source).read []).1 with
  | .ok tree => tree
  | .error error => malformed error source

/-- The formula at the start of a larger text, up to the first of the delimiters, and the rest
of the text. Malformed text is the part that was read, without white space around it. -/
def ofPrefix (source : String) (delimiters : List String) : Tree Float × String :=
  let (result, parser) := (Parser.ofSource source).read delimiters
  let tree := match result with
    | .ok tree => tree
    | .error error =>
      let chars := source.toList
      malformed error (String.ofList (Charset.trim (chars.take (chars.length - parser.rest.length))))
  (tree, String.ofList parser.rest)

end Tree
end Formula
