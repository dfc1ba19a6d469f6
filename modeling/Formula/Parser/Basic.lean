import Formula.Parser.Shift
import Std.Data.HashMap

/-! Reading a formula in one pass. Tokens go on a stack that collapses at the end of each
subexpression. After a question mark the branch up to the colon is tried ahead, and its outcome
is kept for a later try from the same place. Main statement: what a parse leaves is a suffix of
what it was given, which is also why parsing ends. -/
namespace Formula.Parser

open Item Formula.Tree Token

/-- The tree of a branch and the number of characters it took with its colon, if there is one. -/
abbrev Branch := Option (Tree Float × Nat)

/-- A store of the branches tried so far, by the number of characters that remained. -/
class BranchTable (τ : Type) where
  find? : τ → Nat → Option Branch
  /-- Tells the store that a branch is going to be read. -/
  enter : τ → Nat → τ
  insert : τ → Nat → Branch → τ

abbrev Branches := Std.HashMap Nat Branch

instance : BranchTable Branches where
  find? table remaining := table[remaining]?
  enter table _ := table
  insert table remaining branch := table.insert remaining branch

/-- The store that forgets: every branch is read again. -/
instance : BranchTable Unit where
  find? _ _ := none
  enter _ _ := ()
  insert _ _ _ := ()

/-- What a parse from `start` comes to and where it stops, also when it fails. -/
structure Parse (τ : Type) (start : List Char) (α : Type) where
  result : Except Error α
  rest : List Char
  branches : τ
  suffix : rest <:+ start

namespace Parse

variable {τ α β : Type} {start mid : List Char}

def ok (value : α) (branches : τ) : Parse τ start α := ⟨.ok value, start, branches, List.suffix_rfl⟩

def fail (error : Error) (branches : τ) : Parse τ start α :=
  ⟨.error error, start, branches, List.suffix_rfl⟩

def widen (p : Parse τ mid α) (h : mid <:+ start) : Parse τ start α :=
  ⟨p.result, p.rest, p.branches, p.suffix.trans h⟩

def map (f : α → β) (p : Parse τ start α) : Parse τ start β :=
  ⟨p.result.map f, p.rest, p.branches, p.suffix⟩

/-- Goes on where `p` stopped, unless it failed. -/
def next (p : Parse τ start α)
    (f : α → (rest : List Char) → rest <:+ start → τ → Parse τ rest β) : Parse τ start β :=
  match p.result with
  | .error error => ⟨.error error, p.rest, p.branches, p.suffix⟩
  | .ok value => (f value p.rest p.suffix p.branches).widen p.suffix

end Parse

/-- Whether the delimiter stands at the start. One of operator characters has to be a whole
operator, or all of it but a sign after the delimiter. -/
def atDelimiter (cs : List Char) (delimiter : String) : Bool :=
  let text := delimiter.toList
  text.isPrefixOf cs &&
    match text with
    | [] => true
    | c :: _ =>
      if c == '.' || Charset.isOperator c then
        match operator? cs with
        | none => false
        | some op => text.isPrefixOf op && [[], ['-'], ['+'], ['!']].contains (op.drop text.length)
      else true

def atAny (delimiters : List String) (cs : List Char) : Bool := delimiters.any (atDelimiter cs)

def startsBlank : List Char → Bool
  | [] => false
  | c :: _ => Charset.isBlank c

/-- The token at the start, whether a blank or the end stands after it, and what follows the
blanks. -/
def nextToken (cs : List Char) : Except Fault (Token × Bool × List Char) :=
  match scan cs with
  | .error fault => .error fault
  | .ok (token, after) => .ok (token, after.isEmpty || startsBlank after, skipBlank after)

theorem nextToken_suffix {cs rest : List Char} {token : Token} {followed : Bool}
    (h : nextToken cs = .ok (token, followed, rest)) : rest <:+ cs ∧ rest.length < cs.length := by
  unfold nextToken at h
  split at h
  · simp at h
  · rename_i token after hscan
    simp only [Except.ok.injEq, Prod.mk.injEq] at h
    obtain ⟨-, -, rfl⟩ := h
    have hblank := skipBlank_suffix after
    exact ⟨hblank.trans (scan_suffix hscan).1,
      Nat.lt_of_le_of_lt hblank.length_le (scan_suffix hscan).2⟩

/-- Why no token could be scanned from `cs`. Unknown text is reported up to the next blank. -/
def faultError (cs : List Char) : Fault → Error
  | .overflow numeral => .unexpectedToken (String.ofList numeral)
  | .unclosed quote => .missingDelimiter (String.singleton quote)
  | .unknown => .unexpectedToken (String.ofList (cs.takeWhile fun c => !Charset.isBlank c))

variable {τ : Type}

/-- Takes the closing mark. -/
def expect (mark : Char) (cs : List Char) (branches : τ) : Parse τ cs Unit :=
  match cs with
  | c :: rest =>
    if c = mark then ⟨.ok (), rest, branches, List.suffix_cons ..⟩
    else .fail (.missingDelimiter (String.singleton mark)) branches
  | [] => .fail (.missingDelimiter (String.singleton mark)) branches

variable [BranchTable τ]

mutual

/-- Reads tokens onto the stack until the text ends or a delimiter stands at the start, and then
collapses the stack. -/
def shift (delimiters : List String) (s : State) (cs : List Char) (branches : τ) :
    Parse τ cs (Tree Float) :=
  if cs.isEmpty || atAny delimiters cs then ⟨s.finish, cs, branches, List.suffix_rfl⟩
  else
    match h : nextToken cs with
    | .error fault => .fail (faultError cs fault) branches
    | .ok (token, followed, rest) =>
      have hs := (nextToken_suffix h).1
      have := (nextToken_suffix h).2
      match action s followed token with
      | .push item => (shift delimiters (s.push item followed) rest branches).widen hs
      | .comma => (shift delimiters s.comma rest branches).widen hs
      | .group =>
        ((subexpression [")"] rest branches).next fun tree cs' h' branches =>
          (expect ')' cs' branches).next fun _ after' h'' branches =>
            have := h'.length_le
            have := h''.length_le
            have := (skipBlank_suffix after').length_le
            (shift delimiters (s.push (operand tree) (startsBlank after')) (skipBlank after')
              branches).widen (skipBlank_suffix after')).widen hs
      | .call callee =>
        ((arguments rest branches).next fun args after' h' branches =>
          have := h'.length_le
          have := (skipBlank_suffix after').length_le
          (shift delimiters
            (s.replace (apply (.function callee args.length) args) (startsBlank after'))
            (skipBlank after') branches).widen (skipBlank_suffix after')).widen hs
      | .subscript array =>
        ((subexpression ["]"] rest branches).next fun tree cs' h' branches =>
          (expect ']' cs' branches).next fun _ after' h'' branches =>
            have := h'.length_le
            have := h''.length_le
            have := (skipBlank_suffix after').length_le
            (shift delimiters (s.replace (apply (.array array) [tree]) (startsBlank after'))
              (skipBlank after') branches).widen (skipBlank_suffix after')).widen hs
      | .ternary item =>
        let (found, branches) := branch rest branches
        match found with
        | some (yes, taken) =>
          have hd := List.drop_suffix taken rest
          have := hd.length_le
          (shift delimiters (s.push (.branch yes) true) (rest.drop taken) branches).widen
            (hd.trans hs)
        | none => (shift delimiters (s.push item followed) rest branches).widen hs
      | .refuse text => (Parse.fail (.unexpectedToken text) branches).widen hs
termination_by 4 * cs.length

/-- Reads up to a delimiter, which is not taken, or to the end. -/
def subexpression (delimiters : List String) (cs : List Char) (branches : τ) :
    Parse τ cs (Tree Float) :=
  have := (skipBlank_suffix cs).length_le
  (shift delimiters .start (skipBlank cs) branches).widen (skipBlank_suffix cs)
termination_by 4 * cs.length + 1

/-- The arguments of a call and its closing parenthesis. -/
def arguments (cs : List Char) (branches : τ) : Parse τ cs (List (Tree Float)) :=
  match cs with
  | [] => someArguments [] branches
  | c :: rest =>
    if c = ')' then ⟨.ok [], rest, branches, List.suffix_cons ..⟩
    else someArguments (c :: rest) branches
termination_by 4 * cs.length + 3

/-- One argument and what follows it. -/
def someArguments (cs : List Char) (branches : τ) : Parse τ cs (List (Tree Float)) :=
  (subexpression [",", ")"] cs branches).next fun tree after h branches =>
    have := h.length_le
    match after with
    | [] => (expect ')' [] branches).map fun _ => [tree]
    | c :: rest =>
      if c = ',' then
        ((someArguments rest branches).map (tree :: ·)).widen (List.suffix_cons ..)
      else (expect ')' (c :: rest) branches).map fun _ => [tree]
termination_by 4 * cs.length + 2

/-- The branch of a conditional from after its question mark to after its colon. -/
def branch (cs : List Char) (branches : τ) : Branch × τ :=
  match BranchTable.find? branches cs.length with
  | some known => (known, branches)
  | none =>
    let p := subexpression [":"] cs (BranchTable.enter branches cs.length)
    let found := match p.result with
      | .ok yes =>
        if atAny [":"] p.rest then
          some (yes, cs.length - (skipBlank (p.rest.drop 1)).length)
        else none
      | .error _ => none
    (found, BranchTable.insert p.branches cs.length found)
termination_by 4 * cs.length + 2

end

end Formula.Parser
