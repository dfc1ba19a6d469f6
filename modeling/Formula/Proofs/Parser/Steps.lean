import Formula.Parser

/-! Reading one token at a time: `shift` is a scan followed by `perform`. -/
namespace Formula.Parser

open Item Formula.Tree Token

/-- Whether reading goes on: there is text and no delimiter stands at its start. -/
def Continues (delimiters : List String) (cs : List Char) : Prop :=
  ¬(cs.isEmpty || atAny delimiters cs) = true

variable {τ : Type} [BranchTable τ]

/-- What reading does with `rest` after a token that asked for the action. -/
def perform (delimiters : List String) (s : State) (followed : Bool) (rest : List Char)
    (branches : τ) : Action → Parse τ rest (Tree Float)
  | .push item => shift delimiters (s.push item followed) rest branches
  | .comma => shift delimiters s.comma rest branches
  | .group =>
    (subexpression [")"] rest branches).next fun tree cs' _ branches =>
      (expect ')' cs' branches).next fun _ after' _ branches =>
        (shift delimiters (s.push (operand tree) (startsBlank after')) (skipBlank after')
          branches).widen (skipBlank_suffix after')
  | .call callee =>
    (arguments rest branches).next fun args after' _ branches =>
      (shift delimiters
        (s.replace (apply (.function callee args.length) args) (startsBlank after'))
        (skipBlank after') branches).widen (skipBlank_suffix after')
  | .subscript array =>
    (subexpression ["]"] rest branches).next fun tree cs' _ branches =>
      (expect ']' cs' branches).next fun _ after' _ branches =>
        (shift delimiters (s.replace (apply (.array array) [tree]) (startsBlank after'))
          (skipBlank after') branches).widen (skipBlank_suffix after')
  | .ternary item =>
    match branch rest branches with
    | (some (yes, taken), branches) =>
      (shift delimiters (s.push (.branch yes) true) (rest.drop taken) branches).widen
        (List.drop_suffix taken rest)
    | (none, branches) => shift delimiters (s.push item followed) rest branches
  | .refuse text => .fail (.unexpectedToken text) branches

/-- What follows the first of some arguments. -/
def followArgument (tree : Tree Float) (branches : τ) :
    (after : List Char) → Parse τ after (List (Tree Float))
  | [] => (expect ')' [] branches).map fun _ => [tree]
  | c :: rest =>
    if c = ',' then ((someArguments rest branches).map (tree :: ·)).widen (List.suffix_cons ..)
    else (expect ')' (c :: rest) branches).map fun _ => [tree]

theorem someArguments_eq (cs : List Char) (branches : τ) :
    someArguments cs branches =
      (subexpression [",", ")"] cs branches).next fun tree after _ branches =>
        followArgument tree branches after := by
  rw [someArguments]
  congr
  funext tree after h branches
  cases after <;> rfl

/-- Without a store, a branch is what the reading up to its colon comes to. -/
theorem branch_forgetful (cs : List Char) :
    (branch cs ()).1 =
      match (subexpression [":"] cs ()).result with
      | .ok yes =>
        if atAny [":"] (subexpression [":"] cs ()).rest then
          some (yes,
            cs.length - (skipBlank ((subexpression [":"] cs ()).rest.drop 1)).length)
        else none
      | .error _ => none := by
  rw [branch]
  rfl

section
variable {delimiters : List String} {s : State} {cs rest : List Char} {branches : τ}
  {token : Token} {followed : Bool}

theorem shift_stop (h : ¬Continues delimiters cs) :
    shift delimiters s cs branches = ⟨s.finish, cs, branches, List.suffix_rfl⟩ := by
  rw [shift, if_pos (Decidable.not_not.mp h)]

theorem shift_fault {fault : Fault} (hc : Continues delimiters cs)
    (hn : nextToken cs = .error fault) :
    shift delimiters s cs branches = .fail (faultError cs fault) branches := by
  rw [shift, if_neg hc]
  split <;> simp_all

theorem shift_token (hc : Continues delimiters cs)
    (hn : nextToken cs = .ok (token, followed, rest)) :
    shift delimiters s cs branches =
      (perform delimiters s followed rest branches (action s followed token)).widen
        (nextToken_suffix hn).1 := by
  rw [shift, if_neg hc]
  split
  · simp_all
  · rename_i token' followed' rest' hn'
    obtain ⟨rfl, rfl, rfl⟩ : token = token' ∧ followed = followed' ∧ rest = rest' := by
      simpa [hn] using hn'
    cases action s followed token with
    | ternary item =>
      dsimp only [perform]
      rcases branch rest branches with ⟨_ | ⟨yes, taken⟩, branches'⟩ <;> rfl
    | _ => rfl

end
end Formula.Parser
