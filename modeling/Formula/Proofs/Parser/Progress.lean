import Formula.Proofs.Parser.Delimiters
import Formula.Proofs.Parser.WellFormed

/-! Reading ends and goes forward. Main statements: with every call and every turn of a loop counted,
reading goes no deeper than a multiple of the length of the text that is left; what it leaves is a
part of that text, a shorter one if it succeeds; and a question mark without a branch is read as if
no branch had been tried. -/
namespace Formula.Parser

open Item Formula.Tree Token

variable {τ α β : Type} {start mid : List Char}

/-! ### Limited depth -/

/-- What a reading comes to, what it leaves and its store; nothing if it would have to go deeper. -/
abbrev Limited (τ α : Type) := Option (Except Error α × List Char × τ)

namespace Limited

def map (f : α → β) (p : Limited τ α) : Limited τ β :=
  Option.map (fun (result, rest, branches) => (result.map f, rest, branches)) p

def next (p : Limited τ α) (f : α → List Char → τ → Limited τ β) : Limited τ β :=
  match p with
  | none => none
  | some (.error error, rest, branches) => some (.error error, rest, branches)
  | some (.ok value, rest, branches) => f value rest branches

end Limited

namespace Parse

/-- A parse that keeps within every limit. -/
def limited (p : Parse τ start α) : Limited τ α := some (p.result, p.rest, p.branches)

theorem limited_widen (p : Parse τ mid α) (h : mid <:+ start) : (p.widen h).limited = p.limited :=
  rfl

theorem limited_map (f : α → β) (p : Parse τ start α) : (p.map f).limited = p.limited.map f := rfl

theorem limited_next {p : Parse τ start α} {f : α → List Char → τ → Limited τ β}
    {g : α → (rest : List Char) → rest <:+ start → τ → Parse τ rest β}
    (h : ∀ value rest hr branches, f value rest branches = (g value rest hr branches).limited) :
    p.limited.next f = (p.next g).limited := by
  obtain ⟨result, rest, branches, suffix⟩ := p
  cases result with
  | error error => rfl
  | ok value => exact h value rest suffix branches

end Parse

variable [BranchTable τ]

mutual

/-- As `shift`, with a limit to the depth of calls. -/
def shiftWithin (depth : Nat) (delimiters : List String) (s : State) (cs : List Char)
    (branches : τ) : Limited τ (Tree Float) :=
  match depth with
  | 0 => none
  | depth + 1 =>
    if cs.isEmpty || atAny delimiters cs then some (s.finish, cs, branches)
    else
      match nextToken cs with
      | .error fault => some (.error (faultError cs fault), cs, branches)
      | .ok (token, followed, rest) =>
        match action s followed token with
        | .push item => shiftWithin depth delimiters (s.push item followed) rest branches
        | .comma => shiftWithin depth delimiters s.comma rest branches
        | .group =>
          (subexpressionWithin depth [")"] rest branches).next fun tree cs' branches =>
            (expect ')' cs' branches).limited.next fun _ after branches =>
              shiftWithin depth delimiters (s.push (operand tree) (startsBlank after))
                (skipBlank after) branches
        | .call callee =>
          (argumentsWithin depth rest branches).next fun args after branches =>
            shiftWithin depth delimiters
              (s.replace (apply (.function callee args.length) args) (startsBlank after))
              (skipBlank after) branches
        | .subscript array =>
          (subexpressionWithin depth ["]"] rest branches).next fun tree cs' branches =>
            (expect ']' cs' branches).limited.next fun _ after branches =>
              shiftWithin depth delimiters
                (s.replace (apply (.array array) [tree]) (startsBlank after)) (skipBlank after)
                branches
        | .ternary item =>
          match branchWithin depth rest branches with
          | none => none
          | some (some (yes, taken), branches) =>
            shiftWithin depth delimiters (s.push (.branch yes) true) (rest.drop taken) branches
          | some (none, branches) =>
            shiftWithin depth delimiters (s.push item followed) rest branches
        | .refuse text => some (.error (.unexpectedToken text), rest, branches)

def subexpressionWithin (depth : Nat) (delimiters : List String) (cs : List Char) (branches : τ) :
    Limited τ (Tree Float) :=
  match depth with
  | 0 => none
  | depth + 1 => shiftWithin depth delimiters .start (skipBlank cs) branches

def argumentsWithin (depth : Nat) (cs : List Char) (branches : τ) :
    Limited τ (List (Tree Float)) :=
  match depth with
  | 0 => none
  | depth + 1 =>
    match cs with
    | [] => someArgumentsWithin depth [] branches
    | c :: rest =>
      if c = ')' then some (.ok [], rest, branches)
      else someArgumentsWithin depth (c :: rest) branches

def someArgumentsWithin (depth : Nat) (cs : List Char) (branches : τ) :
    Limited τ (List (Tree Float)) :=
  match depth with
  | 0 => none
  | depth + 1 =>
    (subexpressionWithin depth [",", ")"] cs branches).next fun tree after branches =>
      match after with
      | [] => ((expect ')' [] branches).map fun _ => [tree]).limited
      | c :: rest =>
        if c = ',' then (someArgumentsWithin depth rest branches).map (tree :: ·)
        else ((expect ')' (c :: rest) branches).map fun _ => [tree]).limited

def branchWithin (depth : Nat) (cs : List Char) (branches : τ) : Option (Branch × τ) :=
  match depth with
  | 0 => none
  | depth + 1 =>
    match BranchTable.find? branches cs.length with
    | some known => some (known, branches)
    | none =>
      match subexpressionWithin depth [":"] cs (BranchTable.enter branches cs.length) with
      | none => none
      | some (result, rest, branches) =>
        let found := match result with
          | .ok yes =>
            if atAny [":"] rest then some (yes, cs.length - (skipBlank (rest.drop 1)).length)
            else none
          | .error _ => none
        some (found, BranchTable.insert branches cs.length found)

end

/-! A limit above four times the number of characters left is not reached by a turn of the loop: the
turn takes a token off. A call on the same text needs one more for each call before the loop. -/

mutual

theorem shiftWithin_eq {depth : Nat} (delimiters : List String) (s : State) (cs : List Char)
    (branches : τ) (h : 4 * cs.length < depth) :
    shiftWithin depth delimiters s cs branches = (shift delimiters s cs branches).limited := by
  obtain ⟨depth, rfl⟩ := Nat.exists_eq_add_one.2 (Nat.zero_lt_of_lt h)
  rw [shiftWithin]
  by_cases hc : Continues delimiters cs
  · rw [if_neg hc]
    cases hn : nextToken cs with
    | error fault =>
      rw [shift_fault hc hn]
      rfl
    | ok found =>
      obtain ⟨token, followed, rest⟩ := found
      have hlt := (nextToken_suffix hn).2
      rw [shift_token hc hn, Parse.limited_widen]
      dsimp only
      cases action s followed token <;> dsimp only [perform]
      case push item => exact shiftWithin_eq delimiters _ rest branches (by omega)
      case comma => exact shiftWithin_eq delimiters _ rest branches (by omega)
      case group =>
        rw [subexpressionWithin_eq [")"] rest branches (by omega)]
        refine Parse.limited_next fun tree cs' h' branches => ?_
        refine Parse.limited_next fun _ after h'' branches => ?_
        have := ((skipBlank_suffix after).trans (h''.trans h')).length_le
        exact shiftWithin_eq delimiters _ (skipBlank after) branches (by omega)
      case call callee =>
        rw [argumentsWithin_eq rest branches (by omega)]
        refine Parse.limited_next fun args after h' branches => ?_
        have := ((skipBlank_suffix after).trans h').length_le
        exact shiftWithin_eq delimiters _ (skipBlank after) branches (by omega)
      case subscript array =>
        rw [subexpressionWithin_eq ["]"] rest branches (by omega)]
        refine Parse.limited_next fun tree cs' h' branches => ?_
        refine Parse.limited_next fun _ after h'' branches => ?_
        have := ((skipBlank_suffix after).trans (h''.trans h')).length_le
        exact shiftWithin_eq delimiters _ (skipBlank after) branches (by omega)
      case ternary item =>
        rw [branchWithin_eq rest branches (by omega), ← Prod.eta (branch rest branches)]
        cases (branch rest branches).1 with
        | none => exact shiftWithin_eq delimiters _ rest _ (by omega)
        | some found =>
          have := (List.drop_suffix found.2 rest).length_le
          exact shiftWithin_eq delimiters _ (rest.drop found.2) _ (by omega)
      case refuse text => rfl
  · rw [if_pos (Decidable.not_not.mp hc), shift_stop hc]
    rfl
termination_by 4 * cs.length

theorem subexpressionWithin_eq {depth : Nat} (delimiters : List String) (cs : List Char)
    (branches : τ) (h : 4 * cs.length + 1 < depth) :
    subexpressionWithin depth delimiters cs branches =
      (subexpression delimiters cs branches).limited := by
  obtain ⟨depth, rfl⟩ := Nat.exists_eq_add_one.2 (Nat.zero_lt_of_lt h)
  have := (skipBlank_suffix cs).length_le
  rw [subexpressionWithin, subexpression]
  exact shiftWithin_eq delimiters .start (skipBlank cs) branches (by omega)
termination_by 4 * cs.length + 1

theorem argumentsWithin_eq {depth : Nat} (cs : List Char) (branches : τ)
    (h : 4 * cs.length + 3 < depth) :
    argumentsWithin depth cs branches = (arguments cs branches).limited := by
  obtain ⟨depth, rfl⟩ := Nat.exists_eq_add_one.2 (Nat.zero_lt_of_lt h)
  rw [argumentsWithin.eq_def, arguments.eq_def]
  cases cs with
  | nil => exact someArgumentsWithin_eq [] branches (by omega)
  | cons c rest =>
    dsimp only
    split
    · rfl
    · exact someArgumentsWithin_eq (c :: rest) branches (by omega)
termination_by 4 * cs.length + 3

theorem someArgumentsWithin_eq {depth : Nat} (cs : List Char) (branches : τ)
    (h : 4 * cs.length + 2 < depth) :
    someArgumentsWithin depth cs branches = (someArguments cs branches).limited := by
  obtain ⟨depth, rfl⟩ := Nat.exists_eq_add_one.2 (Nat.zero_lt_of_lt h)
  rw [someArgumentsWithin, someArguments_eq, subexpressionWithin_eq _ cs branches (by omega)]
  refine Parse.limited_next fun tree after h' branches => ?_
  have := h'.length_le
  cases after with
  | nil => rfl
  | cons c rest =>
    dsimp only [followArgument]
    split
    · rw [List.length_cons] at this
      rw [someArgumentsWithin_eq rest branches (by omega), ← Parse.limited_map,
        Parse.limited_widen]
    · rfl
termination_by 4 * cs.length + 2

theorem branchWithin_eq {depth : Nat} (cs : List Char) (branches : τ)
    (h : 4 * cs.length + 2 < depth) :
    branchWithin depth cs branches = some (branch cs branches) := by
  obtain ⟨depth, rfl⟩ := Nat.exists_eq_add_one.2 (Nat.zero_lt_of_lt h)
  rw [branchWithin, branch.eq_def]
  cases BranchTable.find? branches cs.length with
  | some known => rfl
  | none =>
    dsimp only
    rw [subexpressionWithin_eq [":"] cs _ (by omega)]
    rfl
termination_by 4 * cs.length + 2

end

/-! ### What a reading leaves -/

section
variable {cs : List Char} {delimiters : List String} {tree : Tree Float}

/-- Nothing is read to a tree without a token. -/
theorem subexpression_shorter (h : (subexpression delimiters cs ()).result = .ok tree) :
    (subexpression delimiters cs ()).rest.length < cs.length := by
  have hblank := (skipBlank_suffix cs).length_le
  rw [subexpression] at h ⊢
  change (shift delimiters .start (skipBlank cs) ()).result = .ok tree at h
  show (shift delimiters .start (skipBlank cs) ()).rest.length < cs.length
  by_cases hc : Continues delimiters (skipBlank cs)
  · obtain ⟨s, mid, hstrides, -, hrest⟩ := shift_strides hc h
    have hle := (shift delimiters s mid ()).suffix.length_le
    have hlt := hstrides.shorter
    rw [← hrest]
    omega
  · rw [shift_stop hc] at h
    have hfinish := finish_start.symm.trans h
    cases hfinish

theorem subexpression_stops (h : (subexpression delimiters cs ()).result = .ok tree) :
    (subexpression delimiters cs ()).rest = [] ∨
      ∃ delimiter ∈ delimiters, delimiter.toList <+: (subexpression delimiters cs ()).rest := by
  have hstop := Decidable.not_not.mp (kept.of_subexpression h).1
  rw [Bool.or_eq_true, List.isEmpty_iff, atAny, List.any_eq_true] at hstop
  refine hstop.imp id ?_
  rintro ⟨delimiter, hmem, hat⟩
  rw [atDelimiter, Bool.and_eq_true] at hat
  exact ⟨delimiter, hmem, List.isPrefixOf_iff_prefix.1 hat.1⟩

end

/-- Where no branch is found, the question mark is an operator and reading goes on behind it. -/
theorem perform_unbranched {delimiters : List String} {s : State} {followed : Bool} {item : Item}
    {cs : List Char} {branches : τ} (h : (branch cs branches).1 = none) :
    perform delimiters s followed cs branches (.ternary item) =
      shift delimiters (s.push item followed) cs (branch cs branches).2 := by
  dsimp only [perform]
  rw [← Prod.eta (branch cs branches), h]

/-- A parser of the source after any readings, also failed ones. -/
def Reached (source : String) (p : Parser) : Prop :=
  ∃ earlier : List (List String), ((ofSource source).readAll earlier).2 = p

/-- Whatever was read before and whatever the delimiters are, a reading ends, and does so within a
depth that the length of the text left to it gives. It leaves an end of that text; if it succeeds, a
shorter one that is empty or starts with a delimiter. A branch that was tried in vain, now or
before, leaves all of the text that it was tried on. -/
theorem read_progress {source : String} {p : Parser} (h : Reached source p)
    (delimiters : List String) :
    let (result, after) := p.read delimiters
    subexpressionWithin (4 * p.rest.length + 2) delimiters p.rest p.branches =
        some (result, after.rest, after.branches) ∧
      (∃ taken : String, String.ofList p.rest = taken ++ String.ofList after.rest) ∧
      (∀ tree, result = .ok tree → after.rest.length < p.rest.length ∧
        (after.rest = [] ∨ ∃ delimiter ∈ delimiters, delimiter.toList <+: after.rest)) ∧
      ∀ (s : State) (followed : Bool) (item : Item) (cs : List Char) (branches : Branches),
        (branch cs branches).1 = none → perform delimiters s followed cs branches (.ternary item) =
          shift delimiters (s.push item followed) cs (branch cs branches).2 := by
  obtain ⟨earlier, rfl⟩ := h
  obtain ⟨hrest, hstore⟩ := readAll_faithful earlier
    (show (ofSource source).rest <:+ source.toList from List.suffix_rfl)
    (Branches.faithful_empty source.toList)
  generalize ((ofSource source).readAll earlier).2 = p at hrest hstore
  have hagrees := subexpression_agrees delimiters hrest hstore
  refine ⟨subexpressionWithin_eq delimiters p.rest p.branches (by omega), ?_, ?_,
    fun s followed item cs branches => perform_unbranched⟩
  · obtain ⟨taken, htaken⟩ := (subexpression delimiters p.rest p.branches).suffix
    refine ⟨String.ofList taken, ?_⟩
    rw [← String.ofList_append]
    exact congrArg String.ofList htaken.symm
  · intro tree htree
    have hresult := hagrees.result.symm.trans htree
    have hshorter := subexpression_shorter hresult
    have hstops := subexpression_stops hresult
    rw [← hagrees.rest] at hshorter hstops
    exact ⟨hshorter, hstops⟩

theorem read_progress_unbranched :
    let p := ofSource "a ? b, c"
    let (result, after) := p.read [","]
    let s : State := ⟨[operand (named "a")], true⟩
    let item := operator .infixOp "?"
    Reached "a ? b, c" p ∧ result = .ok (apply (.infixOp "?") [named "a", named "b"]) ∧
      after.rest.length < p.rest.length ∧
      (∃ delimiter ∈ [","], delimiter.toList <+: after.rest) ∧
      (branch "b, c".toList p.branches).1 = none ∧
      perform [","] s true "b, c".toList p.branches (.ternary item) =
        shift [","] (s.push item true) "b, c".toList (branch "b, c".toList p.branches).2 := by
  intro p
  have hsource : "a ? b, c".toList = ['a', ' ', '?', ' ', 'b', ',', ' ', 'c'] := rfl
  have hpair : Readable (apply (.infixOp ",") [named "b", named "c"]) :=
    .infixOp (.inr (.inl rfl)) (by decide) (.var (by decide)) (.var (by decide))
  have hcolon : ∀ c ∈ (apply (.infixOp ",") [named "b", named "c"]).chunks, c.isColon = false := by
    intro c hc
    rw [chunks_infixOp] at hc
    fin_cases hc <;> rfl
  have hinner : (subexpression [":"] "b, c".toList ()).Ends
      (apply (.infixOp ",") [named "b", named "c"]) [] :=
    subexpression_row hpair (.of_readable hpair) (by simp [Closing])
      (fun c hc => passes_colon (hcolon c hc)) (by simp [Closes])
      (deaf_mute hpair (.of_readable hpair) (by simp [Mute])) not_continues_nil rfl
  have hbranch : (branch "b, c".toList ()).1 = none := branch_eq_none hinner rfl
  have hends : (subexpression [","] "a ? b, c".toList ()).Ends
      (apply (.infixOp "?") [named "a", named "b"]) [',', ' ', 'c'] := by
    have hd : Closing [","] := by simp [Closing]
    have hmark : scan ['?', ' ', 'b', ',', ' ', 'c'] =
        .ok (.operator "?", [' ', 'b', ',', ' ', 'c']) := rfl
    have hfinish : Stack.finish [operand (named "a"), operator .infixOp "?", operand (named "b")] =
        .ok (apply (.infixOp "?") [named "a", named "b"]) :=
      Stack.finish_of_collapse ((Stack.Joins.operator (by decide) fun _ _ => rfl).collapse
        Stack.waits_nil (Stack.yields_none "?") rfl)
    rw [hsource, subexpression]
    refine Parse.Ends.widen ?_ _
    refine .of_same (shift_name (show isName "a" = true by decide) hd rfl rfl) ?_
    refine .of_same (shift_operator (continues_cons hd (by decide)) hmark fun _ _ => hbranch) ?_
    refine .of_same (shift_name (show isName "b" = true by decide) hd rfl rfl) ?_
    show (shift [","] _ [',', ' ', 'c'] ()).Ends _ _
    rw [shift_stop (not_continues rfl)]
    exact ⟨hfinish, rfl⟩
  -- an empty delimiter stands everywhere, so a reading up to it fails and leaves all of the text
  have hreached : Reached "a ? b, c" p := by
    refine ⟨[[""]], ?_⟩
    show (⟨(subexpression [""] _ _).rest, (subexpression [""] _ _).branches⟩ : Parser) = _
    rw [subexpression]
    show (⟨(shift [""] _ _ _).rest, (shift [""] _ _ _).branches⟩ : Parser) = _
    rw [shift_stop (not_continues rfl)]
  obtain ⟨-, -, hread, hfailed⟩ := read_progress hreached [","]
  have hnone : (branch "b, c".toList p.branches).1 = none := by
    have hsuffix : "b, c".toList <:+ "a ? b, c".toList := ⟨"a ? ".toList, rfl⟩
    exact (branch_agrees hsuffix (Branches.faithful_empty _)).1.trans hbranch
  have hresult : (p.read [","]).1 = .ok (apply (.infixOp "?") [named "a", named "b"]) :=
    (read_ofSource "a ? b, c" [","]).1.trans hends.result
  have hrest : (p.read [","]).2.rest = [',', ' ', 'c'] :=
    (read_ofSource "a ? b, c" [","]).2.trans hends.rest
  obtain ⟨hshorter, hstops⟩ := hread _ hresult
  refine ⟨hreached, hresult, hshorter, hstops.resolve_left ?_, hnone, hfailed _ _ _ _ _ hnone⟩
  show (p.read [","]).2.rest ≠ []
  rw [hrest]
  exact List.cons_ne_nil _ _

end Formula.Parser
