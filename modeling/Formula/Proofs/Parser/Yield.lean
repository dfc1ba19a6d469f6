import Formula.Proofs.Parser.Reading
import Formula.Proofs.Token.Sequence

/-! Reading loses, repeats and reorders no token. Main statement: the tree of a source that is a
formula has the tokens of the source, brackets apart. -/
namespace Formula.Parser

open Item Formula.Tree Token

/-- The kind of a token shows in its text. -/
def Legible : Token → Prop
  | .number _ => True
  | .name text => ofName text = .name text ∧ ofOperator text = .name text
  | .quoted text => ofName text = .quoted text
  | .operator op => ofOperator op = .operator op
  | .punctuation c => isPunctuation c = true

theorem isQuote_of_isNameHead {c : Char} (h : Charset.isNameHead c = true) :
    Quoted.isQuote c = false := by
  by_cases hq : Quoted.isQuote c = true
  · rcases Quoted.isQuote_cases hq with rfl | rfl | rfl <;> exact absurd h (by decide)
  · simpa using hq

theorem ofName_of_name? {cs lexeme : List Char} (h : name? cs = some lexeme) :
    ofName (String.ofList lexeme) = .name (String.ofList lexeme) := by
  cases cs with
  | nil => simp [name?] at h
  | cons c cs =>
    simp only [name?, Option.ite_none_right_eq_some, Option.some.injEq] at h
    obtain ⟨hc, rfl⟩ := h
    have hq : Quoted.isQuote c = false := by
      rcases Bool.or_eq_true _ _ ▸ hc with hc | hc
      · exact isQuote_of_isNameHead hc
      · rw [Bool.and_eq_true, beq_iff_eq] at hc
        rw [hc.1]
        decide
    simp [ofName, hq]

theorem legible {cs rest : List Char} {token : Token} (h : scan cs = .ok (token, rest)) :
    Legible token := by
  cases scanned h with
  | number => trivial
  | name found =>
    refine ⟨ofName_of_name? found, ?_⟩
    have hname := isName_of_name? found
    rw [ofOperator, if_neg, if_pos hname]
    intro hcomma
    rw [hcomma] at hname
    exact absurd hname (by decide)
  | operator other found =>
    have hname := isName_of_operator? other found
    rw [Legible, ofOperator, if_neg, hname]
    · rfl
    · intro hcomma
      cases cs with
      | nil => simp [operator?] at found
      | cons c cs =>
        obtain ⟨hc, tail, rfl⟩ := operator?_head found
        have hlist := congrArg String.toList hcomma
        rw [String.toList_ofList] at hlist
        obtain rfl : c = ',' := (List.cons.inj hlist).1
        exact absurd hc (by decide)
  | punctuation _ mark => exact mark
  | quoted _ quote _ => simp [Legible, ofName, quote]

/-- What a token adds to the stack is the token itself, or a bracket that shows in no yield. -/
def Action.Fits (s : State) (token : Token) : Action → Prop
  | .push item => item.yield = [token] ∧ token.isBracket = false
  | .comma => token = .punctuation ','
  | .group => token = .punctuation '('
  | .call callee =>
    token = .punctuation '(' ∧ ∃ below, s.items = operand (named callee) :: below
  | .subscript array =>
    token = .punctuation '[' ∧ ∃ below, s.items = operand (named array) :: below
  | .ternary item => token = .operator "?" ∧ item.yield = [token]
  | .refuse _ => True

theorem callee?_eq_some {s : State} {callee : String} (h : s.callee? = some callee) :
    ∃ below, s.items = operand (named callee) :: below := by
  unfold State.callee? at h
  split at h
  · rename_i found below heq
    obtain rfl : found = callee := by simpa using h
    exact ⟨below, heq⟩
  · simp at h

theorem parenthesis_fits (s : State) : (parenthesis s).Fits s (.punctuation '(') := by
  unfold parenthesis
  split
  · rename_i callee hc
    exact ⟨rfl, callee?_eq_some hc⟩
  · split
    · trivial
    · rfl

theorem bracket_fits (s : State) : (bracket s).Fits s (.punctuation '[') := by
  unfold bracket
  split
  · rename_i array hc
    exact ⟨rfl, callee?_eq_some hc⟩
  · trivial

theorem action_fits (s : State) (followed : Bool) {token : Token} (h : Legible token) :
    (action s followed token).Fits s token := by
  cases token with
  | number value => exact ⟨rfl, rfl⟩
  | name text =>
    unfold Legible at h
    simp only [action, Action.Fits]
    split
    · exact ⟨by rw [yield_operator, h.2], rfl⟩
    · exact ⟨by rw [yield_operand, yield_named, h.1], rfl⟩
  | quoted text =>
    unfold Legible at h
    exact ⟨by rw [yield_operand, yield_named, h], rfl⟩
  | punctuation c =>
    simp only [action]
    split
    · rename_i hc
      exact hc ▸ parenthesis_fits s
    · split
      · rename_i hc
        exact hc ▸ bracket_fits s
      · split
        · rename_i hc
          exact congrArg Token.punctuation hc
        · trivial
  | operator op =>
    unfold Legible at h
    simp only [action]
    split
    · rename_i hop
      exact ⟨congrArg Token.operator hop.1, by rw [yield_operator, h]⟩
    · exact ⟨by rw [yield_operator, h], rfl⟩

/-- From `cs` to `k`, where reading stops, stand the tokens that the tree has more than the
stack. -/
def Gathers (delimiters : List String) (s : State) (cs : List Char) (tree : Tree Float)
    (k : List Char) : Prop :=
  ¬Continues delimiters k ∧ ∃ between, Spells cs between k ∧
    spelled tree.yield = spelled (yields s.items.reverse ++ between)

def GathersAll (cs : List Char) (args : List (Tree Float)) (k : List Char) : Prop :=
  Spells cs ([Token.punctuation ','].intercalate (args.map Tree.yield)) k

theorem nextToken_scan {cs rest : List Char} {token : Token} {followed : Bool}
    (h : nextToken cs = .ok (token, followed, rest)) :
    ∃ after, scan cs = .ok (token, after) ∧ rest = skipBlank after := by
  unfold nextToken at h
  split at h
  · simp at h
  · rename_i after hscan
    simp only [Except.ok.injEq, Prod.mk.injEq] at h
    obtain ⟨rfl, -, rfl⟩ := h
    exact ⟨after, hscan, rfl⟩

/-- What a token that was read asks for fits it. -/
theorem fits_of_nextToken {s : State} {cs rest : List Char} {token : Token} {followed : Bool}
    {asked : Action} (hn : nextToken cs = .ok (token, followed, rest))
    (ha : action s followed token = asked) :
    ∃ after, scan cs = .ok (token, after) ∧ rest = skipBlank after ∧ asked.Fits s token := by
  obtain ⟨after, hscan, hrest⟩ := nextToken_scan hn
  refine ⟨after, hscan, hrest, ?_⟩
  rw [← ha]
  exact action_fits s followed (legible hscan)

/-- At the end of a branch stands a colon, with nothing or a sign written to it. -/
theorem starts_colon {cs : List Char} (h : atAny [":"] cs = true) :
    ∃ tail, cs = ':' :: tail ∧
      tail.takeWhile Charset.isOperator ∈ [[], ['-'], ['+'], ['!']] := by
  have hcolon : (":" : String).toList = [':'] := rfl
  have hop : Charset.isOperator ':' = true := by decide
  simp only [atAny, List.any_cons, List.any_nil, Bool.or_false, atDelimiter, hcolon, hop,
    Bool.and_eq_true] at h
  obtain ⟨hp, hsign⟩ := h
  obtain ⟨tail, rfl⟩ : [':'] <+: cs := List.isPrefixOf_iff_prefix.1 hp
  rw [List.cons_append, List.nil_append] at hsign ⊢
  simp only [operator?, hop, if_true] at hsign
  exact ⟨tail, rfl, by simpa using hsign⟩

/-- A colon that ends a branch is a token, or starts one that is split there. -/
theorem spells_colon {cs : List Char} (h : atAny [":"] cs = true) :
    Spells cs [.operator ":"] (skipBlank (cs.drop 1)) := by
  obtain ⟨tail, rfl, hsign⟩ := starts_colon h
  exact (Spells.of_colon hsign).to_skipBlank

theorem comma_yields (s : State) :
    yields s.comma.items.reverse = yields s.items.reverse ++ [.punctuation ','] := by
  have hcomma : ofOperator "," = .punctuation ',' := rfl
  unfold State.comma
  dsimp only
  split
  · rename_i op below heq
    simp [heq, hcomma]
  · simp [hcomma]

theorem kept : Kept Gathers GathersAll where
  stop hc hf := ⟨hc, [], .refl _, by rw [Stack.finish_yield hf, List.append_nil]⟩
  push := by
    intro delimiters s cs token followed rest item tree k hc hn ha ⟨hstop, between, hs, ht⟩
    obtain ⟨after, hscan, rfl, hitem, hbracket⟩ := fits_of_nextToken hn ha
    refine ⟨hstop, token :: between, (Spells.of_scan hscan hbracket).trans hs.of_skipBlank, ?_⟩
    simp only [ht, State.push, List.reverse_cons, yields_append, yields_cons, hitem, yields_nil]
    simp
  comma := by
    intro delimiters s cs token followed rest tree k hc hn ha ⟨hstop, between, hs, ht⟩
    obtain ⟨after, hscan, rfl, rfl⟩ := fits_of_nextToken hn ha
    refine ⟨hstop, .punctuation ',' :: between,
      (Spells.of_scan hscan rfl).trans hs.of_skipBlank, ?_⟩
    rw [ht, comma_yields]
    simp
  group := by
    intro delimiters s cs token followed rest inner after tree k hc hn ha ⟨_, inside, hi, hinner⟩
      ⟨hstop, between, hs, ht⟩
    obtain ⟨_, hscan, rfl, rfl⟩ := fits_of_nextToken hn ha
    have hclose : Spells (')' :: after) [] after := .of_bracket (scan_punctuation rfl) rfl
    refine ⟨hstop, inside ++ between, ?_, ?_⟩
    · have hrest := hi.of_skipBlank.trans (hclose.trans hs.of_skipBlank)
      exact (Spells.of_bracket hscan rfl).trans hrest.of_skipBlank
    · simp [ht, State.push, hinner, State.start]
  call := by
    intro delimiters s cs token followed rest name args after tree k hc hn ha hargs
      ⟨hstop, between, hs, ht⟩
    obtain ⟨_, hscan, rfl, rfl, below, hitems⟩ := fits_of_nextToken hn ha
    refine ⟨hstop, _, (Spells.of_bracket hscan rfl).trans
      (Spells.of_skipBlank (hargs.trans hs.of_skipBlank)), ?_⟩
    simp [ht, State.replace, hitems, yield_function]
  subscript := by
    intro delimiters s cs token followed rest name inner after tree k hc hn ha
      ⟨_, inside, hi, hinner⟩ ⟨hstop, between, hs, ht⟩
    obtain ⟨_, hscan, rfl, rfl, below, hitems⟩ := fits_of_nextToken hn ha
    have hclose : Spells (']' :: after) [] after := .of_bracket (scan_punctuation rfl) rfl
    refine ⟨hstop, inside ++ between, ?_, ?_⟩
    · have hrest := hi.of_skipBlank.trans (hclose.trans hs.of_skipBlank)
      exact (Spells.of_bracket hscan rfl).trans hrest.of_skipBlank
    · simp [ht, State.replace, hitems, hinner, State.start, yield_array]
  withBranch := by
    intro delimiters s cs token followed rest item yes middle tree k hc hn ha
      ⟨_, inside, hi, hyes⟩ hcolon ⟨hstop, between, hs, ht⟩
    obtain ⟨_, hscan, rfl, rfl, -⟩ := fits_of_nextToken hn ha
    refine ⟨hstop, _, (Spells.of_scan hscan rfl).trans
      (hi.of_skipBlank.of_skipBlank.trans ((spells_colon hcolon).trans hs)), ?_⟩
    have hmark : ofOperator "?" = .operator "?" := rfl
    have hcolon : ofOperator ":" = .operator ":" := rfl
    simp [ht, State.push, hyes, State.start, hmark, hcolon]
  withoutBranch := by
    intro delimiters s cs token followed rest item tree k hc hn ha ⟨hstop, between, hs, ht⟩
    obtain ⟨_, hscan, rfl, rfl, hitem⟩ := fits_of_nextToken hn ha
    refine ⟨hstop, _, (Spells.of_scan hscan rfl).trans hs.of_skipBlank, ?_⟩
    simp [ht, State.push, hitem]
  noArguments := .of_bracket (scan_punctuation rfl) rfl
  lastArgument := by
    intro cs tree rest ⟨_, between, hs, ht⟩
    have hclose : Spells (')' :: rest) [] rest := .of_bracket (scan_punctuation rfl) rfl
    refine (hs.of_skipBlank.trans hclose).congr ?_
    simp [ht, State.start]
  moreArguments := by
    intro cs tree rest trees after ⟨_, between, hs, ht⟩ hne hargs
    have hcomma : Spells (',' :: rest) [.punctuation ','] rest :=
      .of_scan (scan_punctuation rfl) rfl
    refine (hs.of_skipBlank.trans (hcomma.trans hargs)).congr ?_
    have hmap : trees.map Tree.yield ≠ [] := by simpa using hne
    simp [List.intercalate_cons_of_ne_nil hmap, ht, State.start]

/-- A reading of a whole text gathers the tokens of all of it. -/
theorem tokens_of_subexpression {cs : List Char} {tree : Tree Float}
    (h : (subexpression [] cs ()).result = .ok tree) :
    ∃ all, tokens cs = .ok all ∧ spelled tree.yield = spelled (unbracketed all) := by
  obtain ⟨hstop, between, hs, ht⟩ := kept.of_subexpression h
  generalize (subexpression [] cs ()).rest = k at hstop hs
  obtain rfl : k = [] := by
    cases k with
    | nil => rfl
    | cons c k => exact absurd (by simp [Continues, atAny]) hstop
  obtain ⟨all, hall, hspelled⟩ := hs.of_skipBlank [] tokens_nil
  refine ⟨all, hall, ?_⟩
  rw [hspelled]
  simp [ht, State.start, unbracketed]

end Formula.Parser

namespace Formula.Tree

open Formula.Parser Token Item

/-- The text of a formula scans from end to end, and its tokens without the brackets are those of
its tree from left to right; an operator that is a colon and a sign counts as two. -/
theorem ofSource_yield (source : String) (h : (ofSource source).error? = none) :
    ∃ all, tokens source.toList = .ok all ∧
      spelled (ofSource source).yield = spelled (unbracketed all) := by
  have hread := (read_ofSource source []).1
  unfold ofSource at h ⊢
  rw [hread] at h ⊢
  cases hp : (subexpression [] source.toList ()).result with
  | error error => simp [hp, error?] at h
  | ok tree => exact tokens_of_subexpression hp

/-- The brackets are passed over, and the colon and the sign after it, which are scanned as one
operator, stand apart in the tree. -/
theorem ofSource_yield_conditional :
    let source := "f(a?b:-c)"
    let all : List Token := [.name "f", .punctuation '(', .name "a", .operator "?", .name "b",
      .operator ":-", .name "c", .punctuation ')']
    (ofSource source).error? = none ∧ tokens source.toList = .ok all ∧
      (ofSource source).yield = [.name "f", .name "a", .operator "?", .name "b", .operator ":",
        .operator "-", .name "c"] ∧
      spelled (ofSource source).yield = spelled (unbracketed all) := by
  intro source all
  let choice : Tree Float :=
    apply (.infixOp "?:") [named "a", named "b", apply (.prefixOp "-") [named "c"]]
  have hclose : Closing [",", ")"] := by simp [Closing]
  have hwhole : Closing [] := by simp [Closing]
  have hyes : (subexpression [":"] ['b', ':', '-', 'c', ')'] ()).Ends (named "b")
      [':', '-', 'c', ')'] := by
    have hb : scan ['b', ':', '-', 'c', ')'] = .ok (.name "b", [':', '-', 'c', ')']) := rfl
    have hfinish : Stack.finish [operand (named "b")] = .ok (named "b") := by cbv
    rw [subexpression]
    refine Parse.Ends.widen ?_ (skipBlank_suffix _)
    refine .of_same (shift_push (continues_cons (by simp [Closing]) (by decide)) hb rfl) ?_
    rw [shift_stop (not_continues rfl)]
    exact ⟨hfinish, rfl⟩
  have hchoice : (subexpression [",", ")"] ['a', '?', 'b', ':', '-', 'c', ')'] ()).Ends choice
      [')'] := by
    have ha : scan ['a', '?', 'b', ':', '-', 'c', ')'] =
        .ok (.name "a", ['?', 'b', ':', '-', 'c', ')']) := rfl
    have hmark : scan ['?', 'b', ':', '-', 'c', ')'] =
        .ok (.operator "?", ['b', ':', '-', 'c', ')']) := rfl
    have hminus : scan ['-', 'c', ')'] = .ok (.operator "-", ['c', ')']) := rfl
    have hc : scan ['c', ')'] = .ok (.name "c", [')']) := rfl
    have hfinish : Stack.finish [operand (named "a"), .branch (named "b"),
        operator .prefixOp "-", operand (named "c")] = .ok choice := by cbv
    rw [subexpression]
    refine Parse.Ends.widen ?_ (skipBlank_suffix _)
    refine .of_same (shift_push (continues_cons hclose (by decide)) ha rfl) ?_
    refine .of_same (shift_branch (continues_cons hclose (by decide)) hmark rfl hyes rfl) ?_
    refine .of_same (shift_operator (continues_cons hclose (by decide)) hminus (by simp)) ?_
    refine .of_same (shift_push (continues_cons hclose (by decide)) hc rfl) ?_
    rw [shift_stop (not_continues rfl)]
    exact ⟨hfinish, rfl⟩
  have hread : (subexpression [] "f(a?b:-c)".toList ()).Ends (apply (.function "f" 1) [choice])
      [] := by
    have hf : scan ['f', '(', 'a', '?', 'b', ':', '-', 'c', ')'] =
        .ok (.name "f", ['(', 'a', '?', 'b', ':', '-', 'c', ')']) := rfl
    have hopen : scan ['(', 'a', '?', 'b', ':', '-', 'c', ')'] =
        .ok (.punctuation '(', ['a', '?', 'b', ':', '-', 'c', ')']) := rfl
    have hargs : (arguments ['a', '?', 'b', ':', '-', 'c', ')'] ()).Ends [choice] [] := by
      rw [arguments.eq_def]
      show (someArguments ['a', '?', 'b', ':', '-', 'c', ')'] ()).Ends _ _
      rw [someArguments_eq]
      refine hchoice.next fun _ => ?_
      exact (expect_ends ')' []).map _
    have hfinish : Stack.finish [operand (apply (.function "f" 1) [choice])] =
        .ok (apply (.function "f" 1) [choice]) := by cbv
    rw [subexpression]
    refine Parse.Ends.widen ?_ (skipBlank_suffix _)
    change (shift [] .start ['f', '(', 'a', '?', 'b', ':', '-', 'c', ')'] ()).Ends _ _
    refine .of_same (shift_push (continues_cons hwhole (by decide)) hf rfl) ?_
    refine .of_same (shift_call (continues_cons hwhole (by decide)) hopen rfl hargs) ?_
    show (shift [] _ [] ()).Ends _ _
    rw [shift_stop not_continues_nil]
    exact ⟨hfinish, rfl⟩
  have hsource : ofSource source = apply (.function "f" 1) [choice] := by
    unfold ofSource
    rw [(read_ofSource source []).1, show (subexpression [] source.toList ()).result = _ from
      hread.result]
  have hok : (ofSource source).error? = none := by
    rw [hsource]
    rfl
  have hall : tokens source.toList = .ok all := by cbv
  obtain ⟨scanned, hscanned, hyield⟩ := ofSource_yield source hok
  obtain rfl : all = scanned := Except.ok.inj (hall.symm.trans hscanned)
  refine ⟨hok, hall, ?_, hyield⟩
  rw [hsource]
  rfl

end Formula.Tree
