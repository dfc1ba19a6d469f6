import Formula.Proofs.Parser.Reading
import Formula.Proofs.Parser.Yield
import Formula.Proofs.Token.Local

/-! Reading up to a closing parenthesis. Main statement: a reading that stops at the last
parenthesis of a text comes to the same, and stops at the same place, whatever is written after it.
A branch of a conditional is tried ahead, so this is also about attempts that fail: brackets match
where a reading succeeds, and no attempt gets past a bracket that it did not open. -/
namespace Formula.Parser

open Item Formula.Tree Token

variable {cs k mid r x y : List Char} {c : Char} {delimiters : List String}

/-! ### Matching brackets -/

/-- From the text to its rest stand whole tokens whose brackets match. -/
inductive Nests : List Char → List Char → Prop where
  | stop {k : List Char} : Nests k k
  | token {k cs r : List Char} {token : Token} (scanned : scan cs = .ok (token, r))
    (plain : token.isBracket = false) (later : Nests k (skipBlank r)) : Nests k cs
  | bracket {k cs r y : List Char} {opening closing : Char}
    (scanned : scan cs = .ok (.punctuation opening, r))
    (pair : (opening, closing) ∈ [('(', ')'), ('[', ']')])
    (inside : Nests (closing :: y) (skipBlank r)) (later : Nests k (skipBlank y)) : Nests k cs

namespace Nests

theorem suffix (h : Nests k cs) : k <:+ cs := by
  induction h with
  | stop => exact List.suffix_rfl
  | token hscan _ _ ih =>
    exact ih.trans ((skipBlank_suffix _).trans (scan_suffix hscan).1)
  | bracket hscan _ _ _ ihinside ihlater =>
    have hclose := ihinside.trans ((skipBlank_suffix _).trans (scan_suffix hscan).1)
    exact ihlater.trans ((skipBlank_suffix _).trans ((List.suffix_cons _ _).trans hclose))

theorem trans (h : Nests mid cs) (h' : Nests k mid) : Nests k cs := by
  induction h with
  | stop => exact h'
  | token hscan hplain _ ih => exact .token hscan hplain (ih h')
  | bracket hscan hpair hinside _ _ ih => exact .bracket hscan hpair hinside (ih h')

/-- What stands before the rest, if anything does, is told by the token at the start. -/
theorem after_token {token : Token} (h : Nests k cs) (hne : k ≠ cs)
    (hscan : scan cs = .ok (token, r)) (hplain : token.isBracket = false) :
    Nests k (skipBlank r) := by
  cases h with
  | stop => exact absurd rfl hne
  | token hscanned _ hlater =>
    rw [hscan] at hscanned
    cases hscanned
    exact hlater
  | bracket hscanned hpair _ _ =>
    rw [hscan] at hscanned
    cases hscanned
    simp only [List.mem_cons, Prod.mk.injEq, List.not_mem_nil, or_false] at hpair
    rcases hpair with ⟨rfl, -⟩ | ⟨rfl, -⟩ <;> exact absurd hplain (by decide)

/-- A closing bracket that was not opened is where the text ends. -/
theorem eq_of_closing (h : Nests k (c :: r)) (hc : c = ')' ∨ c = ']') : k = c :: r := by
  have hmark : isPunctuation c = true ∧ (Token.punctuation c).isBracket = true ∧ c ≠ '(' ∧
      c ≠ '[' := by
    rcases hc with rfl | rfl <;> decide
  have hscan : scan (c :: r) = .ok (.punctuation c, r) := scan_punctuation hmark.1
  generalize hcs : c :: r = cs at h hscan
  cases h with
  | stop => rfl
  | token hscanned hplain _ =>
    rw [hscan] at hscanned
    cases hscanned
    rw [hmark.2.1] at hplain
    cases hplain
  | bracket hscanned hpair _ _ =>
    rw [hscan] at hscanned
    cases hscanned
    simp only [List.mem_cons, Prod.mk.injEq, List.not_mem_nil, or_false] at hpair
    rcases hpair with ⟨rfl, -⟩ | ⟨rfl, -⟩
    · exact absurd rfl hmark.2.2.1
    · exact absurd rfl hmark.2.2.2

/-- The colon after a branch may be a token of its own or a part of one. -/
theorem of_colon (hcolon : atAny [":"] cs = true) (hk : ∀ c ∈ k.head?, c ∈ closers)
    (h : Nests k (skipBlank (cs.drop 1))) : Nests k cs := by
  obtain ⟨tail, rfl, hsign⟩ := starts_colon hcolon
  rcases scan_colon hsign with hscan | ⟨sign, after, hmem, hhead, hscan, hnext⟩
  · exact .token hscan rfl h
  · have hskip : skipBlank tail = tail := skipBlank_of_scan hnext
    have h : Nests k tail := hskip ▸ h
    refine .token hscan rfl (h.after_token ?_ hnext rfl)
    rintro rfl
    have hcloser := hk sign hhead
    simp only [List.mem_cons, List.not_mem_nil, or_false] at hmem
    rcases hmem with rfl | rfl | rfl <;> exact absurd hcloser (by decide)

theorem after_colon (hcolon : atAny [":"] cs = true) (hk : k.head? ≠ some ':') (h : Nests k cs) :
    Nests k (skipBlank (cs.drop 1)) := by
  obtain ⟨tail, rfl, hsign⟩ := starts_colon hcolon
  have hne : k ≠ ':' :: tail := by
    rintro rfl
    exact hk rfl
  rcases scan_colon hsign with hscan | ⟨sign, after, -, -, hscan, hnext⟩
  · exact h.after_token hne hscan rfl
  · have hskip : skipBlank tail = tail := skipBlank_of_scan hnext
    have hafter := h.after_token hne hscan rfl
    show Nests k (skipBlank tail)
    rw [hskip]
    exact .token hnext rfl hafter

end Nests

theorem head_of_not_continues (hd : Closing delimiters) (h : ¬Continues delimiters cs) :
    ∀ c ∈ cs.head?, c ∈ closers := by
  cases cs with
  | nil => rintro c ⟨⟩
  | cons d cs =>
    rintro c ⟨⟩
    by_contra hc
    exact h (continues_cons hd hc)

/-- The reading goes over whole tokens with matching brackets, up to a closing mark or the end. -/
def Balances (delimiters : List String) (_ : State) (cs : List Char) (_ : Tree Float)
    (k : List Char) : Prop :=
  Closing delimiters → Nests k cs ∧ ∀ c ∈ k.head?, c ∈ closers

/-- So do arguments, up to the parenthesis that closes them. -/
def BalancesAll (cs : List Char) (_ : List (Tree Float)) (k : List Char) : Prop :=
  Nests (')' :: k) (skipBlank cs)

theorem kept_balances : Kept Balances BalancesAll where
  stop hc _ hd := ⟨.stop, head_of_not_continues hd hc⟩
  push := by
    intro delimiters s cs token followed rest item tree k _ hn ha h hd
    obtain ⟨_, hscan, rfl, -, hbracket⟩ := fits_of_nextToken hn ha
    exact ⟨.token hscan hbracket (h hd).1, (h hd).2⟩
  comma := by
    intro delimiters s cs token followed rest tree k _ hn ha h hd
    obtain ⟨_, hscan, rfl, rfl⟩ := fits_of_nextToken hn ha
    exact ⟨.token hscan rfl (h hd).1, (h hd).2⟩
  group := by
    intro delimiters s cs token followed rest inner after tree k _ hn ha hinner h hd
    obtain ⟨_, hscan, rfl, rfl⟩ := fits_of_nextToken hn ha
    have hinside := (hinner (by simp [Closing])).1
    rw [skipBlank_skipBlank] at hinside
    exact ⟨.bracket hscan (by simp) hinside (h hd).1, (h hd).2⟩
  call := by
    intro delimiters s cs token followed rest name args after tree k _ hn ha hargs h hd
    obtain ⟨_, hscan, rfl, rfl, -⟩ := fits_of_nextToken hn ha
    rw [BalancesAll, skipBlank_skipBlank] at hargs
    exact ⟨.bracket hscan (by simp) hargs (h hd).1, (h hd).2⟩
  subscript := by
    intro delimiters s cs token followed rest name inner after tree k _ hn ha hinner h hd
    obtain ⟨_, hscan, rfl, rfl, -⟩ := fits_of_nextToken hn ha
    have hinside := (hinner (by simp [Closing])).1
    rw [skipBlank_skipBlank] at hinside
    exact ⟨.bracket hscan (by simp) hinside (h hd).1, (h hd).2⟩
  withBranch := by
    intro delimiters s cs token followed rest item yes middle tree k _ hn ha hyes hcolon h hd
    obtain ⟨_, hscan, rfl, rfl, -⟩ := fits_of_nextToken hn ha
    have hinside := (hyes (by simp [Closing])).1
    rw [skipBlank_skipBlank] at hinside
    have hlater := Nests.of_colon hcolon (h hd).2 (h hd).1
    exact ⟨.token hscan rfl (hinside.trans hlater), (h hd).2⟩
  withoutBranch := by
    intro delimiters s cs token followed rest item tree k _ hn ha h hd
    obtain ⟨_, hscan, rfl, rfl, -⟩ := fits_of_nextToken hn ha
    exact ⟨.token hscan rfl (h hd).1, (h hd).2⟩
  noArguments := .stop
  lastArgument h := (h (by simp [Closing])).1
  moreArguments h _ hargs :=
    (h (by simp [Closing])).1.trans (.token (scan_punctuation rfl) rfl hargs)

/-! ### Longer texts -/

theorem heads_append (h : Shut cs) (x : List Char) : Heads (cs ++ x) cs := by
  refine ⟨?_, h.operator?_append x⟩
  cases cs with
  | nil => exact absurd rfl h.ne_nil
  | cons c cs => rfl

theorem ends_append (h : Shut r) (x : List Char) :
    ends (r ++ x) = ends r ∧ startsBlank (r ++ x) = startsBlank r := by
  cases r with
  | nil => exact absurd rfl h.ne_nil
  | cons c r => exact ⟨rfl, rfl⟩

/-- Where a reading of a text stops, which is as told, and one of the text with `x` after it. -/
def Extends (x : List Char) (stops : List Char → Prop) (r r' : List Char) : Prop :=
  r' = r ++ x ∧ stops r

/-- A bracket is expected where it stands, and nowhere else. -/
theorem expect_extends {mark : Char} (hmark : mark = ')' ∨ mark = ']') (x r r' : List Char)
    (h : Extends x (Nests (mark :: y)) r r') :
    (expect mark r ()).Matches (Extends x (· = y)) (expect mark r' ()) := by
  obtain ⟨rfl, hnests⟩ := h
  cases r with
  | nil => exact absurd (List.suffix_nil.1 hnests.suffix) (List.cons_ne_nil _ _)
  | cons c r =>
    unfold expect
    dsimp only [List.cons_append]
    by_cases hc : c = mark
    · subst hc
      rw [if_pos rfl, if_pos rfl]
      refine ⟨rfl, fun _ _ => ⟨rfl, ?_⟩⟩
      exact (List.cons.inj (hnests.eq_of_closing hmark)).2.symm
    · rw [if_neg hc, if_neg hc]
      exact .error rfl rfl

/-- A token before the last parenthesis is read alike, and so is what follows it. -/
theorem nextToken_append {token : Token} (hr : Shut r) (h : scan cs = .ok (token, r))
    (x : List Char) : nextToken (cs ++ x) = .ok (token, ends r, skipBlank r ++ x) := by
  rw [nextToken_of_scan (scan_append hr h x), (ends_append hr x).1, hr.skipBlank_append]

theorem action_closing (hc : c = ')' ∨ c = ']') (s : State) (followed : Bool) :
    action s followed (.punctuation c) = .refuse (String.singleton c) := by
  rcases hc with rfl | rfl <;> rfl

theorem action_opening (s : State) (followed : Bool) :
    ((∃ name, action s followed (.punctuation '(') = .call name) ∨
        action s followed (.punctuation '(') = .group ∨
        action s followed (.punctuation '(') = .refuse "(") ∧
      ((∃ name, action s followed (.punctuation '[') = .subscript name) ∨
        action s followed (.punctuation '[') = .refuse "[") := by
  have hparen : action s followed (.punctuation '(') = parenthesis s := rfl
  have hbracket : action s followed (.punctuation '[') = bracket s := rfl
  rw [hparen, hbracket]
  unfold parenthesis bracket
  cases s.callee? with
  | some name => exact ⟨.inl ⟨name, rfl⟩, .inl ⟨name, rfl⟩⟩
  | none =>
    refine ⟨.inr ?_, .inr rfl⟩
    dsimp only
    split
    · exact .inr rfl
    · exact .inl rfl

/-- Only a bracket asks for a part. -/
theorem action_plain {token : Token} (hscan : scan cs = .ok (token, r))
    (hplain : token.isBracket = false) (s : State) (followed : Bool) :
    (∃ item, action s followed token = .push item) ∨ action s followed token = .comma ∨
      (∃ item, action s followed token = .ternary item) ∨
      ∃ text, action s followed token = .refuse text := by
  have hfits := action_fits s followed (legible hscan)
  cases ha : action s followed token <;> rw [ha] at hfits
  case push item => exact .inl ⟨item, rfl⟩
  case comma => exact .inr (.inl rfl)
  case ternary item => exact .inr (.inr (.inl ⟨item, rfl⟩))
  case refuse text => exact .inr (.inr (.inr ⟨text, rfl⟩))
  case group =>
    obtain rfl : token = .punctuation '(' := hfits
    exact absurd hplain (by decide)
  case call name =>
    obtain ⟨rfl, -⟩ := hfits
    exact absurd hplain (by decide)
  case subscript name =>
    obtain ⟨rfl, -⟩ := hfits
    exact absurd hplain (by decide)

mutual

/-- Reading goes the same way in a longer text, up to the closing bracket where the brackets no
longer match. -/
theorem shift_append {delimiters : List String} {cs y : List Char} {c : Char}
    (hd : Closing delimiters) (s : State) (hc : c = ')' ∨ c = ']') (hy : Shut (c :: y))
    (h : Nests (c :: y) cs) (x : List Char) :
    (shift delimiters s cs ()).Matches (Extends x (Nests (c :: y)))
      (shift delimiters s (cs ++ x) ()) := by
  have hcs : Shut cs := hy.trans h.suffix
  by_cases hcontinues : Continues delimiters cs
  · have hcontinues' := ((heads_append hcs x).continues_iff hd).2 hcontinues
    cases h with
    | stop =>
      have hscan (rest : List Char) : scan (c :: rest) = .ok (.punctuation c, rest) := by
        rcases hc with rfl | rfl <;> exact scan_punctuation rfl
      rw [List.cons_append] at hcontinues' ⊢
      rw [shift_token hcontinues (nextToken_of_scan (hscan _)),
        shift_token hcontinues' (nextToken_of_scan (hscan _)), action_closing hc,
        action_closing hc]
      exact .error rfl rfl
    | @token _ _ r token hscan hplain hlater =>
      have hr : Shut r := (hy.trans hlater.suffix).trans (skipBlank_suffix r)
      have hlt := (nextToken_suffix (nextToken_of_scan hscan)).2
      rw [shift_token hcontinues (nextToken_of_scan hscan),
        shift_token hcontinues' (nextToken_append hr hscan x)]
      apply Parse.Matches.widen
      obtain ⟨item, ha⟩ | ha | ⟨item, ha⟩ | ⟨text, ha⟩ := action_plain hscan hplain s (ends r) <;>
        rw [ha] <;> dsimp only [perform]
      · exact shift_append hd _ hc hy hlater x
      · exact shift_append hd _ hc hy hlater x
      · have hskip : Nests (c :: y) (skipBlank (skipBlank r)) := by
          rw [skipBlank_skipBlank]
          exact hlater
        obtain ⟨hbranch, hfound⟩ := branch_append hc hy hskip x
        rw [← Prod.eta (branch (skipBlank r) ()), ← Prod.eta (branch (skipBlank r ++ x) ()),
          hbranch]
        cases hb : (branch (skipBlank r) ()).1 with
        | none => exact shift_append hd _ hc hy hlater x
        | some found =>
          obtain ⟨yes, taken⟩ := found
          obtain ⟨hdrop, hnests⟩ := hfound yes taken hb
          have := (List.drop_suffix taken (skipBlank r)).length_le
          apply Parse.Matches.widen
          rw [hdrop]
          exact shift_append hd _ hc hy hnests x
      · exact .error rfl rfl
    | @bracket _ _ r y' opening closing hscan hpair hinside hlater =>
      have hy' : Shut y' := (hy.trans hlater.suffix).trans (skipBlank_suffix y')
      have hclosing : Shut (closing :: y') := hy'.cons closing
      have hr : Shut r := (hclosing.trans hinside.suffix).trans (skipBlank_suffix r)
      have hlt := (nextToken_suffix (nextToken_of_scan hscan)).2
      have hle := hinside.suffix.length_le
      have hskip := (skipBlank_suffix y').length_le
      rw [← skipBlank_skipBlank r] at hinside
      have hsmaller : (skipBlank y').length < cs.length := by
        rw [List.length_cons] at hle
        omega
      -- what stands after the bracket that was opened here
      have hgoes (f : Bool → State) (after after' : List Char)
          (hafter : Extends x (· = y') after after') :
          (shift delimiters (f (startsBlank after)) (skipBlank after) ()).Matches
            (Extends x (Nests (c :: y)))
            (shift delimiters (f (startsBlank after')) (skipBlank after') ()) := by
        obtain ⟨rfl, rfl⟩ := hafter
        rw [(ends_append hy' x).2, hy'.skipBlank_append]
        exact shift_append hd _ hc hy hlater x
      rw [shift_token hcontinues (nextToken_of_scan hscan),
        shift_token hcontinues' (nextToken_append hr hscan x)]
      apply Parse.Matches.widen
      obtain ⟨hparen, hbracket⟩ := action_opening s (ends r)
      simp only [List.mem_cons, Prod.mk.injEq, List.not_mem_nil, or_false] at hpair
      rcases hpair with ⟨rfl, rfl⟩ | ⟨rfl, rfl⟩
      · rcases hparen with ⟨name, ha⟩ | ha | ha <;> rw [ha] <;> dsimp only [perform]
        · refine (arguments_append hclosing hinside x).next ?_
          intro args after after' _ _ hafter
          exact (hgoes (s.replace (apply (.function name args.length) args)) _ _ hafter).widen _ _
        · have hgroup : Closing [")"] := by simp [Closing]
          have hin := subexpression_append hgroup (.inl rfl) hclosing hinside x
          exact enclosed_matches _ _ hin (expect_extends (.inl rfl) x)
            fun tree _ _ _ => hgoes (s.push (operand tree)) _ _
        · exact .error rfl rfl
      · rcases hbracket with ⟨name, ha⟩ | ha <;> rw [ha] <;> dsimp only [perform]
        · have hindex : Closing ["]"] := by simp [Closing]
          have hin := subexpression_append hindex (.inr rfl) hclosing hinside x
          exact enclosed_matches _ _ hin (expect_extends (.inr rfl) x)
            fun tree _ _ _ => hgoes (s.replace (apply (.array name) [tree])) _ _
        · exact .error rfl rfl
  · have hcontinues' := mt ((heads_append hcs x).continues_iff hd).1 hcontinues
    rw [shift_stop hcontinues, shift_stop hcontinues']
    exact ⟨rfl, fun _ _ => ⟨rfl, h⟩⟩
termination_by 4 * cs.length

theorem subexpression_append {delimiters : List String} {cs y : List Char} {c : Char}
    (hd : Closing delimiters) (hc : c = ')' ∨ c = ']') (hy : Shut (c :: y))
    (h : Nests (c :: y) (skipBlank cs)) (x : List Char) :
    (subexpression delimiters cs ()).Matches (Extends x (Nests (c :: y)))
      (subexpression delimiters (cs ++ x) ()) := by
  have hcs : Shut cs := (hy.trans h.suffix).trans (skipBlank_suffix cs)
  have := (skipBlank_suffix cs).length_le
  rw [subexpression, subexpression]
  apply Parse.Matches.widen
  rw [hcs.skipBlank_append]
  exact shift_append hd .start hc hy h x
termination_by 4 * cs.length + 1

theorem arguments_append {cs y : List Char} (hy : Shut (')' :: y))
    (h : Nests (')' :: y) (skipBlank cs)) (x : List Char) :
    (arguments cs ()).Matches (Extends x (· = y)) (arguments (cs ++ x) ()) := by
  rw [arguments.eq_def, arguments.eq_def]
  cases cs with
  | nil => exact absurd (List.suffix_nil.1 h.suffix) (List.cons_ne_nil _ _)
  | cons d rest =>
    dsimp only [List.cons_append]
    by_cases hd : d = ')'
    · subst hd
      rw [if_pos rfl, if_pos rfl]
      exact ⟨rfl, fun _ _ => ⟨rfl, (List.cons.inj (h.eq_of_closing (.inl rfl))).2.symm⟩⟩
    · rw [if_neg hd, if_neg hd]
      exact someArguments_append hy h x
termination_by 4 * cs.length + 3

theorem someArguments_append {cs y : List Char} (hy : Shut (')' :: y))
    (h : Nests (')' :: y) (skipBlank cs)) (x : List Char) :
    (someArguments cs ()).Matches (Extends x (· = y)) (someArguments (cs ++ x) ()) := by
  rw [someArguments_eq, someArguments_eq]
  refine (subexpression_append (by simp [Closing]) (.inl rfl) hy h x).next ?_
  rintro tree after _ hafter _ ⟨rfl, hnests⟩
  have hle := hafter.length_le
  cases after with
  | nil => exact absurd (List.suffix_nil.1 hnests.suffix) (List.cons_ne_nil _ _)
  | cons d rest =>
    dsimp only [List.cons_append, followArgument]
    by_cases hd : d = ','
    · subst hd
      rw [if_pos rfl, if_pos rfl]
      rw [List.length_cons] at hle
      have hrest := hnests.after_token (by simp) (scan_punctuation rfl) rfl
      exact ((someArguments_append hy hrest x).map _).widen _ _
    · rw [if_neg hd, if_neg hd]
      exact (expect_extends (.inl rfl) x _ _ ⟨rfl, hnests⟩).map _
termination_by 4 * cs.length + 2

/-- No attempt to read a branch depends on what stands after the closing bracket. -/
theorem branch_append {cs y : List Char} {c : Char} (hc : c = ')' ∨ c = ']')
    (hy : Shut (c :: y)) (h : Nests (c :: y) (skipBlank cs)) (x : List Char) :
    (branch (cs ++ x) ()).1 = (branch cs ()).1 ∧
      ∀ yes taken, (branch cs ()).1 = some (yes, taken) →
        (cs ++ x).drop taken = cs.drop taken ++ x ∧ Nests (c :: y) (cs.drop taken) := by
  have hd : Closing [":"] := by simp [Closing]
  obtain ⟨hresult, hrest⟩ := subexpression_append hd hc hy h x
  have hsub := (subexpression [":"] cs ()).suffix
  have hk : (c :: y).head? ≠ some ':' := by
    rcases hc with rfl | rfl <;> simp
  rw [branch_forgetful, branch_forgetful, hresult]
  cases hyes : (subexpression [":"] cs ()).result with
  | error cause => exact ⟨rfl, by simp⟩
  | ok yes =>
    obtain ⟨hrest, hnests⟩ := hrest yes hyes
    have hshut : Shut (subexpression [":"] cs ()).rest := hy.trans hnests.suffix
    dsimp only
    rw [hrest, (heads_append hshut x).atAny_eq hd]
    split
    · rename_i hcolon
      have hlater := hnests.after_colon hcolon hk
      have hdrop : Shut ((subexpression [":"] cs ()).rest.drop 1) :=
        (hy.trans hlater.suffix).trans (skipBlank_suffix _)
      have hend := (skipBlank_suffix _).trans ((List.drop_suffix 1 _).trans hsub)
      have hle := hend.length_le
      rw [Shut.drop_append x hdrop.ne_nil, hdrop.skipBlank_append]
      simp only [List.length_append, Nat.add_sub_add_right, Option.some.injEq, Prod.mk.injEq,
        true_and]
      rintro _ taken ⟨-, rfl⟩
      rw [List.suffix_iff_eq_drop] at hend
      refine ⟨List.drop_append_of_le_length (Nat.sub_le _ _), ?_⟩
      rw [← hend]
      exact hlater
    · exact ⟨rfl, by simp⟩
termination_by 4 * cs.length + 2

end

end Formula.Parser
