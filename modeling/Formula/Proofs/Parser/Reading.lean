import Formula.Proofs.Parser.Success
import Formula.Proofs.Token.Word

/-! Readings put together step by step. Main statements: one lemma for each thing that a token may
ask for, which says what is read next and from which stack. -/
namespace Formula.Parser

open Item Formula.Tree Token

variable {α β : Type} {start mid : List Char}

/-- What a parse comes to and where it stops. -/
structure Parse.Ends (p : Parse Unit start α) (value : α) (k : List Char) : Prop where
  result : p.result = .ok value
  rest : p.rest = k

namespace Parse.Ends

variable {value : α} {k m : List Char}

theorem widen {p : Parse Unit mid α} (h : p.Ends value k) (hm : mid <:+ start) :
    (p.widen hm).Ends value k := ⟨h.result, h.rest⟩

theorem map {p : Parse Unit start α} (f : α → β) (h : p.Ends value k) :
    (p.map f).Ends (f value) k := by
  constructor
  · show p.result.map f = .ok (f value)
    rw [h.result]
    rfl
  · exact h.rest

theorem next {p : Parse Unit start α} {result : β}
    {f : α → (rest : List Char) → rest <:+ start → Unit → Parse Unit rest β}
    (h : p.Ends value m) (hf : ∀ hr, (f value m hr ()).Ends result k) :
    (p.next f).Ends result k := by
  obtain ⟨found, rest, branches, suffix⟩ := p
  obtain ⟨hfound, hrest⟩ := h
  dsimp only at hfound hrest
  subst hfound hrest
  exact (hf suffix).widen suffix

end Parse.Ends

/-- Two parses that come to the same and stop at the same place. -/
structure Parse.Same {start' : List Char} (p : Parse Unit start α) (p' : Parse Unit start' α) :
    Prop where
  result : p.result = p'.result
  rest : p.rest = p'.rest

namespace Parse.Same

variable {start' start'' : List Char} {p : Parse Unit start α} {p' : Parse Unit start' α}

theorem refl (p : Parse Unit start α) : p.Same p := ⟨rfl, rfl⟩

theorem trans {p'' : Parse Unit start'' α} (h : p.Same p') (h' : p'.Same p'') : p.Same p'' :=
  ⟨h.result.trans h'.result, h.rest.trans h'.rest⟩

theorem widen {p : Parse Unit mid α} (h : p.Same p') (hm : mid <:+ start) : (p.widen hm).Same p' :=
  ⟨h.result, h.rest⟩

end Parse.Same

theorem Parse.Ends.of_same {start' k : List Char} {p : Parse Unit start α} {p' : Parse Unit start' α}
    {value : α} (h : p.Same p') (h' : p'.Ends value k) : p.Ends value k :=
  ⟨h.result.trans h'.result, h.rest.trans h'.rest⟩

theorem Parse.Ends.next_same {start' m : List Char} {p : Parse Unit start α} {value : α}
    {p' : Parse Unit start' β}
    {f : α → (rest : List Char) → rest <:+ start → Unit → Parse Unit rest β}
    (h : p.Ends value m) (hf : ∀ hr, (f value m hr ()).Same p') : (p.next f).Same p' := by
  obtain ⟨found, rest, branches, suffix⟩ := p
  obtain ⟨hfound, hrest⟩ := h
  dsimp only at hfound hrest
  subst hfound hrest
  exact (hf suffix).widen suffix

namespace Parse

variable {start' mid' : List Char} {stops across : List Char → List Char → Prop}

/-- Two parses that come to the same; where they succeed they stop at places that are related. -/
structure Matches (stops : List Char → List Char → Prop) (p : Parse Unit start α)
    (p' : Parse Unit start' α) : Prop where
  result : p'.result = p.result
  rest : ∀ value, p.result = .ok value → stops p.rest p'.rest

namespace Matches

theorem widen {p : Parse Unit mid α} {p' : Parse Unit mid' α} (h : p.Matches stops p')
    (hm : mid <:+ start) (hm' : mid' <:+ start') : (p.widen hm).Matches stops (p'.widen hm') :=
  ⟨h.result, h.rest⟩

theorem map {p : Parse Unit start α} {p' : Parse Unit start' α} (f : α → β)
    (h : p.Matches stops p') : (p.map f).Matches stops (p'.map f) := by
  refine ⟨congrArg (Except.map f) h.result, fun value hvalue => ?_⟩
  obtain ⟨middle, hmiddle, -⟩ := map_eq_ok hvalue
  exact h.rest middle hmiddle

theorem error {p : Parse Unit start α} {p' : Parse Unit start' α} {cause : Error}
    (h : p.result = .error cause) (h' : p'.result = .error cause) : p.Matches stops p' := by
  refine ⟨h'.trans h.symm, fun value hvalue => ?_⟩
  rw [h] at hvalue
  cases hvalue

theorem next {p : Parse Unit start α} {p' : Parse Unit start' α}
    {f : α → (rest : List Char) → rest <:+ start → Unit → Parse Unit rest β}
    {f' : α → (rest : List Char) → rest <:+ start' → Unit → Parse Unit rest β}
    (h : p.Matches across p')
    (hf : ∀ value rest rest' hr hr', across rest rest' →
      (f value rest hr ()).Matches stops (f' value rest' hr' ())) :
    (p.next f).Matches stops (p'.next f') := by
  obtain ⟨result, rest, branches, suffix⟩ := p
  obtain ⟨result', rest', branches', suffix'⟩ := p'
  obtain ⟨hresult, hrest⟩ := h
  dsimp only at hresult hrest
  subst hresult
  cases result' with
  | error cause => exact .error rfl rfl
  | ok value => exact (hf value rest rest' suffix suffix' (hrest value rfl)).widen suffix suffix'

end Matches
end Parse

theorem expect_ends (mark : Char) (k : List Char) : (expect mark (mark :: k) ()).Ends () k := by
  unfold expect
  dsimp only
  rw [if_pos rfl]
  exact ⟨rfl, rfl⟩

/-! ### Steps -/

/-- Whether a blank or the end stands here. -/
def ends (k : List Char) : Bool := k.isEmpty || startsBlank k

theorem nextToken_of_scan {cs k : List Char} {token : Token} (h : scan cs = .ok (token, k)) :
    nextToken cs = .ok (token, ends k, skipBlank k) := by
  unfold nextToken
  rw [h]
  rfl

theorem ends_of_scan {cs k : List Char} {token : Token} (h : scan cs = .ok (token, k)) :
    ends cs = false := by
  cases cs with
  | nil => exact absurd (scan_suffix h).2 (Nat.not_lt_zero _)
  | cons c cs =>
    cases hc : Charset.isBlank c with
    | true => simp [scan_blank hc] at h
    | false => exact hc

section
variable {delimiters : List String} {s : State} {cs k m rest : List Char} {token : Token}
  {tree inner : Tree Float} {item : Item} {name : String}

theorem not_continues_nil : ¬Continues delimiters [] := by
  simp [Continues]

/-- At the end of the text it makes no difference whether a blank stands before. -/
theorem shift_spaced (items : List Item) (k : List Char) :
    (shift delimiters ⟨items, startsBlank k⟩ (skipBlank k) ()).Same
      (shift delimiters ⟨items, ends k⟩ (skipBlank k) ()) := by
  cases k with
  | nil =>
    have hstop : ¬Continues delimiters (skipBlank []) := not_continues_nil
    rw [shift_stop hstop, shift_stop hstop]
    exact ⟨rfl, rfl⟩
  | cons c k => exact .refl _

theorem shift_push (hc : Continues delimiters cs) (hscan : scan cs = .ok (token, k))
    (ha : action s (ends k) token = .push item) :
    (shift delimiters s cs ()).Same
      (shift delimiters (s.push item (ends k)) (skipBlank k) ()) := by
  rw [shift_token hc (nextToken_of_scan hscan), ha]
  exact (Parse.Same.refl _).widen _

theorem shift_comma (hc : Continues delimiters cs) (hscan : scan cs = .ok (token, k))
    (ha : action s (ends k) token = .comma) :
    (shift delimiters s cs ()).Same (shift delimiters s.comma (skipBlank k) ()) := by
  rw [shift_token hc (nextToken_of_scan hscan), ha]
  exact (Parse.Same.refl _).widen _

theorem shift_group (hc : Continues delimiters cs) (hscan : scan cs = .ok (token, rest))
    (ha : action s (ends rest) token = .group)
    (hinner : (subexpression [")"] (skipBlank rest) ()).Ends inner (')' :: k)) :
    (shift delimiters s cs ()).Same
      (shift delimiters (s.push (operand inner) (ends k)) (skipBlank k) ()) := by
  rw [shift_token hc (nextToken_of_scan hscan), ha]
  refine Parse.Same.widen ?_ _
  dsimp only [perform]
  refine hinner.next_same fun _ => ?_
  refine (expect_ends ')' k).next_same fun _ => ?_
  exact (shift_spaced _ k).widen _

theorem shift_call {args : List (Tree Float)} (hc : Continues delimiters cs)
    (hscan : scan cs = .ok (token, rest)) (ha : action s (ends rest) token = .call name)
    (hargs : (arguments (skipBlank rest) ()).Ends args k) :
    (shift delimiters s cs ()).Same (shift delimiters
      (s.replace (apply (.function name args.length) args) (ends k)) (skipBlank k) ()) := by
  rw [shift_token hc (nextToken_of_scan hscan), ha]
  refine Parse.Same.widen ?_ _
  dsimp only [perform]
  refine hargs.next_same fun _ => ?_
  exact (shift_spaced _ k).widen _

theorem shift_subscript (hc : Continues delimiters cs) (hscan : scan cs = .ok (token, rest))
    (ha : action s (ends rest) token = .subscript name)
    (hinner : (subexpression ["]"] (skipBlank rest) ()).Ends inner (']' :: k)) :
    (shift delimiters s cs ()).Same (shift delimiters
      (s.replace (apply (.array name) [inner]) (ends k)) (skipBlank k) ()) := by
  rw [shift_token hc (nextToken_of_scan hscan), ha]
  refine Parse.Same.widen ?_ _
  dsimp only [perform]
  refine hinner.next_same fun _ => ?_
  refine (expect_ends ']' k).next_same fun _ => ?_
  exact (shift_spaced _ k).widen _

/-- A branch that was read up to its colon is found ahead. -/
theorem branch_of_ends (h : (subexpression [":"] cs ()).Ends inner rest)
    (hcolon : atAny [":"] rest = true) :
    ∃ taken, (branch cs ()).1 = some (inner, taken) ∧
      cs.drop taken = skipBlank (rest.drop 1) := by
  refine ⟨cs.length - (skipBlank (rest.drop 1)).length, ?_, ?_⟩
  · rw [branch_forgetful, h.result, h.rest]
    dsimp only
    rw [if_pos hcolon]
  · have hsuffix := (subexpression [":"] cs ()).suffix
    rw [h.rest] at hsuffix
    have hskip := (skipBlank_suffix (rest.drop 1)).trans ((List.drop_suffix 1 rest).trans hsuffix)
    exact (List.suffix_iff_eq_drop.1 hskip).symm

/-- Where no colon follows, there is no branch. -/
theorem branch_eq_none (h : (subexpression [":"] cs ()).Ends inner rest)
    (hcolon : atAny [":"] rest = false) : (branch cs ()).1 = none := by
  rw [branch_forgetful, h.result, h.rest]
  dsimp only
  rw [if_neg (by rw [hcolon]; exact Bool.false_ne_true)]

theorem finish_start : State.start.finish = .error (.unexpectedToken "") := by
  show Stack.finish [] = _
  rw [Stack.finish, Stack.collapseFrom]
  rfl

theorem branch_nil : (branch [] ()).1 = none := by
  have hresult : (subexpression [":"] [] ()).result = .error (.unexpectedToken "") := by
    rw [subexpression]
    show (shift [":"] .start [] ()).result = _
    rw [shift_stop not_continues_nil]
    exact finish_start
  rw [branch_forgetful, hresult]

/-- An operator goes on the stack, also a question mark that has no branch. -/
theorem shift_operator {op : String} (hc : Continues delimiters cs)
    (hscan : scan cs = .ok (.operator op, k))
    (hbranch : op = "?" → s.afterOperand ∨ s.afterPostfix → (branch (skipBlank k) ()).1 = none) :
    (shift delimiters s cs ()).Same
      (shift delimiters (s.push (operator (role s.spaced (ends k)) op) (ends k)) (skipBlank k)
        ()) := by
  rw [shift_token hc (nextToken_of_scan hscan), action]
  refine Parse.Same.widen ?_ _
  split
  · rename_i hmark
    dsimp only [perform]
    rw [← Prod.eta (branch (skipBlank k) ()), hbranch hmark.1 hmark.2]
    exact .refl _
  · exact .refl _

theorem shift_branch (hc : Continues delimiters cs) (hscan : scan cs = .ok (token, rest))
    (ha : action s (ends rest) token = .ternary item)
    (hinner : (subexpression [":"] (skipBlank rest) ()).Ends inner k)
    (hcolon : atAny [":"] k = true) :
    (shift delimiters s cs ()).Same
      (shift delimiters (s.push (.branch inner) true) (skipBlank (k.drop 1)) ()) := by
  rw [shift_token hc (nextToken_of_scan hscan), ha]
  obtain ⟨taken, hbranch, hdrop⟩ := branch_of_ends hinner hcolon
  refine Parse.Same.widen ?_ _
  dsimp only [perform]
  rw [← Prod.eta (branch (skipBlank rest) ()), hbranch, ← hdrop]
  exact (Parse.Same.refl _).widen _

end

/-- Two brackets that are read alike up to the mark that closes them, and what stands behind. -/
theorem enclosed_matches {mark : Char} {inner delimiters : List String} {r r' : List Char}
    {inside across stops : List Char → List Char → Prop} (f f' : Tree Float → Bool → State)
    (hinside : (subexpression inner r ()).Matches inside (subexpression inner r' ()))
    (hexpect : ∀ k k', inside k k' → (expect mark k ()).Matches across (expect mark k' ()))
    (hlater : ∀ tree y y', y <:+ r → across y y' →
      (shift delimiters (f tree (startsBlank y)) (skipBlank y) ()).Matches stops
        (shift delimiters (f' tree (startsBlank y')) (skipBlank y') ())) :
    ((subexpression inner r ()).next fun tree cs _ branches =>
        (expect mark cs branches).next fun _ after _ branches =>
          (shift delimiters (f tree (startsBlank after)) (skipBlank after) branches).widen
            (skipBlank_suffix after)).Matches stops
      ((subexpression inner r' ()).next fun tree cs _ branches =>
        (expect mark cs branches).next fun _ after _ branches =>
          (shift delimiters (f' tree (startsBlank after)) (skipBlank after) branches).widen
            (skipBlank_suffix after)) := by
  refine hinside.next ?_
  intro tree k k' hk _ hkk
  refine (hexpect k k' hkk).next ?_
  intro _ y y' hy _ hyy
  exact (hlater tree y y' (hy.trans hk) hyy).widen _ _

/-! ### Delimiters -/

/-- Delimiters of the parts of a formula. -/
def Closing (delimiters : List String) : Prop := delimiters ⊆ [")", "]", ",", ":"]

section
variable {delimiters : List String} {c : Char} {cs k : List Char} {op : String}

theorem Closing.toList (hd : Closing delimiters) {delimiter : String}
    (h : delimiter ∈ delimiters) : ∃ c ∈ closers, delimiter.toList = [c] := by
  have hmem := hd h
  simp only [List.mem_cons, List.not_mem_nil, or_false] at hmem
  rcases hmem with rfl | rfl | rfl | rfl
  · exact ⟨')', by simp [closers], rfl⟩
  · exact ⟨']', by simp [closers], rfl⟩
  · exact ⟨',', by simp [closers], rfl⟩
  · exact ⟨':', by simp [closers], rfl⟩

theorem continues_cons (hd : Closing delimiters) (hc : c ∉ closers) :
    Continues delimiters (c :: cs) := by
  have hany : atAny delimiters (c :: cs) = false := by
    apply List.any_eq_false.2
    intro delimiter hmem
    obtain ⟨d, hclosers, hd⟩ := hd.toList hmem
    have hne : (d == c) = false := by
      rw [beq_eq_false_iff_ne]
      rintro rfl
      exact hc hclosers
    simp [atDelimiter, hd, List.isPrefixOf, hne]
  simp [Continues, hany]

theorem isColon_eq {tail : List Char} (hop : op.toList = c :: tail) :
    isColon op = (c == ':' && [[], ['-'], ['+'], ['!']].contains tail) := by
  have hsame (chars : List Char) : (op = String.ofList chars) ↔ c :: tail = chars := by
    rw [← hop, ← String.toList_inj, String.toList_ofList]
  have hlist : [":", ":-", ":+", ":!"] =
      [[':'], [':', '-'], [':', '+'], [':', '!']].map String.ofList := rfl
  rw [isColon, hlist, Bool.eq_iff_iff]
  simp only [List.map_cons, List.map_nil, List.contains_iff_mem, List.mem_cons, List.not_mem_nil,
    or_false, hsame, List.cons.injEq, Bool.and_eq_true, beq_iff_eq]
  tauto

theorem atDelimiter_operator (h : IsOperatorToken op)
    (hk : ∀ c ∈ k.head?, endsBefore op c = true) :
    atDelimiter (op.toList ++ k) ":" = isColon op := by
  obtain ⟨c, tail, hop, -⟩ := cons_of_isOperatorName h.1
  have hoperator := h.operator?_append hk
  have hcolon : Charset.isOperator ':' = true := by decide
  have hchars : (":" : String).toList = [':'] := rfl
  rw [isColon_eq hop]
  unfold atDelimiter
  dsimp only
  rw [hoperator, hchars, hop]
  dsimp only
  have hcomm : (':' == c) = (c == ':') := Bool.beq_comm
  simp [hcolon, List.isPrefixOf, hcomm]

/-- An operator token is at a delimiter only if it is a colon with no more than a sign. -/
theorem atAny_operator (hd : Closing delimiters) (h : IsOperatorToken op)
    (hk : ∀ c ∈ k.head?, endsBefore op c = true) :
    atAny delimiters (op.toList ++ k) = (delimiters.contains ":" && isColon op) := by
  obtain ⟨c, tail, hop, hc⟩ := cons_of_isOperatorName h.1
  have hother : c ∉ [')', ']', ','] := by
    intro hmem
    simp only [List.mem_cons, List.not_mem_nil, or_false] at hmem
    rcases hc with ⟨rfl, -⟩ | ⟨-, hc, -⟩
    · exact absurd hmem (by decide)
    · rcases hmem with rfl | rfl | rfl <;> exact absurd hc (by decide)
  have hat : ∀ delimiter ∈ delimiters, atDelimiter (op.toList ++ k) delimiter =
      (delimiter == ":" && isColon op) := by
    intro delimiter hmem
    have hclosing := hd hmem
    simp only [List.mem_cons, List.not_mem_nil, or_false] at hclosing
    simp only [List.mem_cons, List.not_mem_nil, or_false, not_or] at hother
    rcases hclosing with rfl | rfl | rfl | rfl
    · simp [atDelimiter, hop, List.isPrefixOf, Ne.symm hother.1]
    · simp [atDelimiter, hop, List.isPrefixOf, Ne.symm hother.2.1]
    · simp [atDelimiter, hop, List.isPrefixOf, Ne.symm hother.2.2]
    · exact atDelimiter_operator h hk
  rw [atAny, Bool.eq_iff_iff, List.any_eq_true, Bool.and_eq_true, List.contains_iff_mem]
  constructor
  · rintro ⟨delimiter, hmem, hdelimiter⟩
    rw [hat delimiter hmem, Bool.and_eq_true, beq_iff_eq] at hdelimiter
    obtain ⟨rfl, hcolon⟩ := hdelimiter
    exact ⟨hmem, hcolon⟩
  · rintro ⟨hmem, hcolon⟩
    exact ⟨":", hmem, by rw [hat _ hmem, hcolon]; rfl⟩

theorem not_continues (h : atAny delimiters cs = true) : ¬Continues delimiters cs := by
  simp [Continues, h]

/-- Texts that start with the same character, and the same operator if it is one. -/
structure Heads (cs cs' : List Char) : Prop where
  head : cs.head? = cs'.head?
  operator : operator? cs = operator? cs'

namespace Heads

variable {cs' : List Char}

theorem split (h : Heads cs cs') :
    cs = [] ∧ cs' = [] ∨ ∃ c y y', cs = c :: y ∧ cs' = c :: y' := by
  have hhead := h.head
  cases cs with
  | nil =>
    cases cs' with
    | nil => exact .inl ⟨rfl, rfl⟩
    | cons c' y' => cases hhead
  | cons c y =>
    cases cs' with
    | nil => cases hhead
    | cons c' y' => exact .inr ⟨c, y, y', rfl, by rw [Option.some.inj hhead]⟩

theorem atAny_eq (h : Heads cs cs') (hd : Closing delimiters) :
    atAny delimiters cs = atAny delimiters cs' := by
  unfold atAny
  rw [Bool.eq_iff_iff, List.any_eq_true, List.any_eq_true]
  refine exists_congr fun delimiter => and_congr_right fun hmem => ?_
  obtain ⟨d, -, hchars⟩ := hd.toList hmem
  have hprefix (cs : List Char) : [d].isPrefixOf cs = (cs.head? == some d) := by
    cases cs with
    | nil => rfl
    | cons c cs => simp [List.isPrefixOf, eq_comm]
  unfold atDelimiter
  dsimp only
  rw [hchars, hprefix, hprefix, h.head, h.operator]

theorem continues_iff (h : Heads cs cs') (hd : Closing delimiters) :
    Continues delimiters cs ↔ Continues delimiters cs' := by
  have hempty : cs.isEmpty = cs'.isEmpty := by
    obtain ⟨rfl, rfl⟩ | ⟨c, y, y', rfl, rfl⟩ := h.split <;> rfl
  unfold Continues
  rw [hempty, h.atAny_eq hd]

end Heads

end
end Formula.Parser
