import Formula.Proofs.Parser.Enclosed
import Formula.Proofs.Parser.WellFormed
import Formula.Proofs.Parser.Yield

/-! Printing what was read. Main statements: the text of a formula without quotes reads as the same
tree again, if the text keeps the parts of the tree apart; and a call whose only argument is a comma
has the text of a call with two arguments, so that its text reads as another tree. -/
namespace Formula

namespace Token

variable {cs rest : List Char} {all : List Token}

/-- A token of a source without quotes. -/
def IsBare : Token → Prop
  | number _ | punctuation _ => True
  | name text => isName text = true
  | operator op => IsOperatorToken op
  | quoted _ => False

instance : DecidablePred IsBare
  | number _ | punctuation _ => isTrue trivial
  | name text => inferInstanceAs (Decidable (isName text = true))
  | operator op => inferInstanceAs (Decidable (IsOperatorToken op))
  | quoted _ => isFalse id

theorem bare_of_scan {token : Token} (h : scan cs = .ok (token, rest))
    (hquotes : ∀ c ∈ cs, Quoted.isQuote c = false) : IsBare token := by
  cases scanned h with
  | number _ _ => trivial
  | punctuation _ _ => trivial
  | name found => exact isName_of_name? found
  | operator other found =>
    have hname := name?_of_operator? other found
    exact ⟨isOperatorName_of_operator? found, by rwa [String.toList_ofList]⟩
  | quoted start quote _ =>
    have hbare := hquotes _ (by rw [start]; exact List.mem_cons_self)
    cases quote.symm.trans hbare

theorem bare_of_tokens (h : tokens cs = .ok all)
    (hquotes : ∀ c ∈ cs, Quoted.isQuote c = false) : ∀ token ∈ all, IsBare token := by
  fun_induction tokens cs generalizing all with
  | case1 cs hskip =>
    cases h
    exact nofun
  | case2 => cases h
  | case3 cs c tail hskip token after hscan ih =>
    have hsuffix : c :: tail <:+ cs := hskip ▸ skipBlank_suffix cs
    cases hafter : tokens after with
    | error fault => simp [hafter, Except.map] at h
    | ok later =>
      simp only [hafter, Except.map, Except.ok.injEq] at h
      subst h
      have htail : ∀ d ∈ c :: tail, Quoted.isQuote d = false := fun d hd =>
        hquotes d (hsuffix.subset hd)
      refine List.forall_mem_cons.2 ⟨bare_of_scan hscan htail, ih hafter fun d hd => ?_⟩
      exact htail d ((scan_suffix hscan).1.subset hd)

/-- A colon that is split off a sign is an operator of a source as the two together are. -/
theorem bare_spelled : (∀ token ∈ spelled all, IsBare token) ↔ ∀ token ∈ all, IsBare token := by
  have hsplit (token : Token) : (∀ piece ∈ token.split, IsBare piece) ↔ IsBare token := by
    unfold split
    split
    · decide
    · decide
    · decide
    · exact List.forall_mem_singleton
  simp only [spelled, List.mem_flatMap, forall_exists_index, and_imp]
  constructor
  · intro h token htoken
    exact (hsplit token).1 fun piece hpiece => h piece token htoken hpiece
  · intro h piece token htoken hpiece
    exact (hsplit token).2 (h token htoken) piece hpiece

theorem isName_of_bare {name : String} (h : IsBare (ofName name)) : isName name = true := by
  unfold ofName at h
  split at h
  · exact h.elim
  · exact h

theorem isSpelled_of_bare {op : String} (h : IsBare (ofOperator op)) :
    IsOperatorToken op ∨ op = "," ∨ isName op = true := by
  unfold ofOperator at h
  split at h
  · rename_i hcomma
    exact .inr (.inl hcomma)
  · split at h
    · rename_i hname
      exact .inr (.inr hname)
    · exact .inl h

end Token

namespace Tree

open Chunk Token Formula.Parser

variable {source : String} {t : Tree Float}

/-- A tree without negative literals is as its text is read. -/
theorem WellFormed.normal_eq (h : t.WellFormed) : t.normal = t := by
  induction h with
  | literal magnitude =>
    obtain ⟨mantissa, exponent, hshape⟩ := magnitude.exists_shape
    exact normal_finite hshape
  | apply _ _ _ ih => rw [normal_apply, List.map_congr_left ih, List.map_id']

theorem apart_of_mem {args : List (Tree Float)} {arg : Tree Float} (h : apartAll args = true)
    (harg : arg ∈ args) : arg.apart = true := by
  induction args with
  | nil => cases harg
  | cons other args ih =>
    obtain ⟨hother, hargs⟩ := Bool.and_eq_true_iff.1 h
    rcases List.mem_cons.1 harg with rfl | harg
    · exact hother
    · exact ih hargs harg

/-- A prefix operator that is kept apart from its operand is no name. -/
theorem isName_of_keepsApart {op : String} {arg : Tree Float}
    (h : keepsApart (.prefixOp op) [arg] = true) : isName op = false := by
  have hchain : Row.Chained [sign op, operand arg (wrapsPrefixed arg)] :=
    (Row.apart_iff.1 (keepsApart_iff.1 h).1).1
  have hadjoins := List.isChain_pair.1 hchain
  simp only [adjoins, Bool.and_eq_true, Bool.not_eq_true'] at hadjoins
  exact hadjoins.1

/-- What was read of a source without quotes can be read again, if its text keeps it apart. -/
theorem Readable.of_apart (h : t.WellFormed) (hbare : ∀ token ∈ t.yield, IsBare token)
    (hapart : t.apart = true) : Readable t := by
  induction h with
  | literal magnitude =>
    obtain ⟨mantissa, exponent, hshape⟩ := magnitude.exists_shape
    exact .numeral hshape
  | @apply symbol args takes named all ih =>
    obtain ⟨hkeeps, hall⟩ := Bool.and_eq_true_iff.1 hapart
    have hargs : ∀ arg ∈ args, Readable arg := by
      intro arg harg
      refine ih arg harg (fun token htoken => hbare token ?_) (apart_of_mem hall harg)
      rw [yield, yields_eq_map]
      exact mem_arrange (List.mem_map_of_mem harg) htoken
    have hsymbol (hne : symbol ≠ .infixOp "?:") : IsBare symbol.token := by
      rw [← List.length_map yield] at takes
      refine hbare _ ?_
      rw [yield, yields_eq_map]
      exact (mem_arrange_self takes).resolve_right hne
    cases symbol with
    | var name =>
      obtain rfl := List.length_eq_zero_iff.1 takes
      exact .var (isName_of_bare (hsymbol (by simp)))
    | function name arity =>
      obtain rfl : args.length = arity := takes
      exact .function (isName_of_bare (hsymbol (by simp))) hkeeps hargs
    | array name =>
      obtain ⟨arg, rfl⟩ := List.length_eq_one_iff.1 takes
      exact .array (isName_of_bare (hsymbol (by simp))) (hargs arg List.mem_cons_self)
    | prefixOp op =>
      obtain ⟨arg, rfl⟩ := List.length_eq_one_iff.1 takes
      have hspelled := isSpelled_of_bare (hsymbol (by simp))
      have hname := isName_of_keepsApart hkeeps
      refine .prefixOp (hspelled.imp_right fun h => h.resolve_right ?_) hkeeps
        (hargs arg List.mem_cons_self)
      rw [hname]
      exact Bool.false_ne_true
    | postfixOp op =>
      obtain ⟨arg, rfl⟩ := List.length_eq_one_iff.1 takes
      exact .postfixOp (isSpelled_of_bare (hsymbol (by simp))) hkeeps
        (hargs arg List.mem_cons_self)
    | infixOp op =>
      obtain htwo | ⟨hthree, rfl⟩ := takes
      · obtain ⟨left, right, rfl⟩ := List.length_eq_two.1 htwo
        have hspelled : (joint op).IsSpelled := by
          by_cases hop : op = "?:"
          · rw [hop]
            exact .inl (by decide)
          · exact isSpelled_of_bare (hsymbol (by simp [hop]))
        exact .infixOp hspelled hkeeps (hargs left List.mem_cons_self)
          (hargs right (List.mem_cons_of_mem left List.mem_cons_self))
      · obtain ⟨condition, yes, no, rfl⟩ := List.length_eq_three.1 hthree
        simp only [List.forall_mem_cons] at hargs
        exact .conditional hkeeps hargs.1 hargs.2.1 hargs.2.2.1

theorem ofSource_bare (hquotes : ∀ c ∈ source.toList, Quoted.isQuote c = false) :
    ∀ token ∈ (ofSource source).yield, IsBare token := by
  unfold ofSource
  rw [(read_ofSource source []).1]
  cases hread : (subexpression [] source.toList ()).result with
  | error error => exact nofun
  | ok tree =>
    obtain ⟨all, hall, hyield⟩ := tokens_of_subexpression hread
    rw [← bare_spelled, hyield, bare_spelled]
    exact fun token htoken => bare_of_tokens hall hquotes token (List.mem_of_mem_filter htoken)

/-- What was read of a source without quotes is printed as a text that reads as the same tree, if
the text keeps its parts apart. -/
theorem ofSource_printed (source : String)
    (hquotes : ∀ c ∈ source.toList, Quoted.isQuote c = false)
    (haccepted : (ofSource source).error? = none) (hapart : (ofSource source).apart = true) :
    (ofSource (ofSource source).text).error? = none ∧
      ofSource (ofSource source).text = ofSource source := by
  have hformed : (ofSource source).WellFormed := by
    refine (ofSource_wellFormed source).resolve_left ?_
    rintro ⟨error, herror⟩
    rw [herror] at haccepted
    cases haccepted
  have hread := (Readable.of_apart hformed (ofSource_bare hquotes) hapart).ofSource_normal
  rw [hformed.normal_eq] at hread
  rw [hread]
  exact ⟨haccepted, rfl⟩

/-- A percentage, a unit and a question mark without a colon, at a dotted operator. -/
theorem ofSource_printed_marks :
    let source := "(50% ? 5 px) + (.-x)"
    let t : Tree Float := apply (.infixOp "+")
      [apply (.infixOp "?") [apply (.postfixOp "%") [literal 50],
        apply (.postfixOp "px") [literal 5]], apply (.prefixOp ".-") [named "x"]]
    (∀ c ∈ source.toList, Quoted.isQuote c = false) ∧ ofSource source = t ∧ t.apart = true ∧
      ofSource "(50% ? 5 px) + .-x" = t := by
  intro source t
  have hfifty : Number.shape 50 = .finite false 7036874417766400 (-47) := by decide +kernel
  have hfive : Number.shape 5 = .finite false 5629499534213120 (-50) := by decide +kernel
  have hhalf : Readable (apply (.postfixOp "%") [literal 50]) :=
    .postfixOp (.inl (by decide)) (by decide +kernel) (.numeral hfifty)
  have hwidth : Readable (apply (.postfixOp "px") [literal 5]) :=
    .postfixOp (.inr (.inr (by decide))) (by decide +kernel) (.numeral hfive)
  have hleft : Closed "50% ? 5 px" (apply (.infixOp "?") [apply (.postfixOp "%") [literal 50],
      apply (.postfixOp "px") [literal 5]]) := by
    refine closed_of_text (.infixOp (.inl (by decide)) (by decide +kernel) hhalf hwidth)
      (by decide +kernel) ?_
    simp only [normal_apply, List.map_cons, List.map_nil, normal_finite hfifty, normal_finite hfive]
  have hright : Closed ".-x" (apply (.prefixOp ".-") [named "x"]) :=
    closed_of_text (.prefixOp (.inl (by decide)) (by decide +kernel) (.var (by decide)))
      (by decide +kernel) rfl
  have hop : IsAsciiOperator "+" := by decide
  have hchars : "(" ++ "50% ? 5 px" ++ ") " ++ "+" ++ " (" ++ ".-x" ++ ")" = source := by decide
  have hsource : ofSource source = t := hchars ▸ hleft.infixOp hright hop (by decide)
  have hquotes : ∀ c ∈ source.toList, Quoted.isQuote c = false := by
    simp [source, Quoted.isQuote]
  have hapart : t.apart = true := by decide +kernel
  have htext : t.text = "(50% ? 5 px) + .-x" := by decide +kernel
  have hprinted := ofSource_printed source hquotes (hsource ▸ rfl) (hsource ▸ hapart)
  rw [hsource, htext] at hprinted
  exact ⟨hquotes, hsource, hapart, hprinted.2⟩

/-- A word after an operand is kept apart from the operator after it, unless it is an infix word. -/
example :
    (apply (.infixOp "-") [apply (.postfixOp "px") [named "a"], named "b"]).apart = true ∧
      (apply (.infixOp "-") [apply (.postfixOp "as") [named "a"], named "b"]).apart = false := by
  decide

/-- A formula without quotes, the text of which calls another function. -/
theorem ofSource_text_ne_pair :
    let source := "f((a, b))"
    (∀ c ∈ source.toList, Quoted.isQuote c = false) ∧ (ofSource source).error? = none ∧
      ofSource (ofSource source).text ≠ ofSource source ∧
      (ofSource source).symbols = [.function "f" 1, .infixOp ",", .var "a", .var "b"] ∧
      (ofSource (ofSource source).text).symbols = [.function "f" 2, .var "a", .var "b"] := by
  intro source
  let pair : Tree Float := apply (.infixOp ",") [named "a", named "b"]
  have hpair : Readable pair :=
    .infixOp (.inr (.inl rfl)) (by decide) (.var (by decide)) (.var (by decide))
  have hclosed : Closed "a, b" pair := closed_of_text hpair (by decide +kernel) rfl
  have hf : IsWord "f" := by decide
  have hchars : "f" ++ "((" ++ "a, b" ++ "))" = source := by decide
  have hsource : ofSource source = apply (.function "f" 1) [pair] := hchars ▸ hclosed.call hf
  have hargs : ∀ arg ∈ [named "a", named "b"], Plain arg := by
    simp only [List.forall_mem_cons]
    exact ⟨.var (by decide), .var (by decide), nofun⟩
  have hcall : Plain (apply (.function "f" 2) [named "a", named "b"]) :=
    .function (by decide) hargs
  have htext : (apply (.function "f" 1) [pair]).text =
      (apply (.function "f" 2) [named "a", named "b"]).text := by
    decide +kernel
  have hagain : ofSource (ofSource source).text =
      apply (.function "f" 2) [named "a", named "b"] := by
    rw [hsource, htext]
    exact hcall.readable.ofSource_normal
  refine ⟨by simp [source, Quoted.isQuote], ?_, ?_, ?_, ?_⟩
  · rw [hsource]
    rfl
  · rw [hagain, hsource]
    rintro ⟨⟩
  · rw [hsource]
    decide
  · rw [hagain]
    decide

end Tree
end Formula
