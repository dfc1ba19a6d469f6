import Formula.Proofs.Parser.Local
import Formula.Proofs.Parser.Printed
import Formula.Proofs.Token.Ascii

/-! Formulas of parts in parentheses. Main statement: a formula whose operands all stand in
parentheses reads as its operator applied to what the parts read as, each of them up to its own
closing parenthesis, whatever stands after that. -/
namespace Formula

namespace Parser

open Item Formula.Tree Token

/-- The text reads as the tree up to a closing parenthesis that is written after it. -/
def Closed (text : String) (tree : Tree Float) : Prop :=
  let (result, parser) := (ofSource (text ++ ")")).read [")"]
  result = .ok tree ∧ parser.rest = [')']

variable {text : String} {tree whole : Tree Float} {delimiters : List String} {s : State}
  {cs k m : List Char}

/-! ### One part -/

theorem subexpression_skipBlank (h : (subexpression delimiters cs ()).Ends tree k) :
    (subexpression delimiters (skipBlank cs) ()).Ends tree k := by
  rw [subexpression] at h ⊢
  have hshift : (shift delimiters .start (skipBlank cs) ()).Ends tree k := ⟨h.result, h.rest⟩
  apply Parse.Ends.widen
  rw [skipBlank_skipBlank]
  exact hshift

namespace Closed

/-- Nothing after the closing parenthesis has a part in the reading. -/
theorem subexpression_append (h : Closed text tree) (k : List Char) :
    (subexpression [")"] (text.toList ++ ')' :: k) ()).Ends tree (')' :: k) := by
  have hd : Closing [")"] := by simp [Closing]
  have hchars : (text ++ ")").toList = text.toList ++ [')'] := String.toList_append
  obtain ⟨hresult, hrest⟩ := read_ofSource (text ++ ")") [")"]
  have hread : (subexpression [")"] (text.toList ++ [')']) ()).Ends tree [')'] := by
    rw [← hchars]
    exact ⟨hresult.symm.trans h.1, hrest.symm.trans h.2⟩
  have hnests : Nests [')'] (skipBlank (text.toList ++ [')'])) := by
    have hbalances := (kept_balances.of_subexpression hread.result hd).1
    rw [hread.rest] at hbalances
    exact hbalances
  have hlonger := Parser.subexpression_append hd (.inl rfl) (List.suffix_refl [')']) hnests k
  rw [List.append_assoc] at hlonger
  constructor
  · exact hlonger.result.trans hread.result
  · have hrest := (hlonger.rest tree hread.result).1
    rw [hread.rest] at hrest
    exact hrest

/-- A part in parentheses goes on the stack as an operand. -/
theorem shift_part (h : Closed text tree) (hd : Closing delimiters)
    (hs : s.afterOperand = false) :
    (shift delimiters s ('(' :: (text.toList ++ ')' :: k)) ()).Same
      (shift delimiters (s.push (operand tree) (ends k)) (skipBlank k) ()) := by
  have haction : action s (ends (text.toList ++ ')' :: k)) (.punctuation '(') = .group := by
    show parenthesis s = .group
    rw [parenthesis, callee?_eq_none hs, hs]
    rfl
  exact shift_group (continues_cons hd (by decide)) (scan_punctuation rfl) haction
    (subexpression_skipBlank (h.subexpression_append k))

/-- A part in parentheses may be all that stands before a delimiter. -/
theorem subexpression_part (h : Closed text tree) (hd : Closing delimiters)
    (hcs : skipBlank cs = '(' :: (text.toList ++ ')' :: k)) (hk : skipBlank k = m)
    (hstop : ¬Continues delimiters m) : (subexpression delimiters cs ()).Ends tree m := by
  have hshift : (shift delimiters .start (skipBlank cs) ()).Ends tree m := by
    rw [hcs]
    refine .of_same (h.shift_part hd rfl) ?_
    rw [hk, shift_stop hstop]
    exact ⟨Stack.finish_of_collapse rfl, rfl⟩
  rw [subexpression]
  exact hshift.widen _

end Closed

/-- The text of a tree that can be read may stand in parentheses. -/
theorem closed_text {t : Tree Float} (h : Readable t) : Closed t.text t.normal := by
  have hd : Closing [")"] := by simp [Closing]
  have hchars : (t.text ++ ")").toList = t.text.toList ++ [')'] := String.toList_append
  have hread : (subexpression [")"] (t.text ++ ")").toList ()).Ends t.normal [')'] := by
    rw [hchars]
    exact subexpression_mute h (.of_readable h) hd (by decide) (by decide) (by simp [Mute])
      (not_continues rfl) rfl
  obtain ⟨hresult, hrest⟩ := read_ofSource (t.text ++ ")") [")"]
  exact ⟨hresult.trans hread.result, hrest.trans hread.rest⟩

theorem closed_of_text {t : Tree Float} (h : Readable t) (htext : t.text = text)
    (hnormal : t.normal = t) : Closed text t := by
  have hclosed := closed_text h
  rw [htext, hnormal] at hclosed
  exact hclosed

/-! ### A whole source -/

theorem continues_whole {token : Token} (h : scan cs = .ok (token, k)) : Continues [] cs := by
  cases cs with
  | nil => exact absurd (scan_suffix h).2 (Nat.not_lt_zero _)
  | cons c cs => simp [Continues, atAny]

theorem shift_end {items : List Item} {spaced : Bool} (h : Stack.finish items.reverse = .ok tree) :
    (shift [] ⟨items, spaced⟩ [] ()).Ends tree [] := by
  rw [shift_stop not_continues_nil]
  exact ⟨h, rfl⟩

theorem ofSource_of_shift {source : String}
    (h : (shift [] .start (skipBlank source.toList) ()).Ends tree []) :
    Tree.ofSource source = tree := by
  have hread : (subexpression [] source.toList ()).result = .ok tree := by
    rw [subexpression]
    exact h.result
  rw [Tree.ofSource, (read_ofSource source []).1, hread]

/-! ### Parts and what joins them -/

namespace Closed

variable {a b c op name : String} {first second third : Tree Float}

theorem infixOp (ha : Closed a first) (hb : Closed b second) (hop : IsAsciiOperator op)
    (hcolon : op ≠ ":") :
    Tree.ofSource ("(" ++ a ++ ") " ++ op ++ " (" ++ b ++ ")") =
      apply (.infixOp op) [first, second] := by
  have hchars : ("(" ++ a ++ ") " ++ op ++ " (" ++ b ++ ")").toList =
      '(' :: (a.toList ++ ')' :: ' ' :: (op.toList ++ ' ' :: '(' :: (b.toList ++ [')']))) := by
    simp
  have hblank : ∀ d ∈ (' ' :: '(' :: (b.toList ++ [')'])).head?,
      d ≠ '.' ∧ Charset.isOperator d = false := by
    rintro d ⟨⟩
    decide
  have hscan := hop.scan hblank fun _ => rfl
  have hbranch : (branch (skipBlank (' ' :: '(' :: (b.toList ++ [')']))) ()).1 = none :=
    branch_eq_none (hb.subexpression_part (by simp [Closing]) rfl rfl not_continues_nil) rfl
  have hfinish : Stack.finish [operand first, operator .infixOp op, operand second] =
      .ok (apply (.infixOp op) [first, second]) :=
    Stack.finish_of_collapse ((Stack.Joins.operator (by decide)
      (Stack.infixNode_eq hcolon)).collapse Stack.waits_nil (Stack.yields_none op) rfl)
  apply ofSource_of_shift
  rw [hchars]
  refine .of_same (ha.shift_part (List.nil_subset _) rfl) ?_
  rw [show skipBlank (' ' :: (op.toList ++ ' ' :: '(' :: (b.toList ++ [')']))) =
    op.toList ++ ' ' :: '(' :: (b.toList ++ [')']) from skipBlank_of_scan hscan]
  refine .of_same (shift_operator (continues_whole hscan) hscan (fun _ _ => hbranch)) ?_
  refine .of_same (hb.shift_part (List.nil_subset _) rfl) ?_
  exact shift_end hfinish

/-- A colon in parentheses would not complete the conditional. -/
theorem conditional (ha : Closed a first) (hb : Closed b second) (hc : Closed c third) :
    Tree.ofSource ("(" ++ a ++ ") ? (" ++ b ++ ") : (" ++ c ++ ")") =
      apply (.infixOp "?:") [first, second, third] := by
  have hchars : ("(" ++ a ++ ") ? (" ++ b ++ ") : (" ++ c ++ ")").toList =
      '(' :: (a.toList ++ ')' :: ' ' :: '?' :: ' ' :: '(' :: (b.toList ++ ')' :: ' ' :: ':' ::
        ' ' :: '(' :: (c.toList ++ [')']))) := by
    simp
  have hmark : IsOperatorToken "?" := by decide
  have hscan (k : List Char) : scan ('?' :: ' ' :: k) = .ok (.operator "?", ' ' :: k) :=
    hmark.scan (endsBefore_blank "?")
  have hd : Closing [":"] := by simp [Closing]
  have hyes : (subexpression [":"] (skipBlank (' ' :: '(' :: (b.toList ++ ')' :: ' ' :: ':' ::
      ' ' :: '(' :: (c.toList ++ [')'])))) ()).Ends second (':' :: ' ' :: '(' ::
        (c.toList ++ [')'])) :=
    hb.subexpression_part hd rfl rfl (not_continues rfl)
  have hfinish : Stack.finish [operand first, .branch second, operand third] =
      .ok (apply (.infixOp "?:") [first, second, third]) :=
    Stack.finish_of_collapse ((Stack.Joins.branch second).collapse Stack.waits_nil
      (Stack.yields_none "?") rfl)
  apply ofSource_of_shift
  rw [hchars]
  refine .of_same (ha.shift_part (List.nil_subset _) rfl) ?_
  refine .of_same (shift_branch (continues_whole (hscan _)) (hscan _) (action_mark (.inl rfl)) hyes
    rfl) ?_
  refine .of_same (hc.shift_part (List.nil_subset _) rfl) ?_
  exact shift_end hfinish

theorem prefixOp (ha : Closed a first) (hop : IsAsciiOperator op) :
    Tree.ofSource (op ++ "(" ++ a ++ ")") = apply (.prefixOp op) [first] := by
  have hchars : (op ++ "(" ++ a ++ ")").toList = op.toList ++ '(' :: (a.toList ++ [')']) := by
    simp
  have hscan := hop.scan (k := '(' :: (a.toList ++ [')'])) (by rintro d ⟨⟩; decide) fun _ => rfl
  have hfinish : Stack.finish [operator .prefixOp op, operand first] =
      .ok (apply (.prefixOp op) [first]) :=
    Stack.finish_of_collapse (Stack.collapse_prefixOp op first Stack.waits_nil)
  apply ofSource_of_shift
  rw [hchars, skipBlank_of_scan hscan]
  refine .of_same (shift_push (continues_whole hscan) hscan (if_neg fun h => ?_)) ?_
  · rcases h.2 with h | h <;> cases h
  · refine .of_same (ha.shift_part (List.nil_subset _) rfl) ?_
    exact shift_end hfinish

theorem postfixOp (ha : Closed a first) (hop : IsAsciiOperator op) :
    Tree.ofSource ("(" ++ a ++ ")" ++ op) = apply (.postfixOp op) [first] := by
  have hchars : ("(" ++ a ++ ")" ++ op).toList = '(' :: (a.toList ++ ')' :: op.toList) := by
    simp
  have hscan := hop.scan (k := []) (by rintro d ⟨⟩) fun _ => rfl
  rw [List.append_nil] at hscan
  have hfinish : Stack.finish [operand first, operator .postfixOp op] =
      .ok (apply (.postfixOp op) [first]) :=
    Stack.finish_of_collapse (Stack.collapse_postfixOp op first Stack.waits_nil (.inl rfl))
  apply ofSource_of_shift
  rw [hchars]
  refine .of_same (ha.shift_part (List.nil_subset _) rfl) ?_
  rw [skipBlank_of_scan hscan, ends_of_scan hscan]
  refine .of_same (shift_operator (continues_whole hscan) hscan (fun _ _ => branch_nil)) ?_
  exact shift_end hfinish

theorem lastArgument (ha : Closed a first) (hcs : skipBlank cs = '(' :: (a.toList ++ [')', ')'])) :
    (someArguments cs ()).Ends [first] [] := by
  rw [someArguments_eq]
  refine (ha.subexpression_part (by simp [Closing]) hcs rfl (not_continues rfl)).next fun _ => ?_
  exact (expect_ends ')' []).map _

theorem function (ha : Closed a first) (hb : Closed b second) (hname : IsWord name) :
    Tree.ofSource (name ++ "((" ++ a ++ "), (" ++ b ++ "))") =
      apply (.function name 2) [first, second] := by
  have hchars : (name ++ "((" ++ a ++ "), (" ++ b ++ "))").toList =
      name.toList ++ '(' :: '(' :: (a.toList ++ ')' :: ',' :: ' ' :: '(' ::
        (b.toList ++ [')', ')'])) := by
    simp
  have hscan := scan_word (k := '(' :: '(' :: (a.toList ++ ')' :: ',' :: ' ' :: '(' ::
    (b.toList ++ [')', ')']))) hname.1 rfl
  have hlast : (someArguments (' ' :: '(' :: (b.toList ++ [')', ')'])) ()).Ends [second] [] :=
    hb.lastArgument rfl
  have hargs : (arguments ('(' :: (a.toList ++ ')' :: ',' :: ' ' :: '(' ::
      (b.toList ++ [')', ')']))) ()).Ends [first, second] [] := by
    rw [arguments.eq_def]
    dsimp only
    rw [if_neg (by decide), someArguments_eq]
    refine (ha.subexpression_part (by simp [Closing]) rfl rfl (not_continues rfl)).next fun _ => ?_
    exact (hlast.map _).widen (List.suffix_cons ..)
  apply ofSource_of_shift
  rw [hchars, skipBlank_of_scan hscan]
  refine .of_same (shift_name hname.1 (List.nil_subset _) rfl rfl) ?_
  refine .of_same (shift_call (continues_whole (scan_punctuation rfl)) (scan_punctuation rfl) rfl
    hargs) ?_
  exact shift_end (Stack.finish_of_collapse rfl)

theorem call (ha : Closed a first) (hname : IsWord name) :
    Tree.ofSource (name ++ "((" ++ a ++ "))") = apply (.function name 1) [first] := by
  have hchars : (name ++ "((" ++ a ++ "))").toList =
      name.toList ++ '(' :: '(' :: (a.toList ++ [')', ')']) := by
    simp
  have hscan := scan_word (k := '(' :: '(' :: (a.toList ++ [')', ')'])) hname.1 rfl
  have hargs : (arguments ('(' :: (a.toList ++ [')', ')'])) ()).Ends [first] [] := by
    rw [arguments.eq_def]
    dsimp only
    rw [if_neg (by decide)]
    exact ha.lastArgument rfl
  apply ofSource_of_shift
  rw [hchars, skipBlank_of_scan hscan]
  refine .of_same (shift_name hname.1 (List.nil_subset _) rfl rfl) ?_
  refine .of_same (shift_call (continues_whole (scan_punctuation rfl)) (scan_punctuation rfl) rfl
    hargs) ?_
  exact shift_end (Stack.finish_of_collapse rfl)

theorem array (ha : Closed a first) (hname : IsWord name) :
    Tree.ofSource (name ++ "[(" ++ a ++ ")]") = apply (.array name) [first] := by
  have hchars : (name ++ "[(" ++ a ++ ")]").toList =
      name.toList ++ '[' :: '(' :: (a.toList ++ [')', ']']) := by
    simp
  have hscan := scan_word (k := '[' :: '(' :: (a.toList ++ [')', ']'])) hname.1 rfl
  have hd : Closing ["]"] := by simp [Closing]
  have hindex : (subexpression ["]"] ('(' :: (a.toList ++ [')', ']'])) ()).Ends first [']'] :=
    ha.subexpression_part hd rfl rfl (not_continues rfl)
  apply ofSource_of_shift
  rw [hchars, skipBlank_of_scan hscan]
  refine .of_same (shift_name hname.1 (List.nil_subset _) rfl rfl) ?_
  refine .of_same (shift_subscript (continues_whole (scan_punctuation rfl)) (scan_punctuation rfl)
    rfl hindex) ?_
  exact shift_end (Stack.finish_of_collapse rfl)

/-- What stands in parentheses is read without regard to what stands after them. -/
theorem read_append (ha : Closed a first) (rest : String) :
    let (result, parser) := (ofSource (a ++ ")" ++ rest)).read [")"]
    result = .ok first ∧ parser.rest = ')' :: rest.toList := by
  have hchars : (a ++ ")" ++ rest).toList = a.toList ++ ')' :: rest.toList := by simp
  obtain ⟨hresult, hrest⟩ := read_ofSource (a ++ ")" ++ rest) [")"]
  have hread := ha.subexpression_append rest.toList
  rw [← hchars] at hread
  exact ⟨hresult.trans hread.result, hrest.trans hread.rest⟩

end Closed

/-- Formulas of parts in parentheses are read part by part. -/
theorem ofSource_closed {a b c op name : String} {first second third : Tree Float}
    (ha : Closed a first) (hb : Closed b second) (hc : Closed c third)
    (hop : IsAsciiOperator op) (hname : IsIdentifier name) :
    (op ≠ ":" → Tree.ofSource ("(" ++ a ++ ") " ++ op ++ " (" ++ b ++ ")") =
        apply (.infixOp op) [first, second]) ∧
      Tree.ofSource ("(" ++ a ++ ") ? (" ++ b ++ ") : (" ++ c ++ ")") =
        apply (.infixOp "?:") [first, second, third] ∧
      Tree.ofSource (op ++ "(" ++ a ++ ")") = apply (.prefixOp op) [first] ∧
      Tree.ofSource ("(" ++ a ++ ")" ++ op) = apply (.postfixOp op) [first] ∧
      Tree.ofSource (name ++ "((" ++ a ++ "), (" ++ b ++ "))") =
        apply (.function name 2) [first, second] ∧
      Tree.ofSource (name ++ "[(" ++ a ++ ")]") = apply (.array name) [first] ∧
      ∀ rest, let (result, parser) := (ofSource (a ++ ")" ++ rest)).read [")"]
        result = .ok first ∧ parser.rest = ')' :: rest.toList :=
  ⟨ha.infixOp hb hop, ha.conditional hb hc, ha.prefixOp hop, ha.postfixOp hop,
    ha.function hb hname.isWord, ha.array hname.isWord, ha.read_append⟩

theorem ofSource_closed_conditional :
    let second : Tree Float := apply (.infixOp "?:") [named "y", named "z", named "w"]
    let third : Tree Float := apply (.prefixOp "-") [named "n"]
    Closed "x" (named "x") ∧ Closed "y ? z : w" second ∧ Closed "-n" third ∧
      IsAsciiOperator "??" ∧ IsIdentifier "max" ∧
      Tree.ofSource "(x) ?? (y ? z : w)" = apply (.infixOp "??") [named "x", second] ∧
      Tree.ofSource "(x) ? (y ? z : w) : (-n)" = apply (.infixOp "?:") [named "x", second, third] ∧
      Tree.ofSource "??(x)" = apply (.prefixOp "??") [named "x"] ∧
      Tree.ofSource "(x)??" = apply (.postfixOp "??") [named "x"] ∧
      Tree.ofSource "max((x), (y ? z : w))" = apply (.function "max" 2) [named "x", second] ∧
      Tree.ofSource "max[(x)]" = apply (.array "max") [named "x"] := by
  intro second third
  have hfirst : Plain (named "x") := .var (by decide)
  have hsecond : Plain second :=
    .conditional (.var (by decide)) (.var (by decide)) (.var (by decide))
  have hthird : Plain third := .prefixOp (by decide) (.var (by decide))
  have ha : Closed "x" (named "x") := closed_of_text hfirst.readable (by decide +kernel) rfl
  have hb : Closed "y ? z : w" second := closed_of_text hsecond.readable (by decide +kernel) rfl
  have hc : Closed "-n" third := closed_of_text hthird.readable (by decide +kernel) rfl
  have hop : IsAsciiOperator "??" := by decide
  have hname : IsIdentifier "max" := by decide
  obtain ⟨hboth, hbranches, hbefore, hbehind, hcall, hindex, -⟩ :=
    ofSource_closed ha hb hc hop hname
  exact ⟨ha, hb, hc, hop, hname, hboth (by decide), hbranches, hbefore, hbehind, hcall, hindex⟩

end Parser
end Formula
