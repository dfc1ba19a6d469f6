import Formula.Proofs.Parser.Enclosed
import Formula.Proofs.Parser.Yield

/-! Conditionals of signed variables, written with a blank on each side of their marks and written
without any. Main statements: with blanks they read as their tree; without, they read as the same
tree if no sign stands right after a question mark, and only then. Such a sign makes one operator
with the mark, while after a colon the reader takes the sign off. -/
namespace Formula

namespace Token

variable {op : String}

theorem split_operator (h : op.toList.head? ≠ some ':') :
    (operator op).split = [.operator op] := by
  unfold split
  split
  · rename_i heq
    cases heq
    exact absurd rfl h
  · rename_i heq
    cases heq
    exact absurd rfl h
  · rename_i heq
    cases heq
    exact absurd rfl h
  · rfl

theorem operator_not_mem_ofName (op name : String) : .operator op ∉ (ofName name).split := by
  rw [ofName]
  split <;> simp [split]

end Token

namespace Tree

open Token

/-- A variable with a sign before it, or with none. -/
structure Signed where
  sign : String
  name : String
  isSign : sign ∈ ["", "-", "+", "!"]
  identifier : IsIdentifier name

namespace Signed

def text (x : Signed) : String := x.sign ++ x.name

def tree (x : Signed) : Tree Float :=
  if x.sign = "" then named x.name else apply (.prefixOp x.sign) [named x.name]

end Signed

/-- A signed variable, or one that chooses between two of these. -/
inductive Conditional where
  | leaf (x : Signed)
  | choice (condition : Signed) (yes no : Conditional)

namespace Conditional

def spaced : Conditional → String
  | leaf x => x.text
  | choice condition yes no => condition.text ++ " ? " ++ yes.spaced ++ " : " ++ no.spaced

def compact : Conditional → String
  | leaf x => x.text
  | choice condition yes no => condition.text ++ "?" ++ yes.compact ++ ":" ++ no.compact

def tree : Conditional → Tree Float
  | leaf x => x.tree
  | choice condition yes no => apply (.infixOp "?:") [condition.tree, yes.tree, no.tree]

/-- The variable that the text starts with. -/
def first : Conditional → Signed
  | leaf x => x
  | choice condition _ _ => condition

/-- No sign stands right after a question mark. -/
def Apart : Conditional → Prop
  | leaf _ => True
  | choice _ yes no => yes.first.sign = "" ∧ yes.Apart ∧ no.Apart

end Conditional

/-! ### Trees and their texts -/

namespace Signed

variable (x : Signed)

theorem sign_cases (h : x.sign ≠ "") : x.sign = "-" ∨ x.sign = "+" ∨ x.sign = "!" := by
  simpa [h] using x.isSign

theorem isRun (h : x.sign ≠ "") : IsRun x.sign := by
  rcases x.sign_cases h with hsign | hsign | hsign <;> rw [hsign] <;> decide

theorem sign_toList : x.sign.toList ∈ [[], ['-'], ['+'], ['!']] := by
  have hsigns : ["", "-", "+", "!"].map String.toList = [[], ['-'], ['+'], ['!']] := rfl
  rw [← hsigns]
  exact List.mem_map_of_mem x.isSign

theorem sign_operator : ∀ c ∈ x.sign.toList, Charset.isOperator c = true := by
  intro c hc
  by_cases hsign : x.sign = ""
  · rw [hsign] at hc
    cases hc
  · exact (symbolChars_cases ((x.isRun hsign).2 c hc)).1

theorem top?_tree : x.tree.top? = none := by
  rw [tree]
  split <;> rfl

theorem wrapsLeft_tree (op : String) : wrapsLeft op x.tree = false := by
  rw [wrapsLeft, x.top?_tree]
  rfl

/-- What reading a signed variable puts on the stack, from the bottom. -/
def items : List Item :=
  if x.sign = "" then [.operand (named x.name)]
  else [.operator .prefixOp x.sign, .operand (named x.name)]

theorem items_top (below : List Item) :
    ∃ top rest, x.items.reverse ++ below = .operand top :: rest := by
  rw [items]
  split <;> exact ⟨_, _, rfl⟩

theorem stacked_tree (last : String → Role) : x.tree.stacked last = x.items := by
  rw [tree, items]
  split
  · exact congrArg (fun t => [Item.operand t]) (normal_named x.name)
  · rename_i hsign
    have hcomma : x.sign ≠ "," := (x.isRun hsign).isSymbol.1.ne_comma
    rw [stacked, if_neg hcomma, normal_named]

theorem symbolic : x.tree.Symbolic := by
  rw [tree]
  split
  · exact .var x.identifier
  · exact .prefixOp (x.isRun ‹_›) (.var x.identifier)

theorem normal_tree : x.tree.normal = x.tree := by
  rw [tree]
  split
  · exact normal_named x.name
  · rw [normal_apply, List.map_singleton, normal_named]

theorem text_tree : x.tree.text = x.text := by
  have hname : (named x.name).text = x.name := text_named x.identifier.1
  rw [tree, text]
  split
  · rename_i hsign
    rw [hname, hsign, String.empty_append]
  · rename_i hsign
    have hshown : shown (wrapsPrefixed (named x.name)) (named x.name) = x.name.toList :=
      congrArg String.toList hname
    rw [← String.toList_inj, text_prefixOp, gap_of_isName (x.isRun hsign).isSymbol.isName, hshown,
      String.toList_append]
    rfl

end Signed

namespace Conditional

variable (s : Conditional)

theorem symbolic : s.tree.Symbolic := by
  induction s with
  | leaf x => exact x.symbolic
  | choice condition yes no ihy ihn => exact .conditional condition.symbolic ihy ihn

theorem normal_tree : s.tree.normal = s.tree := by
  induction s with
  | leaf x => exact x.normal_tree
  | choice condition yes no ihy ihn =>
    simp [tree, condition.normal_tree, ihy, ihn]

/-- A conditional after a colon needs no parentheses. -/
theorem wrapsRight_tree : wrapsRight "?" s.tree = false := by
  cases s with
  | leaf x =>
    rw [tree, wrapsRight, x.top?_tree]
    rfl
  | choice condition yes no =>
    show Precedence.bindsFirst "?" "?" = false
    decide

theorem text_tree : s.tree.text = s.spaced := by
  induction s with
  | leaf x => exact x.text_tree
  | choice condition yes no ihy ihn =>
    have hmark : (" ? " : String).toList = [' ', '?', ' '] := rfl
    have hcolon : (" : " : String).toList = [' ', ':', ' '] := rfl
    rw [← String.toList_inj, tree, text_conditional, condition.wrapsLeft_tree, no.wrapsRight_tree,
      shown, shown, if_neg Bool.false_ne_true, if_neg Bool.false_ne_true, condition.text_tree, ihy,
      ihn]
    simp [spaced, hmark, hcolon]

/-- What reading a conditional puts on the stack, from the bottom. -/
def items : Conditional → List Item
  | leaf x => x.items
  | choice condition yes no => condition.items ++ .branch yes.tree :: no.items

theorem stacked_tree (last : String → Role) : s.tree.stacked last = s.items := by
  induction s with
  | leaf x => exact x.stacked_tree last
  | choice condition yes no _ ihn =>
    rw [tree, stacked, condition.wrapsLeft_tree, no.wrapsRight_tree, if_neg Bool.false_ne_true,
      if_neg Bool.false_ne_true, yes.normal_tree, condition.stacked_tree, ihn, items]

theorem finish_items : Stack.finish s.items = .ok s.tree := by
  rw [← s.stacked_tree fun _ => .postfixOp, Stack.finish_stacked s.symbolic.plain.readable,
    normal_tree]

/-- With a blank on each side of the marks, the text is the one that the tree is printed as. -/
theorem ofSource_spaced : ofSource s.spaced = s.tree := by
  rw [← text_tree, s.symbolic.plain.readable.ofSource_normal, normal_tree]

/-! ### Texts without blanks -/

/-- The compact text without the sign before it. -/
def unsigned : Conditional → String
  | leaf x => x.name
  | choice condition yes no => condition.name ++ "?" ++ yes.compact ++ ":" ++ no.compact

theorem compact_eq : s.compact = s.first.sign ++ s.unsigned := by
  cases s with
  | leaf x => rfl
  | choice condition yes no =>
    simp [compact, unsigned, first, Signed.text, String.append_assoc]

theorem unsigned_starts : ∃ c tail, s.unsigned.toList = c :: tail ∧ Opens c := by
  cases s with
  | leaf x => exact word_starts x.identifier.isWord
  | choice condition yes no =>
    obtain ⟨c, tail, hname, hc⟩ := word_starts condition.identifier.isWord
    simp [unsigned, hname, hc]

theorem compact_toList (k : List Char) :
    s.compact.toList ++ k = s.first.sign.toList ++ (s.unsigned.toList ++ k) := by
  rw [compact_eq, String.toList_append, List.append_assoc]

theorem compact_of_unsigned (h : s.first.sign = "") : s.compact = s.unsigned := by
  rw [compact_eq, h, String.empty_append]

/-- No operator goes on into the text after its sign. -/
theorem unsigned_head (k : List Char) :
    ∀ d ∈ (s.unsigned.toList ++ k).head?, Charset.isOperator d = false := by
  obtain ⟨c, tail, hchars, hc⟩ := s.unsigned_starts
  rw [hchars]
  rintro d ⟨⟩
  exact hc.isOperator

/-- The operator characters that the text starts with are its sign. -/
theorem takeWhile_compact (k : List Char) :
    (s.compact.toList ++ k).takeWhile Charset.isOperator ∈ [[], ['-'], ['+'], ['!']] := by
  rw [compact_toList, (takeWhile_run s.first.sign_operator (s.unsigned_head k)).1]
  exact s.first.sign_toList

theorem skipBlank_compact (k : List Char) :
    skipBlank (s.compact.toList ++ k) = s.compact.toList ++ k := by
  obtain ⟨c, tail, hchars, hc⟩ := s.unsigned_starts
  rw [compact_toList, hchars]
  cases hfirst : s.first.sign.toList with
  | nil => exact skipBlank_cons hc.isBlank
  | cons d rest =>
    have hd : Charset.isOperator d = true := s.first.sign_operator d (by simp [hfirst])
    exact skipBlank_cons (Charset.isBlank_of_isOperator hd)

end Conditional
end Tree

namespace Parser

open Item Formula.Tree Token

variable {delimiters : List String} {st : State} {k m tail : List Char} {whole : Tree Float}

/-- A colon ends a branch also where a sign is written to it. -/
theorem atAny_colon (h : tail.takeWhile Charset.isOperator ∈ [[], ['-'], ['+'], ['!']]) :
    atAny [":"] (':' :: tail) = true := by
  have hcolon : (":" : String).toList = [':'] := rfl
  have hop : Charset.isOperator ':' = true := by decide
  have hoperator : operator? (':' :: tail) = some (':' :: tail.takeWhile Charset.isOperator) := by
    rw [operator?, if_neg (by decide), if_pos hop]
  simpa [atAny, atDelimiter, hcolon, hop, hoperator] using h

/-- A mark and the sign that is written to it are one operator. -/
theorem scan_signed {mark : String} {c : Char} (hmark : mark.toList = [c])
    (hc : c = '?' ∨ c = ':') (x : Signed) (hk : ∀ d ∈ k.head?, Charset.isOperator d = false) :
    scan ((mark ++ x.sign).toList ++ k) = .ok (.operator (mark ++ x.sign), k) := by
  have hop : (mark ++ x.sign).toList = c :: x.sign.toList := by
    rw [String.toList_append, hmark, List.singleton_append]
  have hsign : x.sign.toList.all Charset.isOperator = true :=
    List.all_eq_true.2 x.sign_operator
  rcases hc with rfl | rfl <;>
    exact scan_symbol hop (by decide) (by decide) (by decide) (by decide) hsign hk

/-- A prefix operator is written to its operand. -/
theorem shift_prefixOp {op : String} {c : Char} (h : IsSymbol op) (hd : Closing delimiters)
    (hs : st.spaced = true) (hc : Opens c) :
    (shift delimiters st (op.toList ++ c :: tail) ()).Same
      (shift delimiters ⟨operator .prefixOp op :: st.items, false⟩ (c :: tail) ()) := by
  have hk : ∀ d ∈ (c :: tail).head?, endsBefore op d = true := by
    rintro d ⟨⟩
    exact h.endsBefore hc.isOperator
  have hscan := h.1.token.scan hk
  have hends : ends (c :: tail) = false := hc.isBlank
  have hskip : skipBlank (c :: tail) = c :: tail := skipBlank_cons hc.isBlank
  have hcontinues := continues_operator hd h.1.token hk fun hcolon =>
    absurd (List.mem_cons_of_mem _ (List.contains_iff_mem.1 hcolon)) h.1.2.2
  have hstep := shift_push (s := st) hcontinues hscan (action_operator h.1.ne_mark)
  rw [hends, hs, hskip] at hstep
  exact hstep

/-- A signed variable is read after a blank. -/
theorem shift_signed (x : Signed) (hd : Closing delimiters) (hs : st.afterOperand = false)
    (hspaced : st.spaced = true) (hk : nameRun k = []) :
    (shift delimiters st (x.text.toList ++ k) ()).Same
      (shift delimiters ⟨x.items.reverse ++ st.items, ends k⟩ (skipBlank k) ()) := by
  have hword := x.identifier.isWord
  have hchars : x.text.toList ++ k = x.sign.toList ++ (x.name.toList ++ k) := by
    rw [Signed.text, String.toList_append, List.append_assoc]
  rw [hchars, Signed.items]
  split
  · rename_i hsign
    rw [hsign, String.toList_empty, List.nil_append]
    exact shift_name hword.1 hd hs hk
  · rename_i hsign
    obtain ⟨c, tail, hname, hc⟩ := word_starts hword
    rw [hname, List.cons_append]
    refine (shift_prefixOp (x.isRun hsign).isSymbol hd hspaced hc).trans ?_
    rw [← List.cons_append, ← hname]
    exact shift_name hword.1 hd rfl hk

/-- Without a sign after a question mark, the compact text puts the tree's items on the stack. -/
theorem shift_compact (s : Conditional) (hapart : s.Apart) (hd : Closing delimiters)
    (hs : st.afterOperand = false) (hspaced : st.spaced = true) (hk : nameRun k = []) :
    (shift delimiters st (s.compact.toList ++ k) ()).Same
      (shift delimiters ⟨s.items.reverse ++ st.items, ends k⟩ (skipBlank k) ()) := by
  induction s generalizing delimiters st k with
  | leaf x => exact shift_signed x hd hs hspaced hk
  | choice condition yes no ihy ihn =>
    obtain ⟨hunsigned, hyes, hno⟩ := hapart
    have hmark : ("?" : String).toList = ['?'] := rfl
    have hcolon : (":" : String).toList = [':'] := rfl
    have hchars : (Conditional.choice condition yes no).compact.toList ++ k =
        condition.text.toList ++
          '?' :: (yes.compact.toList ++ ':' :: (no.compact.toList ++ k)) := by
      simp [Conditional.compact, hmark, hcolon]
    have hscan : scan ('?' :: (yes.compact.toList ++ ':' :: (no.compact.toList ++ k))) =
        .ok (.operator "?", yes.compact.toList ++ ':' :: (no.compact.toList ++ k)) := by
      rw [yes.compact_of_unsigned hunsigned]
      exact scan_symbol hmark (by decide) (by decide) (by decide) (by decide) rfl
        (yes.unsigned_head _)
    have hends : atAny [":"] (':' :: (no.compact.toList ++ k)) = true :=
      atAny_colon (no.takeWhile_compact k)
    have hbranch : (subexpression [":"]
        (skipBlank (yes.compact.toList ++ ':' :: (no.compact.toList ++ k))) ()).Ends yes.tree
        (':' :: (no.compact.toList ++ k)) := by
      have hshift : (shift [":"] .start
          (skipBlank (yes.compact.toList ++ ':' :: (no.compact.toList ++ k))) ()).Ends yes.tree
          (':' :: (no.compact.toList ++ k)) := by
        rw [yes.skipBlank_compact]
        refine .of_same (ihy hyes (by simp [Closing]) rfl rfl rfl) ?_
        show (shift [":"] _ (':' :: (no.compact.toList ++ k)) ()).Ends _ _
        rw [shift_stop (not_continues hends)]
        refine ⟨?_, rfl⟩
        rw [State.finish, List.reverse_append, List.reverse_reverse]
        exact yes.finish_items
      rw [yes.skipBlank_compact, subexpression]
      exact hshift.widen _
    have hafter : (⟨condition.items.reverse ++ st.items, false⟩ : State).afterOperand = true := by
      obtain ⟨x, below, hitems⟩ := condition.items_top st.items
      rw [State.afterOperand, hitems]
    rw [hchars]
    refine (shift_signed condition hd hs hspaced rfl).trans ?_
    -- the branch is read on a stack of its own, up to the colon and without the sign after it
    refine (shift_branch (continues_cons hd (by decide)) hscan (action_mark (.inl hafter)) hbranch
      hends).trans ?_
    rw [List.drop_one, List.tail_cons, no.skipBlank_compact]
    let after : State := ⟨Item.branch yes.tree :: (condition.items.reverse ++ st.items), true⟩
    have hlast : (shift delimiters after (no.compact.toList ++ k) ()).Same
        (shift delimiters ⟨no.items.reverse ++ after.items, ends k⟩ (skipBlank k) ()) :=
      ihn hno hd rfl rfl hk
    have hitems : (Conditional.choice condition yes no).items.reverse ++ st.items =
        no.items.reverse ++ Item.branch yes.tree :: (condition.items.reverse ++ st.items) := by
      simp [Conditional.items]
    rw [hitems]
    exact hlast

end Parser

namespace Tree

open Item Token Formula.Parser

variable {k : List Char} {after : List Token} {op : String}

/-! ### Tokens -/

/-- A source that is a formula was read to the end. -/
theorem result_of_ofSource {source : String} {t : Tree Float} (h : ofSource source = t)
    (hok : t.error? = none) : (subexpression [] source.toList ()).result = .ok t := by
  rw [ofSource, (read_ofSource source []).1] at h
  cases hread : (subexpression [] source.toList ()).result with
  | error error =>
    rw [hread] at h
    rw [← h] at hok
    cases hok
  | ok tree =>
    rw [hread] at h
    rw [← h]

namespace Signed

theorem operator_mem_yield (x : Signed) (h : .operator op ∈ spelled x.tree.yield) :
    op ∈ ["?", ":", "-", "+", "!"] := by
  have hname := operator_not_mem_ofName op x.name
  rw [tree] at h
  split at h
  · rw [yield_named, spelled_cons, spelled_nil, List.append_nil] at h
    exact absurd h hname
  · rename_i hsign
    have hyield : (apply (.prefixOp x.sign) [named x.name]).yield =
        [ofOperator x.sign, ofName x.name] := rfl
    rw [hyield, spelled_cons, spelled_cons, spelled_nil, List.append_nil, List.mem_append] at h
    have hsplit : (ofOperator x.sign).split = [.operator x.sign] := by
      rcases x.sign_cases hsign with hmem | hmem | hmem <;> rw [hmem] <;> rfl
    have hop := h.resolve_right hname
    rw [hsplit, List.mem_singleton, Token.operator.injEq] at hop
    rcases x.sign_cases hsign with hmem | hmem | hmem <;> simp [hop, hmem]

end Signed

namespace Conditional

variable (s : Conditional)

/-- The tree has no operators but the marks and the signs. -/
theorem operator_mem_yield (h : .operator op ∈ spelled s.tree.yield) :
    op ∈ ["?", ":", "-", "+", "!"] := by
  induction s with
  | leaf x => exact x.operator_mem_yield h
  | choice condition yes no ihy ihn =>
    have hmark : (ofOperator "?").split = [.operator "?"] := rfl
    have hcolon : (ofOperator ":").split = [.operator ":"] := rfl
    simp only [tree, yield_ternary, spelled_append, spelled_cons, hmark, hcolon, List.mem_append,
      List.mem_singleton, Token.operator.injEq] at h
    rcases h with (h | h | h) | h | h
    · exact condition.operator_mem_yield h
    · simp [h]
    · exact ihy h
    · simp [h]
    · exact ihn h

/-- The tokens of the compact text after its first sign. -/
def tokens : Conditional → List Token
  | leaf x => [.name x.name]
  | choice condition yes no =>
    .name condition.name :: .operator ("?" ++ yes.first.sign) :: yes.tokens ++
      .operator (":" ++ no.first.sign) :: no.tokens

/-- A mark takes the sign that is written to it. -/
theorem tokens_mark {mark : String} {c : Char} (hmark : mark.toList = [c]) (hc : c = '?' ∨ c = ':')
    (h : Token.tokens (s.unsigned.toList ++ k) = .ok after) :
    Token.tokens (c :: (s.compact.toList ++ k)) =
      .ok (.operator (mark ++ s.first.sign) :: after) := by
  have hchars : c :: (s.compact.toList ++ k) =
      (mark ++ s.first.sign).toList ++ (s.unsigned.toList ++ k) := by
    rw [compact_toList, String.toList_append, hmark, List.append_assoc, List.singleton_append]
  rw [hchars, tokens_scan (scan_signed hmark hc s.first (s.unsigned_head k)), h]
  rfl

theorem tokens_unsigned (hk : nameRun k = []) (h : Token.tokens k = .ok after) :
    Token.tokens (s.unsigned.toList ++ k) = .ok (s.tokens ++ after) := by
  induction s generalizing k after with
  | leaf x =>
    rw [unsigned, tokens_scan (scan_word x.identifier.1 hk), h]
    rfl
  | choice condition yes no ihy ihn =>
    have hmark : ("?" : String).toList = ['?'] := rfl
    have hcolon : (":" : String).toList = [':'] := rfl
    have hchars : (choice condition yes no).unsigned.toList ++ k = condition.name.toList ++
        '?' :: (yes.compact.toList ++ ':' :: (no.compact.toList ++ k)) := by
      simp [unsigned, hmark, hcolon]
    have hno := no.tokens_mark hcolon (.inr rfl) (ihn hk h)
    have hyes := yes.tokens_mark hmark (.inl rfl) (ihy rfl hno)
    rw [hchars, tokens_scan (scan_word condition.identifier.1 rfl), hyes]
    simp [tokens, Except.map]

theorem tokens_compact : ∃ start, Token.tokens s.compact.toList = .ok (start ++ s.tokens) := by
  have hunsigned := s.tokens_unsigned (k := []) rfl tokens_nil
  rw [List.append_nil, List.append_nil] at hunsigned
  by_cases hsign : s.first.sign = ""
  · exact ⟨[], by rw [s.compact_of_unsigned hsign, hunsigned, List.nil_append]⟩
  · have hhead := s.unsigned_head []
    rw [List.append_nil] at hhead
    have hsymbol := (s.first.isRun hsign).isSymbol
    have hscan := hsymbol.1.token.scan fun d hd => hsymbol.endsBefore (hhead d hd)
    refine ⟨[.operator s.first.sign], ?_⟩
    rw [compact_eq, String.toList_append, tokens_scan hscan, hunsigned]
    rfl

/-- A sign right after a question mark makes one operator with it. -/
theorem exists_merged (h : ¬s.Apart) :
    ∃ x : Signed, x.sign ≠ "" ∧ .operator ("?" ++ x.sign) ∈ s.tokens := by
  induction s with
  | leaf x => exact absurd trivial h
  | choice condition yes no ihy ihn =>
    by_cases hsign : yes.first.sign = ""
    · by_cases hyes : yes.Apart
      · obtain ⟨x, hx, hmem⟩ := ihn fun hno => h ⟨hsign, hyes, hno⟩
        exact ⟨x, hx, by simp [tokens, hmem]⟩
      · obtain ⟨x, hx, hmem⟩ := ihy hyes
        exact ⟨x, hx, by simp [tokens, hmem]⟩
    · exact ⟨yes.first, hsign, by simp [tokens]⟩

/-- Where a sign stands right after a question mark, the tree has no operator for the two. -/
theorem apart_of_ofSource (h : ofSource s.compact = s.tree) : s.Apart := by
  by_contra hapart
  obtain ⟨x, hx, hmem⟩ := s.exists_merged hapart
  obtain ⟨start, htokens⟩ := s.tokens_compact
  have hok : s.tree.error? = none := by
    rw [← s.normal_tree]
    exact s.symbolic.plain.readable.error?
  obtain ⟨all, hall, hspelled⟩ := tokens_of_subexpression (result_of_ofSource h hok)
  obtain rfl : start ++ s.tokens = all := Except.ok.inj (htokens.symm.trans hall)
  have hsplit : (Token.operator ("?" ++ x.sign)).split = [.operator ("?" ++ x.sign)] := by
    apply split_operator
    rw [String.toList_append]
    exact fun hhead => absurd (Option.some.inj hhead) (by decide)
  have hyield : .operator ("?" ++ x.sign) ∈ spelled s.tree.yield := by
    rw [hspelled, spelled, List.mem_flatMap]
    refine ⟨_, List.mem_filter.2 ⟨List.mem_append_right start hmem, rfl⟩, ?_⟩
    rw [hsplit]
    exact List.mem_singleton_self _
  have hop := s.operator_mem_yield hyield
  rcases x.sign_cases hx with hsign | hsign | hsign <;>
  · rw [hsign] at hop
    exact absurd hop (by decide)

/-- With a blank on each side of every mark, a conditional of signed variables reads as its tree.
Without blanks it reads as the same tree if no sign stands right after a question mark, and only
then. -/
theorem ofSource_compact :
    ofSource s.spaced = s.tree ∧ (ofSource s.compact = s.tree ↔ s.Apart) := by
  refine ⟨s.ofSource_spaced, s.apart_of_ofSource, fun hapart => ?_⟩
  have hshift : (shift [] .start (s.compact.toList ++ []) ()).Ends s.tree [] := by
    refine .of_same (shift_compact s hapart (List.nil_subset _) rfl rfl rfl) ?_
    apply shift_end
    rw [List.reverse_append, List.reverse_reverse]
    exact s.finish_items
  rw [← s.skipBlank_compact, List.append_nil] at hshift
  exact ofSource_of_shift hshift

/-- A question mark with a sign is an operator of its own, and leaves a colon without its mark. -/
theorem ofSource_compact_ne :
    let a : Signed := ⟨"", "a", by decide, by decide⟩
    let b : Signed := ⟨"-", "b", by decide, by decide⟩
    let c : Signed := ⟨"", "c", by decide, by decide⟩
    let s : Conditional := .choice a (.leaf b) (.leaf c)
    s.spaced = "a ? -b : c" ∧ s.compact = "a?-b:c" ∧
      ofSource s.compact =
        apply (.infixOp ":") [apply (.infixOp "?-") [named "a", named "b"], named "c"] ∧
      ofSource s.compact ≠ ofSource s.spaced := by
  intro a b c s
  have hcompact : s.compact = "a?-b:c" := by decide
  have hread : ofSource s.compact =
      apply (.infixOp ":") [apply (.infixOp "?-") [named "a", named "b"], named "c"] := by
    rw [hcompact]
    apply ofSource_of_shift
    have hd : Closing [] := List.nil_subset _
    have hmerged : scan ['?', '-', 'b', ':', 'c'] = .ok (.operator "?-", ['b', ':', 'c']) := rfl
    have hcolon : scan [':', 'c'] = .ok (.operator ":", ['c']) := rfl
    show (shift [] .start ("a".toList ++ ['?', '-', 'b', ':', 'c']) ()).Ends _ _
    refine .of_same (shift_name a.identifier.1 hd rfl rfl) ?_
    refine .of_same (shift_operator (continues_whole hmerged) hmerged fun h =>
      absurd h (by decide)) ?_
    show (shift [] _ ("b".toList ++ [':', 'c']) ()).Ends _ _
    refine .of_same (shift_name b.identifier.1 hd rfl rfl) ?_
    refine .of_same (shift_operator (continues_whole hcolon) hcolon fun h =>
      absurd h (by decide)) ?_
    show (shift [] _ ("c".toList ++ []) ()).Ends _ _
    refine .of_same (shift_name c.identifier.1 hd rfl rfl) ?_
    apply shift_end
    apply Stack.finish_of_collapse
    rw [Stack.collapseFrom_restart rfl, Stack.collapseFrom_restart rfl]
    rfl
  refine ⟨by decide, hcompact, hread, ?_⟩
  rw [hread, s.ofSource_spaced]
  intro h
  injection h with hsymbol
  exact absurd hsymbol (by decide)

end Conditional
end Tree
end Formula
