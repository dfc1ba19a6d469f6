import Formula.Proofs.Parser.Failure
import Formula.Proofs.Parser.Reading
import Formula.Proofs.Parser.WellFormed
import Formula.Proofs.Tree.Fallbacks

/-! Sources that are reported as empty. Main statement: if a source is refused without a token to
show for it, there is nothing in it or nothing where an operand has to stand after an opening mark
or a comma; and nothing else makes the stack give up without a token. -/
namespace Formula.Parser

open Item Formula.Tree Token

variable {delimiters : List String} {s : State} {cs after rest : List Char} {token : Token}
  {followed : Bool} {item : Item} {error : Error}

/-! ### Items with a text -/

theorem ne_operator_empty (h : scan cs = .ok (token, rest)) : token ≠ .operator "" := by
  cases scanned h with
  | operator _ found =>
    intro heq
    exact (operator?_ne_nil found).1 (String.ofList_eq_empty_iff.1 (Token.operator.inj heq))
  | _ => exact nofun

theorem item_shown (hn : nextToken cs = .ok (token, followed, rest))
    (ha : action s followed token = .push item ∨ action s followed token = .ternary item) :
    item.Shown := by
  refine ⟨item_wellFormed hn ha, ?_⟩
  have hyield : ∃ after, scan cs = .ok (token, after) ∧ item.yield = [token] := by
    rcases ha with ha | ha
    · obtain ⟨after, hscan, -, hyield, -⟩ := fits_of_nextToken hn ha
      exact ⟨after, hscan, hyield⟩
    · obtain ⟨after, hscan, -, -, hyield⟩ := fits_of_nextToken hn ha
      exact ⟨after, hscan, hyield⟩
  obtain ⟨after, hscan, hyield⟩ := hyield
  rw [hyield, List.mem_singleton]
  exact (ne_operator_empty hscan).symm

theorem comma_shown (h : ∀ item ∈ s.items, item.Shown) : ∀ item ∈ s.comma.items, item.Shown := by
  rw [shown_iff] at h ⊢
  refine ⟨comma_wellFormed h.1, fun hmem => h.2 ?_⟩
  have hyields : yields s.comma.items = .punctuation ',' :: yields s.items := by
    unfold State.comma
    dsimp only
    split
    · rename_i op below heq
      rw [heq]
      rfl
    · rfl
  rw [hyields, List.mem_cons] at hmem
  exact hmem.resolve_left nofun

theorem replace_shown {tree : Tree Float} (hs : ∀ item ∈ s.items, item.Shown)
    (ht : (operand tree).Shown) (spaced : Bool) :
    ∀ item ∈ (s.replace tree spaced).items, item.Shown :=
  List.forall_mem_cons.2 ⟨ht, fun item hitem => hs item (List.mem_of_mem_drop hitem)⟩

theorem push_shown (hs : ∀ item ∈ s.items, item.Shown) {top : Item} (htop : top.Shown)
    (spaced : Bool) : ∀ item ∈ (s.push top spaced).items, item.Shown :=
  List.forall_mem_cons.2 ⟨htop, hs⟩

/-- A stack of items with a text is read on to a tree with one. -/
def Shows (_ : List String) (s : State) (_ : List Char) (tree : Tree Float) (_ : List Char) :
    Prop :=
  (∀ item ∈ s.items, item.Shown) → (operand tree).Shown

def ShowsAll (_ : List Char) (args : List (Tree Float)) (_ : List Char) : Prop :=
  ∀ arg ∈ args, (operand arg).Shown

theorem not_mem_intercalate {α : Type} {x : α} {between : List α} {lists : List (List α)}
    (hbetween : x ∉ between) (h : ∀ list ∈ lists, x ∉ list) : x ∉ between.intercalate lists := by
  induction lists with
  | nil => simp
  | cons first lists ih =>
    rw [List.forall_mem_cons] at h
    cases lists with
    | nil => simpa using h.1
    | cons second lists =>
      rw [List.intercalate_cons_cons, List.mem_append, List.mem_append, not_or, not_or]
      exact ⟨⟨h.1, hbetween⟩, ih h.2⟩

theorem named_ne_operator (name : String) : Token.ofName name ≠ .operator "" := by
  unfold Token.ofName
  split <;> exact nofun

theorem call_shown {name : String} {args : List (Tree Float)}
    (hname : Token.isName name = true ∨ Quoted.isQuoted name = true) (h : ShowsAll cs args rest) :
    (operand (apply (.function name args.length) args)).Shown where
  wellFormed := .apply rfl hname fun arg harg => (h arg harg).wellFormed
  named := by
    rw [yield_operand, yield_function, List.mem_cons, not_or]
    refine ⟨(named_ne_operator name).symm, not_mem_intercalate (by simp) fun list hlist => ?_⟩
    obtain ⟨arg, harg, rfl⟩ := List.mem_map.1 hlist
    exact (h arg harg).named

theorem subscript_shown {name : String} {arg : Tree Float}
    (hname : Token.isName name = true ∨ Quoted.isQuoted name = true) (h : (operand arg).Shown) :
    (operand (apply (.array name) [arg])).Shown where
  wellFormed := .unary rfl hname h.wellFormed
  named := by
    rw [yield_operand, yield_array, List.mem_cons, not_or]
    exact ⟨(named_ne_operator name).symm, h.named⟩

theorem branch_shown {yes : Tree Float} (h : (operand yes).Shown) : (Item.branch yes).Shown where
  wellFormed := h.wellFormed
  named := by
    have hnamed := h.named
    have hmark : ofOperator "?" = .operator "?" := rfl
    have hcolon : ofOperator ":" = .operator ":" := rfl
    simpa [hmark, hcolon] using hnamed

theorem start_shown : ∀ item ∈ State.start.items, item.Shown := nofun

theorem callee_named (hn : nextToken cs = .ok (token, followed, rest)) {name : String}
    (ha : action s followed token = .call name ∨ action s followed token = .subscript name)
    (hs : ∀ item ∈ s.items, item.Shown) :
    Token.isName name = true ∨ Quoted.isQuoted name = true := by
  have hcallee : ∃ below, s.items = operand (named name) :: below := by
    rcases ha with ha | ha
    · obtain ⟨_, -, -, -, hbelow⟩ := fits_of_nextToken hn ha
      exact hbelow
    · obtain ⟨_, -, -, -, hbelow⟩ := fits_of_nextToken hn ha
      exact hbelow
  obtain ⟨below, hitems⟩ := hcallee
  exact callee_isNamed hitems fun item hitem => (hs item hitem).wellFormed

theorem kept_shows : Kept Shows ShowsAll where
  stop _ hf hs := by
    have hitems := (shown_iff.1 fun item hitem => hs item (List.mem_reverse.1 hitem))
    refine ⟨Stack.finish_wellFormed hf hitems.1, ?_⟩
    rw [yield_operand, Stack.finish_yield hf]
    exact hitems.2
  push _ hn ha ht hs := ht (push_shown hs (item_shown hn (.inl ha)) _)
  comma _ _ _ ht hs := ht (comma_shown hs)
  group _ _ _ hi ht hs := ht (push_shown hs (hi start_shown) _)
  call _ hn ha hargs ht hs :=
    ht (replace_shown hs (call_shown (callee_named hn (.inl ha) hs) hargs) _)
  subscript _ hn ha hi ht hs :=
    ht (replace_shown hs (subscript_shown (callee_named hn (.inr ha) hs) (hi start_shown)) _)
  withBranch _ _ _ hi _ ht hs := ht (push_shown hs (branch_shown (hi start_shown)) true)
  withoutBranch _ hn ha ht hs := ht (push_shown hs (item_shown hn (.inr ha)) _)
  noArguments := nofun
  lastArgument ht arg harg := by
    rw [List.mem_singleton.1 harg]
    exact ht start_shown
  moreArguments ht _ hargs := List.forall_mem_cons.2 ⟨ht start_shown, hargs⟩

/-! ### Failing readings -/

/-- Blanks, if anything, stand before a closing mark, a comma or the end. -/
def Bare (cs : List Char) : Prop := ∀ c ∈ (skipBlank cs).head?, c ∈ [')', ']', ',']

/-- After an opening mark or a comma nothing stands. -/
def Hollow (cs : List Char) : Prop :=
  ∃ before mark after, cs = before ++ mark :: after ∧ mark ∈ ['(', '[', ','] ∧ Bare after

theorem Hollow.of_suffix (h : Hollow rest) (hs : rest <:+ cs) : Hollow cs := by
  obtain ⟨before, mark, after, rfl, hmark, hbare⟩ := h
  obtain ⟨taken, rfl⟩ := hs
  exact ⟨taken ++ before, mark, after, (List.append_assoc taken before _).symm, hmark, hbare⟩

theorem Bare.of_skipBlank (h : Bare (skipBlank cs)) : Bare cs := by
  rwa [Bare, skipBlank_skipBlank] at h

theorem bare_of_stop (hd : delimiters ⊆ [")", "]", ","])
    (h : ¬Continues delimiters (skipBlank cs)) : Bare cs := by
  have hstop := Decidable.not_not.mp h
  rw [Bool.or_eq_true, List.isEmpty_iff, atAny, List.any_eq_true] at hstop
  intro c hc
  rcases hstop with hnil | ⟨delimiter, hmem, hat⟩
  · rw [hnil] at hc
    cases hc
  · rw [atDelimiter, Bool.and_eq_true] at hat
    obtain ⟨later, hlater⟩ := List.isPrefixOf_iff_prefix.1 hat.1
    rw [← hlater] at hc
    have hdelimiter := hd hmem
    simp only [List.mem_cons, List.not_mem_nil, or_false] at hdelimiter
    rcases hdelimiter with rfl | rfl | rfl
    · obtain rfl : ')' = c := Option.some.inj hc
      simp
    · obtain rfl : ']' = c := Option.some.inj hc
      simp
    · obtain rfl : ',' = c := Option.some.inj hc
      simp

theorem next_error {α β : Type} {start : List Char} {p : Parse Unit start α}
    {f : α → (rest : List Char) → rest <:+ start → Unit → Parse Unit rest β}
    (h : p.result = .error error) : (p.next f).result = .error error := by
  unfold Parse.next
  split
  · rename_i other hp
    rw [hp] at h
    cases h
    rfl
  · rename_i value hp
    rw [hp] at h
    cases h

theorem marked_ne_overflow {numeral : List Char} : marked cs ≠ .error (.overflow numeral) := by
  intro h
  cases cs with
  | nil => cases h
  | cons c cs =>
    unfold marked at h
    dsimp only at h
    by_cases hmark : isPunctuation c
    · rw [if_pos hmark] at h
      cases h
    · by_cases hquote : Quoted.isQuote c
      · rw [if_neg hmark, if_pos hquote] at h
        cases hbody : Quoted.body? c cs <;> rw [hbody] at h <;> cases h
      · rw [if_neg hmark, if_neg hquote] at h
        cases h

theorem overflow_ne_nil {numeral : List Char} (h : scan cs = .error (.overflow numeral)) :
    numeral ≠ [] := by
  unfold scan at h
  cases hn : numeral? cs with
  | some found =>
    obtain ⟨value, length⟩ := found
    rw [hn] at h
    dsimp only at h
    split at h
    · cases h
    · cases h
      obtain ⟨hpos, hne⟩ := numeral?_pos hn
      rw [ne_eq, List.take_eq_nil_iff, not_or]
      exact ⟨hpos.ne', hne⟩
  | none =>
    rw [hn] at h
    dsimp only at h
    split at h
    · cases h
    · split at h
      · cases h
      · exact absurd h marked_ne_overflow

/-- Text that is no token is told. -/
theorem faultError_ne {fault : Fault} (hne : cs ≠ []) (hblank : skipBlank cs = cs)
    (h : nextToken cs = .error fault) : faultError cs fault ≠ .unexpectedToken "" := by
  have hscan : scan cs = .error fault := by
    unfold nextToken at h
    split at h
    · rename_i other hscan
      rw [hscan, Except.error.inj h]
    · cases h
  intro heq
  cases fault with
  | overflow numeral =>
    exact overflow_ne_nil hscan (String.ofList_eq_empty_iff.1 (Error.unexpectedToken.inj heq))
  | unclosed quote => cases heq
  | unknown =>
    have htaken := String.ofList_eq_empty_iff.1 (Error.unexpectedToken.inj heq)
    obtain ⟨c, tail, rfl⟩ := List.exists_cons_of_ne_nil hne
    have hc : Charset.isBlank c = true := by simpa [List.takeWhile_cons] using htaken
    have hlength := congrArg List.length hblank
    rw [skipBlank, List.dropWhile_cons_of_pos hc, List.length_cons] at hlength
    have hle := (skipBlank_suffix tail).length_le
    unfold skipBlank at hle
    omega

theorem refuse_ne {text : String} (h : action s followed token = .refuse text) : text ≠ "" := by
  cases token with
  | punctuation c =>
    simp only [action, parenthesis, bracket] at h
    split at h
    · split at h
      · cases h
      · split at h
        · cases h
          decide
        · cases h
    · split at h
      · split at h
        · cases h
        · cases h
          decide
      · split at h
        · cases h
        · cases h
          simp
  | operator op =>
    simp only [action] at h
    split at h <;> cases h
  | _ => cases h

theorem skipBlank_of_nextToken (hn : nextToken cs = .ok (token, followed, rest)) :
    skipBlank rest = rest := by
  obtain ⟨after, -, rfl⟩ := nextToken_scan hn
  exact skipBlank_skipBlank after

theorem eq_cons_of_scan {c : Char} (h : scan cs = .ok (.punctuation c, after)) :
    cs = c :: after := by
  cases scanned h with
  | punctuation start _ => exact start

/-- A mark that opens a part without an operand, or stands before one. -/
theorem hollow_of_part {mark : Char} (h : Bare rest ∨ Hollow rest)
    (hn : nextToken cs = .ok (.punctuation mark, followed, rest)) (hmark : mark ∈ ['(', '[', ',']) :
    Hollow cs := by
  rcases h with hbare | hhollow
  · obtain ⟨after, hscan, rfl⟩ := nextToken_scan hn
    exact ⟨[], mark, after, eq_cons_of_scan hscan, hmark, hbare.of_skipBlank⟩
  · exact hhollow.of_suffix (nextToken_suffix hn).1

/-- A reading that gives up without a token has no items and no text left, or there is nothing where
an operand has to stand in what is left. -/
def Empties (delimiters : List String) (s : State) (cs : List Char) (error : Error) : Prop :=
  error = .unexpectedToken "" → (∀ item ∈ s.items, item.Shown) → skipBlank cs = cs →
    s.items = [] ∧ ¬Continues delimiters cs ∨ Hollow cs

/-- So do arguments; there may be nothing where they start. -/
def EmptiesAll (cs : List Char) (error : Error) : Prop :=
  error = .unexpectedToken "" → Bare cs ∨ Hollow cs

namespace Empties

variable {s' : State}

/-- Behind a token the stack is not empty. -/
theorem behind (h : Empties delimiters s' after error)
    (hn : nextToken cs = .ok (token, followed, rest)) (hafter : after <:+ rest)
    (hskip : skipBlank after = after) (herror : error = .unexpectedToken "")
    (hshown : ∀ item ∈ s'.items, item.Shown) (hne : s'.items ≠ []) :
    s.items = [] ∧ ¬Continues delimiters cs ∨ Hollow cs := by
  obtain ⟨hnil, -⟩ | hhollow := h herror hshown hskip
  · exact absurd hnil hne
  · exact .inr (hhollow.of_suffix (hafter.trans (nextToken_suffix hn).1))

/-- A part up to a closing mark or a comma. -/
theorem part (h : Empties delimiters .start (skipBlank cs) error)
    (hd : delimiters ⊆ [")", "]", ","]) : EmptiesAll cs error := by
  intro herror
  obtain ⟨-, hstop⟩ | hhollow := h herror start_shown (skipBlank_skipBlank cs)
  · exact .inl (bare_of_stop hd hstop)
  · exact .inr (hhollow.of_suffix (skipBlank_suffix cs))

end Empties

theorem traced_empties : Traced Empties EmptiesAll where
  stop := by
    intro delimiters s cs error hc hfinish herror hs _
    rw [herror] at hfinish
    have hitems : ∀ item ∈ s.items.reverse, item.Shown := fun item hitem =>
      hs item (List.mem_reverse.1 hitem)
    exact .inl ⟨List.reverse_eq_nil_iff.1 (Stack.eq_nil_of_finish hitems hfinish), hc⟩
  fault := by
    intro delimiters s cs fault hc hn herror _ hblank
    have hne : cs ≠ [] := by
      rintro rfl
      exact hc rfl
    exact absurd herror (faultError_ne hne hblank hn)
  refuse _ _ ha herror := absurd (Error.unexpectedToken.inj herror) (refuse_ne ha)
  unclosed _ := nofun
  push _ hn ha h herror hs _ :=
    h.behind hn List.suffix_rfl (skipBlank_of_nextToken hn) herror
      (push_shown hs (item_shown hn (.inl ha)) _) (List.cons_ne_nil _ _)
  comma _ hn _ h herror hs _ :=
    h.behind hn List.suffix_rfl (skipBlank_of_nextToken hn) herror (comma_shown hs)
      (List.cons_ne_nil _ _)
  inGroup _ hn ha h herror _ _ := by
    obtain ⟨-, -, -, rfl⟩ := fits_of_nextToken hn ha
    exact .inr (hollow_of_part (h.part (by simp) herror) hn (by simp))
  afterGroup _ hn _ hinner hafter h herror hs _ := by
    have hshown := kept_shows.of_subexpression hinner start_shown
    exact h.behind hn ((skipBlank_suffix _).trans hafter) (skipBlank_skipBlank _) herror
      (push_shown hs hshown _) (List.cons_ne_nil _ _)
  inCall _ hn ha h herror _ _ := by
    obtain ⟨-, -, -, rfl, -⟩ := fits_of_nextToken hn ha
    exact .inr (hollow_of_part (h herror) hn (by simp))
  afterCall _ hn ha hargs hafter h herror hs _ := by
    have hshown := call_shown (callee_named hn (.inl ha) hs) (kept_shows.of_arguments hargs)
    exact h.behind hn ((skipBlank_suffix _).trans hafter) (skipBlank_skipBlank _) herror
      (replace_shown hs hshown _) (List.cons_ne_nil _ _)
  inSubscript _ hn ha h herror _ _ := by
    obtain ⟨-, -, -, rfl, -⟩ := fits_of_nextToken hn ha
    exact .inr (hollow_of_part (h.part (by simp) herror) hn (by simp))
  afterSubscript _ hn ha hinner hafter h herror hs _ := by
    have hshown := subscript_shown (callee_named hn (.inr ha) hs)
      (kept_shows.of_subexpression hinner start_shown)
    exact h.behind hn ((skipBlank_suffix _).trans hafter) (skipBlank_skipBlank _) herror
      (replace_shown hs hshown _) (List.cons_ne_nil _ _)
  withBranch _ hn _ hyes hafter h herror hs _ := by
    have hshown := branch_shown (kept_shows.of_subexpression hyes start_shown)
    exact h.behind hn ((skipBlank_suffix _).trans hafter) (skipBlank_skipBlank _) herror
      (push_shown hs hshown true) (List.cons_ne_nil _ _)
  withoutBranch _ hn ha h herror hs _ :=
    h.behind hn List.suffix_rfl (skipBlank_of_nextToken hn) herror
      (push_shown hs (item_shown hn (.inr ha)) _) (List.cons_ne_nil _ _)
  inArgument h := h.part (by simp)
  afterArgument := by
    intro cs rest error hsuffix h herror
    right
    obtain hbare | hhollow := h herror
    · exact Hollow.of_suffix ⟨[], ',', rest, rfl, by simp, hbare⟩ hsuffix
    · exact hhollow.of_suffix ((List.suffix_cons ',' rest).trans hsuffix)
  unclosedArguments := nofun

theorem subexpression_empty
    (h : (subexpression delimiters cs ()).result = .error (.unexpectedToken "")) :
    ¬Continues delimiters (skipBlank cs) ∨ Hollow cs := by
  obtain ⟨-, hstop⟩ | hhollow :=
    traced_empties.of_subexpression h rfl start_shown (skipBlank_skipBlank cs)
  · exact .inl hstop
  · exact .inr (hhollow.of_suffix (skipBlank_suffix cs))

end Formula.Parser

namespace Formula.Tree

open Formula.Parser Token

/-- A source that is refused without a token has nothing but blanks in it, or only blanks between an
opening mark or a comma and the closing mark, the comma or the end after it. What is taken off a
stack is always what was seen there, and is never missing. -/
theorem ofSource_empty {source : String}
    (h : (ofSource source).error? = some (.unexpectedToken "")) :
    ((∀ c ∈ source.toList, Charset.isBlank c = true) ∨
      ∃ before mark blanks after, source.toList = before ++ mark :: (blanks ++ after) ∧
        mark ∈ ['(', '[', ','] ∧ (∀ c ∈ blanks, Charset.isBlank c = true) ∧
        ∀ c ∈ after.head?, c ∈ [')', ']', ',']) ∧
    (∀ items, Stack.move? items = some (Stack.move items)) ∧
    ∀ items, Stack.finish? items = some (Stack.finish items) := by
  refine ⟨?_, Stack.move?_eq, Stack.finish?_eq⟩
  have hread : (subexpression [] source.toList ()).result = .error (.unexpectedToken "") := by
    rw [← (read_ofSource source []).1]
    unfold ofSource at h
    cases hp : ((Parser.ofSource source).read []).1 with
    | error error =>
      rw [hp] at h
      exact congrArg Except.error (Option.some.inj h)
    | ok tree =>
      rw [hp] at h
      have htree := wellFormed_of_read (p := Parser.ofSource source) List.suffix_rfl
        (Branches.faithful_empty source.toList) hp
      cases htree <;> cases h
  rcases subexpression_empty hread with hstop | ⟨before, mark, after, hsource, hmark, hbare⟩
  · have hnil : skipBlank source.toList = [] := by
      have hstop := Decidable.not_not.mp hstop
      simpa [atAny] using hstop
    exact .inl (List.dropWhile_eq_nil_iff.1 hnil)
  · have hsplit : after.takeWhile Charset.isBlank ++ skipBlank after = after :=
      List.takeWhile_append_dropWhile
    refine .inr ⟨before, mark, after.takeWhile Charset.isBlank, skipBlank after, ?_, hmark, ?_,
      hbare⟩
    · rw [hsplit, hsource]
    · exact fun c hc => List.mem_takeWhile_imp hc

/-- A pair of parentheses around nothing. -/
theorem ofSource_empty_group :
    (ofSource "( )").error? = some (.unexpectedToken "") ∧
      ∃ before mark blanks after, "( )".toList = before ++ mark :: (blanks ++ after) ∧
        mark ∈ ['(', '[', ','] ∧ (∀ c ∈ blanks, Charset.isBlank c = true) ∧
        ∀ c ∈ after.head?, c ∈ [')', ']', ','] := by
  have hopen : nextToken ['(', ' ', ')'] = .ok (.punctuation '(', true, [')']) := rfl
  have haction : action .start true (.punctuation '(') = .group := rfl
  have hstart : Continues [] ['(', ' ', ')'] := by simp [Continues, atAny]
  have hstop : ¬Continues [")"] [')'] := not_continues rfl
  have hinner : (subexpression [")"] [')'] ()).result = .error (.unexpectedToken "") := by
    rw [subexpression]
    change (shift [")"] .start [')'] ()).result = _
    rw [shift_stop hstop]
    exact finish_start
  have hskip : skipBlank "( )".toList = ['(', ' ', ')'] := rfl
  have hshift : (shift [] .start (skipBlank "( )".toList) ()).result =
      .error (.unexpectedToken "") := by
    rw [hskip, shift_token hstart hopen, haction]
    exact next_error hinner
  have hread : (subexpression [] "( )".toList ()).result = .error (.unexpectedToken "") := by
    rw [subexpression]
    exact hshift
  have herror : (ofSource "( )").error? = some (.unexpectedToken "") := by
    unfold ofSource
    rw [(read_ofSource "( )" []).1, hread]
    rfl
  refine ⟨herror, (ofSource_empty herror).1.resolve_left fun hblank => ?_⟩
  exact absurd (hblank '(' (by simp)) (by decide)

end Formula.Tree
