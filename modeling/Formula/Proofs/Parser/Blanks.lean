import Formula.Proofs.Parser.Beside

/-! Blanks between tokens. Main statements: how many blanks stand in one place of a source, and of
which kind, makes no difference to its tree or its error; and a blank before a closing mark makes
none to the tree of a formula, unless it stands behind an operator whose role it decides. -/
namespace Formula.Parser

open Item Formula.Tree Token Stack

variable {cs cs' k y y' : List Char} {blank : Bool} {left : Left} {c : Char}

/-! ### Texts that go on alike -/

def Onward (r r' : List Char) : Prop := ∃ blank left, Alike blank left r r'

/-- Texts that go on alike behind a closing bracket. -/
structure Beyond (y y' : List Char) : Prop where
  starts : startsBlank y = startsBlank y' ∧ startsBlank y = (ends y || ends y') ∨ Idle (skipBlank y)
  alike : Alike (ends y || ends y') .operand (skipBlank y) (skipBlank y')

/-- A mark is followed by texts that go on alike. -/
theorem Alike.after_mark (h : Alike blank left (c :: y) (c :: y')) (hc : isPunctuation c = true) :
    (ends y = ends y' ∨ Idle (skipBlank y)) ∧ Alike (ends y || ends y')
      (left.behind blank (ends y) (.punctuation c)) (skipBlank y) (skipBlank y') := by
  have hscan (rest : List Char) : scan (c :: rest) = .ok (.punctuation c, rest) :=
    scan_punctuation hc
  cases h with
  | fault _ scanned _ _ =>
    rw [hscan] at scanned
    cases scanned
  | token _ scanned scanned' gap later =>
    rw [hscan] at scanned scanned'
    cases scanned
    cases scanned'
    exact ⟨gap.ends_eq, later⟩

theorem Alike.beyond (h : Alike blank left (c :: y) (c :: y')) (hc : c = ')' ∨ c = ']') :
    Beyond y y' := by
  have hmark : isPunctuation c = true ∧
      left.behind blank (ends y) (.punctuation c) = .operand := by
    rcases hc with rfl | rfl <;> exact ⟨by decide, rfl⟩
  obtain ⟨hends, hlater⟩ := h.after_mark hmark.1
  rw [hmark.2] at hlater
  refine ⟨?_, hlater⟩
  cases y with
  | nil => exact .inr nofun
  | cons d y =>
    cases y' with
    | nil =>
      right
      rw [Idle, hlater.heads.head]
      exact nofun
    | cons d' y' =>
      refine hends.imp (fun heq => ⟨heq, ?_⟩) id
      have hor : (ends (d :: y) || ends (d :: y)) = ends (d :: y) := Bool.or_self _
      rw [← show ends (d :: y) = ends (d' :: y') from heq, hor]
      rfl

/-- A bracket is expected on both sides or on none. -/
theorem expect_beyond {mark : Char} (hmark : mark = ')' ∨ mark = ']') (k k' : List Char)
    (h : Onward k k') : (expect mark k ()).Matches Beyond (expect mark k' ()) := by
  obtain ⟨blank, left, h⟩ := h
  obtain ⟨rfl, rfl⟩ | ⟨c, y, y', rfl, rfl⟩ := h.heads.split
  · exact .error rfl rfl
  · unfold expect
    dsimp only
    by_cases hc : c = mark
    · subst hc
      rw [if_pos rfl, if_pos rfl]
      exact ⟨rfl, fun _ _ => h.beyond hmark⟩
    · rw [if_neg hc, if_neg hc]
      exact .error rfl rfl

/-- The same operand on both stacks, behind a closing bracket. -/
theorem Beyond.beside {a b : List Item} (h : Beyond y y') (tree : Tree Float) (below : Loose a b) :
    Beside (ends y || ends y') .operand (skipBlank y) ⟨operand tree :: a, startsBlank y⟩
      ⟨operand tree :: b, startsBlank y'⟩ :=
  .cons (operand tree) below (.inr (h.starts.imp And.right id)) (h.starts.imp And.left id)

/-! ### Readings -/

theorem nextToken_fault {fault : Fault} (h : scan cs = .error fault) :
    nextToken cs = .error fault := by
  unfold nextToken
  rw [h]

mutual

/-- Reading goes the same way over texts that are alike. -/
theorem shift_alike {delimiters : List String} {cs cs' : List Char} {blank : Bool} {left : Left}
    {s s' : State} (hd : Closing delimiters) (h : Alike blank left cs cs')
    (hs : Beside blank left cs s s') :
    (shift delimiters s cs ()).Matches Onward (shift delimiters s' cs' ()) := by
  by_cases hc : Continues delimiters cs
  · have hc' := (h.heads.continues_iff hd).1 hc
    cases h with
    | finish => exact absurd hc not_continues_nil
    | fault _ scanned scanned' same =>
      rw [shift_fault hc (nextToken_fault scanned), shift_fault hc' (nextToken_fault scanned'), same]
      exact .error rfl rfl
    | @token _ _ _ _ r r' token _ scanned scanned' gap later =>
      have hlt := (nextToken_suffix (nextToken_of_scan scanned)).2
      have hacts := hs.acts scanned gap
      rw [shift_token hc (nextToken_of_scan scanned),
        shift_token hc' (nextToken_of_scan scanned')]
      apply Parse.Matches.widen
      generalize action s (ends r) token = asked, action s' (ends r') token = asked' at hacts
      generalize left.behind blank (ends r) token = next at later hacts
      -- for the parts that skip the blanks at their start again
      have hinside : Alike (ends r || ends r') next (skipBlank (skipBlank r))
          (skipBlank (skipBlank r')) := by
        rw [skipBlank_skipBlank, skipBlank_skipBlank]
        exact later
      cases hacts with
      | push pushed => exact shift_alike hd later pushed
      | comma pushed => exact shift_alike hd later pushed
      | group free items =>
        subst free
        refine enclosed_matches _ _ (subexpression_alike (by simp [Closing]) hinside nofun)
          (expect_beyond (.inl rfl)) fun tree y y' hy hbeyond => ?_
        have hskip := (skipBlank_suffix y).length_le
        have hle := hy.length_le
        exact shift_alike hd hbeyond.alike (hbeyond.beside tree items)
      | call name free items =>
        subst free
        dsimp only [perform]
        refine (arguments_alike hinside nofun (skipBlank_skipBlank r)
          (skipBlank_skipBlank r')).next ?_
        intro args y y' hy _ hbeyond
        have hskip := (skipBlank_suffix y).length_le
        have hle := hy.length_le
        exact (shift_alike hd hbeyond.alike (hbeyond.beside _ items.drop)).widen _ _
      | subscript name free items =>
        subst free
        refine enclosed_matches _ _ (subexpression_alike (by simp [Closing]) hinside nofun)
          (expect_beyond (.inr rfl)) fun tree y y' hy hbeyond => ?_
        have hskip := (skipBlank_suffix y).length_le
        have hle := hy.length_le
        exact shift_alike hd hbeyond.alike (hbeyond.beside _ items.drop)
      | ternary other items pushed =>
        dsimp only [perform]
        rw [← Prod.eta (branch (skipBlank r) ()), ← Prod.eta (branch (skipBlank r') ())]
        obtain ⟨hnone, hnone'⟩ | ⟨yes, taken, taken', hsome, hsome', halike⟩ :=
          branch_alike hinside other
        · rw [hnone, hnone']
          exact shift_alike hd later pushed
        · rw [hsome, hsome']
          have hle := (List.drop_suffix taken (skipBlank r)).length_le
          have hpushed : Beside false .free ((skipBlank r).drop taken) (s.push (.branch yes) true)
              (s'.push (.branch yes) true) := .cons (.branch yes) items (.inl rfl) (.inl rfl)
          exact (shift_alike hd halike hpushed).widen _ _
      | refuse text => exact .error rfl rfl
  · have hc' := mt (h.heads.continues_iff hd).2 hc
    rw [shift_stop hc, shift_stop hc']
    exact ⟨hs.finish_eq.symm, fun _ _ => ⟨blank, left, h⟩⟩
termination_by 4 * cs.length

theorem subexpression_alike {delimiters : List String} {cs cs' : List Char} {blank : Bool}
    {left : Left} (hd : Closing delimiters) (h : Alike blank left (skipBlank cs) (skipBlank cs'))
    (hleft : left ≠ .operand) :
    (subexpression delimiters cs ()).Matches Onward (subexpression delimiters cs' ()) := by
  have := (skipBlank_suffix cs).length_le
  rw [subexpression, subexpression]
  exact (shift_alike hd (h.free hleft blank) (.start blank _)).widen _ _
termination_by 4 * cs.length + 1

theorem arguments_alike {cs cs' : List Char} {blank : Bool} {left : Left}
    (h : Alike blank left (skipBlank cs) (skipBlank cs')) (hleft : left ≠ .operand)
    (hcs : skipBlank cs = cs) (hcs' : skipBlank cs' = cs') :
    (arguments cs ()).Matches Beyond (arguments cs' ()) := by
  have halike : Alike blank left cs cs' := by
    rw [hcs, hcs'] at h
    exact h
  rw [arguments.eq_def, arguments.eq_def]
  obtain ⟨rfl, rfl⟩ | ⟨c, y, y', rfl, rfl⟩ := halike.heads.split
  · exact someArguments_alike h hleft
  · dsimp only
    by_cases hc : c = ')'
    · rw [if_pos hc, if_pos hc]
      exact ⟨rfl, fun _ _ => halike.beyond (.inl hc)⟩
    · rw [if_neg hc, if_neg hc]
      exact someArguments_alike h hleft
termination_by 4 * cs.length + 3

theorem someArguments_alike {cs cs' : List Char} {blank : Bool} {left : Left}
    (h : Alike blank left (skipBlank cs) (skipBlank cs')) (hleft : left ≠ .operand) :
    (someArguments cs ()).Matches Beyond (someArguments cs' ()) := by
  rw [someArguments_eq, someArguments_eq]
  refine (subexpression_alike (by simp [Closing]) h hleft).next ?_
  intro tree after after' hafter _ honward
  have hle := hafter.length_le
  obtain ⟨blank, left, halike⟩ := honward
  obtain ⟨rfl, rfl⟩ | ⟨c, y, y', rfl, rfl⟩ := halike.heads.split
  · exact (expect_beyond (.inl rfl) _ _ ⟨blank, left, halike⟩).map _
  · dsimp only [followArgument]
    by_cases hcomma : c = ','
    · subst hcomma
      rw [if_pos rfl, if_pos rfl]
      rw [List.length_cons] at hle
      have hlater := (halike.after_mark (by decide)).2
      exact ((someArguments_alike hlater nofun).map _).widen _ _
    · rw [if_neg hcomma, if_neg hcomma]
      exact (expect_beyond (.inl rfl) _ _ ⟨blank, left, halike⟩).map _
termination_by 4 * cs.length + 2

/-- A branch is found on both sides or on none. -/
theorem branch_alike {cs cs' : List Char} {blank : Bool} {left : Left}
    (h : Alike blank left (skipBlank cs) (skipBlank cs')) (hleft : left ≠ .operand) :
    (branch cs ()).1 = none ∧ (branch cs' ()).1 = none ∨
      ∃ yes taken taken', (branch cs ()).1 = some (yes, taken) ∧
        (branch cs' ()).1 = some (yes, taken') ∧
        Alike false .free (cs.drop taken) (cs'.drop taken') := by
  have hd : Closing [":"] := by simp [Closing]
  obtain ⟨hresult, hrest⟩ := subexpression_alike hd h hleft
  cases hyes : (subexpression [":"] cs ()).result with
  | error cause =>
    left
    rw [hyes] at hresult
    rw [branch_forgetful, branch_forgetful, hyes, hresult]
    exact ⟨rfl, rfl⟩
  | ok yes =>
    rw [hyes] at hresult
    obtain ⟨blank', left', halike⟩ := hrest yes hyes
    have hat := halike.heads.atAny_eq hd
    cases hcolon : atAny [":"] (subexpression [":"] cs ()).rest with
    | false =>
      exact .inl ⟨branch_eq_none ⟨hyes, rfl⟩ hcolon, branch_eq_none ⟨hresult, rfl⟩ (hat ▸ hcolon)⟩
    | true =>
      obtain ⟨taken, hbranch, hdrop⟩ := branch_of_ends ⟨hyes, rfl⟩ hcolon
      obtain ⟨taken', hbranch', hdrop'⟩ := branch_of_ends ⟨hresult, rfl⟩ (hat ▸ hcolon)
      refine .inr ⟨yes, taken, taken', hbranch, hbranch', ?_⟩
      rw [hdrop, hdrop']
      exact halike.after_colon hcolon
termination_by 4 * cs.length + 2

end

/-! ### Sources -/

variable {w : List Char}

theorem skipBlank_blanks (h : ∀ c ∈ w, Charset.isBlank c = true) (k : List Char) :
    skipBlank (w ++ k) = skipBlank k := by
  have hw : skipBlank w = [] := List.dropWhile_eq_nil_iff.2 h
  rw [skipBlank_append, hw]
  rfl

theorem ends_blanks (h : ∀ c ∈ w, Charset.isBlank c = true) : ends w = true := by
  cases w with
  | nil => rfl
  | cons c w => exact h c List.mem_cons_self

theorem ends_append_of_ne_nil (hne : w ≠ []) (k : List Char) : ends (w ++ k) = ends w := by
  cases w with
  | nil => exact absurd rfl hne
  | cons c w => rfl

theorem read_alike {source source' : String}
    (h : Alike false .free (skipBlank source.toList) (skipBlank source'.toList)) :
    ((ofSource source).read []).1 = ((ofSource source').read []).1 := by
  rw [(read_ofSource source []).1, (read_ofSource source' []).1]
  exact (subexpression_alike (by simp [Closing]) h nofun).result.symm

/-- Between two parts of a source, where no quote is open, it makes no difference to its tree or
its error how many blanks there are and of which kind. -/
theorem read_blanks (u v w w' : String) (hw : w ≠ "") (hw' : w' ≠ "")
    (hblank : ∀ c ∈ w.toList, Charset.isBlank c = true)
    (hblank' : ∀ c ∈ w'.toList, Charset.isBlank c = true) (hquotes : Unquoted u.toList) :
    ((ofSource (u ++ w ++ v)).read []).1 = ((ofSource (u ++ w' ++ v)).read []).1 := by
  apply read_alike
  have hends : ends (w.toList ++ v.toList) = true := by
    rw [ends_append_of_ne_nil (by simpa using hw), ends_blanks hblank]
  have hends' : ends (w'.toList ++ v.toList) = true := by
    rw [ends_append_of_ne_nil (by simpa using hw'), ends_blanks hblank']
  have hskip : skipBlank (w.toList ++ v.toList) = skipBlank (w'.toList ++ v.toList) := by
    rw [skipBlank_blanks hblank, skipBlank_blanks hblank']
  rw [String.toList_append, String.toList_append, String.toList_append, String.toList_append,
    List.append_assoc, List.append_assoc]
  exact alike_append (cuts_of_ends hends) (cuts_of_ends hends') hskip hquotes
    (.inr ⟨hends, hends'⟩) (.inl (hends.trans hends'.symm))

theorem read_blanks_sum :
    ((ofSource ("a" ++ " " ++ "+ b")).read []).1 =
      ((ofSource ("a" ++ "\t\n" ++ "+ b")).read []).1 := by
  have htokens : tokens "a".toList = .ok [.name "a"] := by
    rw [tokens_scan (show scan "a".toList = .ok (.name "a", []) from rfl), tokens_nil]
    rfl
  have hspace : ∀ c ∈ [' '], Charset.isBlank c = true := by simp [Charset.isBlank]
  have hlines : ∀ c ∈ ['\t', '\n'], Charset.isBlank c = true := by simp [Charset.isBlank]
  exact read_blanks "a" "+ b" " " "\t\n" (by decide) (by decide) hspace hlines
    (unquoted_of_tokens htokens)

end Formula.Parser
