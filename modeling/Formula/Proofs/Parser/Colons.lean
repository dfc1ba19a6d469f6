import Formula.Proofs.Parser.Rows
import Formula.Proofs.Token.Sequence

/-! Looking for the colon of a conditional. Main statement: a question mark that is not followed by a
branch finds none, however far it looks for a colon. -/
namespace Formula.Parser

open Item Formula.Tree Token

variable {delimiters : List String} {s : State} {k : List Char} {c next : Chunk}
  {row later rest : List Chunk} {afterWord : Bool}

/-- What every look for a colon ends at. -/
def Mute (k : List Char) : Prop := ∀ c ∈ k.head?, c ∈ [')', ']']

theorem Mute.closes (h : Mute k) : Closes k := by
  intro c hc
  have hmem := h c hc
  simp only [List.mem_cons, List.not_mem_nil, or_false] at hmem ⊢
  rcases hmem with rfl | rfl <;> simp

theorem isOperatorToken_of_isColon {op : String} (h : isColon op = true) : IsOperatorToken op := by
  have hmem : op ∈ [":", ":-", ":+", ":!"] := List.contains_iff_mem.1 h
  simp only [List.mem_cons, List.not_mem_nil, or_false] at hmem
  rcases hmem with rfl | rfl | rfl | rfl <;> decide

/-- The look for a colon ends at a chunk with one. -/
theorem atAny_colon_chunk (h : c.isColon = true) (hfits : Fits k c) :
    atAny [":"] (skipBlank (c.text ++ k)) = true := by
  have hd : Closing [":"] := by simp [Closing]
  have hat {op : String} {m : List Char} (hop : isColon op = true)
      (hm : ∀ c ∈ m.head?, endsBefore op c = true) :
      atAny [":"] (skipBlank (op.toList ++ m)) = true := by
    have htoken := isOperatorToken_of_isColon hop
    rw [skipBlank_of_scan (htoken.scan hm), atAny_operator hd htoken hm, hop]
    rfl
  have hgap {op : String} (hop : isColon op = true) : (Tree.gap op).toList = [] := by
    rw [gap_of_isName (isOperatorToken_of_isColon hop).isName]
    rfl
  cases c with
  | sign op =>
    have hop : isColon op = true := h
    have hcomma : op ≠ "," := by
      rintro rfl
      exact absurd hop (by decide)
    obtain ⟨d, m, rfl, -, hends⟩ := hfits.resolve_left hcomma
    rw [Chunk.text, hgap hop, List.append_nil]
    refine hat hop ?_
    rintro e ⟨⟩
    exact hends
  | suffix op =>
    have hop : isColon op = true := h
    have hname : isName op = false := (isOperatorToken_of_isColon hop).isName
    rw [Chunk.text, hgap hop]
    exact hat hop (by simpa [Fits, hname] using hfits)
  | joint op =>
    have hop : isColon op = true := h
    have hcomma : op ≠ "," := by
      rintro rfl
      exact absurd hop (by decide)
    have htext : (Chunk.joint op).text ++ k = ' ' :: (op.toList ++ ' ' :: k) := by
      rw [Chunk.text, if_neg hcomma]
      simp
    rw [htext, skipBlank_space]
    exact hat hop (endsBefore_blank op)
  | operand tree wrap => cases h
  | branch yes => cases h

/-- What is read of an unfinished row is no formula. -/
theorem finish_unfinished (h : Row.unfinished row = true) (k : List Char) :
    ∃ error, (steps k row .start).finish = .error error := by
  unfold Row.unfinished at h
  split at h
  · exact ⟨_, finish_start⟩
  · rename_i op
    have hitems : (steps k [Chunk.joint op] .start).items = [operator .infixOp op] := by
      rw [steps, steps, step]
      split
      · rename_i hop
        rw [hop]
        rfl
      · rfl
    refine ⟨.unexpectedToken op, ?_⟩
    rw [State.finish, hitems]
    show Stack.finish [operator .infixOp op] = _
    rw [Stack.finish, Stack.collapseFrom]
    rfl
  · split at h
    · rename_i yes hlast
      obtain ⟨init, hinit⟩ := List.getLast?_eq_some_iff.1 hlast
      rw [hinit, steps_append, State.finish]
      have hbottom (s : State) : (steps k [Chunk.branch yes] s).items.reverse.getLast? =
          some (.branch yes.normal) := by
        rw [steps, steps, step, List.getLast?_reverse]
        rfl
      exact Stack.finish_unfinished (hbottom _)
    · cases h

theorem branch_of_same {start cs : List Char} {p : Parse Unit start (Tree Float)}
    (h : (subexpression [":"] cs ()).Same p)
    (hp : ∀ yes, p.result = .ok yes → atAny [":"] p.rest = false) : (branch cs ()).1 = none := by
  rw [branch_forgetful, h.result, h.rest]
  cases hresult : p.result with
  | error error => rfl
  | ok yes => simp [hp yes hresult]

theorem mute_result (h : Mute k) (yes : Tree Float)
    (hyes : (shift [":"] s (skipBlank k) ()).result = .ok yes) :
    atAny [":"] (shift [":"] s (skipBlank k) ()).rest = false := by
  cases k with
  | nil =>
    have hstop : ¬Continues [":"] (skipBlank []) := not_continues_nil
    rw [shift_stop hstop]
    rfl
  | cons c k =>
    have hmem := h c rfl
    have hc : isPunctuation c = true ∧ Charset.isBlank c = false ∧ Continues [":"] (c :: k) ∧
        action s (ends k) (.punctuation c) = .refuse (String.singleton c) := by
      simp only [List.mem_cons, List.not_mem_nil, or_false] at hmem
      rcases hmem with rfl | rfl
      · exact ⟨rfl, rfl, by simp [Continues, atAny, atDelimiter], rfl⟩
      · exact ⟨rfl, rfl, by simp [Continues, atAny, atDelimiter], rfl⟩
    obtain ⟨hmark, hblank, hcontinues, haction⟩ := hc
    rw [skipBlank_cons hblank, shift_token hcontinues (nextToken_of_scan (scan_punctuation hmark)),
      haction] at hyes
    cases hyes

/-- The part of a row before its first colon. -/
theorem exists_colon (h : row.any Chunk.isColon = true) (hnone : Row.hasBranch row = false) :
    ∃ before c later, row = before ++ c :: later ∧ (∀ d ∈ before, d.isColon = false) ∧
      c.isColon = true ∧ Row.unfinished before = true := by
  have hunfinished : Row.unfinished (row.takeWhile fun c => !c.isColon) = true := by
    simpa [Row.hasBranch, h] using hnone
  have hsplit : row.takeWhile (fun c => !c.isColon) ++ row.dropWhile (fun c => !c.isColon) = row :=
    List.takeWhile_append_dropWhile
  have hhead := List.head?_dropWhile_not (fun c : Chunk => !c.isColon) row
  cases hlater : row.dropWhile fun c => !c.isColon with
  | nil =>
    have hall := List.dropWhile_eq_nil_iff.1 hlater
    obtain ⟨c, hc, hcolon⟩ := List.any_eq_true.1 h
    have hnot := hall c hc
    simp [hcolon] at hnot
  | cons c later =>
    rw [hlater] at hsplit hhead
    refine ⟨_, c, later, hsplit.symm, fun d hd => ?_, by simpa using hhead, hunfinished⟩
    simpa using List.mem_takeWhile_imp hd

/-- What ends a row: the colon of the branch that it is, or else a text without one. -/
def Ending (rest : List Chunk) (k : List Char) : Prop := rest = [.joint ":"] ∨ rest = [] ∧ Mute k

/-- The first colon in a row and what ends it stands in the row, or is what ends it. -/
theorem split_of_ending {before : List Chunk} (hending : Ending rest k)
    (h : row ++ rest = before ++ c :: later) :
    ∃ middle, row = before ++ middle ∧ middle ++ rest = c :: later := by
  obtain ⟨middle, hbefore, hrest⟩ | ⟨middle, hrow, hlater⟩ := List.append_eq_append_iff.1 h
  · have hmiddle : middle = [] := by
      obtain rfl | ⟨rfl, -⟩ := hending
      · cases middle with
        | nil => rfl
        | cons d middle => simp at hrest
      · simp at hrest
    subst hmiddle
    rw [List.append_nil] at hbefore
    exact ⟨[], by rw [hbefore, List.append_nil], hrest⟩
  · exact ⟨middle, hrow, hlater.symm⟩

/-- Reading from a chunk on finds no branch, if no formula ends at the first colon. -/
theorem branch_row (hsound : Sound row) (hready : ∀ c ∈ row.head?, Ready afterWord .start c)
    (hfits : FitsAll k (row ++ rest)) (hdeaf : Deaf (Row.text rest ++ k) afterWord row)
    (hending : Ending rest k) (hnone : Row.hasBranch (row ++ rest) = false) :
    (branch (skipBlank (Row.text row ++ (Row.text rest ++ k))) ()).1 = none := by
  have hd : Closing [":"] := by simp [Closing]
  have hread {m : List Char} {p : Parse Unit m (Tree Float)} {cs : List Char}
      (h : (shift [":"] .start (skipBlank cs) ()).Same p) :
      (subexpression [":"] (skipBlank cs) ()).Same p := by
    rw [subexpression]
    refine Parse.Same.widen ?_ _
    rw [skipBlank_skipBlank]
    exact h
  by_cases hcolon : (row ++ rest).any Chunk.isColon = true
  · obtain ⟨before, c, later, hsplit, hbefore, hc, hunfinished⟩ := exists_colon hcolon hnone
    obtain ⟨middle, rfl, hmiddle⟩ := split_of_ending hending hsplit
    have htext : Row.text middle ++ (Row.text rest ++ k) = c.text ++ (Row.text later ++ k) := by
      rw [← text_append, hmiddle, text_cons]
    have hdeaf_before := hdeaf.left
    rw [hsplit] at hfits
    obtain ⟨hfits_before, hfits_c, -⟩ := fitsAll_append.1 hfits
    rw [htext] at hdeaf_before
    rw [text_cons] at hfits_before
    have hready_before : ∀ d ∈ before.head?, Ready afterWord .start d := by
      intro d hd
      refine hready d ?_
      rw [List.head?_append, Option.mem_def.1 hd]
      rfl
    have hshift := shift_row hd hsound.left hready_before hfits_before
      (fun d hd => passes_colon (hbefore d hd)) hdeaf_before
    rw [shift_stop (not_continues (atAny_colon_chunk hc hfits_c))] at hshift
    obtain ⟨error, herror⟩ := finish_unfinished hunfinished (c.text ++ (Row.text later ++ k))
    rw [text_append, htext]
    refine branch_of_same (hread hshift) fun yes hyes => ?_
    rw [herror] at hyes
    cases hyes
  · have hrest : rest = [] ∧ Mute k := by
      refine hending.resolve_left ?_
      rintro rfl
      simp [Chunk.isColon, Chunk.operator?, isColon] at hcolon
    obtain ⟨rfl, hk⟩ := hrest
    rw [List.append_nil] at hfits hcolon
    have hnot : ∀ c ∈ row, c.isColon = false := by simpa using hcolon
    exact branch_of_same (hread (shift_row hd hsound hready hfits
      (fun c hc => passes_colon (hnot c hc)) hdeaf)) fun yes hyes => mute_result hk yes hyes

/-- What may stand after a question mark that looks for a colon may also stand at the start. -/
theorem ready_start (h : c.adjoins next = true) (hasks : c.asks afterWord = true) :
    Ready c.isWord .start next := by
  have hmark : isName "?" = false := rfl
  have hcomma : isName "," = false := rfl
  cases c with
  | suffix op =>
    obtain rfl : op = "?" := by simpa [Chunk.asks] using hasks
    cases next with
    | joint op =>
      refine ⟨fun _ => rfl, fun hname => ?_, fun hword => absurd hword Bool.false_ne_true⟩
      by_cases hop : op = ","
      · rw [hop, hcomma] at hname
        cases hname
      · simp [Chunk.adjoins, hop, hname] at h
    | branch yes => simp [Chunk.adjoins] at h
    | _ => cases h
  | joint op =>
    cases next with
    | sign op => exact ⟨rfl, rfl, rfl⟩
    | operand tree wrap => rfl
    | _ => cases h
  | _ => cases hasks

/-- The question marks of a row find no branch, if no formula after one ends at the first colon. -/
theorem deaf (hsound : Sound row) (hfits : FitsAll k (row ++ rest))
    (hquiet : Row.quiet afterWord (row ++ rest) = true) (hending : Ending rest k) :
    Deaf (Row.text rest ++ k) afterWord row := by
  induction row generalizing afterWord with
  | nil => trivial
  | cons c row ih =>
    obtain ⟨hnone, hquiet⟩ : (c.asks afterWord = true → Row.hasBranch (row ++ rest) = false) ∧
        Row.quiet c.isWord (row ++ rest) = true := by
      simpa [Row.quiet, imp_iff_not_or] using hquiet
    have hdeaf := ih hsound.tail hfits.2 hquiet
    refine ⟨fun hasks => ?_, hdeaf⟩
    refine branch_row hsound.tail (fun next hnext => ?_) hfits.2 hdeaf hending (hnone hasks)
    exact ready_start ((List.isChain_cons.1 hsound.chained).1 next hnext) hasks

end Formula.Parser
