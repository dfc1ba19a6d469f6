import Formula.Proofs.Parser.Reading
import Formula.Proofs.Tree.Collapse
import Formula.Proofs.Tree.Start

/-! Reading the chunks of a printed tree. Main statement: a chunk that is kept apart from what stands
around it goes on the stack as what it is, for any text after it and any stack that it may stand
on. -/
namespace Formula.Parser

open Item Formula.Tree Token

variable {op name : String} {delimiters : List String} {s : State} {k m : List Char} {c next : Chunk}
  {afterWord : Bool}

/-! ### What may stand next to a chunk -/

/-- The text after a chunk does not go on with the last token of it. -/
def Fits (k : List Char) : Chunk → Prop
  | .sign op => op = "," ∨ ∃ c tail, k = c :: tail ∧ Charset.isBlank c = false ∧
    endsBefore op c = true
  | .operand tree wrap => wrap = false → Breaks k ∧ (tree.isVariable = true → nameRun k = [])
  | .suffix op => if isName op then nameRun k = [] else ∀ c ∈ k.head?, endsBefore op c = true
  | .joint _ | .branch _ => True

/-- The stack is one that a chunk may stand on. -/
def Ready (afterWord : Bool) (s : State) : Chunk → Prop
  | .sign _ => s.afterOperand = false ∧ s.afterPostfix = false ∧ s.spaced = true
  | .operand .. => s.afterOperand = false
  | .suffix op => s.afterOperand = true ∧ (isName op = false → op ≠ "," → s.spaced = false)
  | .joint op => (op ≠ "," → s.spaced = true) ∧ (isName op = true → s.afterOperand = true) ∧
    (afterWord = true → s.afterOperand = false ∧ s.afterPostfix = false)
  | .branch _ => s.afterOperand = true ∨ s.afterPostfix = true

/-- The chunk is at none of the delimiters. -/
def Passes (delimiters : List String) (c : Chunk) : Prop :=
  (c.isColon = true → ":" ∉ delimiters) ∧ (c.isComma = true → "," ∉ delimiters)

theorem passes_colon (h : c.isColon = false) : Passes [":"] c :=
  ⟨fun hcolon => absurd hcolon (by simp [h]), fun _ => by decide⟩

/-- The role that an operator after an operand has before `k`. -/
def lastRole (k : List Char) (op : String) : Role :=
  if isName op = true ∨ op = "," then .infixOp else role false (ends k)

theorem lastRole_name (h : isName op = true) : lastRole k op = .infixOp := if_pos (.inl h)

theorem lastRole_token (hname : isName op = false) (hop : op ≠ ",") :
    lastRole k op = role false (ends k) := if_neg (by simp [hname, hop])

/-- The state that reading a chunk before `k` leaves. -/
def step (k : List Char) (s : State) : Chunk → State
  | .sign op => if op = "," then s.comma else ⟨operator .prefixOp op :: s.items, false⟩
  | .operand tree _ => ⟨operand tree.normal :: s.items, ends k⟩
  | .suffix op => if op = "," then s.comma else ⟨operator (lastRole k op) op :: s.items, ends k⟩
  | .joint op => if op = "," then s.comma else ⟨operator .infixOp op :: s.items, true⟩
  | .branch yes => ⟨.branch yes.normal :: s.items, true⟩

/-- A tree is read as an operand wherever one may stand. -/
structure Stands (wrap : Bool) (t : Tree Float) : Prop where
  begins : ∃ c tail, shown wrap t = c :: tail ∧ Begins c
  reads : ∀ {delimiters : List String} {s : State} {k : List Char}, Closing delimiters →
    s.afterOperand = false → Fits k (.operand t wrap) →
    (shift delimiters s (shown wrap t ++ k) ()).Same
      (shift delimiters (step k s (.operand t wrap)) (skipBlank k) ())

/-- The trees in a chunk are read as they are. -/
def Holds (c : Chunk) : Prop :=
  match c with
  | .operand tree wrap => Stands wrap tree
  | .branch yes => ∀ k, (subexpression [":"]
      (skipBlank (' ' :: (yes.text.toList ++ ' ' :: ':' :: ' ' :: k))) ()).Ends yes.normal
      (':' :: ' ' :: k)
  | _ => True

/-! ### Operators -/

theorem endsBefore_blank (op : String) : ∀ c ∈ (' ' :: k).head?, endsBefore op c = true := by
  rintro c ⟨⟩
  have hoperator : Charset.isOperator ' ' = false := by decide
  exact endsBefore_iff.2 ⟨hoperator, fun _ => ⟨by decide, fun _ => by decide⟩⟩

theorem continues_operator (hd : Closing delimiters) (h : IsOperatorToken op)
    (hk : ∀ c ∈ k.head?, endsBefore op c = true) (hcolon : isColon op = true → ":" ∉ delimiters) :
    Continues delimiters (op.toList ++ k) := by
  obtain ⟨c, tail, hop, -⟩ := operator_starts h
  have hany : atAny delimiters (op.toList ++ k) = false := by
    rw [atAny_operator hd h hk, Bool.and_eq_false_iff]
    cases hop : isColon op with
    | false => exact .inr rfl
    | true => exact .inl (by simpa using hcolon hop)
  rw [hop] at hany ⊢
  simpa [Continues] using hany

theorem continues_name (hd : Closing delimiters) (h : isName name = true) :
    Continues delimiters (name.toList ++ k) := by
  obtain ⟨c, tail, hname, hc⟩ := name_starts h
  rw [hname]
  exact continues_cons hd hc.not_mem_closers

theorem continues_comma (hd : Closing delimiters) (h : "," ∉ delimiters) :
    Continues delimiters (',' :: k) := by
  have hany : atAny delimiters (',' :: k) = false := by
    apply List.any_eq_false.2
    intro delimiter hmem
    have hclosing := hd hmem
    simp only [List.mem_cons, List.not_mem_nil, or_false] at hclosing
    rcases hclosing with rfl | rfl | rfl | rfl
    · simp [atDelimiter]
    · simp [atDelimiter]
    · exact absurd hmem h
    · simp [atDelimiter]
  simp [Continues, hany]

theorem action_operator {followed : Bool} (h : op ≠ "?") :
    action s followed (.operator op) = .push (operator (role s.spaced followed) op) := by
  rw [action]
  exact if_neg fun hop => h hop.1

/-- A question mark after an operand looks for its colon. -/
theorem action_mark {followed : Bool} (h : s.afterOperand = true ∨ s.afterPostfix = true) :
    action s followed (.operator "?") = .ternary (operator (role s.spaced followed) "?") := by
  rw [action]
  exact if_pos ⟨rfl, h⟩

theorem shift_name (h : isName name = true) (hd : Closing delimiters) (hs : s.afterOperand = false)
    (hk : nameRun k = []) :
    (shift delimiters s (name.toList ++ k) ()).Same
      (shift delimiters (s.push (operand (named name)) (ends k)) (skipBlank k) ()) := by
  have haction : action s (ends k) (.name name) = .push (operand (named name)) := by
    rw [action, hs]
    rfl
  exact shift_push (continues_name hd h) (scan_word h hk) haction

/-- A comma is read as an operator where it is no delimiter. -/
theorem shift_comma_mark (hd : Closing delimiters) (h : "," ∉ delimiters) (k : List Char) :
    (shift delimiters s (',' :: k) ()).Same (shift delimiters s.comma (skipBlank k) ()) :=
  shift_comma (continues_comma hd h) (scan_punctuation rfl) rfl

theorem skipBlank_space (k : List Char) : skipBlank (' ' :: k) = skipBlank k := rfl

/-- An operator with a blank before it and none behind is prefix. -/
theorem shift_sign (hd : Closing delimiters) (hspelled : (Chunk.sign op).IsSpelled)
    (hready : Ready afterWord s (.sign op)) (hfits : Fits k (.sign op))
    (hpasses : Passes delimiters (.sign op)) :
    (shift delimiters s (skipBlank ((Chunk.sign op).text ++ k)) ()).Same
      (shift delimiters (step k s (.sign op)) (skipBlank k) ()) := by
  obtain ⟨hoperand, hpostfix, hspaced⟩ := hready
  by_cases hop : op = ","
  · subst hop
    have hcomma : "," ∉ delimiters := hpasses.2 rfl
    exact shift_comma_mark hd hcomma k
  · have htoken : IsOperatorToken op := hspelled.resolve_right hop
    obtain ⟨c, tail, rfl, hblank, hc⟩ := hfits.resolve_left hop
    have hgap : (Tree.gap op).toList = [] := by
      rw [gap_of_isName htoken.isName]
      rfl
    have hk : ∀ d ∈ (c :: tail).head?, endsBefore op d = true := by
      rintro d ⟨⟩
      exact hc
    obtain ⟨d, rest, hchars, hd'⟩ := operator_starts htoken
    have hskip : skipBlank ((Chunk.sign op).text ++ c :: tail) = op.toList ++ c :: tail := by
      rw [Chunk.text, hgap, List.append_nil, hchars]
      exact skipBlank_cons hd'
    have hends : ends (c :: tail) = false := hblank
    have hstep := shift_operator (s := s) (continues_operator hd htoken hk hpasses.1)
      (htoken.scan hk) fun _ hafter => by simp [hoperand, hpostfix] at hafter
    rw [hskip]
    rw [hspaced, hends] at hstep
    rw [step, if_neg hop]
    exact hstep

theorem shift_operand {tree : Tree Float} {wrap : Bool} (hd : Closing delimiters)
    (hstands : Stands wrap tree) (hready : Ready afterWord s (.operand tree wrap))
    (hfits : Fits k (.operand tree wrap)) :
    (shift delimiters s (skipBlank ((Chunk.operand tree wrap).text ++ k)) ()).Same
      (shift delimiters (step k s (.operand tree wrap)) (skipBlank k) ()) := by
  obtain ⟨c, tail, hchars, hc⟩ := hstands.begins
  have hskip : skipBlank ((Chunk.operand tree wrap).text ++ k) = shown wrap tree ++ k := by
    rw [Chunk.text, hchars]
    exact skipBlank_cons hc.isBlank
  rw [hskip]
  exact hstands.reads hd hready hfits

/-- An operator written to an operand is postfix before a blank or the end, and of no fixed role yet
before a closing mark. -/
theorem shift_suffix (hd : Closing delimiters) (hspelled : (Chunk.suffix op).IsSpelled)
    (hready : Ready afterWord s (.suffix op)) (hfits : Fits k (.suffix op))
    (hpasses : Passes delimiters (.suffix op))
    (hdeaf : (Chunk.suffix op).asks afterWord = true → (branch (skipBlank k) ()).1 = none) :
    (shift delimiters s (skipBlank ((Chunk.suffix op).text ++ k)) ()).Same
      (shift delimiters (step k s (.suffix op)) (skipBlank k) ()) := by
  obtain ⟨hoperand, hspaced⟩ := hready
  by_cases hop : op = ","
  · subst hop
    exact shift_comma_mark hd (hpasses.2 rfl) k
  rw [step, if_neg hop]
  cases hname : isName op with
  | true =>
    have hk : nameRun k = [] := by simpa [Fits, hname] using hfits
    have hscan := scan_word hname hk
    have hskip : skipBlank ((Chunk.suffix op).text ++ k) = op.toList ++ k := by
      have hgap : (Tree.gap op).toList = [' '] := by
        rw [Tree.gap, hname]
        rfl
      rw [Chunk.text, hgap]
      exact (skipBlank_space _).trans (skipBlank_of_scan hscan)
    have haction : action s (ends k) (.name op) = .push (operator .infixOp op) := by
      rw [action, hoperand]
      rfl
    rw [hskip, lastRole_name hname]
    exact shift_push (continues_name hd hname) hscan haction
  | false =>
    have htoken : IsOperatorToken op := by
      rcases hspelled with htoken | hcomma | hword
      · exact htoken
      · exact absurd hcomma hop
      · rw [hname] at hword
        cases hword
    have hk : ∀ c ∈ k.head?, endsBefore op c = true := by simpa [Fits, hname] using hfits
    have hscan := htoken.scan hk
    have hskip : skipBlank ((Chunk.suffix op).text ++ k) = op.toList ++ k := by
      rw [Chunk.text, gap_of_isName hname]
      exact skipBlank_of_scan hscan
    have hbranch : op = "?" → s.afterOperand ∨ s.afterPostfix →
        (branch (skipBlank k) ()).1 = none := by
      rintro rfl _
      exact hdeaf rfl
    have hstep := shift_operator (s := s) (continues_operator hd htoken hk hpasses.1) hscan hbranch
    rw [hskip, lastRole_token hname hop]
    rw [hspaced hname hop] at hstep
    exact hstep

theorem shift_joint (hd : Closing delimiters) (hspelled : (Chunk.joint op).IsSpelled)
    (hready : Ready afterWord s (.joint op)) (hpasses : Passes delimiters (.joint op))
    (hdeaf : (Chunk.joint op).asks afterWord = true → (branch (skipBlank k) ()).1 = none) :
    (shift delimiters s (skipBlank ((Chunk.joint op).text ++ k)) ()).Same
      (shift delimiters (step k s (.joint op)) (skipBlank k) ()) := by
  obtain ⟨hspaced, hoperand, hword⟩ := hready
  by_cases hop : op = ","
  · subst hop
    exact shift_comma_mark hd (hpasses.2 rfl) (' ' :: k)
  have htext : (Chunk.joint op).text ++ k = ' ' :: (op.toList ++ ' ' :: k) := by
    rw [Chunk.text, if_neg hop]
    simp
  rw [htext, skipBlank_space, step, if_neg hop]
  rcases hspelled with htoken | hcomma | hname
  · have hscan := htoken.scan (endsBefore_blank (k := k) op)
    have hbranch : op = "?" → s.afterOperand ∨ s.afterPostfix →
        (branch (skipBlank (' ' :: k)) ()).1 = none := by
      rintro rfl hafter
      refine hdeaf ?_
      cases afterWord with
      | false => rfl
      | true => simp [hword rfl] at hafter
    have hstep := shift_operator (s := s)
      (continues_operator hd htoken (endsBefore_blank op) hpasses.1) hscan hbranch
    rw [skipBlank_of_scan hscan]
    rw [hspaced hop] at hstep
    exact hstep
  · exact absurd hcomma hop
  · have hscan : scan (op.toList ++ ' ' :: k) = .ok (.name op, ' ' :: k) := scan_word hname rfl
    have haction : action s (ends (' ' :: k)) (.name op) = .push (operator .infixOp op) := by
      rw [action, hoperand hname]
      rfl
    rw [skipBlank_of_scan hscan]
    exact shift_push (continues_name hd hname) hscan haction

/-- The branch of a conditional is read ahead, up to its colon. -/
theorem shift_choice {yes : Tree Float} (hd : Closing delimiters)
    (hready : Ready afterWord s (.branch yes)) (hyes : Holds (.branch yes)) :
    (shift delimiters s (skipBlank ((Chunk.branch yes).text ++ k)) ()).Same
      (shift delimiters (step k s (.branch yes)) (skipBlank k) ()) := by
  have htext : (Chunk.branch yes).text ++ k =
      ' ' :: '?' :: ' ' :: (yes.text.toList ++ ' ' :: ':' :: ' ' :: k) := by
    simp [Chunk.text]
  have hmark : IsOperatorToken "?" := by decide
  have hscan : scan ('?' :: ' ' :: (yes.text.toList ++ ' ' :: ':' :: ' ' :: k)) =
      .ok (.operator "?", ' ' :: (yes.text.toList ++ ' ' :: ':' :: ' ' :: k)) :=
    hmark.scan (endsBefore_blank "?")
  rw [htext, skipBlank_space, skipBlank_of_scan hscan]
  exact shift_branch (continues_cons hd (by decide)) hscan (action_mark hready) (hyes k) rfl

/-- A chunk that is kept apart is read as what it is. -/
theorem shift_chunk (hd : Closing delimiters) (hspelled : c.IsSpelled) (hholds : Holds c)
    (hready : Ready afterWord s c) (hfits : Fits k c) (hpasses : Passes delimiters c)
    (hdeaf : c.asks afterWord = true → (branch (skipBlank k) ()).1 = none) :
    (shift delimiters s (skipBlank (c.text ++ k)) ()).Same
      (shift delimiters (step k s c) (skipBlank k) ()) := by
  cases c with
  | sign op => exact shift_sign hd hspelled hready hfits hpasses
  | operand tree wrap => exact shift_operand hd hholds hready hfits
  | suffix op => exact shift_suffix hd hspelled hready hfits hpasses hdeaf
  | joint op => exact shift_joint hd hspelled hready hpasses hdeaf
  | branch yes => exact shift_choice hd hready hholds

end Formula.Parser
