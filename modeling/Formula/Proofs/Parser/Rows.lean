import Formula.Proofs.Parser.Parts

/-! Reading a row of chunks. Main statements: a row that is kept apart is read chunk by chunk, up to
what ends it, and leaves one item for each chunk. -/
namespace Formula.Parser

open Item Formula.Tree Token

variable {delimiters : List String} {s : State} {k : List Char} {c next : Chunk}
  {row later rest : List Chunk} {afterWord : Bool}

/-- What may stand after a part: a blank or the end, or a closing mark. -/
def Closes (k : List Char) : Prop := ∀ c ∈ k.head?, c ∈ [' ', ')', ',', ']']

namespace Closes

theorem endsBefore (h : Closes k) (op : String) : ∀ c ∈ k.head?, endsBefore op c = true := by
  intro c hc
  have hmem := h c hc
  simp only [List.mem_cons, List.not_mem_nil, or_false] at hmem
  rcases hmem with rfl | rfl | rfl | rfl <;>
    exact endsBefore_iff.2 ⟨by decide, fun _ => ⟨by decide, fun _ => by decide⟩⟩

theorem breaks (h : Closes k) : Breaks k ∧ nameRun k = [] := by
  cases k with
  | nil => exact ⟨⟨rfl, nofun⟩, rfl⟩
  | cons c k =>
    have hmem := h c rfl
    simp only [List.mem_cons, List.not_mem_nil, or_false] at hmem
    rcases hmem with rfl | rfl | rfl | rfl <;>
    · refine ⟨⟨rfl, ?_⟩, rfl⟩
      rintro d ⟨⟩
      decide

end Closes

/-! ### A row and what follows it -/

/-- A row of chunks that can be read, each kept apart from the next. -/
structure Sound (row : List Chunk) : Prop where
  spelled : ∀ c ∈ row, c.IsSpelled
  holds : ∀ c ∈ row, Holds c
  chained : Row.Chained row

/-- The text after each chunk, up to `k`, does not go on with its last token. -/
def FitsAll (k : List Char) : List Chunk → Prop
  | [] => True
  | c :: row => Fits (Row.text row ++ k) c ∧ FitsAll k row

/-- No question mark finds a branch in what follows it. -/
def Deaf (k : List Char) (afterWord : Bool) : List Chunk → Prop
  | [] => True
  | c :: row => (c.asks afterWord = true → (branch (skipBlank (Row.text row ++ k)) ()).1 = none) ∧
    Deaf k c.isWord row

/-- The state that reading the row before `k` leaves. -/
def steps (k : List Char) (row : List Chunk) (s : State) : State :=
  match row with
  | [] => s
  | c :: row => steps k row (step (Row.text row ++ k) s c)

namespace Sound

theorem tail (h : Sound (c :: row)) : Sound row where
  spelled d hd := h.spelled d (List.mem_cons_of_mem c hd)
  holds d hd := h.holds d (List.mem_cons_of_mem c hd)
  chained := h.chained.tail

theorem left (h : Sound (row ++ later)) : Sound row where
  spelled d hd := h.spelled d (List.mem_append_left later hd)
  holds d hd := h.holds d (List.mem_append_left later hd)
  chained := h.chained.left_of_append

end Sound

theorem text_cons (c : Chunk) (row : List Chunk) (k : List Char) :
    Row.text (c :: row) ++ k = c.text ++ (Row.text row ++ k) := by
  rw [Row.text, List.flatMap_cons, List.append_assoc]
  rfl

theorem text_append (row later : List Chunk) (k : List Char) :
    Row.text (row ++ later) ++ k = Row.text row ++ (Row.text later ++ k) := by
  rw [Row.text, List.flatMap_append, List.append_assoc]
  rfl

theorem fitsAll_append : FitsAll k (row ++ later) ↔
    FitsAll (Row.text later ++ k) row ∧ FitsAll k later := by
  induction row with
  | nil => exact ⟨fun h => ⟨trivial, h⟩, fun h => h.2⟩
  | cons c row ih =>
    rw [List.cons_append, FitsAll, FitsAll, text_append, ih, and_assoc]

theorem Deaf.left (h : Deaf k afterWord (row ++ later)) :
    Deaf (Row.text later ++ k) afterWord row := by
  induction row generalizing afterWord with
  | nil => trivial
  | cons c row ih =>
    refine ⟨fun hasks => ?_, ih h.2⟩
    rw [← text_append]
    exact h.1 hasks

theorem Deaf.right (h : Deaf k afterWord (row ++ c :: later)) : Deaf k c.isWord later := by
  induction row generalizing afterWord with
  | nil => exact h.2
  | cons c row ih => exact ih h.2

theorem steps_append (k : List Char) (row later : List Chunk) (s : State) :
    steps k (row ++ later) s = steps k later (steps (Row.text later ++ k) row s) := by
  induction row generalizing s with
  | nil => rfl
  | cons c row ih =>
    rw [List.cons_append, steps, steps, ih, text_append]

/-! ### One chunk after another -/

/-- What joins two parts starts with a blank or a comma. -/
theorem closes_joining (h : (∃ op, c = .joint op) ∨ ∃ yes, c = .branch yes) :
    Closes (c.text ++ k) := by
  obtain ⟨op, rfl⟩ | ⟨yes, rfl⟩ := h
  · rw [Chunk.text]
    split <;>
    · rintro d ⟨⟩
      simp
  · rintro d ⟨⟩
    simp

theorem fits_closes (h : Closes k) (hc : ∀ op, c ≠ .sign op) : Fits k c := by
  cases c with
  | sign op => exact absurd rfl (hc op)
  | operand tree wrap => exact fun _ => ⟨h.breaks.1, fun _ => h.breaks.2⟩
  | suffix op =>
    rw [Fits]
    split
    · exact h.breaks.2
    · exact h.endsBefore op
  | joint op => trivial
  | branch yes => trivial

/-- An operand before a postfix operator ends where the operator starts. -/
theorem fits_suffix {tree : Tree Float} {wrap : Bool} {op : String}
    (h : (Chunk.operand tree wrap).adjoins (.suffix op) = true)
    (hspelled : (Chunk.suffix op).IsSpelled) (hfits : Fits k (.suffix op)) :
    Fits ((Chunk.suffix op).text ++ k) (.operand tree wrap) := by
  rintro rfl
  rcases hspelled with htoken | rfl | hname
  · have hnone := htoken.isName
    have hk : ∀ c ∈ k.head?, endsBefore op c = true := by simpa [Fits, hnone] using hfits
    have hname? := htoken.name?_append hk
    have hdigit : ∀ c ∈ (op.toList ++ k).head?, c.isDigit = false := by
      obtain ⟨c, tail, hop, -⟩ := operator_starts htoken
      have hdigit := htoken.not_isDigit
      rw [hop] at hdigit ⊢
      exact hdigit
    rw [Chunk.text, gap_of_isName hnone]
    refine ⟨⟨hname?, hdigit⟩, fun hvariable => nameRun_of_name? hname? ?_⟩
    have htail : op.toList.head?.all (fun c => !Charset.isNameTail c) = true := by
      simpa [Chunk.adjoins, hvariable, hnone] using h
    obtain ⟨c, tail, hop, -⟩ := operator_starts htoken
    rw [hop] at htail ⊢
    rintro d ⟨⟩
    simpa using htail
  · have hcloses : Closes (',' :: k) := by
      rintro d ⟨⟩
      simp
    exact ⟨hcloses.breaks.1, fun _ => hcloses.breaks.2⟩
  · have hgap : (Tree.gap op).toList = [' '] := by
      rw [Tree.gap, hname]
      rfl
    have hcloses : Closes (' ' :: (op.toList ++ k)) := by
      rintro d ⟨⟩
      simp
    rw [Chunk.text, hgap]
    exact ⟨hcloses.breaks.1, fun _ => hcloses.breaks.2⟩

/-- A chunk that is kept apart from the next fits its text. -/
theorem fits_next (h : c.adjoins next = true) (hspelled : next.IsSpelled) (hholds : Holds next)
    (hfits : Fits k next) : Fits (next.text ++ k) c := by
  cases c with
  | sign op =>
    cases next with
    | operand tree wrap =>
      obtain ⟨c, tail, hchars, hc⟩ := hholds.begins
      have hop : op = "," ∨ endsBefore op c = true := by
        simpa [Chunk.adjoins, hchars] using (Bool.and_eq_true_iff.1 h).2
      refine hop.imp_right fun hends => ⟨c, tail ++ k, ?_, hc.isBlank, hends⟩
      rw [Chunk.text, hchars]
      rfl
    | _ => cases h
  | operand tree wrap =>
    cases next with
    | suffix op => exact fits_suffix h hspelled hfits
    | joint op => exact fits_closes (closes_joining (.inl ⟨op, rfl⟩)) (by simp)
    | branch yes => exact fits_closes (closes_joining (.inr ⟨yes, rfl⟩)) (by simp)
    | _ => cases h
  | suffix op =>
    cases next with
    | joint op => exact fits_closes (closes_joining (.inl ⟨op, rfl⟩)) (by simp)
    | branch yes => exact fits_closes (closes_joining (.inr ⟨yes, rfl⟩)) (by simp)
    | _ => cases h
  | joint op => trivial
  | branch yes => trivial

theorem Sound.fitsAll (h : Sound row) (hk : Closes k)
    (hlast : ∀ op, row.getLast? ≠ some (.sign op)) : FitsAll k row := by
  induction row with
  | nil => trivial
  | cons c row ih =>
    cases row with
    | nil =>
      refine ⟨fits_closes hk ?_, trivial⟩
      rintro op rfl
      exact hlast op rfl
    | cons next row =>
      have hrow := ih h.tail fun op => by
        rw [← List.getLast?_cons_cons (a := c)]
        exact hlast op
      refine ⟨?_, hrow⟩
      have hnext : next ∈ c :: next :: row := by simp
      rw [text_cons]
      exact fits_next h.chained.rel (h.spelled next hnext) (h.holds next hnext) hrow.1

/-- An operator finds the postfix operator before it settled, or is a comma, which settles it. -/
theorem ready_joint {word op : String} (h : (Chunk.suffix word).adjoins (.joint op) = true) :
    Ready (isName word) (step ((Chunk.joint op).text ++ k) s (.suffix word)) (.joint op) := by
  by_cases hop : op = ","
  · subst hop
    refine ⟨fun hne => absurd rfl hne, fun hname => absurd hname (by decide), fun hword => ?_⟩
    rw [step]
    split
    · exact ⟨rfl, rfl⟩
    · rw [lastRole_name hword]
      exact ⟨rfl, rfl⟩
  · have hkept : isName op = false ∧ word ≠ "," := by
      simp_all [Chunk.adjoins]
    refine ⟨fun _ => ?_, fun hname => ?_, fun hword => ?_⟩
    · rw [step, if_neg hkept.2, Chunk.text, if_neg hop]
      rfl
    · rw [hkept.1] at hname
      cases hname
    · rw [step, if_neg hkept.2, lastRole_name hword]
      exact ⟨rfl, rfl⟩

/-- A chunk leaves a stack that the next may stand on, if it is kept apart from it. -/
theorem ready_next (h : c.adjoins next = true) (hready : Ready afterWord s c)
    (hspelled : next.IsSpelled) : Ready c.isWord (step (next.text ++ k) s c) next := by
  cases c with
  | sign op =>
    cases next with
    | operand tree wrap =>
      rw [step]
      split <;> rfl
    | _ => cases h
  | operand tree wrap =>
    cases next with
    | suffix op =>
      refine ⟨rfl, fun hname hop => ?_⟩
      have htoken : IsOperatorToken op := by
        rcases hspelled with htoken | hcomma | hword
        · exact htoken
        · exact absurd hcomma hop
        · rw [hname] at hword
          cases hword
      obtain ⟨c, tail, hchars, hc⟩ := operator_starts htoken
      rw [Chunk.text, gap_of_isName hname, hchars]
      exact hc
    | joint op =>
      refine ⟨fun hop => ?_, fun _ => rfl, fun hword => absurd hword Bool.false_ne_true⟩
      rw [Chunk.text, if_neg hop]
      rfl
    | branch yes => exact .inl rfl
    | _ => cases h
  | suffix word =>
    cases next with
    | joint op => exact ready_joint h
    | branch yes =>
      have hkept : isName word = false ∧ word ≠ "," := by
        simp_all [Chunk.adjoins]
      right
      rw [step, if_neg hkept.2, lastRole_token hkept.1 hkept.2]
      rfl
    | _ => cases h
  | joint op =>
    cases next with
    | sign next =>
      rw [step]
      split <;> exact ⟨rfl, rfl, rfl⟩
    | operand tree wrap =>
      rw [step]
      split <;> rfl
    | _ => cases h
  | branch yes =>
    cases next with
    | sign op => exact ⟨rfl, rfl, rfl⟩
    | operand tree wrap => rfl
    | _ => cases h

theorem shift_row (hd : Closing delimiters) (hsound : Sound row)
    (hready : ∀ c ∈ row.head?, Ready afterWord s c) (hfits : FitsAll k row)
    (hpasses : ∀ c ∈ row, Passes delimiters c) (hdeaf : Deaf k afterWord row) :
    (shift delimiters s (skipBlank (Row.text row ++ k)) ()).Same
      (shift delimiters (steps k row s) (skipBlank k) ()) := by
  induction row generalizing afterWord s with
  | nil => exact .refl _
  | cons c row ih =>
    have hc := shift_chunk hd (hsound.spelled c List.mem_cons_self)
      (hsound.holds c List.mem_cons_self) (hready c rfl) hfits.1 (hpasses c List.mem_cons_self)
      hdeaf.1
    rw [text_cons]
    refine hc.trans (ih hsound.tail ?_ hfits.2
      (fun d hd => hpasses d (List.mem_cons_of_mem c hd)) hdeaf.2)
    intro next hnext
    obtain ⟨row, rfl⟩ : ∃ tail, row = next :: tail := by
      cases row with
      | nil => cases hnext
      | cons d row =>
        obtain rfl : d = next := Option.some.inj hnext
        exact ⟨row, rfl⟩
    rw [text_cons]
    exact ready_next hsound.chained.rel (hready c rfl) (hsound.spelled next (by simp))

/-! ### What a row leaves on the stack -/

/-- No operator on top is taken for an infix one. -/
def Firm (s : State) : Prop := ∀ op, s.items.head? ≠ some (operator .infixOp op)

theorem Firm.comma_items (h : Firm s) : s.comma.items = operator .infixOp "," :: s.items := by
  unfold State.comma
  dsimp only
  split
  · rename_i op below hitems
    exact absurd (congrArg List.head? hitems) (h op)
  · rfl

theorem step_items (hfirm : c.isComma = true → Firm s) :
    (step k s c).items = c.item (lastRole k) :: s.items := by
  cases c with
  | sign op =>
    by_cases hop : op = ","
    · subst hop
      exact (hfirm rfl).comma_items
    · rw [step, if_neg hop, Chunk.item, if_neg hop]
  | operand tree wrap => rfl
  | suffix op =>
    by_cases hop : op = ","
    · subst hop
      exact (hfirm rfl).comma_items
    · rw [step, if_neg hop, Chunk.item]
  | joint op =>
    by_cases hop : op = ","
    · subst hop
      exact (hfirm rfl).comma_items
    · rw [step, if_neg hop, Chunk.item]
  | branch yes => rfl

/-- What stands next settles the role of the operator before it, a comma in hindsight. -/
theorem exists_settled (k : List Char) (row : List Chunk) (h : c.adjoins next = true)
    (hfirm : c.isComma = true → Firm s) (last : String → Role) :
    ∃ s', (∀ m, step m (step (next.text ++ k) s c) next = step m s' next) ∧
      s'.items = c.item (Row.before last (next :: row)) :: s.items ∧
      (next.isComma = true → Firm s') := by
  have hitems := step_items (k := next.text ++ k) hfirm
  have hkeep (hitem : c.item (lastRole (next.text ++ k)) = c.item (Row.before last (next :: row)))
      (hnext : next.isComma = true → Firm (step (next.text ++ k) s c)) :
      ∃ s', (∀ m, step m (step (next.text ++ k) s c) next = step m s' next) ∧
        s'.items = c.item (Row.before last (next :: row)) :: s.items ∧
        (next.isComma = true → Firm s') :=
    ⟨_, fun _ => rfl, by rw [hitems, hitem], hnext⟩
  cases c with
  | sign op =>
    cases next with
    | operand tree wrap => exact hkeep rfl fun hcomma => absurd hcomma Bool.false_ne_true
    | _ => cases h
  | operand tree wrap => exact hkeep rfl fun _ op => by simp [hitems, Chunk.item]
  | suffix word =>
    cases next with
    | joint op =>
      by_cases hop : op = ","
      · subst hop
        have hrole : lastRole ((Chunk.joint ",").text ++ k) word = .infixOp := by
          rw [lastRole]
          split <;> rfl
        refine ⟨⟨operator .postfixOp word :: s.items, false⟩, fun m => ?_, ?_, fun _ op => by simp⟩
        · have hcomma (s' : State) : step m s' (.joint ",") = s'.comma := by
            rw [step, if_pos rfl]
          rw [hcomma, hcomma, State.comma, hitems, Chunk.item, hrole]
          rfl
        · rw [Chunk.item, Row.before, between, if_neg fun h => h.1 rfl]
      · have hkept : isName op = false ∧ word ≠ "," := by
          simp_all [Chunk.adjoins]
        have hcomma : (Chunk.joint op).isComma = false := by
          simp [Chunk.isComma, Chunk.operator?, hop]
        refine hkeep ?_ fun h => absurd (hcomma.symm.trans h) Bool.false_ne_true
        rw [Chunk.item, Chunk.item, Chunk.text, if_neg hop, Row.before, between, lastRole]
        simp only [hop, hkept.2, or_false, ne_eq, not_false_eq_true, true_and]
        rfl
    | branch yes =>
      have hkept : isName word = false ∧ word ≠ "," := by
        simp_all [Chunk.adjoins]
      refine hkeep ?_ fun hcomma => absurd hcomma Bool.false_ne_true
      rw [Chunk.item, Chunk.item, Row.before, between, lastRole_token hkept.1 hkept.2,
        if_neg (by simp [hkept.1])]
      rfl
    | _ => cases h
  | joint op =>
    refine hkeep rfl fun hcomma => ?_
    cases next with
    | sign op => simp_all [Chunk.adjoins, Chunk.isComma, Chunk.operator?]
    | operand tree wrap => cases hcomma
    | _ => cases h
  | branch yes => exact hkeep rfl fun _ op => by simp [hitems, Chunk.item]

/-- A row leaves one item for each chunk. -/
theorem steps_items (hchain : Row.Chained row)
    (hfirm : ∀ c ∈ row.head?, c.isComma = true → Firm s) :
    (steps k row s).items = (Row.items (lastRole k) row).reverse ++ s.items := by
  induction row generalizing s with
  | nil => rfl
  | cons c row ih =>
    cases row with
    | nil => exact step_items (hfirm c rfl)
    | cons next row =>
      obtain ⟨s', hsame, hitems, hnext⟩ := exists_settled (Row.text row ++ k) row
        hchain.rel (hfirm c rfl) (lastRole k)
      have hsteps : steps k (c :: next :: row) s = steps k (next :: row) s' := by
        rw [steps, steps, steps, text_cons, hsame]
      have hrow : Row.items (lastRole k) (c :: next :: row) =
          c.item (Row.before (lastRole k) (next :: row)) :: Row.items (lastRole k) (next :: row) :=
        rfl
      have hfirm_next : ∀ d ∈ (next :: row).head?, d.isComma = true → Firm s' := by
        rintro d ⟨⟩
        exact hnext
      rw [hsteps, ih hchain.tail hfirm_next, hitems, hrow, List.reverse_cons, List.append_assoc]
      rfl

end Formula.Parser
