import Formula.Proofs.Parser.Colons
import Formula.Proofs.Token.Sequence
import Formula.Proofs.Tree.Plain

/-! Reading what was printed. Main statements: the text of a tree that can be read comes to the tree
with its literals as they are written; so does the text of every tree whose operators are
symbols. -/
namespace Formula

namespace Parser

open Item Formula.Tree Token

variable {t arg : Tree Float} {args : List (Tree Float)} {name : String} {value : Float}
  {delimiters : List String} {s : State} {k cs : List Char} {wrap : Bool}

/-! ### Parts of a formula -/

theorem getLast?_ne_sign (h : Readable t) (op : String) :
    t.chunks.getLast? ≠ some (.sign op) := by
  intro hlast
  cases h.closes _ hlast

theorem ready_head (h : Readable t) : ∀ c ∈ t.chunks.head?, Ready false .start c := by
  intro c hc
  have hopens := h.opens c hc
  cases c with
  | sign op => exact ⟨rfl, rfl, rfl⟩
  | operand tree wrap => rfl
  | _ => cases hopens

theorem Sound.of_chunks (h : Readable t) (hchunks : ∀ c ∈ t.chunks, c.IsSpelled ∧ Holds c) :
    Sound t.chunks where
  spelled c hc := (hchunks c hc).1
  holds c hc := (hchunks c hc).2
  chained := (Row.apart_iff.1 h.row_apart).1

/-- A text that is read chunk by chunk is a subexpression. -/
theorem subexpression_row (h : Readable t) (hsound : Sound t.chunks) (hd : Closing delimiters)
    (hpasses : ∀ c ∈ t.chunks, Passes delimiters c) (hk : Closes k) (hdeaf : Deaf k false t.chunks)
    (hstop : ¬Continues delimiters (skipBlank k))
    (hcs : skipBlank cs = skipBlank (t.text.toList ++ k)) :
    (subexpression delimiters cs ()).Ends t.normal (skipBlank k) := by
  have hfits := hsound.fitsAll hk (getLast?_ne_sign h)
  have hshift := shift_row hd hsound (ready_head h) hfits hpasses hdeaf
  have hfinish : (steps k t.chunks .start).finish = .ok t.normal := by
    have hitems : (steps k t.chunks .start).items = (t.stacked (lastRole k)).reverse := by
      rw [steps_items hsound.chained fun _ _ _ _ => by simp [State.start], ← h.stacked_eq]
      exact List.append_nil _
    rw [State.finish, hitems, List.reverse_reverse]
    exact Stack.finish_stacked h _
  rw [← h.text_chunks, ← hcs, shift_stop hstop] at hshift
  rw [subexpression]
  exact (Parse.Ends.of_same hshift ⟨hfinish, rfl⟩).widen _

/-- Before the end of a part no question mark finds a branch in vain. -/
theorem deaf_mute (h : Readable t) (hsound : Sound t.chunks) (hk : Mute k) :
    Deaf k false t.chunks := by
  have hquiet := (Row.apart_iff.1 h.row_apart).2.2
  have hfits := hsound.fitsAll hk.closes (getLast?_ne_sign h)
  rw [← List.append_nil t.chunks] at hquiet hfits
  exact deaf hsound hfits hquiet (.inr ⟨rfl, hk⟩)

theorem subexpression_mute (h : Readable t) (hsound : Sound t.chunks) (hd : Closing delimiters)
    (hcolon : ":" ∉ delimiters) (hcomma : "," ∉ delimiters) (hk : Mute k)
    (hstop : ¬Continues delimiters (skipBlank k))
    (hcs : skipBlank cs = skipBlank (t.text.toList ++ k)) :
    (subexpression delimiters cs ()).Ends t.normal (skipBlank k) :=
  subexpression_row h hsound hd (fun _ _ => ⟨fun _ => hcolon, fun _ => hcomma⟩) hk.closes
    (deaf_mute h hsound hk) hstop hcs

/-- A branch is read up to its colon. -/
theorem holds_branch (h : Readable t) (hsound : Sound t.chunks)
    (hcolon : t.chunks.any Chunk.isColon = false)
    (hquiet : Row.quiet false (t.chunks ++ [.joint ":"]) = true) : Holds (.branch t) := by
  intro k
  have htext : Row.text [Chunk.joint ":"] ++ k = ' ' :: ':' :: ' ' :: k := rfl
  have hclosing : Closes (' ' :: ':' :: ' ' :: k) := by
    rintro c ⟨⟩
    simp
  have hfits : FitsAll k (t.chunks ++ [.joint ":"]) :=
    fitsAll_append.2 ⟨htext ▸ hsound.fitsAll hclosing (getLast?_ne_sign h), trivial, trivial⟩
  have hdeaf := deaf hsound hfits hquiet (.inl rfl)
  rw [htext] at hdeaf
  have hpasses : ∀ c ∈ t.chunks, Passes [":"] c := fun c hc =>
    passes_colon (by simpa using List.any_eq_false.1 hcolon c hc)
  refine subexpression_row h hsound (by simp [Closing]) hpasses hclosing hdeaf
    (not_continues rfl) ?_
  rw [skipBlank_skipBlank, skipBlank_space]

/-! ### Operands -/

theorem callee?_eq_none (h : s.afterOperand = false) : s.callee? = none := by
  unfold State.afterOperand at h
  unfold State.callee?
  split
  · rename_i heq
    rw [heq] at h
    cases h
  · rfl

/-- A part in parentheses is an operand. -/
theorem stands_group (h : Readable t) (hsound : Sound t.chunks) : Stands true t where
  begins := ⟨'(', _, rfl, begins_parenthesis⟩
  reads := by
    intro delimiters s k hd hs _
    have htext : shown true t ++ k = '(' :: (t.text.toList ++ ')' :: k) := by simp [shown]
    have hscan : scan ('(' :: (t.text.toList ++ ')' :: k)) =
        .ok (.punctuation '(', t.text.toList ++ ')' :: k) := scan_punctuation rfl
    have haction : action s (ends (t.text.toList ++ ')' :: k)) (.punctuation '(') = .group := by
      show parenthesis s = .group
      rw [parenthesis, callee?_eq_none hs, hs]
      rfl
    have hmute : Mute (')' :: k) := by
      rintro c ⟨⟩
      simp
    have hinner := subexpression_mute h hsound (show Closing [")"] by simp [Closing])
      (by decide) (by decide) hmute (not_continues rfl) (skipBlank_skipBlank _)
    rw [htext]
    exact shift_group (continues_cons hd (by decide)) hscan haction hinner

theorem stands_named (h : isName name = true) : Stands false (named name) where
  begins := by
    obtain ⟨c, tail, hname, hc⟩ := name_starts h
    refine ⟨c, tail, ?_, hc⟩
    rw [← hname]
    exact congrArg String.toList (text_named h)
  reads := by
    intro delimiters s k hd hs hk
    have htext : shown false (named name) = name.toList :=
      congrArg String.toList (text_named h)
    rw [htext, step, normal_named]
    exact shift_name h hd hs ((hk rfl).2 rfl)

theorem stands_numeral {mantissa : Nat} {exponent : Int}
    (h : Number.shape value = .finite false mantissa exponent) : Stands false (literal value) where
  begins := by
    obtain ⟨c, tail, hchars, hc⟩ := denotes_starts (denotes_literal h)
    exact ⟨c, tail, hchars, hc.toBegins⟩
  reads := by
    intro delimiters s k hd _ hk
    have hscan : scan (shown false (literal value) ++ k) = .ok (.number value, k) :=
      scan_numeral (denotes_literal h) (Number.isFinite_of_shape h) (hk rfl).1
    obtain ⟨c, tail, hchars, hc⟩ := denotes_starts (denotes_literal h)
    have hcontinues : Continues delimiters (shown false (literal value) ++ k) := by
      have hshown : shown false (literal value) = c :: tail := hchars
      rw [hshown]
      exact continues_cons hd hc.not_mem_closers
    rw [step, normal_finite h]
    exact shift_push hcontinues hscan rfl

/-! ### Calls and subscripts -/

/-- What an argument of a call has to be. -/
structure Argument (arg : Tree Float) : Prop where
  readable : Readable arg
  sound : Sound arg.chunks
  apart : ∀ c ∈ arg.chunks, c.isComma = false

theorem text_begins (h : Readable t) (hsound : Sound t.chunks) :
    ∃ c tail, t.text.toList = c :: tail ∧ Charset.isBlank c = false ∧ c ≠ ')' := by
  rw [h.text_chunks]
  cases hrow : t.chunks with
  | nil => exact absurd hrow (chunks_ne_nil t)
  | cons c row =>
    have hopens := h.opens c (by rw [hrow]; rfl)
    have hc : c ∈ t.chunks := by simp [hrow]
    cases c with
    | sign op =>
      by_cases hop : op = ","
      · subst hop
        exact ⟨',', _, rfl, by decide, by decide⟩
      · have htoken : IsOperatorToken op := (hsound.spelled _ hc).resolve_right hop
        obtain ⟨d, tail, hchars, hd⟩ := operator_starts htoken
        refine ⟨d, tail ++ ((Tree.gap op).toList ++ Row.text row), ?_, hd, ?_⟩
        · show op.toList ++ (Tree.gap op).toList ++ Row.text row = _
          rw [hchars, List.append_assoc]
          rfl
        · rintro rfl
          obtain ⟨e, rest, hop, hc⟩ := cons_of_isOperatorName htoken.1
          rw [hchars] at hop
          obtain rfl : ')' = e := (List.cons.inj hop).1
          revert hc
          simp [show Charset.isOperator ')' = false by decide]
    | operand tree wrap =>
      obtain ⟨d, tail, hchars, hd⟩ := (hsound.holds _ hc).begins
      refine ⟨d, tail ++ Row.text row, ?_, hd.isBlank, ?_⟩
      · show shown wrap tree ++ Row.text row = _
        rw [hchars]
        rfl
      · rintro rfl
        exact hd.not_mem_closers (by simp [closers])
    | _ => cases hopens

theorem adjoins_comma {c : Chunk} (h : c.closes = true) : c.adjoins (.joint ",") = true := by
  cases c with
  | operand tree wrap => rfl
  | suffix op => simp [Chunk.adjoins]
  | _ => cases h

theorem comma_adjoins {c : Chunk} (h : c.opens = true) (hcomma : c.isComma = false) :
    (Chunk.joint ",").adjoins c = true := by
  cases c with
  | sign op => simpa [Chunk.adjoins, Chunk.isComma, Chunk.operator?] using hcomma
  | operand tree wrap => rfl
  | _ => cases h

/-- The arguments of a call are a row of their own, with a comma after each but the last. -/
theorem sound_listing (hargs : ∀ arg ∈ args, Argument arg) :
    Sound (listing args) ∧ ∀ op, (listing args).getLast? ≠ some (.sign op) := by
  induction args with
  | nil => exact ⟨⟨nofun, nofun, List.isChain_nil⟩, nofun⟩
  | cons arg args ih =>
    have harg := hargs arg List.mem_cons_self
    cases args with
    | nil =>
      rw [listing_singleton]
      exact ⟨harg.sound, getLast?_ne_sign harg.readable⟩
    | cons other args =>
      obtain ⟨hlater, hlast⟩ := ih fun arg h => hargs arg (List.mem_cons_of_mem _ h)
      have hother := hargs other (by simp)
      have hafter : ∀ c ∈ (listing (other :: args)).head?, (Chunk.joint ",").adjoins c = true := by
        intro c hc
        rw [head?_listing] at hc
        exact comma_adjoins (hother.readable.opens c hc) (hother.apart c (List.mem_of_mem_head? hc))
      have hchained : Row.Chained (arg.chunks ++ .joint "," :: listing (other :: args)) := by
        refine List.isChain_append.2
          ⟨harg.sound.chained, List.isChain_cons.2 ⟨hafter, hlater.chained⟩, ?_⟩
        rintro c hc d ⟨⟩
        exact adjoins_comma (harg.readable.closes c hc)
      rw [listing_cons_cons]
      refine ⟨⟨?_, ?_, hchained⟩, fun op => ?_⟩
      · intro c hc
        rw [List.mem_append, List.mem_cons] at hc
        rcases hc with hc | rfl | hc
        · exact harg.sound.spelled c hc
        · exact .inr (.inl rfl)
        · exact hlater.spelled c hc
      · intro c hc
        rw [List.mem_append, List.mem_cons] at hc
        rcases hc with hc | rfl | hc
        · exact harg.sound.holds c hc
        · trivial
        · exact hlater.holds c hc
      · rw [List.getLast?_append_of_ne_nil _ (List.cons_ne_nil _ _),
          List.getLast?_cons_of_ne_nil (listing_ne_nil (List.cons_ne_nil other args))]
        exact hlast op

theorem someArguments_listed (hne : args ≠ []) (hargs : ∀ arg ∈ args, Argument arg)
    (hdeaf : Deaf (')' :: k) false (listing args))
    (hcs : skipBlank cs = skipBlank (listed args ++ ')' :: k)) :
    (someArguments cs ()).Ends (args.map normal) k := by
  have hd : Closing [",", ")"] := by simp [Closing]
  induction args generalizing cs with
  | nil => exact absurd rfl hne
  | cons arg args ih =>
    have harg := hargs arg List.mem_cons_self
    have hpasses : ∀ c ∈ arg.chunks, Passes [",", ")"] c := fun c hc =>
      ⟨fun _ => by decide, fun h => absurd h (by simp [harg.apart c hc])⟩
    rw [someArguments_eq]
    cases args with
    | nil =>
      have hclosing : Closes (')' :: k) := by
        rintro c ⟨⟩
        simp
      rw [listing_singleton] at hdeaf
      rw [listed_singleton] at hcs
      refine (subexpression_row harg.readable harg.sound hd hpasses hclosing hdeaf
        (not_continues rfl) hcs).next fun _ => ?_
      exact (expect_ends ')' k).map _
    | cons other args =>
      have hothers : ∀ arg ∈ other :: args, Argument arg := fun arg h =>
        hargs arg (List.mem_cons_of_mem _ h)
      have hclosing : Closes (',' :: ' ' :: (listed (other :: args) ++ ')' :: k)) := by
        rintro c ⟨⟩
        simp
      have htext : Row.text (.joint "," :: listing (other :: args)) ++ ')' :: k =
          ',' :: ' ' :: (listed (other :: args) ++ ')' :: k) := by
        rw [text_cons, text_listing fun arg h => (hothers arg h).readable]
        rfl
      rw [listing_cons_cons] at hdeaf
      have hdeaf_arg := hdeaf.left
      rw [htext] at hdeaf_arg
      rw [listed_cons_cons, List.append_assoc] at hcs
      refine (subexpression_row harg.readable harg.sound hd hpasses hclosing hdeaf_arg
        (not_continues rfl) hcs).next fun _ => ?_
      have hlater := ih (List.cons_ne_nil _ _) hothers hdeaf.right
        (skipBlank_space (listed (other :: args) ++ ')' :: k))
      exact (hlater.map (arg.normal :: ·)).widen (List.suffix_cons ..)

theorem arguments_listed (hargs : ∀ arg ∈ args, Argument arg)
    (hquiet : Row.quiet false (listing args) = true) :
    (arguments (skipBlank (listed args ++ ')' :: k)) ()).Ends (args.map normal) k := by
  cases args with
  | nil =>
    rw [arguments.eq_def]
    exact ⟨rfl, rfl⟩
  | cons arg args =>
    have harg := hargs arg List.mem_cons_self
    obtain ⟨c, tail, hc, hblank, hne⟩ := text_begins harg.readable harg.sound
    obtain ⟨rest, hrest⟩ : ∃ rest, listed (arg :: args) ++ ')' :: k = c :: rest := by
      cases args with
      | nil =>
        rw [listed_singleton, hc]
        exact ⟨_, rfl⟩
      | cons other args =>
        rw [listed_cons_cons, hc]
        exact ⟨_, rfl⟩
    have hmute : Mute (')' :: k) := by
      rintro c ⟨⟩
      simp
    obtain ⟨hsound, hlast⟩ := sound_listing hargs
    have hfits := hsound.fitsAll hmute.closes hlast
    rw [← List.append_nil (listing (arg :: args))] at hquiet hfits
    have hdeaf := deaf hsound hfits hquiet (.inr ⟨rfl, hmute⟩)
    have hsome := someArguments_listed (List.cons_ne_nil arg args) hargs hdeaf
      (show skipBlank (listed (arg :: args) ++ ')' :: k) = _ from rfl)
    rw [hrest] at hsome ⊢
    rw [skipBlank_cons hblank, arguments.eq_def]
    dsimp only
    rw [if_neg hne]
    exact hsome

theorem stands_function (h : isName name = true) (hargs : ∀ arg ∈ args, Argument arg)
    (hquiet : Row.quiet false (listing args) = true) :
    Stands false (apply (.function name args.length) args) where
  begins := by
    obtain ⟨c, tail, hname, hc⟩ := name_starts h
    refine ⟨c, tail ++ '(' :: (listed args ++ [')']), ?_, hc⟩
    show (apply (.function name args.length) args).text.toList = _
    rw [text_function h, hname]
    rfl
  reads := by
    intro delimiters s k hd hs _
    have htext : shown false (apply (.function name args.length) args) ++ k =
        name.toList ++ '(' :: (listed args ++ ')' :: k) := by
      show (apply (.function name args.length) args).text.toList ++ k = _
      rw [text_function h]
      simp
    have hcall := shift_call (s := s.push (operand (named name)) false)
      (continues_cons (c := '(') hd (by decide)) (scan_punctuation rfl) rfl
      (arguments_listed (k := k) hargs hquiet)
    rw [List.length_map] at hcall
    rw [htext, step, normal_apply]
    exact (shift_name h hd hs rfl).trans hcall

theorem stands_array (h : isName name = true) (harg : Readable arg) (hsound : Sound arg.chunks) :
    Stands false (apply (.array name) [arg]) where
  begins := by
    obtain ⟨c, tail, hname, hc⟩ := name_starts h
    refine ⟨c, tail ++ '[' :: (arg.text.toList ++ [']']), ?_, hc⟩
    show (apply (.array name) [arg]).text.toList = _
    rw [text_array h, hname]
    rfl
  reads := by
    intro delimiters s k hd hs _
    have htext : shown false (apply (.array name) [arg]) ++ k =
        name.toList ++ '[' :: (arg.text.toList ++ ']' :: k) := by
      show (apply (.array name) [arg]).text.toList ++ k = _
      rw [text_array h]
      simp
    have hmute : Mute (']' :: k) := by
      rintro c ⟨⟩
      simp
    have hinner := subexpression_mute harg hsound (show Closing ["]"] by simp [Closing])
      (by decide) (by decide) hmute (not_continues rfl) (skipBlank_skipBlank _)
    have hsubscript := shift_subscript (s := s.push (operand (named name)) false)
      (continues_cons (c := '[') hd (by decide)) (scan_punctuation rfl) rfl hinner
    rw [htext, step, normal_apply]
    exact (shift_name h hd hs rfl).trans hsubscript

/-! ### Trees -/

/-- What is known of the chunks of a tree holds of its parts in parentheses, too. -/
theorem chunk_part (h : Readable t) (hchunks : ∀ c ∈ t.chunks, c.IsSpelled ∧ Holds c)
    (wrap : Bool) : ∀ c ∈ t.part wrap, c.IsSpelled ∧ Holds c := by
  intro c hc
  rcases mem_part hc with rfl | hc
  · exact ⟨trivial, stands_group h (.of_chunks h hchunks)⟩
  · exact hchunks c hc

theorem chunk_operand (h : Stands wrap t) :
    ∀ c ∈ [Chunk.operand t wrap], c.IsSpelled ∧ Holds c := by
  intro c hc
  rw [List.mem_singleton.1 hc]
  exact ⟨trivial, h⟩

theorem chunk_signed {op : String} (hspelled : (Chunk.sign op).IsSpelled) (h : Stands wrap t) :
    ∀ c ∈ [.sign op, .operand t wrap], c.IsSpelled ∧ Holds c := by
  intro c hc
  rcases List.mem_pair.1 hc with rfl | rfl
  · exact ⟨hspelled, trivial⟩
  · exact ⟨trivial, h⟩

theorem chunk_joined {left right : List Chunk} {c : Chunk}
    (hleft : ∀ d ∈ left, d.IsSpelled ∧ Holds d) (hc : c.IsSpelled ∧ Holds c)
    (hright : ∀ d ∈ right, d.IsSpelled ∧ Holds d) :
    ∀ d ∈ left ++ c :: right, d.IsSpelled ∧ Holds d := by
  intro d hd
  rw [List.mem_append, List.mem_cons] at hd
  rcases hd with hd | rfl | hd
  · exact hleft d hd
  · exact hc
  · exact hright d hd

/-- A number without a numeral is read as its quotient. -/
theorem stands_quotient {numerator : Tree Float}
    (htext : (literal value).text.toList = shown true (quotient numerator))
    (hnormal : (literal value).normal = (quotient numerator).normal)
    (h : Stands true (quotient numerator)) : Stands false (literal value) where
  begins := by
    obtain ⟨c, tail, hchars, hc⟩ := h.begins
    exact ⟨c, tail, htext.trans hchars, hc⟩
  reads := by
    intro delimiters s k hd hs _
    have hshown : shown false (literal value) = shown true (quotient numerator) := htext
    rw [hshown, step, hnormal]
    exact h.reads hd hs fun h => absurd h.symm Bool.false_ne_true

theorem chunk_finite {negative : Bool} {mantissa : Nat} {exponent : Int}
    (h : Number.shape value = .finite negative mantissa exponent) :
    ∀ c ∈ (literal value).chunks, c.IsSpelled ∧ Holds c := by
  obtain ⟨mantissa, exponent, -, hneg, hchunks⟩ | ⟨hsign, hchunks⟩ := chunks_literal value
  · rw [hchunks]
    exact chunk_signed (.inl (by decide)) (stands_numeral hneg)
  · rw [hchunks]
    cases negative with
    | false => exact chunk_operand (stands_numeral h)
    | true => exact (hsign mantissa exponent h).elim

theorem stands_group_quotient {negative : Bool} {mantissa : Nat} {exponent : Int}
    (hsign : value ≠ -0) (h : Number.shape value = .finite negative mantissa exponent) :
    Stands true (quotient (literal value)) := by
  have hplain : Plain (quotient (literal value)) :=
    .infixOp (by decide) (.literal hsign) (.numeral Number.shape_zero)
  have hchunks : ∀ c ∈ (quotient (literal value)).chunks, c.IsSpelled ∧ Holds c := by
    rw [quotient, chunks_infixOp]
    exact chunk_joined (chunk_finite h) ⟨.inl (by decide), trivial⟩
      (chunk_finite Number.shape_zero)
  exact stands_group hplain.readable (.of_chunks hplain.readable hchunks)

theorem chunk_literal (value : Float) :
    ∀ c ∈ (literal value).chunks, c.IsSpelled ∧ Holds c := by
  cases hshape : Number.shape value with
  | nan =>
    have hstands := stands_group_quotient (Number.ne_neg_zero Number.shape_zero (.inl rfl))
      Number.shape_zero
    have hchunks : (literal value).chunks = [.operand (literal value) false] := by
      rw [chunks, hshape]
    rw [hchunks]
    exact chunk_operand (stands_quotient (text_nan hshape) (normal_nan hshape) hstands)
  | infinite negative =>
    have hchunks : (literal value).chunks = [.operand (literal value) false] := by
      rw [chunks, hshape]
    have hstands : Stands true (quotient (literal (if negative then -1 else 1))) := by
      cases negative with
      | false =>
        exact stands_group_quotient (Number.ne_neg_zero Number.shape_one (.inl rfl))
          Number.shape_one
      | true =>
        have hunit : 0 < Number.unit := by decide
        exact stands_group_quotient (Number.ne_neg_zero Number.shape_neg_one (.inr hunit))
          Number.shape_neg_one
    rw [hchunks]
    exact chunk_operand (stands_quotient (text_infinite hshape) (normal_infinite hshape) hstands)
  | finite negative mantissa exponent => exact chunk_finite hshape

theorem chunk_holds (h : Readable t) : ∀ c ∈ t.chunks, c.IsSpelled ∧ Holds c := by
  induction h with
  | literal _ => exact chunk_literal _
  | var word => exact chunk_operand (stands_named word)
  | @function name args word apart hargs ih =>
    obtain ⟨hcomma, hquiet⟩ := Bool.and_eq_true_iff.1 (keepsApart_iff.1 apart).2
    have hall : ∀ arg ∈ args, Argument arg := by
      intro arg harg
      refine ⟨hargs arg harg, .of_chunks (hargs arg harg) (ih arg harg), fun c hc => ?_⟩
      have hnone := List.all_eq_true.1 hcomma arg harg
      simp only [Bool.not_eq_true', List.any_eq_false, Bool.not_eq_true] at hnone
      exact hnone c hc
    exact chunk_operand (stands_function word hall hquiet)
  | array word harg ih => exact chunk_operand (stands_array word harg (.of_chunks harg ih))
  | @prefixOp op arg spelled _ harg ih =>
    refine chunk_signed spelled ?_
    cases hwrap : wrapsPrefixed arg with
    | true => exact stands_group harg (.of_chunks harg ih)
    | false =>
      rw [harg.chunks_operand hwrap] at ih
      exact (ih _ List.mem_cons_self).2
  | postfixOp spelled _ harg ih =>
    rw [chunks_postfixOp]
    exact chunk_joined (chunk_part harg ih _) ⟨spelled, trivial⟩ nofun
  | infixOp spelled _ hl hr ihl ihr =>
    rw [chunks_infixOp]
    exact chunk_joined (chunk_part hl ihl _) ⟨spelled, trivial⟩ (chunk_part hr ihr _)
  | @conditional condition yes no apart hc hy hn ihc ihy ihn =>
    obtain ⟨hcolon, hquiet⟩ := Bool.and_eq_true_iff.1 (keepsApart_iff.1 apart).2
    have hyes : Holds (.branch yes) :=
      holds_branch hy (.of_chunks hy ihy) (by simpa using hcolon) hquiet
    rw [chunks_conditional]
    exact chunk_joined (chunk_part hc ihc _) ⟨trivial, hyes⟩ (chunk_part hn ihn _)

theorem Sound.of_readable (h : Readable t) : Sound t.chunks := .of_chunks h (chunk_holds h)

end Parser

namespace Tree

open Token Formula.Parser

theorem Readable.error? {t : Tree Float} (h : Readable t) : t.normal.error? = none := by
  cases h with
  | @literal value _ =>
    rw [normal, normalLiteral]
    split
    · rfl
    · rfl
    · split <;> rfl
  | var _ => rfl
  | _ =>
    rw [normal_apply]
    rfl

theorem Readable.ofSource_normal {t : Tree Float} (h : Readable t) :
    ofSource t.text = t.normal := by
  have hcs : skipBlank t.text.toList = skipBlank (t.text.toList ++ []) := by
    rw [List.append_nil]
  have hread : (subexpression [] t.text.toList ()).result = .ok t.normal :=
    (subexpression_mute h (.of_readable h) (show Closing [] by simp [Closing]) (by decide)
      (by decide) (by simp [Mute]) not_continues_nil hcs).result
  unfold ofSource
  rw [(read_ofSource t.text []).1, hread]

/-- Printing is inverted by reading: the text of a tree whose operators are symbols is a formula,
and it reads back as the tree with its literals as they are written. -/
theorem ofSource_text {t : Tree Float} (h : Symbolic t) :
    ofSource t.text = t.normal ∧ (ofSource t.text).error? = none := by
  have htree : ofSource t.text = t.normal := h.plain.readable.ofSource_normal
  constructor
  · exact htree
  · rw [htree]
    exact h.plain.readable.error?

theorem ofSource_text_conditional :
    let t : Tree Float := apply (.infixOp "?:")
      [named "a", literal (-2),
        apply (.infixOp "..") [named "b", apply (.postfixOp "!") [named "n"]]]
    t.Symbolic ∧ ofSource t.text = t.normal ∧ (ofSource t.text).error? = none := by
  intro t
  have ht : t.Symbolic :=
    .conditional (.var (by decide)) (.literal (by decide +kernel))
      (.infixOp (by decide) (.var (by decide)) (.postfixOp (by decide) (.var (by decide))))
  exact ⟨ht, ofSource_text ht⟩

end Tree
end Formula
