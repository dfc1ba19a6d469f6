import Formula.Proofs.Tree.Rows
import Formula.Proofs.Tree.Start

/-! Trees of symbols and words. Main statement: such a tree can be read from its text, whatever its
shape, because a symbol is no name and no operand starts with a character of operators. -/
namespace Formula

open Token Formula.Tree

namespace Chunk

/-- Operators are symbols, and what they are written to starts with no character of operators. -/
def IsPlain : Chunk → Prop
  | sign op | suffix op => IsSymbol op
  | operand tree wrap => (shown wrap tree).head?.all (fun c => !Charset.isOperator c) = true
  | joint op => IsOperator op
  | branch _ => True

/-- What joins two parts of a tree. -/
def IsJoining : Chunk → Prop
  | joint op => IsOperator op
  | branch _ => True
  | _ => False

variable {c next : Chunk} {op : String}

theorem IsPlain.adjoins_joining (h : c.IsPlain) (hcloses : c.closes = true)
    (hnext : next.IsJoining) : c.adjoins next = true := by
  cases c with
  | operand tree wrap =>
    cases next with
    | joint op => rfl
    | branch yes => rfl
    | _ => exact hnext.elim
  | suffix word =>
    have hword : IsSymbol word := h
    cases next with
    | joint op =>
      have hop : IsOperator op := hnext
      simp [adjoins, hop.token.isName, hword.isName, hword.1.ne_comma]
    | branch yes => simp [adjoins, hword.isName, hword.1.ne_comma, hword.1.ne_mark]
    | _ => exact hnext.elim
  | _ => cases hcloses

theorem IsPlain.joining_adjoins (h : next.IsPlain) (hopens : next.opens = true)
    (hc : c.IsJoining) : c.adjoins next = true := by
  cases next with
  | sign op =>
    have hop : IsSymbol op := h
    cases c with
    | joint op => simp [adjoins, hop.1.ne_comma]
    | branch yes => rfl
    | _ => exact hc.elim
  | operand tree wrap =>
    cases c with
    | joint op => rfl
    | branch yes => rfl
    | _ => exact hc.elim
  | _ => cases hopens

theorem IsPlain.sign_adjoins {tree : Tree Float} {wrap : Bool} (hop : IsSymbol op)
    (h : (operand tree wrap).IsPlain) : (sign op).adjoins (operand tree wrap) = true := by
  have hname := hop.isName
  cases hshown : (shown wrap tree).head? with
  | none => simp [adjoins, hname, hshown]
  | some d =>
    have hd : Charset.isOperator d = false := by simpa [IsPlain, hshown] using h
    simp [adjoins, hname, hshown, hop.endsBefore hd]

theorem IsPlain.adjoins_suffix (hcloses : c.closes = true) (hc : ∀ word, c ≠ suffix word)
    (hop : IsSymbol op) : c.adjoins (suffix op) = true := by
  obtain ⟨d, tail, hchars, hd, -⟩ := hop.cons
  cases c with
  | operand tree wrap => simp [adjoins, hchars, hd]
  | suffix word => exact absurd rfl (hc word)
  | _ => cases hcloses

/-- A plain chunk is neither a comma nor a mark of a conditional. -/
theorem IsPlain.operator? (h : c.IsPlain) : ∀ op ∈ c.operator?, IsOperator op := by
  intro op hop
  cases c with
  | sign own =>
    obtain rfl : own = op := Option.some.inj hop
    exact And.left h
  | suffix own =>
    obtain rfl : own = op := Option.some.inj hop
    exact And.left h
  | joint own =>
    obtain rfl : own = op := Option.some.inj hop
    exact h
  | _ => cases hop

end Chunk

namespace Row

open Chunk

variable {row : List Chunk}

theorem quiet_of_forall (h : ∀ c ∈ row, c.operator? ≠ some "?") (afterWord : Bool) :
    quiet afterWord row = true := by
  induction row generalizing afterWord with
  | nil => rfl
  | cons c row ih =>
    have hc := h c List.mem_cons_self
    have hasks : c.asks afterWord = false := by
      cases c with
      | suffix op => simpa [asks, Chunk.operator?] using hc
      | joint op =>
        have hop : op ≠ "?" := by simpa [Chunk.operator?] using hc
        simp [asks, hop]
      | _ => rfl
    rw [quiet, hasks, ih fun c hc => h c (List.mem_cons_of_mem _ hc)]
    rfl

theorem patient_of_forall (h : ∀ c ∈ row, c.isWord = false) (q : Option String) :
    patient q row = true := by
  induction row generalizing q with
  | nil => rfl
  | cons c row ih =>
    have hrow := ih fun c hc => h c (List.mem_cons_of_mem _ hc)
    cases c with
    | suffix word =>
      have hword : isName word = false := h _ List.mem_cons_self
      cases row with
      | nil => rfl
      | cons next row =>
        cases next with
        | joint op =>
          have hlater : patient (some op) row = true := hrow q
          simp [patient, hword, hlater]
        | _ => exact hrow q
    | joint op => exact hrow _
    | branch yes => exact hrow _
    | _ => exact hrow q

theorem operator?_ne_mark (h : ∀ c ∈ row, c.IsPlain) : ∀ c ∈ row, c.operator? ≠ some "?" :=
  fun c hc hop => (h c hc).operator? "?" hop |>.ne_mark rfl

theorem apart_of_plain (hchain : Chained row) (h : ∀ c ∈ row, c.IsPlain) : apart row = true := by
  refine apart_iff.2 ⟨hchain, patient_of_forall (fun c hc => ?_) none,
    quiet_of_forall (operator?_ne_mark h) false⟩
  cases c with
  | suffix word => exact IsSymbol.isName (h _ hc)
  | _ => rfl

end Row

namespace Tree

open Chunk

/-- Trees of any size whose operators are symbols of any characters and whose other names are words.
A literal is any number but negative zero. -/
inductive Plain : Tree Float → Prop where
  | literal {value : Float} (sign : value ≠ -0) : Plain (literal value)
  | var {name : String} (word : IsWord name) : Plain (named name)
  | function {name : String} {args : List (Tree Float)} (word : IsWord name)
    (args_plain : ∀ arg ∈ args, Plain arg) : Plain (apply (.function name args.length) args)
  | array {name : String} {arg : Tree Float} (word : IsWord name) (arg_plain : Plain arg) :
    Plain (apply (.array name) [arg])
  | prefixOp {op : String} {arg : Tree Float} (symbol : IsSymbol op) (arg_plain : Plain arg) :
    Plain (apply (.prefixOp op) [arg])
  | postfixOp {op : String} {arg : Tree Float} (symbol : IsSymbol op) (arg_plain : Plain arg) :
    Plain (apply (.postfixOp op) [arg])
  | infixOp {op : String} {left right : Tree Float} (operator : IsOperator op)
    (left_plain : Plain left) (right_plain : Plain right) :
    Plain (apply (.infixOp op) [left, right])
  | conditional {condition yes no : Tree Float} (condition_plain : Plain condition)
    (yes_plain : Plain yes) (no_plain : Plain no) :
    Plain (apply (.infixOp "?:") [condition, yes, no])

theorem Plain.numeral {value : Float} {mantissa : Nat} {exponent : Int}
    (h : Number.shape value = .finite false mantissa exponent) : Plain (Tree.literal value) :=
  .literal (Number.ne_neg_zero h (.inl rfl))

variable {t left right arg : Tree Float} {c : Chunk} {op : String}

theorem plain_part (h : ∀ c ∈ t.chunks, c.IsPlain) (wrap : Bool) :
    ∀ c ∈ t.part wrap, c.IsPlain := by
  intro c hc
  rcases mem_part hc with rfl | hc
  · have hparenthesis : Charset.isOperator '(' = false := by decide
    simp [IsPlain, shown, hparenthesis]
  · exact h c hc

theorem chained_part (h : Readable t) (wrap : Bool) : Row.Chained (t.part wrap) := by
  cases wrap with
  | false => exact (Row.apart_iff.1 h.row_apart).1
  | true => exact List.isChain_singleton _

theorem plain_joined (hleft : ∀ c ∈ left.chunks, c.IsPlain) (hright : ∀ c ∈ right.chunks, c.IsPlain)
    (hc : c.IsPlain) (wrap wrap' : Bool) :
    ∀ d ∈ left.part wrap ++ c :: right.part wrap', d.IsPlain := by
  intro d hd
  rw [List.mem_append, List.mem_cons] at hd
  rcases hd with hd | rfl | hd
  · exact plain_part hleft wrap d hd
  · exact hc
  · exact plain_part hright wrap' d hd

/-- Plain parts are kept apart by what joins them. -/
theorem chained_joined (hl : Readable left) (hr : Readable right)
    (hleft : ∀ c ∈ left.chunks, c.IsPlain) (hright : ∀ c ∈ right.chunks, c.IsPlain)
    (hc : c.IsJoining) (wrap wrap' : Bool) :
    Row.Chained (left.part wrap ++ c :: right.part wrap') := by
  have hafter : ∀ next ∈ (right.part wrap').head?, c.adjoins next = true := by
    intro next hnext
    have hplain := plain_part hright wrap' next (List.mem_of_mem_head? hnext)
    exact hplain.joining_adjoins (opens_part hr.opens _ next hnext) hc
  refine List.isChain_append.2 ⟨chained_part hl wrap,
    List.isChain_cons.2 ⟨hafter, chained_part hr wrap'⟩, ?_⟩
  rintro last hlast next ⟨⟩
  have hplain := plain_part hleft wrap last (List.mem_of_getLast? hlast)
  exact hplain.adjoins_joining (closes_part hl.closes _ last hlast) hc

theorem chained_postfixed (h : Readable arg) (hop : IsSymbol op) :
    Row.Chained (arg.part (wrapsPostfixed arg) ++ [suffix op]) := by
  refine List.isChain_append.2 ⟨chained_part h _, List.isChain_singleton _, ?_⟩
  rintro last hlast next ⟨⟩
  refine IsPlain.adjoins_suffix (closes_part h.closes _ last hlast) ?_ hop
  rintro word rfl
  obtain ⟨tree, wrap, heq⟩ | ⟨op, tree, wrap, heq⟩ := part_postfixed arg <;>
  · rw [heq] at hlast
    cases hlast

theorem keepsApart_iff {symbol : Symbol} {args : List (Tree Float)} :
    keepsApart symbol args = true ↔
      Row.apart (apply symbol args).chunks = true ∧ encloses symbol args = true :=
  Bool.and_eq_true_iff

theorem plain_literal (value : Float) : ∀ c ∈ (literal value).chunks, c.IsPlain := by
  have hnumeral {value : Float} {mantissa : Nat} {exponent : Int}
      (h : Number.shape value = .finite false mantissa exponent) :
      (operand (literal value) false).IsPlain := by
    obtain ⟨c, tail, hchars, hc⟩ := denotes_starts (denotes_literal h)
    have hshown : shown false (literal value) = c :: tail := hchars
    simp [IsPlain, hshown, hc.isOperator]
  have hparenthesis : Charset.isOperator '(' = false := by decide
  have hquotient {numerator : Tree Float}
      (h : (literal value).text.toList = shown true (quotient numerator)) :
      (operand (literal value) false).IsPlain := by
    have hshown : shown false (literal value) =
        '(' :: ((quotient numerator).text.toList ++ [')']) := h
    rw [IsPlain, hshown]
    simp [hparenthesis]
  obtain ⟨mantissa, exponent, -, hneg, hchunks⟩ | ⟨hsign, hchunks⟩ := chunks_literal value
  · intro c hc
    rw [hchunks] at hc
    rcases List.mem_pair.1 hc with rfl | rfl
    · show IsSymbol "-"
      decide
    · exact hnumeral hneg
  · intro c hc
    rw [hchunks] at hc
    rw [List.mem_singleton.1 hc]
    cases hshape : Number.shape value with
    | nan => exact hquotient (text_nan hshape)
    | infinite negative => exact hquotient (text_infinite hshape)
    | finite negative mantissa exponent =>
      cases negative with
      | false => exact hnumeral hshape
      | true => exact (hsign mantissa exponent hshape).elim

theorem plain_operand {name : String} {tail : List Char} (h : IsWord name)
    (htext : t.text.toList = name.toList ++ tail) : (operand t false).IsPlain := by
  obtain ⟨c, rest, hname, hc⟩ := word_starts h
  have hshown : shown false t = c :: (rest ++ tail) := by
    rw [hname] at htext
    exact htext
  simp [IsPlain, hshown, hc.isOperator]

/-- A call of plain arguments shows no comma and no mark of a conditional between them. -/
theorem encloses_function {name : String} {args : List (Tree Float)}
    (h : ∀ arg ∈ args, ∀ c ∈ arg.chunks, c.IsPlain) :
    encloses (.function name args.length) args = true := by
  have hcomma (arg : Tree Float) (harg : arg ∈ args) : arg.chunks.any isComma = false := by
    apply List.any_eq_false.2
    intro c hc hcomma
    have hop : c.operator? = some "," := by simpa [isComma] using hcomma
    exact ((h arg harg c hc).operator? "," hop).ne_comma rfl
  have hquiet : Row.quiet false (listing args) = true := by
    refine Row.quiet_of_forall (fun c hc => ?_) false
    rcases mem_listing hc with rfl | ⟨arg, harg, hc⟩
    · simp [Chunk.operator?]
    · exact Row.operator?_ne_mark (h arg harg) c hc
  have hall : (args.all fun arg => !arg.chunks.any isComma) = true :=
    List.all_eq_true.2 fun arg harg => by rw [hcomma arg harg]; rfl
  rw [encloses, hall, hquiet]
  rfl

theorem encloses_branch {condition yes no : Tree Float} (h : ∀ c ∈ yes.chunks, c.IsPlain) :
    encloses (.infixOp "?:") [condition, yes, no] = true := by
  have hcolon : yes.chunks.any isColon = false := by
    apply List.any_eq_false.2
    intro c hc hcolon
    obtain ⟨op, hop, hcolon⟩ := (Option.any_eq_true _ _).1 hcolon
    have hmarks := (h c hc).operator? op hop |>.2.2
    have hmem : op ∈ [":", ":-", ":+", ":!"] := List.contains_iff_mem.1 hcolon
    exact hmarks (List.mem_cons_of_mem _ hmem)
  have hquiet : Row.quiet false (yes.chunks ++ [joint ":"]) = true := by
    refine Row.quiet_of_forall (fun c hc => ?_) false
    rcases List.mem_append.1 hc with hc | hc
    · exact Row.operator?_ne_mark h c hc
    · simp [List.mem_singleton.1 hc, Chunk.operator?]
  rw [encloses, hcolon, hquiet]
  rfl

/-- The rows of plain trees consist of plain chunks. -/
theorem Plain.readable_and (h : Plain t) : Readable t ∧ ∀ c ∈ t.chunks, c.IsPlain := by
  induction h with
  | literal sign => exact ⟨.literal sign, plain_literal _⟩
  | @var name word =>
    refine ⟨.var word.1, fun c hc => ?_⟩
    rw [List.mem_singleton.1 hc]
    have htext : (named name).text.toList = name.toList ++ [] := by
      rw [text_named word.1, List.append_nil]
    exact plain_operand word htext
  | @function name args word _ ih =>
    refine ⟨.function word.1 ?_ fun arg harg => (ih arg harg).1, fun c hc => ?_⟩
    · exact keepsApart_iff.2
        ⟨Row.apart_operand _ _, encloses_function fun arg harg => (ih arg harg).2⟩
    · rw [List.mem_singleton.1 hc]
      exact plain_operand word (text_function word.1 args)
  | @array name arg word _ ih =>
    refine ⟨.array word.1 ih.1, fun c hc => ?_⟩
    rw [List.mem_singleton.1 hc]
    exact plain_operand word (text_array word.1)
  | @prefixOp op arg symbol _ ih =>
    obtain ⟨harg, hplain⟩ := ih
    have hoperand : (operand arg (wrapsPrefixed arg)).IsPlain := by
      cases hwrap : wrapsPrefixed arg with
      | true => exact plain_part hplain true _ List.mem_cons_self
      | false => exact hplain _ (by rw [harg.chunks_operand hwrap]; exact List.mem_cons_self)
    have hall : ∀ c ∈ (apply (.prefixOp op) [arg]).chunks, c.IsPlain := by
      intro c hc
      rcases List.mem_pair.1 hc with rfl | rfl
      · exact symbol
      · exact hoperand
    have hchain : Row.Chained (apply (.prefixOp op) [arg]).chunks :=
      List.isChain_pair.2 (IsPlain.sign_adjoins symbol hoperand)
    exact ⟨.prefixOp (.inl symbol.1.token)
      (keepsApart_iff.2 ⟨Row.apart_of_plain hchain hall, rfl⟩) harg, hall⟩
  | @postfixOp op arg symbol _ ih =>
    obtain ⟨harg, hplain⟩ := ih
    have hall : ∀ c ∈ (apply (.postfixOp op) [arg]).chunks, c.IsPlain := by
      intro c hc
      rw [chunks_postfixOp, List.mem_append, List.mem_singleton] at hc
      rcases hc with hc | rfl
      · exact plain_part hplain _ c hc
      · exact symbol
    have hchain : Row.Chained (apply (.postfixOp op) [arg]).chunks := chained_postfixed harg symbol
    exact ⟨.postfixOp (.inl symbol.1.token)
      (keepsApart_iff.2 ⟨Row.apart_of_plain hchain hall, rfl⟩) harg, hall⟩
  | @infixOp op left right operator _ _ ihl ihr =>
    obtain ⟨hl, hleft⟩ := ihl
    obtain ⟨hr, hright⟩ := ihr
    have hall : ∀ c ∈ (apply (.infixOp op) [left, right]).chunks, c.IsPlain :=
      plain_joined (c := joint op) hleft hright operator _ _
    have hchain : Row.Chained (apply (.infixOp op) [left, right]).chunks :=
      chained_joined (c := joint op) hl hr hleft hright operator _ _
    have hencloses : encloses (.infixOp op) [left, right] = true := by
      simp [encloses, operator.ne_colon]
    exact ⟨.infixOp (.inl operator.token)
      (keepsApart_iff.2 ⟨Row.apart_of_plain hchain hall, hencloses⟩) hl hr, hall⟩
  | @conditional condition yes no _ _ _ ihc ihy ihn =>
    obtain ⟨hc, hcondition⟩ := ihc
    obtain ⟨hy, hyes⟩ := ihy
    obtain ⟨hn, hno⟩ := ihn
    have hall : ∀ c ∈ (apply (.infixOp "?:") [condition, yes, no]).chunks, c.IsPlain :=
      plain_joined (c := branch yes) hcondition hno trivial _ _
    have hchain : Row.Chained (apply (.infixOp "?:") [condition, yes, no]).chunks :=
      chained_joined (c := branch yes) hc hn hcondition hno trivial _ _
    exact ⟨.conditional (keepsApart_iff.2 ⟨Row.apart_of_plain hchain hall, encloses_branch hyes⟩)
      hc hy hn, hall⟩

theorem Plain.readable (h : Plain t) : Readable t := h.readable_and.1

theorem Symbolic.plain (h : Symbolic t) : Plain t := by
  induction h with
  | literal sign => exact .literal sign
  | var identifier => exact .var identifier.isWord
  | function identifier _ ih => exact .function identifier.isWord ih
  | array identifier _ ih => exact .array identifier.isWord ih
  | prefixOp run _ ih => exact .prefixOp run.isSymbol ih
  | postfixOp run _ ih => exact .postfixOp run.isSymbol ih
  | infixOp operator _ _ ihl ihr => exact .infixOp operator.isOperator ihl ihr
  | conditional _ _ _ ihc ihy ihn => exact .conditional ihc ihy ihn

end Tree
end Formula
