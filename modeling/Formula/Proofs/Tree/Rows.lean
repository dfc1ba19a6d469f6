import Formula.Proofs.Tree.Symbolic

/-! The text of a tree as a row of chunks: the operands that stand outside parentheses, the operators
at them and between them, and the first branches of conditionals. Parentheses stand where grouping
asks for them and nowhere else, so `Tree.apart` says which chunks they leave apart from their
neighbours. Main statement: the text of a tree is that of its row. -/
namespace Formula

open Token

inductive Chunk where
  /-- A prefix operator, written to the operand after it. -/
  | sign (op : String)
  /-- A tree without an operator at its top, or any tree in parentheses. -/
  | operand (tree : Tree Float) (wrap : Bool)
  /-- A postfix operator. -/
  | suffix (op : String)
  /-- An infix operator. -/
  | joint (op : String)
  /-- A conditional from its question mark to its colon. -/
  | branch (yes : Tree Float)

def Tree.isVariable : Tree Float → Bool
  | apply (.var _) [] => true
  | _ => false

namespace Chunk

open Formula.Tree

def text : Chunk → List Char
  | sign op => op.toList ++ (gap op).toList
  | operand tree wrap => shown wrap tree
  | suffix op => (gap op).toList ++ op.toList
  | joint op => if op = "," then [',', ' '] else ' ' :: (op.toList ++ [' '])
  | branch yes => ' ' :: '?' :: ' ' :: (yes.text.toList ++ [' ', ':', ' '])

def operator? : Chunk → Option String
  | sign op | suffix op | joint op => some op
  | operand .. | branch _ => none

/-- Whether a branch may end at the chunk. -/
def isColon (c : Chunk) : Bool := c.operator?.any Token.isColon

def isComma (c : Chunk) : Bool := c.operator? == some ","

/-- Whether the chunk is a postfix word. -/
def isWord : Chunk → Bool
  | suffix op => isName op
  | _ => false

/-- Whether a row may start with the chunk. -/
def opens : Chunk → Bool
  | sign _ | operand .. => true
  | _ => false

/-- Whether a row may end with the chunk. -/
def closes : Chunk → Bool
  | operand .. | suffix _ => true
  | _ => false

/-- Whether a chunk is kept apart from the one after it. -/
def adjoins : Chunk → Chunk → Bool
  | sign op, operand tree wrap =>
    !isName op && (op == "," || (shown wrap tree).head?.all (endsBefore op))
  | operand tree wrap, suffix op =>
    wrap || !tree.isVariable || isName op || op.toList.head?.all fun c => !Charset.isNameTail c
  | operand .., joint _ | operand .., branch _ => true
  -- an operator after a word or a comma belongs to what follows
  | suffix word, joint op =>
    op == "," || !isName op && word != "," && !(isName word && Precedence.isKnownInfix word)
  | suffix word, branch _ => !isName word && word != "," && word != "?"
  | joint _, sign op => op != ","
  | joint _, operand .. | branch _, sign _ | branch _, operand .. => true
  | _, _ => false

/-- An operator is one token, of which a prefix operator is none that is also a name. -/
def IsSpelled : Chunk → Prop
  | sign op => IsOperatorToken op ∨ op = ","
  | suffix op | joint op => IsOperatorToken op ∨ op = "," ∨ isName op = true
  | operand .. | branch _ => True

/-- Whether the chunk is a question mark that looks for a colon. After a postfix word it does not. -/
def asks (afterWord : Bool) : Chunk → Bool
  | suffix op => op == "?"
  | joint op => op == "?" && !afterWord
  | _ => false

end Chunk

namespace Row

open Chunk

def text (row : List Chunk) : List Char := row.flatMap Chunk.text

/-- Each chunk is kept apart from the next. -/
abbrev Chained (row : List Chunk) : Prop := row.IsChain fun c next => c.adjoins next

/-- Whether every postfix word comes before the operator on its left, the last of which is `q`. A
word before an infix operator is first taken for an infix operator itself. -/
def patient (q : Option String) : List Chunk → Bool
  | [] => true
  | suffix word :: joint op :: row =>
    (!isName word || op == "," || q.all fun before => !Precedence.bindsFirst before word) &&
      patient (some op) row
  | joint op :: row => patient (some op) row
  | branch _ :: row => patient (some "?") row
  | _ :: row => patient q row

/-- Whether the row is no formula: nothing, an operator or a conditional without its end. -/
def unfinished : List Chunk → Bool
  | [] => true
  | [joint _] => true
  | row => match row.getLast? with
    | some (branch _) => true
    | _ => false

/-- Whether a formula ends at the first colon. -/
def hasBranch (row : List Chunk) : Bool :=
  row.any isColon && !unfinished (row.takeWhile fun c => !c.isColon)

/-- Whether no question mark finds a branch after it. -/
def quiet (afterWord : Bool) : List Chunk → Bool
  | [] => true
  | c :: row => !(c.asks afterWord && hasBranch row) && quiet c.isWord row

/-- Whether the chunks of a row stand where the parser takes them for what they are. -/
def apart (row : List Chunk) : Bool :=
  decide (Chained row) && patient none row && quiet false row

variable {q : Option String} {row row' : List Chunk} {op word : String}

theorem apart_iff : apart row = true ↔
    Chained row ∧ patient none row = true ∧ quiet false row = true := by
  simp [apart, and_assoc]

theorem apart_operand (tree : Tree Float) (wrap : Bool) : apart [operand tree wrap] = true := by
  simp [apart_iff, patient, quiet, asks]

theorem patient_cons (c : Chunk) (h : patient q (c :: row) = true) :
    ∃ q', patient q' row = true := by
  cases c with
  | suffix word =>
    refine ⟨q, ?_⟩
    cases row with
    | nil => rfl
    | cons next row =>
      cases next with
      | joint op => exact (Bool.and_eq_true_iff.1 h).2
      | _ => exact h
  | sign op => exact ⟨q, h⟩
  | operand tree wrap => exact ⟨q, h⟩
  | joint op => exact ⟨some op, h⟩
  | branch yes => exact ⟨some "?", h⟩

theorem patient_append (row : List Chunk) (h : patient q (row ++ row') = true) :
    ∃ q', patient q' row' = true := by
  induction row generalizing q with
  | nil => exact ⟨q, h⟩
  | cons c row ih =>
    obtain ⟨q', h⟩ := patient_cons c h
    exact ih h

/-- After an operator that joins two parts, only that operator waits. -/
theorem patient_joint (h : patient q (row ++ joint op :: row') = true) :
    patient (some op) row' = true := by
  obtain ⟨q', h⟩ := patient_append row h
  exact h

theorem patient_branch {yes : Tree Float} (h : patient q (row ++ branch yes :: row') = true) :
    patient (some "?") row' = true := by
  obtain ⟨q', h⟩ := patient_append row h
  exact h

end Row

namespace Tree

open Chunk

/-- What the text of the tree consists of. -/
def chunks : Tree Float → List Chunk
  | literal value =>
    match Number.shape value with
    | .finite true .. => [sign "-", operand (literal (-value)) false]
    | _ => [operand (literal value) false]
  | apply (.infixOp op) [left, right] =>
    (if wrapsLeft op left then [operand left true] else chunks left) ++
      joint op :: if wrapsRight op right then [operand right true] else chunks right
  | apply (.infixOp _) [condition, yes, no] =>
    (if wrapsLeft "?" condition then [operand condition true] else chunks condition) ++
      branch yes :: if wrapsRight "?" no then [operand no true] else chunks no
  | apply (.prefixOp op) [arg] => [sign op, operand arg (wrapsPrefixed arg)]
  | apply (.postfixOp op) [arg] =>
    (if wrapsPostfixed arg then [operand arg true] else chunks arg) ++ [suffix op]
  | t => [operand t false]

/-- What a part of a tree consists of, in parentheses or not. -/
def part (wrap : Bool) (t : Tree Float) : List Chunk :=
  if wrap then [operand t true] else t.chunks

/-- What stands between the parentheses of a call. -/
def listing (args : List (Tree Float)) : List Chunk := [joint ","].intercalate (args.map chunks)

def isLoneMark : Tree Float → Bool
  | apply (.infixOp op) [_, _] => op == "?"
  | _ => false

/-- Whether what a symbol encloses is kept apart. The arguments of a call show no comma, and a branch
shows no colon before the one that ends it. -/
def encloses : Symbol → List (Tree Float) → Bool
  | .function .., args =>
    (args.all fun arg => !arg.chunks.any isComma) && Row.quiet false (listing args)
  | .infixOp _, [_, yes, _] =>
    !yes.chunks.any isColon && Row.quiet false (yes.chunks ++ [joint ":"])
  | .infixOp op, [left, _] => op != ":" || !left.isLoneMark
  | _, _ => true

/-- Whether an application is written apart. -/
def keepsApart (symbol : Symbol) (args : List (Tree Float)) : Bool :=
  Row.apart (apply symbol args).chunks && encloses symbol args

mutual

/-- Whether the text of the tree keeps everything in it apart. -/
def apart : Tree Float → Bool
  | literal _ => true
  | apply symbol args => keepsApart symbol args && apartAll args
  | malformed .. => false

def apartAll : List (Tree Float) → Bool
  | [] => true
  | arg :: args => apart arg && apartAll args

end

/-- Trees whose text can be read: the names and operators are tokens, and the text keeps them
apart. -/
inductive Readable : Tree Float → Prop where
  | literal {value : Float} (sign : value ≠ -0) : Readable (literal value)
  | var {name : String} (word : isName name = true) : Readable (named name)
  | function {name : String} {args : List (Tree Float)} (word : isName name = true)
    (apart : keepsApart (.function name args.length) args = true)
    (args_readable : ∀ arg ∈ args, Readable arg) :
    Readable (apply (.function name args.length) args)
  | array {name : String} {arg : Tree Float} (word : isName name = true)
    (arg_readable : Readable arg) : Readable (apply (.array name) [arg])
  | prefixOp {op : String} {arg : Tree Float} (spelled : (sign op).IsSpelled)
    (apart : keepsApart (.prefixOp op) [arg] = true) (arg_readable : Readable arg) :
    Readable (apply (.prefixOp op) [arg])
  | postfixOp {op : String} {arg : Tree Float} (spelled : (suffix op).IsSpelled)
    (apart : keepsApart (.postfixOp op) [arg] = true) (arg_readable : Readable arg) :
    Readable (apply (.postfixOp op) [arg])
  | infixOp {op : String} {left right : Tree Float} (spelled : (joint op).IsSpelled)
    (apart : keepsApart (.infixOp op) [left, right] = true) (left_readable : Readable left)
    (right_readable : Readable right) : Readable (apply (.infixOp op) [left, right])
  | conditional {condition yes no : Tree Float}
    (apart : keepsApart (.infixOp "?:") [condition, yes, no] = true)
    (condition_readable : Readable condition) (yes_readable : Readable yes)
    (no_readable : Readable no) : Readable (apply (.infixOp "?:") [condition, yes, no])

theorem Readable.numeral {value : Float} {mantissa : Nat} {exponent : Int}
    (h : Number.shape value = .finite false mantissa exponent) : Readable (Tree.literal value) :=
  .literal (Number.ne_neg_zero h (.inl rfl))

/-! ### Rows -/

section
variable {op : String} {left right condition yes no arg : Tree Float} {wrap : Bool}

/-- A negative literal is a sign and the numeral after it. -/
theorem chunks_literal (value : Float) :
    (∃ mantissa exponent, Number.shape value = .finite true mantissa exponent ∧
      Number.shape (-value) = .finite false mantissa exponent ∧
      (literal value).chunks = [sign "-", operand (literal (-value)) false]) ∨
    (∀ mantissa exponent, Number.shape value ≠ .finite true mantissa exponent) ∧
      (literal value).chunks = [operand (literal value) false] := by
  cases hshape : Number.shape value with
  | nan => exact .inr ⟨nofun, by rw [chunks, hshape]⟩
  | infinite negative => exact .inr ⟨nofun, by rw [chunks, hshape]⟩
  | finite negative mantissa exponent =>
    cases negative with
    | false => exact .inr ⟨nofun, by rw [chunks, hshape]⟩
    | true =>
      refine .inl ⟨mantissa, exponent, rfl, ?_, by rw [chunks, hshape]⟩
      rw [Number.shape_neg, hshape]
      rfl

theorem chunks_infixOp : (apply (.infixOp op) [left, right]).chunks =
    left.part (wrapsLeft op left) ++ joint op :: right.part (wrapsRight op right) := rfl

theorem chunks_conditional : (apply (.infixOp "?:") [condition, yes, no]).chunks =
    condition.part (wrapsLeft "?" condition) ++ branch yes :: no.part (wrapsRight "?" no) := rfl

theorem chunks_postfixOp : (apply (.postfixOp op) [arg]).chunks =
    arg.part (wrapsPostfixed arg) ++ [suffix op] := rfl

@[simp] theorem part_true (t : Tree Float) : t.part true = [operand t true] := rfl

@[simp] theorem part_false (t : Tree Float) : t.part false = t.chunks := rfl

theorem chunks_ne_nil (t : Tree Float) : t.chunks ≠ [] := by
  unfold chunks
  split
  · split <;> exact List.cons_ne_nil _ _
  · exact List.append_ne_nil_of_right_ne_nil _ (List.cons_ne_nil _ _)
  · exact List.append_ne_nil_of_right_ne_nil _ (List.cons_ne_nil _ _)
  · exact List.cons_ne_nil _ _
  · exact List.append_ne_nil_of_right_ne_nil _ (List.cons_ne_nil _ _)
  · exact List.cons_ne_nil _ _

theorem part_ne_nil (wrap : Bool) (t : Tree Float) : t.part wrap ≠ [] := by
  cases wrap with
  | true => exact List.cons_ne_nil _ _
  | false => exact chunks_ne_nil t

/-- A part before a postfix operator is an operand, maybe with an operator before it. -/
theorem part_postfixed (t : Tree Float) :
    (∃ tree wrap, t.part (wrapsPostfixed t) = [operand tree wrap]) ∨
      ∃ op tree wrap, t.part (wrapsPostfixed t) = [sign op, operand tree wrap] := by
  cases hwrap : wrapsPostfixed t with
  | true => exact .inl ⟨t, true, rfl⟩
  | false =>
    rw [part_false]
    unfold wrapsPostfixed at hwrap
    split at hwrap
    · cases hwrap
    · cases hwrap
    · rename_i hinfixOp hpostfixOp
      unfold chunks
      split
      · split
        · exact .inr ⟨_, _, _, rfl⟩
        · exact .inl ⟨_, _, rfl⟩
      · exact (hinfixOp _ _ rfl).elim
      · exact (hinfixOp _ _ rfl).elim
      · exact .inr ⟨_, _, _, rfl⟩
      · exact (hpostfixOp _ _ rfl).elim
      · exact .inl ⟨_, _, rfl⟩

/-- A numeral starts with a digit, which no operator takes. -/
theorem endsBefore_numeral {value : Float} {mantissa : Nat} {exponent : Int}
    (h : Number.shape value = .finite false mantissa exponent) :
    (literal value).text.toList.head?.all (endsBefore "-") = true := by
  have hdenotes := denotes_literal h
  generalize (literal value).text.toList = chars at hdenotes
  obtain ⟨whole, places, hne, hwhole, -⟩ := hdenotes
  cases whole with
  | nil => exact absurd rfl hne
  | cons c whole =>
    have hc : c.isAlphanum = true := by
      rw [Char.isAlphanum, hwhole c List.mem_cons_self, Bool.or_true]
    simp [endsBefore, Charset.isOperator_of_isAlphanum hc]

theorem Readable.row_apart {t : Tree Float} (h : Readable t) : Row.apart t.chunks = true := by
  cases h with
  | @literal value _ =>
    obtain ⟨mantissa, exponent, -, hneg, hchunks⟩ | ⟨-, hchunks⟩ := chunks_literal value
    · rw [hchunks]
      have hminus : isName "-" = false := rfl
      have hadjoins : (sign "-").adjoins (operand (Tree.literal (-value)) false) = true := by
        simp [adjoins, hminus, shown, endsBefore_numeral hneg]
      simp [Row.apart_iff, Row.patient, Row.quiet, asks, hadjoins]
    · rw [hchunks]
      exact Row.apart_operand _ _
  | var _ => exact Row.apart_operand _ _
  | function _ _ _ => exact Row.apart_operand _ _
  | array _ _ => exact Row.apart_operand _ _
  | prefixOp _ apart _ => exact (Bool.and_eq_true_iff.1 apart).1
  | postfixOp _ apart _ => exact (Bool.and_eq_true_iff.1 apart).1
  | infixOp _ apart _ _ => exact (Bool.and_eq_true_iff.1 apart).1
  | conditional apart _ _ _ => exact (Bool.and_eq_true_iff.1 apart).1

theorem mem_part {t : Tree Float} {c : Chunk} (h : c ∈ t.part wrap) :
    c = operand t true ∨ c ∈ t.chunks := by
  cases wrap with
  | false => exact .inr h
  | true => exact .inl (List.mem_singleton.1 h)

theorem opens_part {t : Tree Float} (h : ∀ c ∈ t.chunks.head?, c.opens = true) (wrap : Bool) :
    ∀ c ∈ (t.part wrap).head?, c.opens = true := by
  cases wrap with
  | false => exact h
  | true =>
    rintro c ⟨⟩
    rfl

theorem closes_part {t : Tree Float} (h : ∀ c ∈ t.chunks.getLast?, c.closes = true)
    (wrap : Bool) : ∀ c ∈ (t.part wrap).getLast?, c.closes = true := by
  cases wrap with
  | false => exact h
  | true =>
    rintro c ⟨⟩
    rfl

/-- A row starts with an operand or an operator written to one. -/
theorem Readable.opens {t : Tree Float} (h : Readable t) :
    ∀ c ∈ t.chunks.head?, c.opens = true := by
  induction h with
  | @literal value _ =>
    obtain ⟨-, -, -, -, hchunks⟩ | ⟨-, hchunks⟩ := chunks_literal value <;>
    · rw [hchunks]
      rintro c ⟨⟩
      rfl
  | postfixOp _ _ _ ih =>
    rw [chunks_postfixOp, List.head?_append_of_ne_nil _ (part_ne_nil _ _)]
    exact opens_part ih _
  | infixOp _ _ _ _ ihl _ =>
    rw [chunks_infixOp, List.head?_append_of_ne_nil _ (part_ne_nil _ _)]
    exact opens_part ihl _
  | conditional _ _ _ _ ihc _ _ =>
    rw [chunks_conditional, List.head?_append_of_ne_nil _ (part_ne_nil _ _)]
    exact opens_part ihc _
  | _ =>
    rintro c ⟨⟩
    rfl

/-- A row ends with an operand or a postfix operator. -/
theorem Readable.closes {t : Tree Float} (h : Readable t) :
    ∀ c ∈ t.chunks.getLast?, c.closes = true := by
  induction h with
  | @literal value _ =>
    obtain ⟨-, -, -, -, hchunks⟩ | ⟨-, hchunks⟩ := chunks_literal value <;>
    · rw [hchunks]
      rintro c ⟨⟩
      rfl
  | postfixOp _ _ _ _ =>
    rw [chunks_postfixOp, List.getLast?_concat]
    rintro c ⟨⟩
    rfl
  | infixOp _ _ _ _ _ ihr =>
    rw [chunks_infixOp, List.getLast?_append_of_ne_nil _ (List.cons_ne_nil _ _),
      List.getLast?_cons_of_ne_nil (part_ne_nil _ _)]
    exact closes_part ihr _
  | conditional _ _ _ _ _ _ ihn =>
    rw [chunks_conditional, List.getLast?_append_of_ne_nil _ (List.cons_ne_nil _ _),
      List.getLast?_cons_of_ne_nil (part_ne_nil _ _)]
    exact closes_part ihn _
  | _ =>
    rintro c ⟨⟩
    rfl

/-- A part without an operator at its top is an operand. -/
theorem Readable.chunks_operand {t : Tree Float} (h : Readable t)
    (hwrap : wrapsPrefixed t = false) : t.chunks = [operand t false] := by
  cases h with
  | @literal value _ =>
    obtain ⟨mantissa, exponent, hshape, -, -⟩ | ⟨-, hchunks⟩ := chunks_literal value
    · simp [wrapsPrefixed, Number.isFinite_of_shape hshape, Number.isNegative_of_shape hshape]
        at hwrap
    · exact hchunks
  | var _ => rfl
  | function _ _ _ => rfl
  | array _ _ => rfl
  | _ => cases hwrap

theorem shown_part (wrap : Bool) {t : Tree Float} (h : t.text.toList = Row.text t.chunks) :
    shown wrap t = Row.text (t.part wrap) := by
  cases wrap with
  | false => exact h
  | true => exact (List.append_nil _).symm

end

theorem Readable.text_chunks {t : Tree Float} (h : Readable t) :
    t.text.toList = Row.text t.chunks := by
  induction h with
  | @literal value sign =>
    obtain ⟨mantissa, exponent, hshape, -, hchunks⟩ | ⟨-, hchunks⟩ := chunks_literal value
    · rw [hchunks, text_negative (Number.mantissa_pos sign hshape) hshape]
      have hminus : isName "-" = false := rfl
      simp [Row.text, Chunk.text, shown, gap, hminus]
    · rw [hchunks]
      exact (List.append_nil _).symm
  | var _ => exact (List.append_nil _).symm
  | function _ _ _ _ => exact (List.append_nil _).symm
  | array _ _ _ => exact (List.append_nil _).symm
  | prefixOp _ _ _ _ =>
    rw [text_prefixOp]
    simp [Row.text, chunks, Chunk.text]
  | postfixOp _ _ _ ih =>
    rw [text_postfixOp, shown_part _ ih, chunks_postfixOp]
    simp [Row.text, Chunk.text]
  | @infixOp op left right _ _ _ _ ihl ihr =>
    by_cases hop : op = ","
    · subst hop
      rw [text_comma, shown_part _ ihl, shown_part _ ihr, chunks_infixOp]
      simp [Row.text, Chunk.text]
    · rw [text_infixOp hop, shown_part _ ihl, shown_part _ ihr, chunks_infixOp]
      simp [Row.text, Chunk.text, hop]
  | conditional _ _ _ _ ihc _ ihn =>
    rw [text_conditional, shown_part _ ihc, shown_part _ ihn, chunks_conditional]
    simp [Row.text, Chunk.text]

theorem listing_singleton (arg : Tree Float) : listing [arg] = arg.chunks :=
  List.intercalate_singleton

theorem listing_cons_cons (arg other : Tree Float) (args : List (Tree Float)) :
    listing (arg :: other :: args) = arg.chunks ++ joint "," :: listing (other :: args) := by
  simp [listing, List.intercalate_cons_cons]

theorem listing_ne_nil {args : List (Tree Float)} (h : args ≠ []) : listing args ≠ [] := by
  cases args with
  | nil => exact absurd rfl h
  | cons arg args =>
    cases args with
    | nil =>
      rw [listing_singleton]
      exact chunks_ne_nil arg
    | cons other args =>
      rw [listing_cons_cons]
      exact List.append_ne_nil_of_left_ne_nil (chunks_ne_nil arg) _

theorem head?_listing (arg : Tree Float) (args : List (Tree Float)) :
    (listing (arg :: args)).head? = arg.chunks.head? := by
  cases args with
  | nil => rw [listing_singleton]
  | cons other args => rw [listing_cons_cons, List.head?_append_of_ne_nil _ (chunks_ne_nil arg)]

theorem mem_listing {args : List (Tree Float)} {c : Chunk} (h : c ∈ listing args) :
    c = joint "," ∨ ∃ arg ∈ args, c ∈ arg.chunks := by
  induction args with
  | nil => cases h
  | cons arg args ih =>
    cases args with
    | nil =>
      rw [listing_singleton] at h
      exact .inr ⟨arg, List.mem_cons_self, h⟩
    | cons other args =>
      rw [listing_cons_cons, List.mem_append, List.mem_cons] at h
      rcases h with h | h | h
      · exact .inr ⟨arg, List.mem_cons_self, h⟩
      · exact .inl h
      · exact (ih h).imp_right fun ⟨arg, harg, hc⟩ => ⟨arg, List.mem_cons_of_mem _ harg, hc⟩

theorem text_listing {args : List (Tree Float)} (h : ∀ arg ∈ args, Readable arg) :
    Row.text (listing args) = listed args := by
  induction args with
  | nil => rfl
  | cons arg args ih =>
    have harg := (h arg List.mem_cons_self).text_chunks
    cases args with
    | nil => rw [listing_singleton, listed_singleton, harg]
    | cons other args =>
      have hcomma : (joint ",").text = [',', ' '] := rfl
      rw [listing_cons_cons, listed_cons_cons, harg,
        ← ih fun arg harg => h arg (List.mem_cons_of_mem _ harg), Row.text, List.flatMap_append,
        List.flatMap_cons, hcomma]
      rfl

end Tree
end Formula
