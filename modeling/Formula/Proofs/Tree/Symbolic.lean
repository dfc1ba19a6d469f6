import Formula.Stack
import Formula.Proofs.Number.Text
import Formula.Proofs.Token.Classes

/-! Trees whose operators are symbols in ASCII, and how trees are written. Main statements: the text
of a tree with the parentheses that the operators around an argument ask for, told by which of two
operators groups first. -/
namespace Formula

namespace Token

/-- A name is written as it is. -/
theorem written_of_isName {name : String} (h : isName name = true) (symbol : Symbol)
    (hs : symbol.name = name) : symbol.written = name := by
  simp [Symbol.written, hs, h]

theorem gap_of_isName {op : String} (h : isName op = false) : Tree.gap op = "" := by
  rw [Tree.gap, h]
  rfl

end Token

namespace Precedence

theorem eq_of_rank_eq {a b : Precedence} (h : a.rank = b.rank) : a = b := by
  cases a <;> cases b <;> first | rfl | cases h

/-- No other operator is as loose as a comma. -/
theorem eq_comma {op : String} (h : of op = .comma) : op = "," := by
  have hclasses : ∀ entry ∈ classes, entry.1 = .comma → entry.2 = [","] := by decide
  rw [of] at h
  cases hfind : classes.find? fun entry => entry.2.contains op with
  | none =>
    rw [hfind] at h
    cases h
  | some entry =>
    rw [hfind] at h
    have hops := hclasses entry (List.mem_of_find?_eq_some hfind) h
    have hmem : entry.2.contains op = true := by simpa using List.find?_some hfind
    rw [hops] at hmem
    exact List.mem_singleton.1 (List.contains_iff_mem.1 hmem)

/-- What stands on the left is put in parentheses if it is looser, or as loose and grouped to the
right. -/
theorem not_bindsFirst (own op : String) :
    (!bindsFirst own op) = (decide ((of own).rank < (of op).rank) ||
      (of own == of op && (of op).isRightAssociative)) := by
  unfold bindsFirst
  dsimp only
  by_cases heq : of own = of op
  · rw [heq, beq_self_eq_true, Bool.true_and, Bool.true_and, decide_eq_false (Nat.lt_irrefl _),
      Bool.false_or, Bool.false_or, Bool.not_not]
  · have hne : (of own == of op) = false := beq_eq_false_iff_ne.2 heq
    have hrank : (of own).rank ≠ (of op).rank := fun h => heq (eq_of_rank_eq h)
    rw [hne, Bool.false_and, Bool.false_and, Bool.or_false, Bool.or_false, ← decide_not]
    exact decide_eq_decide.2 (by omega)

/-- What waits for an operator waits for one that comes before that operator, too. -/
theorem not_bindsFirst_trans {before own op : String} (hbefore : bindsFirst before op = false)
    (hop : bindsFirst own op = true) : bindsFirst before own = false := by
  simp only [bindsFirst, Bool.or_eq_false_iff, Bool.or_eq_true, Bool.and_eq_false_iff,
    Bool.and_eq_true, decide_eq_false_iff_not, decide_eq_true_eq, beq_eq_false_iff_ne, beq_iff_eq]
    at hbefore hop ⊢
  obtain ⟨hrank, hassoc⟩ := hbefore
  rcases hop with hlt | ⟨heq, _⟩
  · refine ⟨by omega, .inl ?_⟩
    intro h
    rw [h] at hrank
    exact hrank hlt
  · rw [heq]
    exact ⟨hrank, hassoc⟩

/-- What an operator waits for comes before all that the operator itself comes before. -/
theorem bindsFirst_trans {op own next : String} (hnext : bindsFirst op next = true)
    (hown : bindsFirst op own = false) : bindsFirst own next = true := by
  simp only [bindsFirst, Bool.or_eq_false_iff, Bool.or_eq_true, Bool.and_eq_false_iff,
    Bool.and_eq_true, decide_eq_false_iff_not, decide_eq_true_eq, beq_eq_false_iff_ne, beq_iff_eq]
    at hnext hown ⊢
  obtain ⟨hrank, hassoc⟩ := hown
  by_cases heq : of op = of own
  · rw [← heq]
    exact hnext
  · have hne : (of op).rank ≠ (of own).rank := fun h => heq (eq_of_rank_eq h)
    rcases hnext with hlt | ⟨hnext, _⟩
    · exact .inl (by omega)
    · rw [← hnext]
      exact .inl (by omega)

end Precedence

namespace Tree

open Token

/-- Trees of any size whose operators are symbols and whose other names are identifiers. A literal
is any number but negative zero. -/
inductive Symbolic : Tree Float → Prop where
  | literal {value : Float} (sign : value ≠ -0) : Symbolic (literal value)
  | var {name : String} (identifier : IsIdentifier name) : Symbolic (named name)
  | function {name : String} {args : List (Tree Float)} (identifier : IsIdentifier name)
    (args_symbolic : ∀ arg ∈ args, Symbolic arg) :
    Symbolic (apply (.function name args.length) args)
  | array {name : String} {arg : Tree Float} (identifier : IsIdentifier name)
    (arg_symbolic : Symbolic arg) : Symbolic (apply (.array name) [arg])
  | prefixOp {op : String} {arg : Tree Float} (run : IsRun op) (arg_symbolic : Symbolic arg) :
    Symbolic (apply (.prefixOp op) [arg])
  | postfixOp {op : String} {arg : Tree Float} (run : IsRun op) (arg_symbolic : Symbolic arg) :
    Symbolic (apply (.postfixOp op) [arg])
  | infixOp {op : String} {left right : Tree Float} (operator : IsInfix op)
    (left_symbolic : Symbolic left) (right_symbolic : Symbolic right) :
    Symbolic (apply (.infixOp op) [left, right])
  | conditional {condition yes no : Tree Float} (condition_symbolic : Symbolic condition)
    (yes_symbolic : Symbolic yes) (no_symbolic : Symbolic no) :
    Symbolic (apply (.infixOp "?:") [condition, yes, no])

/-! ### What reading makes of a tree -/

def negated (value : Float) : Tree Float := apply (.prefixOp "-") [literal value]

/-- A number that has no numeral is a quotient by zero. -/
def quotient (numerator : Tree Float) : Tree Float := apply (.infixOp "/") [numerator, literal 0]

def normalLiteral (value : Float) : Tree Float :=
  match Number.shape value with
  | .nan => quotient (literal 0)
  | .infinite negative => quotient (if negative then negated 1 else literal 1)
  | .finite negative .. => if negative then negated (-value) else literal value

mutual

/-- The tree with its literals as they are written: signs are operators, and quotients stand for
numbers that are not finite. -/
def normal : Tree Float → Tree Float
  | literal value => normalLiteral value
  | apply symbol args => apply symbol (normalAll args)
  | malformed error source => malformed error source

def normalAll : List (Tree Float) → List (Tree Float)
  | [] => []
  | arg :: args => normal arg :: normalAll args

end

@[simp] theorem normalAll_eq_map (args : List (Tree Float)) : normalAll args = args.map normal := by
  induction args with
  | nil => rfl
  | cons arg args ih => rw [normalAll, ih, List.map_cons]

@[simp] theorem normal_apply (symbol : Symbol) (args : List (Tree Float)) :
    (apply symbol args).normal = apply symbol (args.map normal) := by
  rw [normal, normalAll_eq_map]

theorem normal_named (name : String) : (named name).normal = named name := by
  rw [named, normal_apply, List.map_nil]

/-! ### Parentheses -/

/-- The operator that joins the parts of the text outside any parentheses. -/
def top? : Tree Float → Option String
  | apply (.infixOp op) [_, _] => some op
  | apply (.infixOp op) [_, _, _] => if op = "?:" then some "?" else none
  | _ => none

def wrapsLeft (op : String) (t : Tree Float) : Bool :=
  t.top?.any fun own => !Precedence.bindsFirst own op

def wrapsRight (op : String) (t : Tree Float) : Bool := t.top?.any (Precedence.bindsFirst op)

def wrapsPrefixed : Tree Float → Bool
  | apply symbol _ => symbol.isOperator
  | literal value => Number.isFinite value && Number.isNegative value
  | malformed .. => false

def wrapsPostfixed : Tree Float → Bool
  | apply (.infixOp _) _ | apply (.postfixOp _) _ => true
  | _ => false

/-- The text of a part, in parentheses if it has to be. -/
def shown (wrap : Bool) (t : Tree Float) : List Char :=
  if wrap then '(' :: (t.text.toList ++ [')']) else t.text.toList

theorem precedence?_eq (t : Tree Float) (text : String) :
    (Piece.mk t text).precedence? = t.top?.map Precedence.of := by
  cases t with
  | literal => rfl
  | malformed => rfl
  | apply symbol args =>
    cases symbol with
    | infixOp op =>
      rcases args with _ | ⟨a, _ | ⟨b, _ | ⟨c, _ | ⟨d, args⟩⟩⟩⟩
      · rfl
      · rfl
      · rfl
      · by_cases hop : op = "?:"
        · subst hop
          rfl
        · simp [Piece.precedence?, top?, isTernary, hop]
      · rfl
    | _ => rfl

theorem wrapped_eq (t : Tree Float) (wrap : Bool) :
    ((Piece.mk t t.text).wrapped wrap).toList = shown wrap t := by
  unfold Piece.wrapped shown
  split <;> simp

theorem wrapped_left (op : String) (t : Tree Float) (text : String) :
    ((Piece.mk t text).looserThan (.of op) ||
      ((Piece.mk t text).asLooseAs (.of op) && (Precedence.of op).isRightAssociative)) =
    wrapsLeft op t := by
  rw [Piece.looserThan, Piece.asLooseAs, precedence?_eq, wrapsLeft]
  cases t.top? with
  | none => rfl
  | some own => exact (Precedence.not_bindsFirst own op).symm

theorem wrapped_right (op : String) (t : Tree Float) (text : String) :
    ((Piece.mk t text).looserThan (.of op) ||
      ((Piece.mk t text).asLooseAs (.of op) && !(Precedence.of op).isRightAssociative)) =
    wrapsRight op t := by
  rw [Piece.looserThan, Piece.asLooseAs, precedence?_eq, wrapsRight]
  cases t.top? with
  | none => rfl
  | some own =>
    have hcomm : (Precedence.of own == Precedence.of op) =
        (Precedence.of op == Precedence.of own) := Bool.beq_comm
    rw [Option.map_some, Option.any_some, Option.any_some, Option.any_some, hcomm]
    rfl

/-! ### The text of a symbolic tree -/

/-- Arguments between the brackets of a call or a subscript. -/
def listed (args : List (Tree Float)) : List Char :=
  [',', ' '].intercalate (args.map fun arg => arg.text.toList)

theorem listed_singleton (arg : Tree Float) : listed [arg] = arg.text.toList :=
  List.intercalate_singleton

theorem listed_cons_cons (arg other : Tree Float) (args : List (Tree Float)) :
    listed (arg :: other :: args) = arg.text.toList ++ ',' :: ' ' :: listed (other :: args) := by
  simp [listed, List.intercalate_cons_cons]

theorem pieces_eq_map (args : List (Tree Float)) :
    pieces args = args.map fun arg => ⟨arg, arg.text⟩ := by
  induction args with
  | nil => rfl
  | cons arg args ih => rw [pieces, ih, List.map_cons]

theorem commaSeparated_pieces (args : List (Tree Float)) :
    (commaSeparated (pieces args)).toList = listed args := by
  have hcomma : (", " : String).toList = [',', ' '] := rfl
  rw [commaSeparated, pieces_eq_map, String.toList_intercalate, hcomma, listed, List.map_map,
    List.map_map]
  rfl

section
variable {name op : String} {left right condition yes no arg : Tree Float}

theorem text_named (h : isName name = true) : (named name).text = name :=
  written_of_isName h (.var name) rfl

theorem text_function (h : isName name = true) (args : List (Tree Float)) :
    (apply (.function name args.length) args).text.toList =
      name.toList ++ '(' :: (listed args ++ [')']) := by
  have hname : (Symbol.function name args.length).written = name := written_of_isName h _ rfl
  have hopen : ("(" : String).toList = ['('] := rfl
  have hclose : (")" : String).toList = [')'] := rfl
  have htext : (apply (.function name args.length) args).text =
      (Symbol.function name args.length).written ++ "(" ++ commaSeparated (pieces args) ++ ")" :=
    rfl
  rw [htext, hname, String.toList_append, String.toList_append, String.toList_append,
    commaSeparated_pieces, hopen, hclose]
  simp

theorem text_array (h : isName name = true) :
    (apply (.array name) [arg]).text.toList = name.toList ++ '[' :: (arg.text.toList ++ [']']) := by
  have hname : (Symbol.array name).written = name := written_of_isName h _ rfl
  have hopen : ("[" : String).toList = ['['] := rfl
  have hclose : ("]" : String).toList = [']'] := rfl
  rw [text, layout, hname, String.toList_append, String.toList_append, String.toList_append,
    commaSeparated_pieces, hopen, hclose, listed_singleton]
  simp

theorem text_prefixOp :
    (apply (.prefixOp op) [arg]).text.toList =
      op.toList ++ ((gap op).toList ++ shown (wrapsPrefixed arg) arg) := by
  have hwrap : (Piece.mk arg arg.text).asPrefixed =
      (Piece.mk arg arg.text).wrapped (wrapsPrefixed arg) := by
    cases arg <;> rfl
  rw [text, pieces, pieces, layout, hwrap, String.toList_append, String.toList_append, wrapped_eq,
    List.append_assoc]

theorem text_postfixOp :
    (apply (.postfixOp op) [arg]).text.toList =
      shown (wrapsPostfixed arg) arg ++ ((gap op).toList ++ op.toList) := by
  have hwrap : (Piece.mk arg arg.text).asPostfixed =
      (Piece.mk arg arg.text).wrapped (wrapsPostfixed arg) := by
    cases arg with
    | apply symbol args => cases symbol <;> rfl
    | _ => rfl
  rw [text, pieces, pieces, layout, hwrap, String.toList_append, String.toList_append, wrapped_eq,
    List.append_assoc]

theorem text_infixOp (h : op ≠ ",") :
    (apply (.infixOp op) [left, right]).text.toList =
      shown (wrapsLeft op left) left ++
        ' ' :: (op.toList ++ ' ' :: shown (wrapsRight op right) right) := by
  have hblank : (" " : String).toList = [' '] := rfl
  rw [text, pieces, pieces, pieces, layout, infixText, wrapped_left, wrapped_right,
    if_neg h, String.toList_append, String.toList_append, String.toList_append,
    String.toList_append, wrapped_eq, wrapped_eq, hblank]
  simp

theorem text_comma :
    (apply (.infixOp ",") [left, right]).text.toList =
      shown (wrapsLeft "," left) left ++ ',' :: ' ' :: shown (wrapsRight "," right) right := by
  have hcomma : (", " : String).toList = [',', ' '] := rfl
  rw [text, pieces, pieces, pieces, layout, infixText, wrapped_left, wrapped_right, if_pos rfl,
    String.toList_append, String.toList_append, wrapped_eq, wrapped_eq, hcomma]
  simp

theorem text_conditional :
    (apply (.infixOp "?:") [condition, yes, no]).text.toList =
      shown (wrapsLeft "?" condition) condition ++
        ' ' :: '?' :: ' ' :: (yes.text.toList ++
          ' ' :: ':' :: ' ' :: shown (wrapsRight "?" no) no) := by
  have hmark : (" ? " : String).toList = [' ', '?', ' '] := rfl
  have hcolon : (" : " : String).toList = [' ', ':', ' '] := rfl
  have hleft := wrapped_left "?" condition condition.text
  have hright := wrapped_right "?" no no.text
  have hternary : Precedence.of "?" = .ternary := by decide
  rw [hternary] at hleft hright
  have htrue : Precedence.ternary.isRightAssociative = true := rfl
  rw [htrue, Bool.and_true] at hleft
  rw [htrue, Bool.not_true, Bool.and_false, Bool.or_false] at hright
  rw [text, pieces, pieces, pieces, pieces, layout, if_pos rfl, ternaryText, hleft, hright,
    String.toList_append, String.toList_append, String.toList_append, String.toList_append,
    wrapped_eq, wrapped_eq, hmark, hcolon]
  simp

end

/-! ### Literals -/

section
variable {value : Float} {negative : Bool} {mantissa : Nat} {exponent : Int}

/-- A number that has no numeral is written as a quotient in parentheses. -/
theorem text_nan (h : Number.shape value = .nan) :
    (literal value).text.toList = shown true (quotient (literal 0)) := by
  have hquotient : (quotient (literal 0)).text = "0 / 0" := by decide +kernel
  rw [text, literalText, h, shown, hquotient, if_pos rfl]
  dsimp only
  rfl

theorem text_infinite (h : Number.shape value = .infinite negative) :
    (literal value).text.toList = shown true (quotient (literal (if negative then -1 else 1))) := by
  have hpositive : (quotient (literal 1)).text = "1 / 0" := by decide +kernel
  have hnegative : (quotient (literal (-1))).text = "-1 / 0" := by decide +kernel
  rw [text, literalText, h, shown, if_pos rfl]
  dsimp only
  cases negative with
  | false =>
    rw [if_neg Bool.false_ne_true, if_neg Bool.false_ne_true, hpositive]
    rfl
  | true =>
    rw [if_pos rfl, if_pos rfl, hnegative]
    rfl

theorem text_negative (hm : 0 < mantissa)
    (h : Number.shape value = .finite true mantissa exponent) :
    (literal value).text.toList = '-' :: (literal (-value)).text.toList := by
  have hneg : Number.shape (-value) = .finite false mantissa exponent := by
    rw [Number.shape_neg, h]
    rfl
  have hminus : ("-" : String).toList = ['-'] := rfl
  rw [text, text, literalText, literalText, h, hneg]
  dsimp only
  rw [Number.format_negative hm h, String.toList_append, hminus]
  rfl

theorem denotes_literal (h : Number.shape value = .finite false mantissa exponent) :
    Number.Denotes (literal value).text.toList value := by
  rw [text, literalText, h]
  exact Number.denotes_format h

theorem normal_finite (h : Number.shape value = .finite false mantissa exponent) :
    (literal value).normal = literal value := by
  rw [normal, normalLiteral, h]
  rfl

theorem normal_negative (h : Number.shape value = .finite true mantissa exponent) :
    (literal value).normal = negated (-value) := by
  rw [normal, normalLiteral, h]
  rfl

theorem normal_quotient (numerator : Tree Float) :
    (quotient numerator).normal = quotient numerator.normal := by
  rw [quotient, normal_apply, List.map_cons, List.map_cons, List.map_nil,
    normal_finite Number.shape_zero]
  rfl

theorem normal_nan (h : Number.shape value = .nan) :
    (literal value).normal = (quotient (literal 0)).normal := by
  rw [normal_quotient, normal_finite Number.shape_zero, normal, normalLiteral, h]

theorem normal_infinite (h : Number.shape value = .infinite negative) :
    (literal value).normal = (quotient (literal (if negative then -1 else 1))).normal := by
  have hdouble : -(-1 : Float) = 1 := by decide +kernel
  rw [normal_quotient, normal, normalLiteral, h]
  dsimp only
  cases negative with
  | false =>
    rw [if_neg Bool.false_ne_true, if_neg Bool.false_ne_true, normal_finite Number.shape_one]
  | true => rw [if_pos rfl, if_pos rfl, normal_negative Number.shape_neg_one, hdouble]

end
end Tree
end Formula
