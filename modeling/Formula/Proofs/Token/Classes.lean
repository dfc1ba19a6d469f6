import Formula.Token
import Mathlib

/-! Classes of operators and of names, in ASCII and beyond. Main statements: what the first
character of each can be, which is all that tells where the token before it ends. -/
namespace Formula

namespace Charset

variable {c : Char}

theorem Ranges.contains_eq_false {ranges : Ranges}
    (h : ∀ range ∈ ranges, c.toNat < range.1 ∨ range.2 < c.toNat) : ranges.contains c = false := by
  apply List.any_eq_false.2
  intro range hrange hc
  rw [Bool.and_eq_true, decide_eq_true_eq, decide_eq_true_eq] at hc
  have := h range hrange
  omega

/-- No range of operator characters reaches into the ASCII letters and digits. -/
theorem isOperator_of_isAlphanum (h : c.isAlphanum = true) : isOperator c = false := by
  have hranges : ∀ range ∈ operatorRanges, range.2 < 48 ∨ 57 < range.1 ∧ range.2 < 65 ∨
      90 < range.1 ∧ range.2 < 97 ∨ 122 < range.1 := by decide
  have hc : 48 ≤ c.toNat ∧ c.toNat ≤ 57 ∨ 65 ≤ c.toNat ∧ c.toNat ≤ 90 ∨
      97 ≤ c.toNat ∧ c.toNat ≤ 122 := by
    simp only [Char.isAlphanum, Char.isAlpha, Char.isUpper, Char.isLower, Char.isDigit,
      Bool.or_eq_true, Bool.and_eq_true, decide_eq_true_eq] at h
    rcases h with (h | h) | h
    · exact .inr (.inl h)
    · exact .inr (.inr h)
    · exact .inl h
  apply Ranges.contains_eq_false
  intro range hrange
  rcases hranges range hrange with h | h | h | h <;> omega

theorem isNameHead_of_isDigit (h : c.isDigit = true) : isNameHead c = false := by
  have hranges : ∀ range ∈ nameHeads, range.2 < 48 ∨ 57 < range.1 := by decide
  have hc : 48 ≤ c.toNat ∧ c.toNat ≤ 57 := by
    rw [Char.isDigit, Bool.and_eq_true, decide_eq_true_eq, decide_eq_true_eq] at h
    exact h
  apply Ranges.contains_eq_false
  intro range hrange
  rcases hranges range hrange with h | h <;> omega

theorem isNameTail_of_isDigit (h : c.isDigit = true) : isNameTail c = true := by
  rw [isNameTail, h, Bool.or_true, Bool.true_or]

theorem isDigit_of_isOperator (h : isOperator c = true) : c.isDigit = false := by
  cases hc : c.isDigit with
  | false => rfl
  | true =>
    have halphanum : c.isAlphanum = true := by rw [Char.isAlphanum, hc, Bool.or_true]
    rw [isOperator_of_isAlphanum halphanum] at h
    cases h

theorem not_blank {p : Char → Bool} (hp : [' ', '\t', '\n', '\r'].all (fun c => !p c) = true)
    (h : p c = true) : isBlank c = false := by
  cases hc : isBlank c with
  | false => rfl
  | true =>
    have hmem : c ∈ [' ', '\t', '\n', '\r'] := by simpa [isBlank, or_assoc] using hc
    have hnot := List.all_eq_true.1 hp c hmem
    rw [h] at hnot
    cases hnot

theorem isBlank_of_isOperator (h : isOperator c = true) : isBlank c = false :=
  not_blank (by decide) h

theorem isBlank_of_isNameHead (h : isNameHead c = true) : isBlank c = false :=
  not_blank (by decide) h

end Charset

namespace Token

open Charset

/-- The characters of operators other than the dot, the colon and the question mark. -/
def symbolChars : List Char := ['/', '=', '-', '+', '!', '*', '%', '<', '>', '&', '|', '^', '~']

/-- The marks that may end a part of a formula. -/
def closers : List Char := [')', ']', ',', ':']

def IsRun (op : String) : Prop := op.toList ≠ [] ∧ ∀ c ∈ op.toList, c ∈ symbolChars

instance : DecidablePred IsRun := fun op =>
  haveI : Decidable (∀ c ∈ op.toList, c ∈ symbolChars) := List.decidableBAll _ _
  inferInstanceAs (Decidable (_ ∧ _))

def IsInfix (op : String) : Prop := IsRun op ∨ op ∈ ["??", "?:", ":=", "..", "...", "..<"]

instance : DecidablePred IsInfix := fun _ => inferInstanceAs (Decidable (_ ∨ _))

/-- A bare name that starts with an ASCII letter. -/
def IsIdentifier (name : String) : Prop :=
  isName name = true ∧ name.toList.head?.any Char.isAlpha = true

instance : DecidablePred IsIdentifier := fun _ => inferInstanceAs (Decidable (_ ∧ _))

/-- An operator of any characters that scans as one. -/
def IsOperatorToken (op : String) : Prop := isOperatorName op = true ∧ name? op.toList = none

instance : DecidablePred IsOperatorToken := fun _ => inferInstanceAs (Decidable (_ ∧ _))

/-- Whether an operator ends before the character. One that starts with a dot takes more dots, and a
dot alone is a part of the name after it. -/
def endsBefore (op : String) (c : Char) : Bool :=
  !isOperator c && (op.toList.head? != some '.' || c != '.' && (op != "." || !isNameTail c))

/-- The colons at which a branch may end. -/
def isColon (op : String) : Bool := [":", ":-", ":+", ":!"].contains op

/-- An operator of any characters that is neither a mark of a conditional nor a colon with a sign
written to it. -/
def IsOperator (op : String) : Prop :=
  isOperatorName op = true ∧ name? op.toList = none ∧ op ∉ ["?", ":", ":-", ":+", ":!"]

instance : DecidablePred IsOperator := fun _ => inferInstanceAs (Decidable (_ ∧ _ ∧ _))

/-- An operator that may be written to its operand. -/
def IsSymbol (op : String) : Prop :=
  IsOperator op ∧ op.toList.head?.all (fun c => !isNameTail c && c != '.' && c != ':') = true

instance : DecidablePred IsSymbol := fun _ => inferInstanceAs (Decidable (_ ∧ _))

/-- A bare name to which an operator may be written. -/
def IsWord (name : String) : Prop :=
  isName name = true ∧ name.toList.head?.all (fun c => !isOperator c) = true

instance : DecidablePred IsWord := fun _ => inferInstanceAs (Decidable (_ ∧ _))

variable {op name : String} {c : Char} {tail k : List Char}

/-! ### Operators -/

/-- The two forms of an operator, by its first character. -/
theorem cons_of_isOperatorName (h : isOperatorName op = true) : ∃ c tail, op.toList = c :: tail ∧
    (c = '.' ∧ tail.all (fun d => d == '.' || isOperator d) = true ∨
      c ≠ '.' ∧ isOperator c = true ∧ tail.all isOperator = true) := by
  have hname : operator? op.toList = some op.toList := of_decide_eq_true h
  cases hop : op.toList with
  | nil =>
    rw [hop] at hname
    cases hname
  | cons c tail =>
    refine ⟨c, tail, rfl, ?_⟩
    rw [hop, operator?] at hname
    by_cases hc : (c == '.') = true
    · rw [if_pos hc, Option.some.injEq, List.cons.injEq] at hname
      refine .inl ⟨beq_iff_eq.1 hc, ?_⟩
      rw [← hname.2]
      exact List.all_takeWhile
    · rw [if_neg hc, Option.ite_none_right_eq_some, Option.some.injEq, List.cons.injEq] at hname
      refine .inr ⟨fun heq => hc (beq_iff_eq.2 heq), hname.1, ?_⟩
      rw [← hname.2.2]
      exact List.all_takeWhile

theorem IsOperatorToken.isName (h : IsOperatorToken op) : isName op = false := by
  simp [Token.isName, h.2]

namespace IsOperator

theorem token (h : IsOperator op) : IsOperatorToken op := ⟨h.1, h.2.1⟩

theorem ne_mark (h : IsOperator op) : op ≠ "?" := by
  rintro rfl
  exact absurd h (by decide)

theorem ne_colon (h : IsOperator op) : op ≠ ":" := by
  rintro rfl
  exact absurd h (by decide)

theorem ne_comma (h : IsOperator op) : op ≠ "," := by
  rintro rfl
  exact absurd h (by decide)

end IsOperator

namespace IsSymbol

theorem cons (h : IsSymbol op) : ∃ c tail, op.toList = c :: tail ∧ isNameTail c = false ∧
    c ≠ '.' := by
  obtain ⟨⟨hoperator, -, -⟩, hhead⟩ := h
  obtain ⟨c, tail, hop, -⟩ := cons_of_isOperatorName hoperator
  have happart : isNameTail c = false ∧ c ≠ '.' ∧ c ≠ ':' := by
    simpa [hop, and_assoc] using hhead
  exact ⟨c, tail, hop, happart.1, happart.2.1⟩

theorem isName (h : IsSymbol op) : isName op = false := h.1.token.isName

theorem endsBefore (h : IsSymbol op) (hc : isOperator c = false) : endsBefore op c = true := by
  obtain ⟨first, tail, hop, -, hdot⟩ := h.cons
  simp [Token.endsBefore, hc, hop, hdot]

end IsSymbol

/-! ### Words -/

namespace IsWord

theorem cons (h : IsWord name) : ∃ c tail, name.toList = c :: tail ∧
    (isNameHead c = true ∨ c = '.') ∧ isOperator c = false := by
  obtain ⟨hname, hhead⟩ := h
  have hname : name? name.toList = some name.toList := of_decide_eq_true hname
  cases hchars : name.toList with
  | nil =>
    rw [hchars] at hname
    cases hname
  | cons c tail =>
    rw [hchars, name?, Option.ite_none_right_eq_some, Bool.or_eq_true, Bool.and_eq_true,
      beq_iff_eq] at hname
    refine ⟨c, tail, rfl, hname.1.imp id And.left, ?_⟩
    simpa [hchars] using hhead

end IsWord

/-! ### ASCII -/

theorem IsRun.cons (h : IsRun op) : ∃ c tail, op.toList = c :: tail ∧ c ∈ symbolChars ∧
    ∀ d ∈ tail, d ∈ symbolChars := by
  cases hop : op.toList with
  | nil => exact absurd hop h.1
  | cons c tail =>
    have hmem := h.2
    rw [hop] at hmem
    exact ⟨c, tail, rfl, hmem c List.mem_cons_self, fun d hd => hmem d (List.mem_cons_of_mem c hd)⟩

theorem symbolChars_cases (h : c ∈ symbolChars) : isOperator c = true ∧ isNameTail c = false ∧
    isNameHead c = false ∧ c ≠ '.' ∧ c ≠ ':' := by
  have hall : symbolChars.all (fun c => isOperator c && !isNameTail c && !isNameHead c &&
      c != '.' && c != ':') = true := by decide
  simpa [and_assoc] using List.all_eq_true.1 hall c h

theorem IsRun.isSymbol (h : IsRun op) : IsSymbol op := by
  obtain ⟨c, tail, hop, hc, htail⟩ := h.cons
  obtain ⟨hoperator, hnameTail, hnameHead, hdot, hcolon⟩ := symbolChars_cases hc
  have htake : tail.takeWhile isOperator = tail :=
    List.takeWhile_eq_self_iff.2 fun d hd => (symbolChars_cases (htail d hd)).1
  have hname : isOperatorName op = true := by
    simp [isOperatorName, hop, operator?, hoperator, hdot, htake]
  have hapart : op ∉ ["?", ":", ":-", ":+", ":!"] := by
    intro hmem
    simp only [List.mem_cons, List.not_mem_nil, or_false] at hmem
    rcases hmem with rfl | rfl | rfl | rfl | rfl <;> exact absurd h (by decide)
  refine ⟨⟨hname, ?_, hapart⟩, ?_⟩
  · simp [hop, name?, hnameHead, hdot]
  · simp [hop, hnameTail, hdot, hcolon]

theorem IsInfix.isOperator (h : IsInfix op) : IsOperator op := by
  rcases h with h | h
  · exact h.isSymbol.1
  · simp only [List.mem_cons, List.not_mem_nil, or_false] at h
    rcases h with rfl | rfl | rfl | rfl | rfl | rfl <;> decide

theorem IsIdentifier.cons (h : IsIdentifier name) :
    ∃ c tail, name.toList = c :: tail ∧ c.isAlpha = true := by
  cases hname : name.toList with
  | nil =>
    have hhead := h.2
    rw [hname] at hhead
    cases hhead
  | cons c tail =>
    have hhead := h.2
    rw [hname] at hhead
    exact ⟨c, tail, rfl, hhead⟩

theorem IsIdentifier.isWord (h : IsIdentifier name) : IsWord name := by
  obtain ⟨c, tail, hname, hc⟩ := h.cons
  have halphanum : c.isAlphanum = true := by rw [Char.isAlphanum, hc, Bool.true_or]
  refine ⟨h.1, ?_⟩
  simp [hname, isOperator_of_isAlphanum halphanum]

end Token
end Formula
