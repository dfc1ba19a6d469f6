import Formula.Quoted

/-! Tokens of formula text. A scan is tried at the start of the remaining characters and takes
as many of them as its grammar allows; numerals go before names, names before operators. Main
statement: a scanned token leaves a proper suffix. -/
namespace Formula

inductive Token where
  | number (value : Float)
  | name (name : String)
  /-- The name includes both quotes, so it differs from every bare name. -/
  | quoted (name : String)
  | operator (name : String)
  /-- A parenthesis, a bracket or a comma. -/
  | punctuation (c : Char)

namespace Token

open Charset

/-- Why no token could be scanned. -/
inductive Fault where
  /-- The numeral is too large for a number. -/
  | overflow (numeral : List Char)
  /-- The quote is never closed. -/
  | unclosed (quote : Char)
  | unknown
deriving DecidableEq

/-! ### Names and operators -/

def startsPart : List Char → Bool
  | [] => false
  | c :: _ => isNameTail c

/-- The longest run of name characters and of dots that stand directly before one. -/
def nameRun : List Char → List Char
  | [] => []
  | c :: cs => if isNameTail c || (c == '.' && startsPart cs) then c :: nameRun cs else []

theorem nameRun_prefix (cs : List Char) : nameRun cs <+: cs := by
  fun_induction nameRun cs with
  | case1 => exact List.prefix_rfl
  | case2 c cs _ ih => exact List.cons_prefix_cons.2 ⟨rfl, ih⟩
  | case3 => exact List.nil_prefix

/-- A name: parts joined by dots, maybe after a first dot. -/
def name? : List Char → Option (List Char)
  | [] => none
  | c :: cs =>
    if isNameHead c || (c == '.' && startsPart cs) then some (c :: nameRun cs) else none

/-- An operator: a run of operator characters, or a dot and then a run of dots and operator
characters. -/
def operator? : List Char → Option (List Char)
  | [] => none
  | c :: cs =>
    if c == '.' then some (c :: cs.takeWhile fun d => d == '.' || isOperator d)
    else if isOperator c then some (c :: cs.takeWhile isOperator)
    else none

theorem name?_prefix {cs lexeme : List Char} (h : name? cs = some lexeme) : lexeme <+: cs := by
  cases cs with
  | nil => simp [name?] at h
  | cons c cs =>
    simp only [name?, Option.ite_none_right_eq_some, Option.some.injEq] at h
    exact h.2 ▸ List.cons_prefix_cons.2 ⟨rfl, nameRun_prefix cs⟩

theorem operator?_prefix {cs lexeme : List Char} (h : operator? cs = some lexeme) :
    lexeme <+: cs := by
  cases cs with
  | nil => simp [operator?] at h
  | cons c cs =>
    simp only [operator?] at h
    split at h
    · simp only [Option.some.injEq] at h
      exact h ▸ List.cons_prefix_cons.2 ⟨rfl, List.takeWhile_prefix _⟩
    · simp only [Option.ite_none_right_eq_some, Option.some.injEq] at h
      exact h.2 ▸ List.cons_prefix_cons.2 ⟨rfl, List.takeWhile_prefix _⟩

/-! ### Numerals -/

/-- A point with the digits after it, if there are any. -/
def fraction : List Char → List Char
  | '.' :: cs => cs.takeWhile Char.isDigit
  | _ => []

/-- The sign and the digits of an exponent; the marked length is zero if there is none. -/
def exponent : List Char → Bool × List Char × Nat
  | c :: cs =>
    if c == 'e' || c == 'E' then
      let (negative, sign, rest) := match cs with
        | '-' :: rest => (true, 1, rest)
        | '+' :: rest => (false, 1, rest)
        | rest => (false, 0, rest)
      let digits := rest.takeWhile Char.isDigit
      if digits.isEmpty then (false, [], 0) else (negative, digits, 1 + sign + digits.length)
    else (false, [], 0)
  | [] => (false, [], 0)

/-- A decimal numeral and its length. -/
def decimal? (cs : List Char) : Option (Number.Numeral × Nat) :=
  let whole := cs.takeWhile Char.isDigit
  if whole.isEmpty then none else
  let fraction := fraction (cs.drop whole.length)
  let pointed := whole.length + if fraction.isEmpty then 0 else 1 + fraction.length
  let (negative, digits, length) := exponent (cs.drop pointed)
  some (⟨whole, fraction, negative, digits⟩, pointed + length)

/-- The digits of a hexadecimal numeral. -/
def hexadecimal? : List Char → Option (List Char)
  | '0' :: 'x' :: cs =>
    let digits := cs.takeWhile isHexDigit
    if digits.isEmpty then none else some digits
  | _ => none

/-- Digit by digit, each step rounded. -/
def hexadecimalValue (digits : List Char) : Float :=
  digits.foldl (fun value c => value * 16 + Number.ofRatio (Number.digitsValue 16 [c]) 1) 0

/-- The value and the length of the numeral at the start. -/
def numeral? (cs : List Char) : Option (Float × Nat) :=
  match hexadecimal? cs with
  | some digits => some (hexadecimalValue digits, 2 + digits.length)
  | none => (decimal? cs).map fun (numeral, length) => (numeral.toFloat, length)

/-! ### The scan -/

def isPunctuation (c : Char) : Bool := c == '(' || c == ')' || c == ',' || c == '[' || c == ']'

/-- A punctuation mark or a quoted name, by its first character. -/
def marked : List Char → Except Fault (Token × List Char)
  | [] => .error .unknown
  | c :: cs =>
    if isPunctuation c then .ok (.punctuation c, cs)
    else if Quoted.isQuote c then
      match Quoted.body? c cs with
      | some (body, rest) => .ok (.quoted (String.ofList (c :: body ++ [c])), rest)
      | none => .error (.unclosed c)
    else .error .unknown

/-- The token at the start of `cs` and what follows it. -/
def scan (cs : List Char) : Except Fault (Token × List Char) :=
  match numeral? cs with
  | some (value, length) =>
    if Number.isFinite value then .ok (.number value, cs.drop length)
    else .error (.overflow (cs.take length))
  | none =>
    match name? cs with
    | some lexeme => .ok (.name (String.ofList lexeme), cs.drop lexeme.length)
    | none =>
      match operator? cs with
      | some lexeme => .ok (.operator (String.ofList lexeme), cs.drop lexeme.length)
      | none => marked cs

def skipBlank (cs : List Char) : List Char := cs.dropWhile isBlank

theorem skipBlank_suffix (cs : List Char) : skipBlank cs <:+ cs := List.dropWhile_suffix _

/-- Whether the text is one name and nothing else. -/
def isName (text : String) : Bool := name? text.toList = some text.toList

/-- Whether the text is one operator and nothing else. -/
def isOperatorName (text : String) : Bool := operator? text.toList = some text.toList

theorem numeral?_pos {cs : List Char} {value : Float} {length : Nat}
    (h : numeral? cs = some (value, length)) : 0 < length ∧ cs ≠ [] := by
  unfold numeral? at h
  split at h
  · rename_i digits hd
    simp only [Option.some.injEq, Prod.mk.injEq] at h
    refine ⟨by omega, ?_⟩
    rintro rfl
    simp [hexadecimal?] at hd
  · obtain ⟨⟨n, l⟩, hn, hl⟩ := Option.map_eq_some_iff.1 h
    simp only [Prod.mk.injEq] at hl
    unfold decimal? at hn
    dsimp only at hn
    split at hn
    · simp at hn
    · rename_i hw
      simp only [Option.some.injEq, Prod.mk.injEq] at hn
      have hpos : 0 < (cs.takeWhile Char.isDigit).length :=
        List.length_pos_iff.2 (by simpa using hw)
      refine ⟨by omega, ?_⟩
      rintro rfl
      simp at hpos

theorem name?_ne_nil {cs lexeme : List Char} (h : name? cs = some lexeme) :
    lexeme ≠ [] ∧ cs ≠ [] := by
  cases cs with
  | nil => simp [name?] at h
  | cons c cs =>
    simp only [name?, Option.ite_none_right_eq_some, Option.some.injEq] at h
    exact ⟨h.2 ▸ List.cons_ne_nil _ _, List.cons_ne_nil _ _⟩

theorem operator?_ne_nil {cs lexeme : List Char} (h : operator? cs = some lexeme) :
    lexeme ≠ [] ∧ cs ≠ [] := by
  cases cs with
  | nil => simp [operator?] at h
  | cons c cs =>
    simp only [operator?] at h
    split at h
    · simp only [Option.some.injEq] at h
      exact ⟨h ▸ List.cons_ne_nil _ _, List.cons_ne_nil _ _⟩
    · simp only [Option.ite_none_right_eq_some, Option.some.injEq] at h
      exact ⟨h.2 ▸ List.cons_ne_nil _ _, List.cons_ne_nil _ _⟩

theorem marked_suffix {cs rest : List Char} {token : Token} (h : marked cs = .ok (token, rest)) :
    rest <:+ cs ∧ rest.length < cs.length := by
  cases cs with
  | nil => simp [marked] at h
  | cons c cs =>
    suffices hs : rest <:+ cs from
      ⟨hs.trans (List.suffix_cons ..), Nat.lt_succ_of_le hs.length_le⟩
    simp only [marked] at h
    split at h
    · simp only [Except.ok.injEq, Prod.mk.injEq] at h
      exact h.2 ▸ List.suffix_rfl
    · split at h
      · split at h
        · rename_i hb
          simp only [Except.ok.injEq, Prod.mk.injEq] at h
          exact h.2 ▸ Quoted.body?_suffix hb
        · simp at h
      · simp at h

private theorem drop_shorter {cs : List Char} {n : Nat} (hn : 0 < n) (hcs : cs ≠ []) :
    cs.drop n <:+ cs ∧ (cs.drop n).length < cs.length := by
  have := List.length_pos_iff.2 hcs
  exact ⟨List.drop_suffix .., by rw [List.length_drop]; omega⟩

theorem scan_suffix {cs rest : List Char} {token : Token} (h : scan cs = .ok (token, rest)) :
    rest <:+ cs ∧ rest.length < cs.length := by
  unfold scan at h
  split at h
  · rename_i hn
    split at h
    · simp only [Except.ok.injEq, Prod.mk.injEq] at h
      exact h.2 ▸ drop_shorter (numeral?_pos hn).1 (numeral?_pos hn).2
    · simp at h
  · split at h
    · rename_i hn
      simp only [Except.ok.injEq, Prod.mk.injEq] at h
      exact h.2 ▸ drop_shorter (List.length_pos_iff.2 (name?_ne_nil hn).1) (name?_ne_nil hn).2
    · split at h
      · rename_i ho
        simp only [Except.ok.injEq, Prod.mk.injEq] at h
        exact h.2 ▸ drop_shorter (List.length_pos_iff.2 (operator?_ne_nil ho).1)
          (operator?_ne_nil ho).2
      · exact marked_suffix h

end Token
end Formula
