import Formula.Charset
import Formula.Number.Decimal

/-! Quoted text: escapes begin with a backslash, and the opening quote closes it. A backslash
before a character without a meaning of its own stands for that character. -/
namespace Formula.Quoted

open Charset

/-- A code point of one to eight hexadecimal digits in braces. -/
def codePoint? : List Char → Option (Char × List Char)
  | '\x7b' :: cs =>
    let digits := (cs.takeWhile isHexDigit).take 8
    let value := Number.digitsValue 16 digits
    match cs.drop digits.length with
    | '\x7d' :: rest =>
      if digits.isEmpty || !value.isValidChar then none else some (Char.ofNat value, rest)
    | _ => none
  | _ => none

/-- The character that an escape stands for, after its backslash. -/
def escape? : List Char → Option (Char × List Char)
  | [] => none
  | c :: cs =>
    match c with
    | '0' => some ('\x00', cs)
    | 't' => some ('\t', cs)
    | 'n' => some ('\n', cs)
    | 'r' => some ('\r', cs)
    | 'u' => (codePoint? cs).orElse fun _ => some ('u', cs)
    | c => some (c, cs)

theorem codePoint?_suffix {cs rest : List Char} {c : Char} (h : codePoint? cs = some (c, rest)) :
    rest <:+ cs := by
  unfold codePoint? at h
  split at h
  · rename_i cs
    dsimp only at h
    split at h
    · rename_i after heq
      split at h
      · simp at h
      · simp only [Option.some.injEq, Prod.mk.injEq] at h
        obtain ⟨-, rfl⟩ := h
        exact (List.suffix_cons ..).trans
          ((heq ▸ List.drop_suffix ..).trans (List.suffix_cons ..))
    · simp at h
  · simp at h

theorem escape?_suffix {cs rest : List Char} {c : Char} (h : escape? cs = some (c, rest)) :
    rest <:+ cs ∧ rest.length < cs.length := by
  cases cs with
  | nil => simp [escape?] at h
  | cons d ds =>
    suffices hs : rest <:+ ds from
      ⟨hs.trans (List.suffix_cons ..), Nat.lt_succ_of_le hs.length_le⟩
    simp only [escape?] at h
    split at h
    case h_5 =>
      cases hc : codePoint? ds with
      | none => simp_all
      | some found =>
        obtain ⟨e, after⟩ := found
        simp only [hc, Option.orElse_some, Option.some.injEq, Prod.mk.injEq] at h
        exact h.2 ▸ codePoint?_suffix hc
    all_goals
      simp only [Option.some.injEq, Prod.mk.injEq] at h
      exact h.2 ▸ List.suffix_rfl

/-- The decoded text up to the closing quote and what follows it. -/
def body? (quote : Char) : List Char → Option (List Char × List Char)
  | [] => none
  | c :: cs =>
    if c = '\\' then
      match _h : escape? cs with
      | none => none
      | some (decoded, rest) =>
        (body? quote rest).map fun (body, rest) => (decoded :: body, rest)
    else if c = quote then some ([], cs)
    else (body? quote cs).map fun (body, rest) => (c :: body, rest)
termination_by cs => cs.length
decreasing_by
  · exact Nat.lt_succ_of_lt (escape?_suffix ‹_›).2
  · exact Nat.lt_succ_self _

theorem body?_suffix {quote : Char} {cs body rest : List Char}
    (h : body? quote cs = some (body, rest)) : rest <:+ cs := by
  fun_induction body? quote cs generalizing body rest with
  | case1 => simp at h
  | case2 => simp at h
  | case3 cs decoded after he ih =>
    obtain ⟨⟨b, r⟩, hb, hr⟩ := Option.map_eq_some_iff.1 h
    simp only [Prod.mk.injEq] at hr
    exact hr.2 ▸ ((ih hb).trans (escape?_suffix he).1).trans (List.suffix_cons ..)
  | case4 => simp_all
  | case5 c cs hb hq ih =>
    obtain ⟨⟨b, r⟩, hb, hr⟩ := Option.map_eq_some_iff.1 h
    simp only [Prod.mk.injEq] at hr
    exact hr.2 ▸ (ih hb).trans (List.suffix_cons ..)

def isQuote (c : Char) : Bool := c == '\x60' || c == '\x27' || c == '\x22'

theorem isQuote_cases {c : Char} (h : isQuote c = true) : c = '\x60' ∨ c = '\x27' ∨ c = '\x22' := by
  simpa [isQuote, or_assoc] using h

/-- The spelling of one character between the given quotes. -/
def encodeChar (quote c : Char) : List Char :=
  match c with
  | '\x00' => ['\\', '0']
  | '\t' => ['\\', 't']
  | '\n' => ['\\', 'n']
  | '\r' => ['\\', 'r']
  | c => if c = quote ∨ c = '\\' then ['\\', c] else [c]

/-- The text between the given quotes, with escapes where a bare character would not be read
back. -/
def encode (quote : Char) (text : String) : String :=
  String.ofList (quote :: text.toList.flatMap (encodeChar quote) ++ [quote])

/-- Whether the text starts and ends with the same quote. -/
def isQuoted (text : String) : Bool :=
  match text.toList with
  | first :: second :: rest => isQuote first && (second :: rest).getLast? == some first
  | _ => false

/-- The text between two quotes of the given kind. -/
def unquote? (quote : Char) (text : String) : Option String :=
  match text.toList with
  | first :: rest =>
    if first = quote ∧ rest.getLast? = some quote then some (String.ofList rest.dropLast) else none
  | [] => none

end Formula.Quoted
