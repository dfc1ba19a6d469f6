import Formula.Mixed
import Formula.Proofs.Token.Scan
import Formula.Proofs.Token.Classes

/-! Quoted text and names, written and scanned back. Main statements: what is written between quotes
with escapes scans as the text that was written, whatever characters are in it; and a name that was
scanned is written so that it scans as the same name, unless it stands in quotes with a backslash or
its own quote between them. -/
namespace Formula

namespace Quoted

variable {quote c : Char} {cs body rest text : List Char}

theorem ne_backslash (h : isQuote quote = true) : quote ≠ '\\' := by
  rintro rfl
  exact absurd h (by decide)

/-! ### Text with escapes -/

theorem body?_plain (hq : c ≠ quote) (hb : c ≠ '\\') (cs : List Char) :
    body? quote (c :: cs) = (body? quote cs).map fun (body, rest) => (c :: body, rest) := by
  rw [body?, if_neg hb, if_neg hq]

theorem body?_escape (h : escape? cs = some (c, rest)) :
    body? quote ('\\' :: cs) = (body? quote rest).map fun (body, rest) => (c :: body, rest) := by
  rw [body?, if_pos rfl]
  split <;> simp_all

/-- The spelling of a character is read as that character. No spelling is a backslash before the
letter of a code point. -/
theorem body?_encodeChar (hquote : isQuote quote = true) (c : Char) (cs : List Char) :
    body? quote (encodeChar quote c ++ cs) =
      (body? quote cs).map fun (body, rest) => (c :: body, rest) := by
  unfold encodeChar
  split
  · exact body?_escape rfl
  · exact body?_escape rfl
  · exact body?_escape rfl
  · exact body?_escape rfl
  · split
    · rename_i hspecial
      have hself : escape? (c :: cs) = some (c, cs) := by
        rcases hspecial with rfl | rfl
        · rcases isQuote_cases hquote with rfl | rfl | rfl <;> rfl
        · rfl
      exact body?_escape hself
    · rename_i hspecial
      rw [not_or] at hspecial
      exact body?_plain hspecial.1 hspecial.2 cs

/-- Written text is read back up to the quote that closes it. -/
theorem body?_encode (hquote : isQuote quote = true) (text rest : List Char) :
    body? quote (text.flatMap (encodeChar quote) ++ quote :: rest) = some (text, rest) := by
  induction text with
  | nil => rw [List.flatMap_nil, List.nil_append, body?, if_neg (ne_backslash hquote), if_pos rfl]
  | cons c text ih =>
    rw [List.flatMap_cons, List.append_assoc, body?_encodeChar hquote, ih]
    rfl

/-! ### Text without escapes -/

/-- Reading makes text no longer, and shorter where it finds an escape. -/
theorem length_body? (h : body? quote cs = some (body, rest)) :
    body.length + rest.length < cs.length ∧
      (cs.length = body.length + rest.length + 1 → quote ∉ body ∧ '\\' ∉ body) := by
  fun_induction body? quote cs generalizing body rest with
  | case1 => cases h
  | case2 => cases h
  | case3 cs decoded after he ih =>
    obtain ⟨⟨tail, rest'⟩, htail, hpair⟩ := Option.map_eq_some_iff.1 h
    cases hpair
    have hshorter := (escape?_suffix he).2
    have hle := (ih htail).1
    simp only [List.length_cons]
    exact ⟨by omega, fun hlength => by omega⟩
  | case4 cs hc =>
    cases h
    simp
  | case5 c cs hb hq ih =>
    obtain ⟨⟨tail, rest'⟩, htail, hpair⟩ := Option.map_eq_some_iff.1 h
    cases hpair
    obtain ⟨hle, hplain⟩ := ih htail
    simp only [List.length_cons, List.mem_cons, not_or]
    refine ⟨by omega, fun hlength => ?_⟩
    obtain ⟨hquote, hbackslash⟩ := hplain (by omega)
    exact ⟨⟨Ne.symm hq, hquote⟩, Ne.symm hb, hbackslash⟩

/-- Without a backslash, text is read as it stands up to the first quote. -/
theorem body?_bare (hquote : isQuote quote = true) (hq : quote ∉ body) (hb : '\\' ∉ body)
    (rest : List Char) : body? quote (body ++ quote :: rest) = some (body, rest) := by
  induction body with
  | nil => rw [List.nil_append, body?, if_neg (ne_backslash hquote), if_pos rfl]
  | cons c body ih =>
    simp only [List.mem_cons, not_or] at hq hb
    rw [List.cons_append, body?_plain (Ne.symm hq.1) (Ne.symm hb.1), ih hq.2 hb.2]
    rfl

/-- Text is read as it stands if it has no backslash and not the quote itself, and only then. -/
theorem body?_self (hquote : isQuote quote = true) :
    body? quote (body ++ [quote]) = some (body, []) ↔ quote ∉ body ∧ '\\' ∉ body :=
  ⟨fun h => (length_body? h).2 (by simp), fun h => body?_bare hquote h.1 h.2 []⟩

/-! ### Quoted names -/

/-- The name that a text has in quotes of the given kind. -/
def between (quote : Char) (text : String) : String :=
  String.ofList (quote :: text.toList ++ [quote])

/-- Whether a name, if it stands in quotes, has no backslash and not its own quote between them. -/
def isPlain (name : String) : Bool :=
  match name.toList with
  | [] => true
  | quote :: rest =>
    !isQuote quote || !rest.dropLast.contains quote && !rest.dropLast.contains '\\'

theorem isPlain_quoted (h : isQuote quote = true) (body : List Char) :
    isPlain (String.ofList (quote :: body ++ [quote])) = true ↔ quote ∉ body ∧ '\\' ∉ body := by
  rw [isPlain, String.toList_ofList]
  simp [h]

theorem isQuoted_quoted (h : isQuote quote = true) (body : List Char) :
    isQuoted (String.ofList (quote :: body ++ [quote])) = true := by
  unfold isQuoted
  rw [String.toList_ofList]
  cases body with
  | nil => simp [h]
  | cons d body => simp [h, List.getLast?_cons]

theorem unquote?_between (quote : Char) (text : String) :
    unquote? quote (between quote text) = some text := by
  rw [unquote?, between, String.toList_ofList]
  simp

end Quoted

namespace Token

open Charset Quoted

variable {cs rest body text : List Char} {c quote : Char} {name : String} {token : Token}

theorem scan_quote (h : isQuote c = true) (cs : List Char) : scan (c :: cs) = marked (c :: cs) := by
  have hc : (c.isDigit = false ∧ isNameHead c = false ∧ (c == '.') = false) ∧
      isOperator c = false := by
    rcases isQuote_cases h with rfl | rfl | rfl <;> decide
  obtain ⟨⟨hd, hn, hp⟩, ho⟩ := hc
  simp [scan, numeral?_eq_none hd, name?, hn, hp, operator?, ho]

theorem marked_quote (h : isQuote c = true) (cs : List Char) :
    marked (c :: cs) = match body? c cs with
      | some (body, rest) => .ok (.quoted (String.ofList (c :: body ++ [c])), rest)
      | none => .error (.unclosed c) := by
  have hmark : isPunctuation c = false := by
    rcases isQuote_cases h with rfl | rfl | rfl <;> decide
  rw [marked, hmark, if_neg Bool.false_ne_true]
  exact if_pos h

/-- Text that is written between quotes scans as that text between those quotes. -/
theorem marked_encode (h : isQuote quote = true) (text : String) (rest : List Char) :
    marked ((encode quote text).toList ++ rest) =
      .ok (.quoted (between quote text), rest) := by
  have hwritten : (encode quote text).toList ++ rest =
      quote :: (text.toList.flatMap (encodeChar quote) ++ quote :: rest) := by
    rw [encode, String.toList_ofList]
    simp
  rw [hwritten, marked_quote h, body?_encode h]
  rfl

theorem scan_encode (h : isQuote quote = true) (text : String) (rest : List Char) :
    scan ((encode quote text).toList ++ rest) =
      .ok (.quoted (between quote text), rest) := by
  have hmarked := marked_encode h text rest
  rw [encode, String.toList_ofList, List.cons_append] at hmarked ⊢
  rw [List.cons_append] at hmarked ⊢
  rw [scan_quote h, hmarked]

/-- A bare name scans as it is written. -/
theorem scan_isName (h : isName name = true) : scan name.toList = .ok (.name name, []) := by
  have hname : name? name.toList = some name.toList := of_decide_eq_true h
  have hnumeral : numeral? name.toList = none := by
    cases hchars : name.toList with
    | nil =>
      rw [hchars] at hname
      cases hname
    | cons c tail =>
      apply numeral?_eq_none
      rw [hchars, name?, Option.ite_none_right_eq_some, Bool.or_eq_true, Bool.and_eq_true,
        beq_iff_eq] at hname
      rcases hname.1 with hhead | ⟨rfl, -⟩
      · cases hdigit : c.isDigit with
        | false => rfl
        | true =>
          rw [isNameHead_of_isDigit hdigit] at hhead
          cases hhead
      · decide
  rw [scan, hnumeral, hname]
  dsimp only
  rw [List.drop_length, String.ofList_toList]

/-- The first character of a bare name is no quote. -/
theorem isPlain_isName (h : isName name = true) : isPlain name = true := by
  have hname : name? name.toList = some name.toList := of_decide_eq_true h
  unfold isPlain
  split
  · rfl
  · rename_i c tail hchars
    have hquote : isQuote c = false := by
      by_contra hquote
      rw [Bool.not_eq_false] at hquote
      rw [hchars] at hname
      rcases isQuote_cases hquote with rfl | rfl | rfl <;> cases hname
    rw [hquote]
    rfl

/-- A quoted name scans as it stands between its quotes, if it has no escapes there. -/
theorem scan_quoted (h : isQuote quote = true) (body : List Char) :
    scan (String.ofList (quote :: body ++ [quote])).toList =
        .ok (.quoted (String.ofList (quote :: body ++ [quote])), []) ↔
      isPlain (String.ofList (quote :: body ++ [quote])) = true := by
  rw [isPlain_quoted h, ← body?_self h, String.toList_ofList, List.cons_append, scan_quote h,
    marked_quote h]
  cases hread : body? quote (body ++ [quote]) with
  | none => simp
  | some found =>
    obtain ⟨body', rest⟩ := found
    simp [String.ofList_inj]

/-- A name that was scanned is written so that it scans as the same name and nothing is left, unless
it stands in quotes with a backslash or its own quote between them. -/
theorem scan_written {s : Symbol} (h : scan cs = .ok (token, rest))
    (hname : token = .name s.name ∨ token = .quoted s.name) :
    scan s.written.toList = .ok (token, []) ↔ isPlain s.name = true := by
  cases scanned h with
  | number found finite => simp at hname
  | operator other found => simp at hname
  | punctuation start mark => simp at hname
  | @name lexeme found =>
    obtain hname : String.ofList lexeme = s.name := by simpa using hname
    have hbare := isName_of_name? found
    rw [hname] at hbare ⊢
    have hwritten : s.written = s.name := by simp [Symbol.written, hbare]
    rw [hwritten, scan_isName hbare, isPlain_isName hbare]
    simp
  | @quoted c body tail after start quote found =>
    obtain hname : String.ofList (c :: body ++ [c]) = s.name := by simpa using hname
    have hquoted := isQuoted_quoted quote body
    have hwritten : s.written = s.name := by
      rw [Symbol.written, ← hname, hquoted]
      simp
    rw [hwritten, ← hname]
    exact scan_quoted quote body

theorem scan_written_array :
    let s : Symbol := .array "`unit price`"
    let rest := "[i] * 2".toList
    scan "`unit price`[i] * 2".toList = .ok (.quoted s.name, rest) ∧ isPlain s.name = true ∧
      scan s.written.toList = .ok (.quoted s.name, []) := by
  intro s rest
  have hscan : scan "`unit price`[i] * 2".toList = .ok (.quoted s.name, rest) :=
    scan_encode (show isQuote '\x60' = true from rfl) "unit price" rest
  have hplain : isPlain s.name = true := by decide +kernel
  exact ⟨hscan, hplain, (scan_written hscan (.inr rfl)).2 hplain⟩

/-- A quote in a quoted name is written without the backslash that it was scanned with. -/
theorem scan_written_ne :
    let s : Symbol := .var "'it's'"
    scan "'it\\'s'".toList = .ok (.quoted s.name, []) ∧
      scan s.written.toList = .ok (.quoted "'it'", ['s', '\x27']) := by
  intro s
  have hwritten : s.written.toList = '\x27' :: (['i', 't'] ++ '\x27' :: ['s', '\x27']) := by
    decide +kernel
  refine ⟨scan_encode (show isQuote '\x27' = true from rfl) "it's" [], ?_⟩
  rw [hwritten, scan_quote rfl, marked_quote rfl, body?_bare rfl (by decide) (by decide)]
  rfl

/-! ### Written text -/

/-- Every text is written in quotes so that it scans whole, as a literal of just that text. Every
name that is neither bare nor in quotes is written between backquotes, and so scans whole as the
name between backquotes. -/
theorem marked_written (text name : String) :
    (let written := (encode '\x27' text).toList
      let literal := between '\x27' text
      marked written = .ok (.quoted literal, []) ∧ scan written = .ok (.quoted literal, []) ∧
        Mixed.textLiteral? (.var literal) = some text) ∧
      (isQuoted name = false → isName name = false →
        let written := (Symbol.var name).written.toList
        marked written = .ok (.quoted (between '\x60' name), []) ∧
          scan written = .ok (.quoted (between '\x60' name), [])) := by
  have hencode (quote : Char) (h : isQuote quote = true) (text : String) :
      marked (encode quote text).toList = .ok (.quoted (between quote text), []) ∧
        scan (encode quote text).toList = .ok (.quoted (between quote text), []) := by
    have hmarked := marked_encode h text []
    have hscan := scan_encode h text []
    rw [List.append_nil] at hmarked hscan
    exact ⟨hmarked, hscan⟩
  constructor
  · obtain ⟨hmarked, hscan⟩ := hencode '\x27' rfl text
    refine ⟨hmarked, hscan, ?_⟩
    rw [Mixed.textLiteral?, unquote?_between]
    rfl
  · intro hquoted hname
    have hwritten : (Symbol.var name).written = encode '\x60' name := by
      simp [Symbol.written, Symbol.isOperator, Symbol.name, hquoted, hname]
    rw [hwritten]
    exact hencode '\x60' rfl name

theorem marked_written_spaced :
    let name := "a`\\u{62}\n"
    isQuoted name = false ∧ isName name = false ∧
      scan (Symbol.var name).written.toList = .ok (.quoted (between '\x60' name), []) := by
  intro name
  have hquoted : isQuoted name = false := by decide +kernel
  have hname : isName name = false := by decide +kernel
  exact ⟨hquoted, hname, ((marked_written "" name).2 hquoted hname).2⟩

end Token
end Formula
