import Formula.Parser.Basic
import Formula.Proofs.Token.Closing
import Formula.Proofs.Token.Local
import Formula.Proofs.Token.Numerals

/-! How far a token reaches. Main statement: names, operators and numerals are the longest words of
their languages at the start of the text and are found whenever there is one; a numeral whose number
is too large is reported by just its text; and quoted text ends at the first quote that is not
escaped, or is reported if there is none. -/
namespace Formula.Token

variable {cs rest text : List Char} {quote : Char}

theorem scan_numeralText (h : numeralText? cs = some text) :
    ∃ value, numeral? text = some (value, text.length) ∧
      (scan cs).mapError (Parser.faultError cs) =
        if Number.isFinite value = true then .ok (.number value, cs.drop text.length)
        else .error (.unexpectedToken (String.ofList text)) := by
  obtain ⟨⟨value, length⟩, hnumeral, rfl⟩ := Option.map_eq_some_iff.1 h
  have hlength : (cs.take length).length = length := by
    rw [List.length_take, Nat.min_eq_left (numeral?_le hnumeral)]
  refine ⟨value, numeral?_take hnumeral, ?_⟩
  dsimp only
  rw [scan, hnumeral, hlength]
  dsimp only
  split <;> rfl

theorem scan_closes (h : Quoted.isQuote quote = true) (after : List Char) :
    (∃ name, scan (quote :: rest) = .ok (.quoted name, after)) ↔
      ∃ raw, Quoted.Closes quote rest raw after := by
  rw [← Quoted.exists_body?_iff h, scan_quote h, marked_quote h]
  cases hbody : Quoted.body? quote rest with
  | none => simp
  | some found => simp [Prod.ext_iff]

theorem scan_unclosed (h : Quoted.isQuote quote = true) :
    (scan (quote :: rest)).mapError (Parser.faultError (quote :: rest)) =
        .error (.missingDelimiter (String.singleton quote)) ↔
      Quoted.Unclosed quote rest := by
  rw [← Quoted.body?_eq_none_iff h, scan_quote h, marked_quote h]
  cases hbody : Quoted.body? quote rest with
  | none => simp [Except.mapError, Parser.faultError]
  | some found => simp [Except.mapError]

/-- Each kind of token takes as much as it can, and no more. The number that decides whether a
numeral is too large is that of its text alone. -/
theorem scan_longest (cs : List Char) :
    Longest names cs (name? cs) ∧ Longest operators cs (operator? cs) ∧
    Longest (numerals cs) cs (numeralText? cs) ∧
    (∀ text ∈ numeralText? cs, ∃ value, numeral? text = some (value, text.length) ∧
      (scan cs).mapError (Parser.faultError cs) =
        if Number.isFinite value = true then .ok (.number value, cs.drop text.length)
        else .error (.unexpectedToken (String.ofList text))) ∧
    ∀ quote rest, Quoted.isQuote quote = true → cs = quote :: rest →
      (∀ after, (∃ name, scan cs = .ok (.quoted name, after)) ↔
        ∃ raw, Quoted.Closes quote rest raw after) ∧
      ((scan cs).mapError (Parser.faultError cs) =
          .error (.missingDelimiter (String.singleton quote)) ↔
        Quoted.Unclosed quote rest) := by
  refine ⟨name?_longest cs, operator?_longest cs, numeral?_longest cs, ?_, ?_⟩
  · intro text htext
    exact scan_numeralText htext
  · rintro quote rest hquote rfl
    exact ⟨scan_closes hquote, scan_unclosed hquote⟩

/-- A numeral that is too large is reported without the parenthesis after it, and quoted text goes
on past a quote with a backslash before it. -/
theorem scan_longest_reported :
    "1e999".toList ∈ numeralText? "1e999)".toList ∧
      (scan "1e999)".toList).mapError (Parser.faultError "1e999)".toList) =
        .error (.unexpectedToken "1e999") ∧
      ∃ name, scan "'it\\'s' + 1".toList = .ok (.quoted name, " + 1".toList) := by
  have htext : "1e999".toList ∈ numeralText? "1e999)".toList := rfl
  refine ⟨htext, ?_, ?_⟩
  · obtain ⟨value, hvalue, hscan⟩ := (scan_longest "1e999)".toList).2.2.2.1 _ htext
    have hlarge : (numeral? "1e999".toList).map (fun found => Number.isFinite found.1) =
        some false := by decide +kernel
    rw [hvalue, Option.map_some, Option.some.injEq] at hlarge
    rw [hscan, if_neg (by rw [hlarge]; exact Bool.false_ne_true)]
    rfl
  · have hplain (c : Char) (hc : c ∈ ['i', 't', 's']) : Quoted.Passes '\x27' [c] := by
      apply Quoted.Passes.single <;>
      · rintro rfl
        exact absurd hc (by decide)
    have hescaped : Quoted.Passes '\x27' ['\\', '\x27'] := Quoted.Passes.escaped rfl '\x27'
    have hfront := ((hplain 'i' (by decide)).append (hplain 't' (by decide))).append
      (hescaped.append (hplain 's' (by decide)))
    have hcloses := hfront.append_closes (Quoted.closes_here '\x27' " + 1".toList)
    exact (((scan_longest "'it\\'s' + 1".toList).2.2.2.2 '\x27' _ rfl rfl).1 _).2 ⟨_, hcloses⟩

end Formula.Token
