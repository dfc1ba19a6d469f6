import Mathlib.Data.List.TakeWhile
import Formula.Token

/-! What a scan finds. Main statements: the five kinds of token by what stands at the start, no
token starts with a blank, and the text of a name or an operator scans as that again. -/
namespace Formula.Token

open Charset

variable {cs rest : List Char} {token : Token}

theorem numeral?_eq_none {c : Char} (h : c.isDigit = false) : numeral? (c :: cs) = none := by
  have hh : hexadecimal? (c :: cs) = none := by
    unfold hexadecimal?
    split
    · rename_i heq
      have hc : c = '0' := (List.cons.inj heq).1
      rw [hc] at h
      exact absurd h (by decide)
    · rfl
  simp [numeral?, hh, decimal?, h]

theorem scan_blank {c : Char} (h : isBlank c = true) : scan (c :: cs) = .error .unknown := by
  have hc : (c.isDigit = false ∧ isNameHead c = false ∧ (c == '.') = false) ∧
      isOperator c = false ∧ isPunctuation c = false ∧ Quoted.isQuote c = false := by
    simp only [isBlank, Bool.or_eq_true, beq_iff_eq] at h
    rcases h with ((rfl | rfl) | rfl) | rfl <;> decide
  obtain ⟨⟨hd, hn, hp⟩, ho, hm, hq⟩ := hc
  simp [scan, numeral?_eq_none hd, name?, hn, hp, operator?, ho, marked, hm, hq]

theorem skipBlank_of_scan (h : scan cs = .ok (token, rest)) : skipBlank cs = cs := by
  cases cs with
  | nil => rfl
  | cons c cs =>
    cases hc : isBlank c with
    | true => simp [scan_blank hc] at h
    | false => simp [skipBlank, hc]

theorem scan_punctuation {c : Char} (h : isPunctuation c = true) :
    scan (c :: cs) = .ok (.punctuation c, cs) := by
  have hc : (c.isDigit = false ∧ isNameHead c = false ∧ (c == '.') = false) ∧
      isOperator c = false := by
    simp only [isPunctuation, Bool.or_eq_true, beq_iff_eq] at h
    rcases h with (((rfl | rfl) | rfl) | rfl) | rfl <;> decide
  obtain ⟨⟨hd, hn, hp⟩, ho⟩ := hc
  simp [scan, numeral?_eq_none hd, name?, hn, hp, operator?, ho, marked, h]

theorem scan_operator {c : Char} (hd : c.isDigit = false) (hn : isNameHead c = false)
    (hp : c ≠ '.') (ho : isOperator c = true) :
    scan (c :: cs) =
      .ok (.operator (String.ofList (c :: cs.takeWhile isOperator)), cs.dropWhile isOperator) := by
  have happ : cs.takeWhile isOperator ++ cs.dropWhile isOperator = cs :=
    List.takeWhile_append_dropWhile
  have hdrop : (cs.takeWhile isOperator ++ cs.dropWhile isOperator).drop
      (cs.takeWhile isOperator).length = cs.dropWhile isOperator := List.drop_left
  rw [happ] at hdrop
  simp [scan, numeral?_eq_none hd, name?, hn, hp, operator?, ho, hdrop]

/-- The kinds of token, in the order in which they are tried. -/
inductive Scanned (cs : List Char) : Token → List Char → Prop where
  | number {value : Float} {length : Nat} (found : numeral? cs = some (value, length))
    (finite : Number.isFinite value = true) : Scanned cs (.number value) (cs.drop length)
  | name {lexeme : List Char} (found : name? cs = some lexeme) :
    Scanned cs (.name (String.ofList lexeme)) (cs.drop lexeme.length)
  | operator {lexeme : List Char} (other : name? cs = none) (found : operator? cs = some lexeme) :
    Scanned cs (.operator (String.ofList lexeme)) (cs.drop lexeme.length)
  | punctuation {c : Char} {rest : List Char} (start : cs = c :: rest)
    (mark : isPunctuation c = true) : Scanned cs (.punctuation c) rest
  | quoted {c : Char} {body tail rest : List Char} (start : cs = c :: tail)
    (quote : Quoted.isQuote c = true) (found : Quoted.body? c tail = some (body, rest)) :
    Scanned cs (.quoted (String.ofList (c :: body ++ [c]))) rest

theorem scanned (h : scan cs = .ok (token, rest)) : Scanned cs token rest := by
  unfold scan at h
  split at h
  · rename_i value length hn
    split at h
    · rename_i hf
      simp only [Except.ok.injEq, Prod.mk.injEq] at h
      obtain ⟨rfl, rfl⟩ := h
      exact .number hn hf
    · simp at h
  · split at h
    · rename_i hn
      simp only [Except.ok.injEq, Prod.mk.injEq] at h
      obtain ⟨rfl, rfl⟩ := h
      exact .name hn
    · rename_i hn
      split at h
      · rename_i ho
        simp only [Except.ok.injEq, Prod.mk.injEq] at h
        obtain ⟨rfl, rfl⟩ := h
        exact .operator hn ho
      · unfold marked at h
        split at h
        · simp at h
        · rename_i c tail _ _ _
          split at h
          · rename_i hp
            simp only [Except.ok.injEq, Prod.mk.injEq] at h
            obtain ⟨rfl, rfl⟩ := h
            exact .punctuation rfl hp
          · split at h
            · rename_i hq
              split at h
              · rename_i body after hb
                simp only [Except.ok.injEq, Prod.mk.injEq] at h
                obtain ⟨rfl, rfl⟩ := h
                exact .quoted rfl hq hb
              · simp at h
            · simp at h

theorem startsPart_nameRun (cs : List Char) (h : startsPart cs = true) :
    startsPart (nameRun cs) = true := by
  cases cs with
  | nil => simp [startsPart] at h
  | cons c cs =>
    simp only [startsPart] at h
    simp [nameRun, h, startsPart]

theorem nameRun_nameRun (cs : List Char) : nameRun (nameRun cs) = nameRun cs := by
  fun_induction nameRun cs with
  | case1 => rfl
  | case2 c cs h ih =>
    have hc : (isNameTail c || (c == '.' && startsPart (nameRun cs))) = true := by
      rcases Bool.or_eq_true _ _ ▸ h with h | h
      · simp [h]
      · rw [Bool.and_eq_true] at h
        simp [h.1, startsPart_nameRun cs h.2]
    rw [nameRun, if_pos hc, ih]
  | case3 => rfl

/-- The text of a scanned name is a name. -/
theorem isName_of_name? {lexeme : List Char} (h : name? cs = some lexeme) :
    isName (String.ofList lexeme) = true := by
  cases cs with
  | nil => simp [name?] at h
  | cons c cs =>
    simp only [name?, Option.ite_none_right_eq_some, Option.some.injEq] at h
    obtain ⟨hc, rfl⟩ := h
    have hc : (isNameHead c || (c == '.' && startsPart (nameRun cs))) = true := by
      rcases Bool.or_eq_true _ _ ▸ hc with h | h
      · simp [h]
      · rw [Bool.and_eq_true] at h
        simp [h.1, startsPart_nameRun cs h.2]
    simp only [isName, String.toList_ofList, name?, hc, if_true, nameRun_nameRun, decide_true]

/-- No name starts the text of an operator that was scanned after a name had been tried. -/
theorem name?_of_operator? {lexeme : List Char} (hn : name? cs = none)
    (ho : operator? cs = some lexeme) : name? lexeme = none := by
  cases cs with
  | nil => simp [operator?] at ho
  | cons c cs =>
    simp only [name?, ite_eq_right_iff, reduceCtorEq, imp_false, Bool.not_eq_true,
      Bool.or_eq_false_iff] at hn
    obtain ⟨hhead, hdot⟩ := hn
    simp only [operator?] at ho
    by_cases hc : (c == '.') = true
    · rw [if_pos hc, Option.some.injEq] at ho
      subst ho
      rw [hc, Bool.true_and] at hdot
      have htail : startsPart (cs.takeWhile fun d => d == '.' || isOperator d) = false := by
        cases cs with
        | nil => rfl
        | cons d cs =>
          rw [List.takeWhile_cons]
          split
          · exact hdot
          · rfl
      simp [name?, hhead, htail]
    · rw [if_neg hc, Option.ite_none_right_eq_some, Option.some.injEq] at ho
      rw [← ho.2]
      simp [name?, hhead, hc]

theorem isName_of_operator? {lexeme : List Char} (hn : name? cs = none)
    (ho : operator? cs = some lexeme) : isName (String.ofList lexeme) = false := by
  simp [isName, name?_of_operator? hn ho]

theorem isOperatorName_of_operator? {lexeme : List Char} (h : operator? cs = some lexeme) :
    isOperatorName (String.ofList lexeme) = true := by
  rw [isOperatorName, String.toList_ofList, decide_eq_true_eq]
  cases cs with
  | nil => simp [operator?] at h
  | cons c cs =>
    rw [operator?] at h
    by_cases hc : (c == '.') = true
    · rw [if_pos hc, Option.some.injEq] at h
      rw [← h, operator?, if_pos hc, List.takeWhile_idem]
    · rw [if_neg hc, Option.ite_none_right_eq_some, Option.some.injEq] at h
      rw [← h.2, operator?, if_neg hc, if_pos h.1, List.takeWhile_idem]

/-- A run of dots and operator characters scans as an operator only if it starts one. -/
theorem operator?_head {c : Char} {lexeme : List Char} (h : operator? (c :: cs) = some lexeme) :
    (c = '.' ∨ isOperator c = true) ∧ ∃ tail, lexeme = c :: tail := by
  simp only [operator?] at h
  split at h
  · rename_i hc
    rw [Option.some.injEq] at h
    exact ⟨.inl (by simpa using hc), _, h.symm⟩
  · rw [Option.ite_none_right_eq_some, Option.some.injEq] at h
    exact ⟨.inr h.1, _, h.2.symm⟩

end Formula.Token
