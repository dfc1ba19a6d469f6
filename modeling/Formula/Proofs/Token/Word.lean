import Formula.Proofs.Token.Scan
import Formula.Proofs.Tree.Symbolic

/-! Words that scan as they are written. Main statements: names, numerals and operators are
taken whole, and no more than them, before any text that does not go on with them. -/
namespace Formula

namespace Token

open Charset

variable {name op : String} {c : Char} {tail k : List Char}

theorem skipBlank_cons (h : isBlank c = false) : skipBlank (c :: k) = c :: k := by
  rw [skipBlank, List.dropWhile_cons, h, if_neg Bool.false_ne_true]

/-- No name starts here and no numeral goes on. -/
def Breaks (k : List Char) : Prop := name? k = none ∧ ∀ c ∈ k.head?, c.isDigit = false

theorem Breaks.isNameHead (hk : Breaks k) : ∀ c ∈ k.head?, isNameHead c = false := by
  intro c hc
  cases k with
  | nil => cases hc
  | cons d k =>
    obtain rfl : d = c := Option.some.inj hc
    cases hhead : Charset.isNameHead d with
    | false => rfl
    | true =>
      have hname := hk.1
      rw [name?, hhead, Bool.true_or, if_pos rfl] at hname
      cases hname

/-- No name goes on here either, if the first character may not continue one. -/
theorem nameRun_of_name? (hname : name? k = none) (hk : ∀ c ∈ k.head?, isNameTail c = false) :
    nameRun k = [] := by
  cases k with
  | nil => rfl
  | cons c k =>
    have hc := hk c rfl
    rw [name?, ite_eq_right_iff] at hname
    rw [nameRun, hc, Bool.false_or, if_neg]
    intro hdot
    cases hname (by rw [hdot, Bool.or_true])

/-! ### Names -/

theorem nameRun_append {cs : List Char} (h : nameRun cs = cs) (hk : nameRun k = []) :
    nameRun (cs ++ k) = cs := by
  induction cs with
  | nil => exact hk
  | cons c cs ih =>
    have hc : (isNameTail c || (c == '.' && startsPart cs)) = true := by
      by_contra hc
      rw [nameRun, if_neg hc] at h
      cases h
    rw [nameRun, if_pos hc, List.cons.injEq] at h
    have hc' : (isNameTail c || (c == '.' && startsPart (cs ++ k))) = true := by
      cases cs with
      | nil =>
        -- a dot at the end is in no name
        have htail : isNameTail c = true := by simpa [startsPart] using hc
        rw [htail, Bool.true_or]
      | cons d cs => exact hc
    rw [List.cons_append, nameRun, if_pos hc', ih h.2]

/-- A name is read whole before any text that does not go on with it. -/
theorem scan_word (h : isName name = true) (hk : nameRun k = []) :
    scan (name.toList ++ k) = .ok (.name name, k) := by
  have hisName : name? name.toList = some name.toList := of_decide_eq_true h
  cases hname : name.toList with
  | nil =>
    rw [hname] at hisName
    cases hisName
  | cons c tail =>
    rw [hname, name?, Option.ite_none_right_eq_some, Option.some.injEq, List.cons.injEq] at hisName
    obtain ⟨hhead, -, htail⟩ := hisName
    have hd : c.isDigit = false := by
      cases hdigit : c.isDigit with
      | false => rfl
      | true =>
        have hdot : c ≠ '.' := by
          rintro rfl
          exact absurd hdigit (by decide)
        simp [isNameHead_of_isDigit hdigit, hdot] at hhead
    have hstart : (isNameHead c || (c == '.' && startsPart (tail ++ k))) = true := by
      cases tail with
      | nil =>
        -- a dot alone is no name
        have hc : isNameHead c = true := by simpa [startsPart] using hhead
        rw [hc, Bool.true_or]
      | cons d tail => exact hhead
    have hscan : name? (c :: (tail ++ k)) = some name.toList := by
      rw [name?, if_pos hstart, nameRun_append htail hk, hname]
    have hdrop : (c :: (tail ++ k)).drop name.toList.length = k := by
      rw [hname, ← List.cons_append, List.drop_left]
    rw [List.cons_append, scan, numeral?_eq_none hd, hscan]
    dsimp only
    rw [hdrop, String.ofList_toList]

/-! ### Operators -/

theorem takeWhile_run {p : Char → Bool} {cs : List Char} (hcs : ∀ c ∈ cs, p c = true)
    (hk : ∀ c ∈ k.head?, p c = false) :
    (cs ++ k).takeWhile p = cs ∧ (cs ++ k).dropWhile p = k := by
  rw [List.takeWhile_append_of_pos hcs, List.dropWhile_append_of_pos hcs]
  cases k with
  | nil => exact ⟨List.append_nil cs, rfl⟩
  | cons c k =>
    have hc := hk c rfl
    rw [List.takeWhile_cons, List.dropWhile_cons, hc, if_neg Bool.false_ne_true,
      if_neg Bool.false_ne_true, List.append_nil]
    exact ⟨rfl, rfl⟩

/-- An operator without dots ends where its characters do. -/
theorem scan_symbol (hop : op.toList = c :: tail) (hd : c.isDigit = false)
    (hn : isNameHead c = false) (hdot : c ≠ '.') (hc : isOperator c = true)
    (htail : tail.all isOperator = true) (hk : ∀ d ∈ k.head?, isOperator d = false) :
    scan (op.toList ++ k) = .ok (.operator op, k) := by
  obtain ⟨htake, hdrop⟩ := takeWhile_run (List.all_eq_true.1 htail) hk
  rw [hop, List.cons_append, scan_operator hd hn hdot hc, htake, hdrop, ← hop, String.ofList_toList]

/-- An operator that starts with a dot may have more of them, if its first dot starts no name. -/
theorem scan_dotted (hop : op.toList = '.' :: tail)
    (htail : tail.all (fun d => d == '.' || isOperator d) = true)
    (hpart : startsPart (tail ++ k) = false)
    (hk : ∀ d ∈ k.head?, (d == '.' || isOperator d) = false) :
    scan (op.toList ++ k) = .ok (.operator op, k) := by
  have htake : (tail ++ k).takeWhile (fun d => d == '.' || isOperator d) = tail :=
    (takeWhile_run (List.all_eq_true.1 htail) hk).1
  have hname : name? ('.' :: (tail ++ k)) = none := by
    have hhead : isNameHead '.' = false := by decide
    simp [name?, hhead, hpart]
  have hoperator : operator? ('.' :: (tail ++ k)) = some op.toList := by
    rw [operator?, if_pos (beq_self_eq_true '.'), htake, hop]
  have hdrop : ('.' :: (tail ++ k)).drop op.toList.length = k := by
    rw [hop, ← List.cons_append, List.drop_left]
  have hnumeral : numeral? ('.' :: (tail ++ k)) = none := numeral?_eq_none (by decide)
  rw [hop, List.cons_append, scan, hnumeral, hname, hoperator]
  dsimp only
  rw [hdrop, String.ofList_toList]

theorem endsBefore_iff {c : Char} : endsBefore op c = true ↔ isOperator c = false ∧
    (op.toList.head? = some '.' → c ≠ '.' ∧ (op = "." → isNameTail c = false)) := by
  by_cases hdot : op.toList.head? = some '.'
  · simp [endsBefore, hdot, imp_iff_not_or]
  · simp [endsBefore, hdot]

namespace IsOperatorToken

/-- A dot at the start of an operator starts no name. -/
theorem startsPart (h : IsOperatorToken op) (hop : op.toList = '.' :: tail)
    (hk : ∀ c ∈ k.head?, endsBefore op c = true) : startsPart (tail ++ k) = false := by
  cases tail with
  | nil =>
    cases k with
    | nil => rfl
    | cons c k =>
      have hhead : op.toList.head? = some '.' := by rw [hop, List.head?_cons]
      have hdot : op = "." := String.toList_inj.1 hop
      exact ((endsBefore_iff.1 (hk c rfl)).2 hhead).2 hdot
  | cons d tail =>
    have hname := h.2
    rw [hop, name?, ite_eq_right_iff] at hname
    simp_all [Token.startsPart]

theorem name?_append (h : IsOperatorToken op) (hk : ∀ c ∈ k.head?, endsBefore op c = true) :
    name? (op.toList ++ k) = none := by
  obtain ⟨c, tail, hop, hc⟩ := cons_of_isOperatorName h.1
  have hhead : isNameHead c = false := by
    cases hhead : isNameHead c with
    | false => rfl
    | true =>
      have hname := h.2
      rw [hop, name?, hhead, Bool.true_or, if_pos rfl] at hname
      cases hname
  rw [hop, List.cons_append, name?, hhead, Bool.false_or, if_neg]
  intro hpart
  rw [Bool.and_eq_true, beq_iff_eq] at hpart
  obtain ⟨rfl, hpart⟩ := hpart
  rw [h.startsPart hop hk] at hpart
  cases hpart

theorem operator?_append (h : IsOperatorToken op) (hk : ∀ c ∈ k.head?, endsBefore op c = true) :
    operator? (op.toList ++ k) = some op.toList := by
  obtain ⟨c, tail, hop, ⟨rfl, htail⟩ | ⟨hdot, hc, htail⟩⟩ := cons_of_isOperatorName h.1
  · have hstop : ∀ d ∈ k.head?, (d == '.' || isOperator d) = false := by
      intro d hd
      obtain ⟨hoperator, hafter⟩ := endsBefore_iff.1 (hk d hd)
      rw [Bool.or_eq_false_iff, beq_eq_false_iff_ne]
      exact ⟨(hafter (by rw [hop, List.head?_cons])).1, hoperator⟩
    rw [hop, List.cons_append, operator?, if_pos (beq_self_eq_true '.'),
      (takeWhile_run (List.all_eq_true.1 htail) hstop).1]
  · have hstop : ∀ d ∈ k.head?, isOperator d = false := fun d hd => (endsBefore_iff.1 (hk d hd)).1
    have hne : ¬(c == '.') = true := fun heq => hdot (beq_iff_eq.1 heq)
    rw [hop, List.cons_append, operator?, if_neg hne, if_pos hc,
      (takeWhile_run (List.all_eq_true.1 htail) hstop).1]

theorem not_isDigit (h : IsOperatorToken op) : ∀ c ∈ op.toList.head?, c.isDigit = false := by
  obtain ⟨c, tail, hop, hc⟩ := cons_of_isOperatorName h.1
  rw [hop]
  rintro d ⟨⟩
  rcases hc with ⟨rfl, -⟩ | ⟨-, hc, -⟩
  · decide
  · exact isDigit_of_isOperator hc

/-- An operator is read whole before any character that it does not take. -/
theorem scan (h : IsOperatorToken op) (hk : ∀ c ∈ k.head?, endsBefore op c = true) :
    scan (op.toList ++ k) = .ok (.operator op, k) := by
  have hname := h.name?_append hk
  have hoperator := h.operator?_append hk
  have hdigit := h.not_isDigit
  have hdrop : (op.toList ++ k).drop op.toList.length = k := List.drop_left
  cases hop : op.toList with
  | nil =>
    have htoken := h.1
    simp [isOperatorName, hop, operator?] at htoken
  | cons c tail =>
    rw [hop] at hname hoperator hdigit hdrop
    rw [List.cons_append] at hname hoperator hdrop ⊢
    rw [Token.scan, numeral?_eq_none (hdigit c rfl), hname, hoperator]
    dsimp only
    rw [hdrop, ← hop, String.ofList_toList]

end IsOperatorToken

/-! ### Numerals -/

section
open Number

variable {chars whole places : List Char} {x : Float}

theorem Breaks.exponent (hk : Breaks k) : exponent k = (false, [], 0) := by
  cases k with
  | nil => rfl
  | cons c k =>
    have hhead := hk.isNameHead c rfl
    have hc : (c == 'e' || c == 'E') = false := by
      rw [Bool.or_eq_false_iff, beq_eq_false_iff_ne, beq_eq_false_iff_ne]
      constructor <;>
      · rintro rfl
        revert hhead
        decide
    show (if (c == 'e' || c == 'E') = true then _ else _) = _
    rw [hc, if_neg Bool.false_ne_true]

/-- After the digits of a whole part stands a point or what follows the numeral. -/
theorem head_pointed (hk : Breaks k) :
    ∀ c ∈ (pointed places ++ k).head?, c.isDigit = false ∧ c ≠ 'x' := by
  intro c hc
  cases places with
  | nil =>
    refine ⟨hk.2 c hc, ?_⟩
    rintro rfl
    have hhead := hk.isNameHead 'x' hc
    revert hhead
    decide
  | cons d places =>
    obtain rfl : '.' = c := Option.some.inj hc
    decide

/-- A point before what is no digit is no part of a numeral. -/
theorem Breaks.fraction (hk : Breaks k) : fraction k = [] := by
  unfold Token.fraction
  split
  · rename_i cs
    cases cs with
    | nil => rfl
    | cons c cs =>
      have hpart : isNameTail c = false := by
        have hname := hk.1
        have hhead : Charset.isNameHead '.' = false := by decide
        simpa [name?, hhead, startsPart] using hname
      have hc : c.isDigit = false := by
        cases hdigit : c.isDigit with
        | false => rfl
        | true =>
          rw [isNameTail_of_isDigit hdigit] at hpart
          cases hpart
      rw [List.takeWhile_cons, hc, if_neg Bool.false_ne_true]
  · rfl

theorem fraction_eq_nil (hk : ∀ c ∈ k.head?, c ≠ '.') : fraction k = [] := by
  unfold fraction
  split
  · exact absurd rfl (hk '.' rfl)
  · rfl

theorem fraction_pointed (hplaces : ∀ c ∈ places, c.isDigit = true) (hk : fraction k = [])
    (hdigit : ∀ c ∈ k.head?, c.isDigit = false) : fraction (pointed places ++ k) = places := by
  cases places with
  | nil => exact hk
  | cons c places => exact (takeWhile_run hplaces hdigit).1

theorem hexadecimal?_eq_none (hne : whole ≠ []) (hwhole : ∀ c ∈ whole, c.isDigit = true)
    {rest : List Char} (hrest : ∀ c ∈ rest.head?, c ≠ 'x') :
    hexadecimal? (whole ++ rest) = none := by
  unfold hexadecimal?
  split
  · rename_i cs heq
    rcases whole with _ | ⟨c, _ | ⟨d, whole⟩⟩
    · exact absurd rfl hne
    · obtain rfl : rest = 'x' :: cs := (List.cons.inj heq).2
      exact absurd rfl (hrest 'x' rfl)
    · obtain rfl : d = 'x' := (List.cons.inj (List.cons.inj heq).2).1
      have hd := hwhole 'x' (List.mem_cons_of_mem c List.mem_cons_self)
      exact absurd hd (by decide)
  · rfl

theorem decimal?_pointed (hne : whole ≠ []) (hwhole : ∀ c ∈ whole, c.isDigit = true)
    (hplaces : ∀ c ∈ places, c.isDigit = true) (hk : Breaks k) :
    decimal? (whole ++ (pointed places ++ k)) =
      some (⟨whole, places, false, []⟩, (whole ++ pointed places).length) := by
  have htake : (whole ++ (pointed places ++ k)).takeWhile Char.isDigit = whole :=
    (takeWhile_run hwhole fun c hc => (head_pointed hk c hc).1).1
  have hempty : whole.isEmpty = false := List.isEmpty_eq_false_iff.2 hne
  have hlength : whole.length + (if places.isEmpty then 0 else 1 + places.length) =
      (whole ++ pointed places).length := by
    cases places with
    | nil => simp [pointed]
    | cons c places =>
      simp [pointed]
      omega
  have hdrop : (whole ++ (pointed places ++ k)).drop (whole ++ pointed places).length = k := by
    rw [← List.append_assoc, List.drop_left]
  unfold decimal?
  dsimp only
  have hfraction := fraction_pointed hplaces hk.fraction hk.2
  rw [htake, hempty, if_neg Bool.false_ne_true, List.drop_left, hfraction, hlength, hdrop,
    hk.exponent]
  rfl

/-- A numeral is read as the number that it denotes. -/
theorem scan_numeral (h : Denotes chars x) (hx : isFinite x = true) (hk : Breaks k) :
    scan (chars ++ k) = .ok (.number x, k) := by
  obtain ⟨whole, places, hne, hwhole, hplaces⟩ := h
  have hhex : hexadecimal? (whole ++ (pointed places ++ k)) = none :=
    hexadecimal?_eq_none hne hwhole fun c hc => (head_pointed hk c hc).2
  have hnumeral : numeral? (whole ++ pointed places ++ k) =
      some (Numeral.toFloat ⟨whole, places, false, []⟩, (whole ++ pointed places).length) := by
    rw [List.append_assoc, numeral?, hhex, decimal?_pointed hne hwhole hplaces hk]
    rfl
  rw [scan, hnumeral]
  dsimp only
  rw [if_pos hx, List.drop_left]

end
end Token
end Formula
