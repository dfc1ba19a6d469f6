import Formula.Proofs.Token.Quoting

/-! Texts that are one token. Main statement: the texts that count as names are those that scan whole
as a name, and the texts that count as operators are those that scan whole as an operator and those
that a name may start, which begin with a variation selector, or with a dot and a mark that may go
on a name. -/
namespace Formula

namespace Charset

variable {c : Char} {ranges others both : Ranges}

/-- These choose the form of the character before them. They may start a name, and they may stand
anywhere in an operator. -/
def variationSelectors : Ranges := [(0xFE00, 0xFE0F), (0xE0100, 0xE01EF)]

/-- Whether the character may go on a name and stand in an operator. -/
def isShared (c : Char) : Bool := variationSelectors.contains c || combiningMarks.contains c

theorem Ranges.contains_iff :
    ranges.contains c = true ↔ ∃ range ∈ ranges, range.1 ≤ c.toNat ∧ c.toNat ≤ range.2 := by
  simp [Ranges.contains]

/-- What two classes have in common, from what their ranges have in common. -/
theorem Ranges.contains_and (hdisjoint : ∀ range ∈ ranges, ∀ other ∈ others,
      range.2 < other.1 ∨ other.2 < range.1 ∨ other ∈ both)
    (hwithin : ∀ other ∈ both,
      (∃ range ∈ ranges, range.1 ≤ other.1 ∧ other.2 ≤ range.2) ∧ other ∈ others) :
    ranges.contains c = true ∧ others.contains c = true ↔ both.contains c = true := by
  simp only [Ranges.contains_iff]
  constructor
  · rintro ⟨⟨range, hrange, hlow, hhigh⟩, other, hother, hlow', hhigh'⟩
    rcases hdisjoint range hrange other hother with h | h | h
    · omega
    · omega
    · exact ⟨other, h, hlow', hhigh'⟩
  · rintro ⟨other, hother, hlow, hhigh⟩
    obtain ⟨⟨range, hrange, hlow', hhigh'⟩, hmem⟩ := hwithin other hother
    exact ⟨⟨range, hrange, by omega, by omega⟩, other, hmem, hlow, hhigh⟩

/-- Only variation selectors may start both a name and an operator. -/
theorem isNameHead_and_isOperator :
    isNameHead c = true ∧ isOperator c = true ↔ variationSelectors.contains c = true :=
  Ranges.contains_and (by decide +kernel) (by decide +kernel)

theorem isNameTail_and_isOperator :
    isNameTail c = true ∧ isOperator c = true ↔ isShared c = true := by
  have hmarks : combiningMarks.contains c = true → isOperator c = true := by
    intro h
    rw [isOperator, Ranges.contains_iff, operatorRanges]
    obtain ⟨range, hrange, hbounds⟩ := Ranges.contains_iff.1 h
    exact ⟨range, List.mem_append_right _ hrange, hbounds⟩
  rw [isNameTail, isShared, Bool.or_eq_true, Bool.or_eq_true, Bool.or_eq_true,
    ← isNameHead_and_isOperator]
  constructor
  · rintro ⟨(hhead | hdigit) | hmark, hoperator⟩
    · exact .inl ⟨hhead, hoperator⟩
    · rw [isDigit_of_isOperator hoperator] at hdigit
      cases hdigit
    · exact .inr hmark
  · rintro (⟨hhead, hoperator⟩ | hmark)
    · exact ⟨.inl (.inl hhead), hoperator⟩
    · exact ⟨.inr hmark, hmarks hmark⟩

end Charset

namespace Token

open Charset

variable {text : String} {c : Char} {tail : List Char}

/-- Whether a name may start a text of operator characters: at a variation selector, or at a dot
before a character that may go on a name. -/
def startsName : List Char → Bool
  | [] => false
  | c :: cs => if c = '.' then cs.head?.any isShared else variationSelectors.contains c

/-- An operator is a dot and then dots and operator characters, or operator characters only. -/
theorem isOperatorName_cons (htext : text.toList = c :: tail) : isOperatorName text = true ↔
    c = '.' ∧ tail.all (fun d => d == '.' || isOperator d) = true ∨
      c ≠ '.' ∧ isOperator c = true ∧ tail.all isOperator = true := by
  constructor
  · intro h
    obtain ⟨d, rest, hrest, hforms⟩ := cons_of_isOperatorName h
    rw [htext] at hrest
    cases hrest
    exact hforms
  · rw [isOperatorName, htext, decide_eq_true_eq, operator?]
    rintro (⟨rfl, htail⟩ | ⟨hdot, hc, htail⟩)
    · have htake := List.takeWhile_eq_self_iff.2 (List.all_eq_true.1 htail)
      rw [if_pos (beq_self_eq_true '.'), htake]
    · have htake := List.takeWhile_eq_self_iff.2 (List.all_eq_true.1 htail)
      rw [if_neg (by simpa using hdot), if_pos hc, htake]

/-- Text that counts as an operator has no name at its start, unless it begins with what names and
operators share. -/
theorem name?_of_isOperatorName (h : isOperatorName text = true) :
    name? text.toList = none ↔ startsName text.toList = false := by
  obtain ⟨c, tail, htext, hforms⟩ := cons_of_isOperatorName h
  rw [htext, name?, startsName]
  rcases hforms with ⟨rfl, htail⟩ | ⟨hdot, hc, -⟩
  · have hpart : startsPart tail = tail.head?.any isShared := by
      cases tail with
      | nil => rfl
      | cons d tail =>
        have hd := List.all_eq_true.1 htail d List.mem_cons_self
        rw [Bool.or_eq_true, beq_iff_eq] at hd
        rw [startsPart, List.head?_cons, Option.any_some, Bool.eq_iff_iff,
          ← isNameTail_and_isOperator]
        rcases hd with rfl | hd
        · decide
        · simp [hd]
    have hhead : isNameHead '.' = false := by decide
    simp [hhead, hpart]
  · rw [if_neg hdot, ← Bool.not_eq_true, ← isNameHead_and_isOperator]
    simp [hc, hdot]

/-! ### Whole scans -/

theorem isName_of_scan {rest : List Char} (h : scan text.toList = .ok (.name text, rest)) :
    isName text = true := by
  generalize htoken : Token.name text = token at h
  cases scanned h with
  | name found =>
    rw [Token.name.inj htoken]
    exact isName_of_name? found
  | _ => cases htoken

theorem scan_isOperatorName (h : isOperatorName text = true) (hname : name? text.toList = none) :
    scan text.toList = .ok (.operator text, []) := by
  have hoperator : operator? text.toList = some text.toList := of_decide_eq_true h
  have hnumeral : numeral? text.toList = none := by
    obtain ⟨c, tail, htext, hforms⟩ := cons_of_isOperatorName h
    rw [htext]
    apply numeral?_eq_none
    rcases hforms with ⟨rfl, -⟩ | ⟨-, hc, -⟩
    · decide
    · exact isDigit_of_isOperator hc
  rw [scan, hnumeral, hname, hoperator]
  dsimp only
  rw [List.drop_length, String.ofList_toList]

theorem isOperatorName_of_scan {rest : List Char}
    (h : scan text.toList = .ok (.operator text, rest)) :
    isOperatorName text = true ∧ name? text.toList = none := by
  generalize htoken : Token.operator text = token at h
  cases scanned h with
  | operator other found =>
    refine ⟨?_, other⟩
    rw [isOperatorName, found, Token.operator.inj htoken, String.toList_ofList, decide_eq_true rfl]
  | _ => cases htoken

/-! ### Texts that count as both -/

theorem mem_nameRun {cs : List Char} (h : c ∈ nameRun cs) : isNameTail c = true ∨ c = '.' := by
  fun_induction nameRun cs with
  | case1 => cases h
  | case2 d cs hd ih =>
    rcases List.mem_cons.1 h with rfl | h
    · rw [Bool.or_eq_true, Bool.and_eq_true, beq_iff_eq] at hd
      exact hd.imp_right And.left
    · exact ih h
  | case3 => cases h

theorem mem_of_isName (h : isName text = true) (hc : c ∈ text.toList) :
    isNameTail c = true ∨ c = '.' := by
  have hname : name? text.toList = some text.toList := of_decide_eq_true h
  cases htext : text.toList with
  | nil =>
    rw [htext] at hc
    cases hc
  | cons d tail =>
    rw [htext, name?, Option.ite_none_right_eq_some, Option.some.injEq, List.cons.injEq,
      Bool.or_eq_true, Bool.and_eq_true, beq_iff_eq] at hname
    obtain ⟨hd, -, hrun⟩ := hname
    rw [htext] at hc
    rcases List.mem_cons.1 hc with rfl | hc
    · rcases hd with hd | ⟨rfl, -⟩
      · exact .inl (by rw [isNameTail, hd, Bool.true_or, Bool.true_or])
      · exact .inr rfl
    · rw [← hrun] at hc
      exact mem_nameRun hc

/-- A name counts as an operator too if it has only characters that both may have, with dots only
after a first dot. -/
theorem isOperatorName_of_isName (h : isName text = true) : isOperatorName text = true ↔
    ∀ c ∈ text.toList, isShared c = true ∨ c = '.' ∧ text.toList.head? = some '.' := by
  have hshared (d : Char) (hd : d ∈ text.toList) (hoperator : isOperator d = true) :
      isShared d = true := by
    refine isNameTail_and_isOperator.1 ⟨(mem_of_isName h hd).resolve_right ?_, hoperator⟩
    rintro rfl
    exact absurd hoperator (by decide)
  have hoperator (d : Char) (hd : isShared d = true) : isOperator d = true :=
    (isNameTail_and_isOperator.2 hd).2
  cases htext : text.toList with
  | nil => simp [isName, htext, name?] at h
  | cons c tail =>
    rw [htext] at hshared
    rw [isOperatorName_cons htext]
    simp only [List.all_eq_true, Bool.or_eq_true, beq_iff_eq, List.head?_cons, Option.some.injEq]
    constructor
    · rintro (⟨rfl, htail⟩ | ⟨hdot, hc, htail⟩) d hd
      · rcases List.mem_cons.1 hd with rfl | hd'
        · exact .inr ⟨rfl, rfl⟩
        · rcases htail d hd' with rfl | hd'
          · exact .inr ⟨rfl, rfl⟩
          · exact .inl (hshared d hd hd')
      · refine .inl (hshared d hd ?_)
        rcases List.mem_cons.1 hd with rfl | hd
        · exact hc
        · exact htail d hd
    · intro hall
      by_cases hdot : c = '.'
      · refine .inl ⟨hdot, fun d hd => ?_⟩
        rcases hall d (List.mem_cons_of_mem c hd) with hd | ⟨rfl, -⟩
        · exact .inr (hoperator d hd)
        · exact .inl rfl
      · have hrun (d : Char) (hd : d ∈ c :: tail) : isOperator d = true :=
          hoperator d ((hall d hd).resolve_right fun hd => hdot hd.2)
        exact .inr ⟨hdot, hrun c List.mem_cons_self, fun d hd => hrun d (List.mem_cons_of_mem c hd)⟩

/-- A text counts as a name if it scans whole as a name, and only then. It scans whole as an operator
if it counts as one and does not begin with what names and operators share, and only then. The texts
that count as both are the names of shared characters, with dots only after a first dot. -/
theorem scan_whole (text : String) :
    (isName text = true ↔ scan text.toList = .ok (.name text, [])) ∧
    (scan text.toList = .ok (.operator text, []) ↔
      isOperatorName text = true ∧ startsName text.toList = false) ∧
    (isName text = true ∧ isOperatorName text = true ↔ isName text = true ∧
      ∀ c ∈ text.toList, isShared c = true ∨ c = '.' ∧ text.toList.head? = some '.') := by
  refine ⟨⟨scan_isName, isName_of_scan⟩, ⟨fun h => ?_, fun ⟨h, hstart⟩ => ?_⟩,
    and_congr_right isOperatorName_of_isName⟩
  · obtain ⟨hoperator, hname⟩ := isOperatorName_of_scan h
    exact ⟨hoperator, (name?_of_isOperatorName hoperator).1 hname⟩
  · exact scan_isOperatorName h ((name?_of_isOperatorName h).2 hstart)

/-- A variation selector alone counts as both, and scans as a name. -/
theorem scan_whole_ne :
    isOperatorName "\uFE00" = true ∧ isName "\uFE00" = true ∧
      scan "\uFE00".toList = .ok (.name "\uFE00", []) ∧
      scan "\uFE00".toList ≠ .ok (.operator "\uFE00", []) := by
  have hname : isName "\uFE00" = true := by decide +kernel
  have hscan := scan_isName hname
  refine ⟨by decide +kernel, hname, hscan, ?_⟩
  rw [hscan]
  simp

end Token
end Formula
