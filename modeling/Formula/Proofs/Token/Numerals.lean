import Formula.Proofs.Token.Grammar

/-! Numerals as words of regular languages. Main statements: the text of a numeral is the longest
word at the start of the text that is a numeral, although a point and an exponent are only tried
when what stands before them has been taken; and it is read as the same number when it stands
alone. -/
namespace Formula.Token

open Charset
open scoped Computability

variable {cs rest word : List Char} {c : Char} {p : Char → Bool}

/-! ### Languages of numerals -/

def fractions : Language Char := 1 + dotted Char.isDigit

/-- The sign of an exponent, or nothing. -/
def signs : Language Char := 1 + single fun c => c == '+' || c == '-'

def exponents : Language Char :=
  1 + single (fun c => c == 'e' || c == 'E') * signs * run Char.isDigit

def decimals : Language Char := run Char.isDigit * fractions * exponents

def hexadecimals : Language Char := single (· == '0') * single (· == 'x') * run isHexDigit

/-- The text of the numeral at the start. -/
def numeralText? (cs : List Char) : Option (List Char) :=
  (numeral? cs).map fun found => cs.take found.2

def startsHexadecimal : List Char → Bool
  | '0' :: 'x' :: c :: _ => isHexDigit c
  | _ => false

/-- The numerals that are looked for at the start of the text. -/
def numerals (cs : List Char) : Language Char :=
  if startsHexadecimal cs = true then hexadecimals else decimals

/-! ### Words one after the other -/

/-- What a scan takes, `taken`, covers two words that stand one after the other at the start of the
text: they end within it, or else the first of them is all of it. -/
def Covers (words others : Language Char) (cs taken : List Char) : Prop :=
  ∀ word ∈ words, ∀ other ∈ others, word ++ other <+: cs →
    word = taken ∧ other <+: cs.drop taken.length ∨ other = [] ∧ word <+: taken

theorem Covers.seq {words others more : Language Char} {taken next : List Char}
    (h : Covers words (others * more) cs taken)
    (hnext : Covers others more (cs.drop taken.length) next) :
    Covers (words * others) more cs (taken ++ next) := by
  rintro _ ⟨word, hword, other, hother, rfl⟩ last hlast hcs
  rw [List.append_assoc] at hcs
  rcases h word hword _ ⟨other, hother, last, hlast, rfl⟩ hcs with ⟨rfl, hrest⟩ | ⟨hnil, hfront⟩
  · rcases hnext other hother last hlast hrest with ⟨rfl, hrest⟩ | ⟨hnil, hfront⟩
    · refine .inl ⟨rfl, ?_⟩
      rwa [List.length_append, ← List.drop_drop]
    · exact .inr ⟨hnil, List.prefix_append_right_inj word |>.2 hfront⟩
  · obtain ⟨rfl, rfl⟩ := List.append_eq_nil_iff.1 hnil
    refine .inr ⟨rfl, ?_⟩
    change word ++ [] <+: taken ++ next
    rw [List.append_nil]
    exact hfront.trans (List.prefix_append taken next)

theorem prefix_append_of_drop {other : List Char} (h : word <+: cs)
    (hother : other <+: cs.drop word.length) : word ++ other <+: cs := by
  obtain ⟨tail, rfl⟩ := h
  rw [List.drop_left] at hother
  exact (List.prefix_append_right_inj word).2 hother

theorem takeWhile_covers {other : List Char} (hword : ∀ c ∈ word, p c = true)
    (hother : ∀ c ∈ other.head?, p c = false) (h : word ++ other <+: cs) :
    word = cs.takeWhile p ∧ other <+: cs.drop (cs.takeWhile p).length ∨
      other = [] ∧ word <+: cs.takeWhile p := by
  cases other with
  | nil =>
    rw [List.append_nil] at h
    exact .inr ⟨rfl, prefix_takeWhile hword h⟩
  | cons c other =>
    obtain ⟨tail, rfl⟩ := h
    have htake : (word ++ c :: other ++ tail).takeWhile p = word := by
      rw [List.append_assoc]
      exact (takeWhile_run (k := c :: other ++ tail) hword hother).1
    rw [htake, List.append_assoc, List.drop_left]
    exact .inl ⟨rfl, List.prefix_append (c :: other) tail⟩

theorem covers_run {others : Language Char}
    (hothers : ∀ other ∈ others, ∀ c ∈ other.head?, p c = false) (cs : List Char) :
    Covers (run p) others cs (cs.takeWhile p) := fun _ hword other hother h =>
  takeWhile_covers (mem_run.1 hword).2 (hothers other hother) h

/-! ### Fractions -/

theorem pointed_of_ne_nil (h : word ≠ []) : Number.pointed word = '.' :: word := by
  obtain ⟨c, tail, rfl⟩ := List.exists_cons_of_ne_nil h
  rfl

theorem length_pointed (word : List Char) :
    (Number.pointed word).length = if word.isEmpty then 0 else 1 + word.length := by
  cases word with
  | nil => rfl
  | cons c word => simp [Number.pointed, Nat.add_comm]

theorem take_fraction (cs : List Char) :
    cs.take (if (fraction cs).isEmpty then 0 else 1 + (fraction cs).length) =
      Number.pointed (fraction cs) := by
  by_cases hempty : fraction cs = []
  · rw [hempty]
    rfl
  · obtain ⟨rest, rfl⟩ : ∃ rest, cs = '.' :: rest := by
      by_contra hdot
      refine hempty (fraction_eq_nil fun c hc => ?_)
      rintro rfl
      exact hdot ⟨cs.tail, (List.cons_head?_tail hc).symm⟩
    have hfraction : fraction ('.' :: rest) = rest.takeWhile Char.isDigit := rfl
    rw [if_neg (by simpa using hempty), pointed_of_ne_nil hempty, hfraction, Nat.add_comm,
      List.take_succ_cons, ← List.prefix_iff_eq_take.1 (List.takeWhile_prefix _)]

theorem isDigit_of_mem_fraction (h : c ∈ fraction cs) : c.isDigit = true := by
  unfold fraction at h
  split at h
  · exact List.mem_takeWhile_imp h
  · cases h

theorem fraction_mem (cs : List Char) : Number.pointed (fraction cs) ∈ fractions := by
  by_cases hempty : fraction cs = []
  · rw [hempty]
    exact .inl rfl
  · rw [pointed_of_ne_nil hempty]
    exact .inr (mem_dotted.2 ⟨_, rfl, mem_run.2 ⟨hempty, fun _ => isDigit_of_mem_fraction⟩⟩)

theorem covers_fractions {others : Language Char}
    (hothers : ∀ other ∈ others, ∀ c ∈ other.head?, c ≠ '.' ∧ c.isDigit = false)
    (cs : List Char) : Covers fractions others cs (Number.pointed (fraction cs)) := by
  intro word hword other hother h
  rcases hword with hword | hword
  · obtain rfl : word = [] := hword
    cases other with
    | nil => exact .inr ⟨rfl, List.nil_prefix⟩
    | cons c other =>
      have hnone : fraction cs = [] := by
        apply fraction_eq_nil
        obtain ⟨tail, rfl⟩ := h
        rintro d ⟨⟩
        exact (hothers _ hother c rfl).1
      rw [hnone]
      exact .inl ⟨rfl, h⟩
  · obtain ⟨part, rfl, hpart⟩ := mem_dotted.1 hword
    obtain ⟨hne, hdigits⟩ := mem_run.1 hpart
    obtain ⟨tail, rfl⟩ := h
    have hfraction : fraction ('.' :: part ++ other ++ tail) =
        (part ++ other ++ tail).takeWhile Char.isDigit := rfl
    have hhead (c : Char) (hc : c ∈ other.head?) : c.isDigit = false :=
      (hothers other hother c hc).2
    have htaken : (part ++ other ++ tail).takeWhile Char.isDigit ≠ [] := by
      rw [List.append_assoc, List.takeWhile_append_of_pos hdigits]
      exact List.append_ne_nil_of_left_ne_nil hne _
    rw [hfraction, pointed_of_ne_nil htaken]
    rcases takeWhile_covers hdigits hhead (List.prefix_append (part ++ other) tail) with
      ⟨htake, hrest⟩ | ⟨hnil, hfront⟩
    · exact .inl ⟨congrArg _ htake, hrest⟩
    · exact .inr ⟨hnil, List.cons_prefix_cons.2 ⟨rfl, hfront⟩⟩

/-! ### Exponents -/

theorem mem_signs : word ∈ signs ↔ word = [] ∨ word = ['-'] ∨ word = ['+'] := by
  constructor
  · rintro (hword | ⟨c, hc, rfl⟩)
    · exact .inl hword
    · rw [Bool.or_eq_true, beq_iff_eq, beq_iff_eq] at hc
      rcases hc with rfl | rfl
      · exact .inr (.inr rfl)
      · exact .inr (.inl rfl)
  · rintro (rfl | rfl | rfl)
    · exact .inl rfl
    · exact .inr ⟨'-', rfl, rfl⟩
    · exact .inr ⟨'+', rfl, rfl⟩

/-- A mark, a sign or none, and then digits are an exponent. -/
theorem exponent_signed (hmark : (c == 'e' || c == 'E') = true) {sign : List Char}
    (hsign : sign ∈ signs) (hrest : sign = [] → ∀ d ∈ rest.head?, d ≠ '-' ∧ d ≠ '+') :
    exponent (c :: (sign ++ rest)) =
      if (rest.takeWhile Char.isDigit).isEmpty then (false, [], 0)
      else (sign == ['-'], rest.takeWhile Char.isDigit,
        1 + sign.length + (rest.takeWhile Char.isDigit).length) := by
  rcases mem_signs.1 hsign with rfl | rfl | rfl
  · have hunsigned := hrest rfl
    cases rest with
    | nil => simp [exponent, hmark]
    | cons d rest =>
      obtain ⟨hminus, hplus⟩ := hunsigned d rfl
      simp [exponent, hmark, hminus, hplus]
  · simp [exponent, hmark]
  · simp [exponent, hmark]

/-- Text after the mark of an exponent, split after its sign. -/
theorem exists_sign (cs : List Char) : ∃ sign ∈ signs, ∃ rest, cs = sign ++ rest ∧
    (sign = [] → ∀ d ∈ rest.head?, d ≠ '-' ∧ d ≠ '+') := by
  cases cs with
  | nil => exact ⟨[], mem_signs.2 (.inl rfl), [], rfl, by simp⟩
  | cons c cs =>
    by_cases hc : c = '-' ∨ c = '+'
    · refine ⟨[c], mem_signs.2 (.inr ?_), cs, rfl, by simp⟩
      rcases hc with rfl | rfl
      · exact .inl rfl
      · exact .inr rfl
    · rw [not_or] at hc
      refine ⟨[], mem_signs.2 (.inl rfl), c :: cs, rfl, ?_⟩
      rintro - d ⟨⟩
      exact hc

theorem mem_exponents : word ∈ exponents ↔ word = [] ∨ ∃ c sign digits,
    word = c :: (sign ++ digits) ∧ (c == 'e' || c == 'E') = true ∧ sign ∈ signs ∧
      digits ∈ run Char.isDigit := by
  have hmarked : word ∈ exponents ↔ word ∈ (1 : Language Char) ∨
      word ∈ single (fun c => c == 'e' || c == 'E') * (signs * run Char.isDigit) := by
    rw [← mul_assoc]
    rfl
  rw [hmarked, mem_single_mul]
  refine or_congr Iff.rfl ⟨?_, ?_⟩
  · rintro ⟨c, tail, rfl, hc, sign, hsign, digits, hdigits, rfl⟩
    exact ⟨c, sign, digits, rfl, hc, hsign, hdigits⟩
  · rintro ⟨c, sign, digits, rfl, hc, hsign, hdigits⟩
    exact ⟨c, sign ++ digits, rfl, hc, sign, hsign, digits, hdigits, rfl⟩

theorem exponent_head (h : word ∈ exponents) :
    ∀ c ∈ word.head?, c ≠ '.' ∧ c.isDigit = false := by
  rcases mem_exponents.1 h with rfl | ⟨c, sign, digits, rfl, hmark, -⟩
  · rintro c ⟨⟩
  · rw [Bool.or_eq_true, beq_iff_eq, beq_iff_eq] at hmark
    rintro d ⟨⟩
    rcases hmark with rfl | rfl <;> decide

/-- The text of the exponent at the start. -/
def exponentText (cs : List Char) : List Char := cs.take (exponent cs).2.2

/-- At the start there is no exponent, or there is a mark, a sign or none, and digits. -/
theorem exponentText_cases (cs : List Char) :
    exponentText cs = [] ∧ exponent cs = (false, [], 0) ∨ ∃ c sign digits,
      exponentText cs = c :: (sign ++ digits) ∧ (c == 'e' || c == 'E') = true ∧ sign ∈ signs ∧
        digits ∈ run Char.isDigit ∧
        exponent cs = (sign == ['-'], digits, 1 + sign.length + digits.length) := by
  unfold exponentText
  cases cs with
  | nil => exact .inl ⟨rfl, rfl⟩
  | cons c cs =>
    by_cases hmark : (c == 'e' || c == 'E') = true
    · obtain ⟨sign, hsign, rest, rfl, hrest⟩ := exists_sign cs
      have hexponent := exponent_signed hmark hsign hrest
      by_cases hempty : (rest.takeWhile Char.isDigit).isEmpty = true
      · rw [if_pos hempty] at hexponent
        rw [hexponent]
        exact .inl ⟨rfl, rfl⟩
      · rw [if_neg hempty] at hexponent
        rw [hexponent]
        have htake : (c :: (sign ++ rest)).take
            (1 + sign.length + (rest.takeWhile Char.isDigit).length) =
              c :: (sign ++ rest.takeWhile Char.isDigit) := by
          have hdigits : rest.take (rest.takeWhile Char.isDigit).length =
              rest.takeWhile Char.isDigit :=
            (List.prefix_iff_eq_take.1 (List.takeWhile_prefix _)).symm
          rw [Nat.add_assoc, Nat.add_comm, List.take_succ_cons, List.take_length_add_append,
            hdigits]
        refine .inr ⟨c, sign, rest.takeWhile Char.isDigit, htake, hmark, hsign, ?_, rfl⟩
        exact mem_run.2 ⟨by simpa using hempty, fun d hd => List.mem_takeWhile_imp hd⟩
    · have hnone : exponent (c :: cs) = (false, [], 0) := if_neg hmark
      rw [hnone]
      exact .inl ⟨rfl, rfl⟩

theorem length_exponentText (cs : List Char) : (exponentText cs).length = (exponent cs).2.2 := by
  rcases exponentText_cases cs with ⟨htext, hnone⟩ | ⟨c, sign, digits, htext, -, -, -, hexponent⟩
  · rw [htext, hnone]
    rfl
  · rw [htext, hexponent, List.length_cons, List.length_append]
    dsimp only
    omega

theorem exponentText_mem (cs : List Char) : exponentText cs ∈ exponents := by
  rcases exponentText_cases cs with ⟨htext, -⟩ | ⟨c, sign, digits, htext, hmark, hsign, hdigits, -⟩
  · exact mem_exponents.2 (.inl htext)
  · exact mem_exponents.2 (.inr ⟨c, sign, digits, htext, hmark, hsign, hdigits⟩)

theorem digits_unsigned (h : word ∈ run Char.isDigit) (cs : List Char) :
    ∀ d ∈ (word ++ cs).head?, d ≠ '-' ∧ d ≠ '+' := by
  obtain ⟨hne, hdigits⟩ := mem_run.1 h
  obtain ⟨c, tail, rfl⟩ := List.exists_cons_of_ne_nil hne
  have hc := hdigits c List.mem_cons_self
  rintro d ⟨⟩
  constructor <;>
  · rintro rfl
    exact absurd hc (by decide)

/-- An exponent that stands alone is read as before. -/
theorem exponent_exponentText (cs : List Char) : exponent (exponentText cs) = exponent cs := by
  rcases exponentText_cases cs with
    ⟨htext, hnone⟩ | ⟨c, sign, digits, htext, hmark, hsign, hdigits, hexponent⟩
  · rw [htext, hnone]
    rfl
  · have hunsigned := digits_unsigned hdigits []
    rw [List.append_nil] at hunsigned
    obtain ⟨hne, hall⟩ := mem_run.1 hdigits
    have hempty : ¬digits.isEmpty = true := by simpa using hne
    rw [htext, hexponent, exponent_signed hmark hsign fun _ => hunsigned,
      List.takeWhile_eq_self_iff.2 hall, if_neg hempty]

theorem covers_exponents (cs : List Char) : Covers exponents 1 cs (exponentText cs) := by
  rintro word hword other hother h
  obtain rfl : other = [] := hother
  rw [List.append_nil] at h
  refine .inr ⟨rfl, ?_⟩
  rcases mem_exponents.1 hword with rfl | ⟨c, sign, digits, rfl, hmark, hsign, hdigits⟩
  · exact List.nil_prefix
  · obtain ⟨tail, rfl⟩ := h
    have hunsigned := digits_unsigned hdigits tail
    obtain ⟨hne, hall⟩ := mem_run.1 hdigits
    have htake : (digits ++ tail).takeWhile Char.isDigit = digits ++ tail.takeWhile Char.isDigit :=
      List.takeWhile_append_of_pos hall
    have hempty : ¬(digits ++ tail.takeWhile Char.isDigit).isEmpty = true := by simp [hne]
    have hexponent := exponent_signed hmark hsign fun _ => hunsigned
    rw [htake, if_neg hempty] at hexponent
    have happend : c :: (sign ++ digits) ++ tail = c :: (sign ++ (digits ++ tail)) := by simp
    rw [exponentText, List.prefix_take_iff, happend, hexponent]
    refine ⟨⟨tail, happend⟩, ?_⟩
    simp only [List.length_cons, List.length_append]
    omega

/-! ### Decimal numerals -/

def afterWhole (cs : List Char) : List Char := cs.drop (cs.takeWhile Char.isDigit).length

def afterPoint (cs : List Char) : List Char :=
  (afterWhole cs).drop (Number.pointed (fraction (afterWhole cs))).length

theorem drop_pointed (cs : List Char) :
    cs.drop (cs.takeWhile Char.isDigit ++ Number.pointed (fraction (afterWhole cs))).length =
      afterPoint cs := by
  rw [List.length_append, ← List.drop_drop]
  rfl

/-- What the digits, the point and the exponent at the start make up. -/
def decimalText (cs : List Char) : List Char :=
  cs.takeWhile Char.isDigit ++ Number.pointed (fraction (afterWhole cs)) ++
    exponentText (afterPoint cs)

theorem decimal?_eq (cs : List Char) : decimal? cs =
    if cs.takeWhile Char.isDigit = [] then none
    else some (⟨cs.takeWhile Char.isDigit, fraction (afterWhole cs), (exponent (afterPoint cs)).1,
      (exponent (afterPoint cs)).2.1⟩, (decimalText cs).length) := by
  by_cases hempty : cs.takeWhile Char.isDigit = []
  · rw [if_pos hempty]
    exact if_pos (by simpa using hempty)
  · rw [if_neg hempty]
    have hlength : (decimalText cs).length = (cs.takeWhile Char.isDigit).length +
        (Number.pointed (fraction (afterWhole cs))).length + (exponent (afterPoint cs)).2.2 := by
      rw [decimalText, List.length_append, List.length_append, length_exponentText]
    unfold decimal?
    dsimp only
    rw [if_neg (by simpa using hempty), hlength, ← length_pointed, ← List.drop_drop]
    rfl

theorem prefix_decimalText (cs : List Char) : decimalText cs <+: cs := by
  have hpoint : Number.pointed (fraction (afterWhole cs)) <+: afterWhole cs := by
    rw [← take_fraction]
    exact List.take_prefix _ _
  refine prefix_append_of_drop (prefix_append_of_drop (List.takeWhile_prefix _) hpoint) ?_
  rw [drop_pointed]
  exact List.take_prefix _ _

theorem fraction_head (h : word ∈ fractions * exponents) :
    ∀ c ∈ word.head?, c.isDigit = false := by
  obtain ⟨point, hpoint, mark, hmark, rfl⟩ := h
  rcases hpoint with hpoint | hpoint
  · obtain rfl : point = [] := hpoint
    exact fun c hc => (exponent_head hmark c hc).2
  · obtain ⟨part, rfl, -⟩ := mem_dotted.1 hpoint
    rintro c ⟨⟩
    decide

theorem covers_decimals (cs : List Char) : Covers decimals 1 cs (decimalText cs) := by
  have hwhole := covers_run (p := Char.isDigit) (fun _ => fraction_head) cs
  have hpointed : Covers (run Char.isDigit * fractions) exponents cs
      (cs.takeWhile Char.isDigit ++ Number.pointed (fraction (afterWhole cs))) :=
    hwhole.seq (covers_fractions (fun _ => exponent_head) _)
  rw [← mul_one exponents] at hpointed
  refine hpointed.seq ?_
  rw [drop_pointed]
  exact covers_exponents _

/-- Every decimal numeral starts with a digit. -/
theorem decimal_head (h : word ∈ decimals) (hcs : word <+: cs) :
    cs.takeWhile Char.isDigit ≠ [] := by
  obtain ⟨_, ⟨whole, hwhole, point, -, rfl⟩, mark, -, rfl⟩ := h
  obtain ⟨hne, hdigits⟩ := mem_run.1 hwhole
  obtain ⟨tail, rfl⟩ := hcs
  change (whole ++ point ++ mark ++ tail).takeWhile Char.isDigit ≠ []
  rw [List.append_assoc, List.append_assoc, List.takeWhile_append_of_pos hdigits]
  exact List.append_ne_nil_of_left_ne_nil hne _

theorem decimal?_longest (cs : List Char) :
    Longest decimals cs ((decimal? cs).map fun found => cs.take found.2) := by
  rw [decimal?_eq]
  by_cases hempty : cs.takeWhile Char.isDigit = []
  · rw [if_pos hempty]
    exact fun word hword hcs => decimal_head hword hcs hempty
  · have hfront := prefix_decimalText cs
    rw [if_neg hempty, Option.map_some, ← List.prefix_iff_eq_take.1 hfront]
    refine longest_some ?_ ?_ hfront ?_
    · exact List.append_ne_nil_of_left_ne_nil (List.append_ne_nil_of_left_ne_nil hempty _) _
    · have hwhole : cs.takeWhile Char.isDigit ∈ run Char.isDigit :=
        mem_run.2 ⟨hempty, fun c hc => List.mem_takeWhile_imp hc⟩
      exact ⟨_, ⟨_, hwhole, _, fraction_mem _, rfl⟩, _, exponentText_mem _, rfl⟩
    · intro word hword hcs
      rw [← List.append_nil word] at hcs
      rcases covers_decimals cs word hword [] rfl hcs with ⟨rfl, -⟩ | ⟨-, hword⟩
      · exact List.prefix_rfl
      · exact hword

/-- A decimal numeral that stands alone is read as before. -/
theorem decimal?_decimalText {numeral : Number.Numeral} {length : Nat}
    (h : decimal? cs = some (numeral, length)) :
    decimal? (decimalText cs) = some (numeral, length) := by
  rw [decimal?_eq] at h ⊢
  have hmark := exponent_head (exponentText_mem (afterPoint cs))
  have hpoint :=
    fraction_head ⟨_, fraction_mem (afterWhole cs), _, exponentText_mem (afterPoint cs), rfl⟩
  have hwhole : (decimalText cs).takeWhile Char.isDigit = cs.takeWhile Char.isDigit := by
    rw [decimalText, List.append_assoc]
    exact (takeWhile_run (fun c hc => List.mem_takeWhile_imp hc) hpoint).1
  have hafterWhole : afterWhole (decimalText cs) =
      Number.pointed (fraction (afterWhole cs)) ++ exponentText (afterPoint cs) := by
    rw [afterWhole, hwhole, decimalText, List.append_assoc, List.drop_left]
  have hfraction : fraction (afterWhole (decimalText cs)) = fraction (afterWhole cs) := by
    rw [hafterWhole, fraction_pointed (fun _ => isDigit_of_mem_fraction)
      (fraction_eq_nil fun c hc => (hmark c hc).1) fun c hc => (hmark c hc).2]
  have hafterPoint : afterPoint (decimalText cs) = exponentText (afterPoint cs) := by
    rw [afterPoint, hfraction, hafterWhole, List.drop_left]
  have hexponent : exponentText (exponentText (afterPoint cs)) = exponentText (afterPoint cs) := by
    rw [exponentText, exponent_exponentText, ← length_exponentText, List.take_length]
  have htext : decimalText (decimalText cs) = decimalText cs := by
    rw [decimalText, hwhole, hfraction, hafterPoint, hexponent, decimalText]
  rw [hwhole, hfraction, hafterPoint, exponent_exponentText, htext]
  exact h

/-! ### Hexadecimal numerals -/

theorem hexadecimal?_eq_some {digits : List Char} : hexadecimal? cs = some digits ↔
    ∃ rest, cs = '0' :: 'x' :: rest ∧ digits = rest.takeWhile isHexDigit ∧ digits ≠ [] := by
  constructor
  · intro h
    unfold hexadecimal? at h
    split at h
    · rename_i rest
      rw [Option.ite_none_left_eq_some, Option.some.injEq] at h
      obtain ⟨hne, rfl⟩ := h
      exact ⟨rest, rfl, rfl, by simpa using hne⟩
    · cases h
  · rintro ⟨rest, rfl, rfl, hne⟩
    exact if_neg (by simpa using hne)

theorem startsHexadecimal_iff : startsHexadecimal cs = true ↔ (hexadecimal? cs).isSome = true := by
  constructor
  · intro h
    unfold startsHexadecimal at h
    split at h
    · rename_i c rest
      have hne : (c :: rest).takeWhile isHexDigit ≠ [] := by
        rw [List.takeWhile_cons_of_pos h]
        exact List.cons_ne_nil _ _
      exact Option.isSome_iff_exists.2 ⟨_, hexadecimal?_eq_some.2 ⟨_, rfl, rfl, hne⟩⟩
    · cases h
  · intro h
    obtain ⟨digits, hdigits⟩ := Option.isSome_iff_exists.1 h
    obtain ⟨rest, rfl, rfl, hne⟩ := hexadecimal?_eq_some.1 hdigits
    cases rest with
    | nil => exact absurd rfl hne
    | cons c rest =>
      by_contra hc
      exact hne (List.takeWhile_cons_of_neg hc)

theorem mem_hexadecimals : word ∈ hexadecimals ↔
    ∃ digits ∈ run isHexDigit, word = '0' :: 'x' :: digits := by
  rw [hexadecimals, mul_assoc, mem_single_mul]
  constructor
  · rintro ⟨c, tail, rfl, hc, htail⟩
    obtain ⟨d, digits, rfl, hd, hdigits⟩ := mem_single_mul.1 htail
    rw [beq_iff_eq.1 hc, beq_iff_eq.1 hd]
    exact ⟨digits, hdigits, rfl⟩
  · rintro ⟨digits, hdigits, rfl⟩
    exact ⟨'0', _, rfl, rfl, mem_single_mul.2 ⟨'x', digits, rfl, rfl, hdigits⟩⟩

/-- A hexadecimal numeral takes all digits there are. -/
theorem hexadecimal?_longest {digits : List Char} (h : hexadecimal? cs = some digits) :
    Longest hexadecimals cs (some ('0' :: 'x' :: digits)) := by
  obtain ⟨rest, rfl, rfl, hne⟩ := hexadecimal?_eq_some.1 h
  refine longest_some (List.cons_ne_nil _ _) ?_ ?_ ?_
  · refine mem_hexadecimals.2 ⟨_, mem_run.2 ⟨hne, ?_⟩, rfl⟩
    exact fun c hc => List.mem_takeWhile_imp hc
  · exact List.cons_prefix_cons.2 ⟨rfl, List.cons_prefix_cons.2 ⟨rfl, List.takeWhile_prefix _⟩⟩
  · intro word hword hcs
    obtain ⟨other, hother, rfl⟩ := mem_hexadecimals.1 hword
    have hfront := (List.cons_prefix_cons.1 (List.cons_prefix_cons.1 hcs).2).2
    have hall := prefix_takeWhile (mem_run.1 hother).2 hfront
    exact List.cons_prefix_cons.2 ⟨rfl, List.cons_prefix_cons.2 ⟨rfl, hall⟩⟩

/-! ### All numerals -/

theorem take_hexadecimal {digits : List Char} (h : hexadecimal? cs = some digits) :
    cs.take (2 + digits.length) = '0' :: 'x' :: digits := by
  obtain ⟨rest, rfl, rfl, -⟩ := hexadecimal?_eq_some.1 h
  rw [Nat.add_comm, List.take_succ_cons, List.take_succ_cons,
    ← List.prefix_iff_eq_take.1 (List.takeWhile_prefix _)]

theorem numeral?_longest (cs : List Char) : Longest (numerals cs) cs (numeralText? cs) := by
  unfold numerals numeralText? numeral?
  cases hhex : hexadecimal? cs with
  | some digits =>
    have hstart : startsHexadecimal cs = true := startsHexadecimal_iff.2 (by rw [hhex]; rfl)
    rw [if_pos hstart, Option.map_some, take_hexadecimal hhex]
    exact hexadecimal?_longest hhex
  | none =>
    have hstart : ¬startsHexadecimal cs = true := by
      rw [startsHexadecimal_iff, hhex]
      exact Bool.false_ne_true
    rw [if_neg hstart, Option.map_map]
    exact decimal?_longest cs

theorem startsHexadecimal_mono (h : startsHexadecimal word = true) (hcs : word <+: cs) :
    startsHexadecimal cs = true := by
  obtain ⟨tail, rfl⟩ := hcs
  unfold startsHexadecimal at h
  split at h
  · exact h
  · cases h

/-- A numeral that stands alone is read as the same number. -/
theorem numeral?_take {value : Float} {length : Nat} (h : numeral? cs = some (value, length)) :
    numeral? (cs.take length) = some (value, (cs.take length).length) := by
  unfold numeral? at h
  cases hhex : hexadecimal? cs with
  | some digits =>
    rw [hhex] at h
    obtain ⟨rfl, rfl⟩ := Prod.mk.inj (Option.some.inj h)
    obtain ⟨hne, hdigits⟩ : digits ≠ [] ∧ digits.takeWhile isHexDigit = digits := by
      obtain ⟨rest, -, rfl, hne⟩ := hexadecimal?_eq_some.1 hhex
      exact ⟨hne, List.takeWhile_eq_self_iff.2 fun c hc => List.mem_takeWhile_imp hc⟩
    have halone : hexadecimal? ('0' :: 'x' :: digits) = some digits :=
      hexadecimal?_eq_some.2 ⟨digits, rfl, hdigits.symm, hne⟩
    have hlength : ('0' :: 'x' :: digits).length = 2 + digits.length := by
      rw [List.length_cons, List.length_cons]
      omega
    rw [take_hexadecimal hhex, numeral?, halone, hlength]
  | none =>
    rw [hhex] at h
    obtain ⟨⟨numeral, n⟩, hdecimal, hpair⟩ := Option.map_eq_some_iff.1 h
    obtain ⟨rfl, rfl⟩ := Prod.mk.inj hpair
    have hlength : n = (decimalText cs).length := by
      rw [decimal?_eq, Option.ite_none_left_eq_some] at hdecimal
      exact (Prod.mk.inj (Option.some.inj hdecimal.2)).2.symm
    have htake : cs.take n = decimalText cs := by
      rw [hlength, ← List.prefix_iff_eq_take.1 (prefix_decimalText cs)]
    have halone : hexadecimal? (decimalText cs) = none := by
      rw [← Option.not_isSome_iff_eq_none, ← startsHexadecimal_iff]
      intro hstart
      have hcs := startsHexadecimal_iff.1 (startsHexadecimal_mono hstart (prefix_decimalText cs))
      rw [hhex] at hcs
      cases hcs
    rw [htake, numeral?, halone, decimal?_decimalText hdecimal, hlength]
    rfl

end Formula.Token
