import Formula.Proofs.Token.Word

/-! Tokens as words of regular languages. Main statements: a name and an operator are the longest
words of their languages at the start of the text, and they are found whenever there is one. -/
namespace Formula.Token

open Charset
open scoped Computability

variable {cs word lexeme : List Char} {c : Char} {p : Char → Bool}

/-! ### Languages of tokens -/

/-- The words of one character that passes a test. -/
def single (p : Char → Bool) : Language Char := {word | ∃ c, p c = true ∧ word = [c]}

def run (p : Char → Bool) : Language Char := single p * (single p)∗

/-- A dot and a run after it. -/
def dotted (p : Char → Bool) : Language Char := single (· == '.') * run p

def names : Language Char :=
  (single isNameHead * (single isNameTail)∗ + dotted isNameTail) * (dotted isNameTail)∗

def operators : Language Char :=
  run isOperator + single (· == '.') * (single fun c => c == '.' || isOperator c)∗

theorem mem_kstar_single : word ∈ (single p)∗ ↔ ∀ c ∈ word, p c = true := by
  constructor
  · rintro ⟨words, rfl, hwords⟩ c hc
    obtain ⟨word, hword, hc⟩ := List.mem_flatten.1 hc
    obtain ⟨d, hd, rfl⟩ := hwords word hword
    rw [List.mem_singleton.1 hc]
    exact hd
  · intro h
    refine ⟨word.map fun c => [c], ?_, ?_⟩
    · induction word with
      | nil => rfl
      | cons c word ih =>
        rw [List.map_cons, List.flatten_cons, ← ih (List.forall_mem_cons.1 h).2]
        rfl
    · intro letter hletter
      obtain ⟨c, hc, rfl⟩ := List.mem_map.1 hletter
      exact ⟨c, h c hc, rfl⟩

theorem mem_single_mul {l : Language Char} :
    word ∈ single p * l ↔ ∃ c tail, word = c :: tail ∧ p c = true ∧ tail ∈ l := by
  constructor
  · rintro ⟨letter, ⟨c, hc, rfl⟩, tail, htail, rfl⟩
    exact ⟨c, tail, rfl, hc, htail⟩
  · rintro ⟨c, tail, rfl, hc, htail⟩
    exact ⟨[c], ⟨c, hc, rfl⟩, tail, htail, rfl⟩

theorem mem_run : word ∈ run p ↔ word ≠ [] ∧ ∀ c ∈ word, p c = true := by
  rw [run, mem_single_mul]
  constructor
  · rintro ⟨c, tail, rfl, hc, htail⟩
    exact ⟨List.cons_ne_nil _ _, List.forall_mem_cons.2 ⟨hc, mem_kstar_single.1 htail⟩⟩
  · rintro ⟨hne, h⟩
    obtain ⟨c, tail, rfl⟩ := List.exists_cons_of_ne_nil hne
    obtain ⟨hc, htail⟩ := List.forall_mem_cons.1 h
    exact ⟨c, tail, rfl, hc, mem_kstar_single.2 htail⟩

theorem mem_dotted : word ∈ dotted p ↔ ∃ part, word = '.' :: part ∧ part ∈ run p := by
  rw [dotted, mem_single_mul]
  constructor
  · rintro ⟨c, part, rfl, hc, hpart⟩
    rw [beq_iff_eq] at hc
    exact ⟨part, by rw [hc], hpart⟩
  · rintro ⟨part, rfl, hpart⟩
    exact ⟨'.', part, rfl, beq_self_eq_true '.', hpart⟩

/-- What is found at the start of a text is the longest word of the language there, and nothing is
found only where there is none. -/
def Longest (words : Language Char) (cs : List Char) : Option (List Char) → Prop
  | some lexeme => lexeme ≠ [] ∧ lexeme ∈ words ∧ lexeme <+: cs ∧
      ∀ word ∈ words, word <+: cs → word.length ≤ lexeme.length
  | none => ∀ word ∈ words, ¬word <+: cs

theorem longest_some {words : Language Char} (hne : lexeme ≠ []) (hmem : lexeme ∈ words)
    (hfront : lexeme <+: cs) (hall : ∀ word ∈ words, word <+: cs → word <+: lexeme) :
    Longest words cs (some lexeme) :=
  ⟨hne, hmem, hfront, fun word hword h => (hall word hword h).length_le⟩

theorem prefix_takeWhile (hword : ∀ c ∈ word, p c = true) (h : word <+: cs) :
    word <+: cs.takeWhile p := by
  obtain ⟨tail, rfl⟩ := h
  rw [List.takeWhile_append_of_pos hword]
  exact List.prefix_append _ _

/-! ### Operators -/

/-- Where a word of two languages is looked for, one of which has none there. -/
theorem Longest.add {words others : Language Char} {found other : Option (List Char)}
    (h : Longest words cs found) (hother : Longest others cs other)
    (hnone : found = none ∨ other = none) : Longest (words + others) cs (found.or other) := by
  cases found with
  | none =>
    cases other with
    | none => exact fun word hword => hword.elim (h word) (hother word)
    | some lexeme =>
      obtain ⟨hne, hmem, hfront, hall⟩ := hother
      refine ⟨hne, .inr hmem, hfront, fun word hword hcs => ?_⟩
      exact hall word (hword.resolve_left fun hword => h word hword hcs) hcs
  | some lexeme =>
    obtain rfl : other = none := hnone.resolve_left (Option.some_ne_none lexeme)
    obtain ⟨hne, hmem, hfront, hall⟩ := h
    refine ⟨hne, .inl hmem, hfront, fun word hword hcs => ?_⟩
    exact hall word (hword.resolve_right fun hword => hother word hword hcs) hcs

theorem longest_headed_nil (q : Char → Bool) (l : Language Char) :
    Longest (single q * l) [] none := by
  intro word hword h
  obtain ⟨c, tail, rfl, -⟩ := mem_single_mul.1 hword
  exact List.cons_ne_nil c tail (List.prefix_nil.1 h)

/-- A character of one class and then any of another. -/
theorem longest_headed (q p : Char → Bool) (c : Char) (cs : List Char) :
    Longest (single q * (single p)∗) (c :: cs)
      (if q c = true then some (c :: cs.takeWhile p) else none) := by
  by_cases hc : q c = true
  · rw [if_pos hc]
    refine longest_some (List.cons_ne_nil _ _) ?_ ?_ ?_
    · refine mem_single_mul.2 ⟨c, cs.takeWhile p, rfl, hc, mem_kstar_single.2 ?_⟩
      exact fun d hd => List.mem_takeWhile_imp hd
    · exact List.cons_prefix_cons.2 ⟨rfl, List.takeWhile_prefix p⟩
    · intro word hword h
      obtain ⟨d, tail, rfl, -, htail⟩ := mem_single_mul.1 hword
      obtain ⟨rfl, hfront⟩ := List.cons_prefix_cons.1 h
      exact List.cons_prefix_cons.2 ⟨rfl, prefix_takeWhile (mem_kstar_single.1 htail) hfront⟩
  · rw [if_neg hc]
    intro word hword h
    obtain ⟨d, tail, rfl, hd, -⟩ := mem_single_mul.1 hword
    obtain ⟨rfl, -⟩ := List.cons_prefix_cons.1 h
    exact hc hd

theorem operator?_longest (cs : List Char) : Longest operators cs (operator? cs) := by
  cases cs with
  | nil => exact (longest_headed_nil _ _).add (longest_headed_nil _ _) (.inl rfl)
  | cons c cs =>
    have hrun := longest_headed isOperator isOperator c cs
    have hdotted := longest_headed (· == '.') (fun d => d == '.' || isOperator d) c cs
    rw [operator?]
    by_cases hdot : (c == '.') = true
    · have hc : ¬isOperator c = true := by
        rw [beq_iff_eq.1 hdot]
        decide
      rw [if_neg hc] at hrun
      rw [if_pos hdot] at hdotted ⊢
      exact hrun.add hdotted (.inl rfl)
    · rw [if_neg hdot] at hdotted ⊢
      have hadd := hrun.add hdotted (.inr rfl)
      rwa [Option.or_none] at hadd

/-! ### Names -/

/-- What may follow the start of a name. -/
def continuations : Language Char := (single isNameTail)∗ * (dotted isNameTail)∗

theorem startsPart_run (h : word ∈ run isNameTail) (cs : List Char) :
    startsPart (word ++ cs) = true := by
  obtain ⟨hne, hword⟩ := mem_run.1 h
  obtain ⟨c, tail, rfl⟩ := List.exists_cons_of_ne_nil hne
  exact hword c List.mem_cons_self

theorem cons_mem_continuations (hc : isNameTail c = true) (h : word ∈ continuations) :
    c :: word ∈ continuations := by
  obtain ⟨part, hpart, parts, hparts, rfl⟩ := h
  refine ⟨c :: part, ?_, parts, hparts, rfl⟩
  exact mem_kstar_single.2 (List.forall_mem_cons.2 ⟨hc, mem_kstar_single.1 hpart⟩)

/-- A word that starts with a part is a part and then further ones. -/
theorem startsPart_continuation (hstart : startsPart word = true) (h : word ∈ continuations) :
    ∃ part ∈ run isNameTail, ∃ parts ∈ (dotted isNameTail)∗, word = part ++ parts := by
  obtain ⟨part, hpart, parts, hparts, rfl⟩ := h
  refine ⟨part, mem_run.2 ⟨?_, mem_kstar_single.1 hpart⟩, parts, hparts, rfl⟩
  rintro rfl
  obtain ⟨words, rfl, hwords⟩ := hparts
  cases words with
  | nil => cases hstart
  | cons other words =>
    obtain ⟨tail, rfl, -⟩ := mem_dotted.1 (hwords other List.mem_cons_self)
    change isNameTail '.' = true at hstart
    exact absurd hstart (by decide)

theorem dotted_append_mem {parts : List Char} (h : word ∈ dotted isNameTail)
    (hparts : parts ∈ (dotted isNameTail)∗) : word ++ parts ∈ (dotted isNameTail)∗ := by
  obtain ⟨words, rfl, hwords⟩ := hparts
  exact ⟨word :: words, rfl, List.forall_mem_cons.2 ⟨h, hwords⟩⟩

theorem dot_cons_mem_continuations (hstart : startsPart word = true)
    (h : word ∈ continuations) : '.' :: word ∈ continuations := by
  obtain ⟨part, hpart, parts, hparts, rfl⟩ := startsPart_continuation hstart h
  refine ⟨[], Language.nil_mem_kstar _, '.' :: part ++ parts, ?_, rfl⟩
  exact dotted_append_mem (mem_dotted.2 ⟨part, rfl, hpart⟩) hparts

theorem nameRun_mem (cs : List Char) : nameRun cs ∈ continuations := by
  fun_induction nameRun cs with
  | case1 => exact ⟨[], Language.nil_mem_kstar _, [], Language.nil_mem_kstar _, rfl⟩
  | case2 c cs hc ih =>
    rw [Bool.or_eq_true, Bool.and_eq_true, beq_iff_eq] at hc
    rcases hc with hc | ⟨rfl, hstart⟩
    · exact cons_mem_continuations hc ih
    · exact dot_cons_mem_continuations (startsPart_nameRun cs hstart) ih
  | case3 => exact ⟨[], Language.nil_mem_kstar _, [], Language.nil_mem_kstar _, rfl⟩

theorem nameRun_part (hword : ∀ c ∈ word, isNameTail c = true) (cs : List Char) :
    nameRun (word ++ cs) = word ++ nameRun cs := by
  induction word with
  | nil => rfl
  | cons c word ih =>
    obtain ⟨hc, hword⟩ := List.forall_mem_cons.1 hword
    rw [List.cons_append, nameRun, if_pos (by rw [hc, Bool.true_or]), ih hword, List.cons_append]

theorem nameRun_of_mem (h : word ∈ continuations) : nameRun word = word := by
  obtain ⟨part, hpart, parts, ⟨words, rfl, hwords⟩, rfl⟩ := h
  suffices hrun : nameRun words.flatten = words.flatten by
    show nameRun (part ++ words.flatten) = part ++ words.flatten
    rw [nameRun_part (mem_kstar_single.1 hpart), hrun]
  induction words with
  | nil => rfl
  | cons word words ih =>
    obtain ⟨hword, hlater⟩ := List.forall_mem_cons.1 hwords
    obtain ⟨part, rfl, hpart⟩ := mem_dotted.1 hword
    have hstart := startsPart_run hpart words.flatten
    have hdot : (isNameTail '.' || ('.' == '.' && startsPart (part ++ words.flatten))) = true := by
      rw [hstart, beq_self_eq_true, Bool.and_true, Bool.or_true]
    rw [List.flatten_cons, List.cons_append, nameRun, if_pos hdot,
      nameRun_part (mem_run.1 hpart).2, ih hlater]

/-- A run of a name goes on at least as far as any word at the start of the text. -/
theorem prefix_nameRun (hword : nameRun word = word) (h : word <+: cs) : word <+: nameRun cs := by
  obtain ⟨tail, rfl⟩ := h
  induction word with
  | nil => exact List.nil_prefix
  | cons c word ih =>
    have hc : (isNameTail c || (c == '.' && startsPart word)) = true := by
      by_contra hc
      rw [nameRun, if_neg hc] at hword
      cases hword
    rw [nameRun, if_pos hc, List.cons.injEq] at hword
    have hlonger : startsPart word = true → startsPart (word ++ tail) = true := by
      cases word with
      | nil => intro h; cases h
      | cons d word => exact id
    have hc' : (isNameTail c || (c == '.' && startsPart (word ++ tail))) = true := by
      rw [Bool.or_eq_true, Bool.and_eq_true] at hc ⊢
      exact hc.imp id fun h => ⟨h.1, hlonger h.2⟩
    rw [List.cons_append, nameRun, if_pos hc']
    exact List.cons_prefix_cons.2 ⟨rfl, ih hword.2⟩

theorem mem_names : word ∈ names ↔ ∃ c tail, word = c :: tail ∧ tail ∈ continuations ∧
    (isNameHead c || (c == '.' && startsPart tail)) = true := by
  constructor
  · rintro ⟨first, hfirst, parts, hparts, rfl⟩
    rcases hfirst with hfirst | hfirst
    · obtain ⟨c, tail, rfl, hc, htail⟩ := mem_single_mul.1 hfirst
      exact ⟨c, tail ++ parts, rfl, ⟨tail, htail, parts, hparts, rfl⟩, by rw [hc, Bool.true_or]⟩
    · obtain ⟨part, rfl, hpart⟩ := mem_dotted.1 hfirst
      have htail := mem_kstar_single.2 (mem_run.1 hpart).2
      refine ⟨'.', part ++ parts, rfl, ⟨part, htail, parts, hparts, rfl⟩, ?_⟩
      rw [startsPart_run hpart, beq_self_eq_true, Bool.and_true, Bool.or_true]
  · rintro ⟨c, tail, rfl, htail, hc⟩
    rw [Bool.or_eq_true, Bool.and_eq_true, beq_iff_eq] at hc
    rcases hc with hc | ⟨rfl, hstart⟩
    · obtain ⟨part, hpart, parts, hparts, rfl⟩ := htail
      exact ⟨c :: part, .inl (mem_single_mul.2 ⟨c, part, rfl, hc, hpart⟩), parts, hparts, rfl⟩
    · obtain ⟨part, hpart, parts, hparts, rfl⟩ := startsPart_continuation hstart htail
      exact ⟨'.' :: part, .inr (mem_dotted.2 ⟨part, rfl, hpart⟩), parts, hparts, rfl⟩

theorem name?_longest (cs : List Char) : Longest names cs (name? cs) := by
  cases cs with
  | nil =>
    intro word hword h
    obtain ⟨c, tail, rfl, -⟩ := mem_names.1 hword
    exact List.cons_ne_nil c tail (List.prefix_nil.1 h)
  | cons c cs =>
    have hcover {word : List Char} (hword : word ∈ names) (h : word <+: c :: cs) :
        (isNameHead c || (c == '.' && startsPart cs)) = true ∧ word <+: c :: nameRun cs := by
      obtain ⟨d, tail, rfl, htail, hd⟩ := mem_names.1 hword
      obtain ⟨rfl, hfront⟩ := List.cons_prefix_cons.1 h
      refine ⟨?_, List.cons_prefix_cons.2 ⟨rfl, prefix_nameRun (nameRun_of_mem htail) hfront⟩⟩
      rw [Bool.or_eq_true, Bool.and_eq_true] at hd ⊢
      refine hd.imp id fun hdot => ⟨hdot.1, ?_⟩
      cases tail with
      | nil => cases hdot.2
      | cons e tail =>
        obtain ⟨after, rfl⟩ := hfront
        exact hdot.2
    rw [name?]
    split
    · rename_i hc
      refine longest_some (List.cons_ne_nil _ _) ?_ ?_ fun word hword h => (hcover hword h).2
      · refine mem_names.2 ⟨c, nameRun cs, rfl, nameRun_mem cs, ?_⟩
        rw [Bool.or_eq_true, Bool.and_eq_true] at hc ⊢
        exact hc.imp id fun hdot => ⟨hdot.1, startsPart_nameRun cs hdot.2⟩
      · exact List.cons_prefix_cons.2 ⟨rfl, nameRun_prefix cs⟩
    · rename_i hc
      intro word hword h
      exact hc (hcover hword h).1

end Formula.Token
