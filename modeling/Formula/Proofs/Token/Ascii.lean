import Formula.Proofs.Token.Word

/-! Operators in ASCII. Main statements: such an operator is a run of the fifteen ASCII operator
characters, or a dot with a run of these and dots behind it, and it scans as itself before whatever
neither goes on with it nor makes its dot the start of a name. -/
namespace Formula.Token

open Charset

/-- An operator in ASCII characters. -/
def IsAsciiOperator (op : String) : Prop :=
  isOperatorName op = true ∧ ∀ c ∈ op.toList, c.toNat < 128

instance : DecidablePred IsAsciiOperator := fun op =>
  haveI : Decidable (∀ c ∈ op.toList, c.toNat < 128) := List.decidableBAll _ _
  inferInstanceAs (Decidable (_ ∧ _))

variable {op : String} {c : Char} {k : List Char}

theorem mem_of_isOperator (h : isOperator c = true) (hascii : c.toNat < 128) :
    c ∈ '?' :: ':' :: symbolChars := by
  have hall : ∀ n < 128, isOperator (Char.ofNat n) = true →
      Char.ofNat n ∈ '?' :: ':' :: symbolChars := by
    decide +kernel
  have hc := hall c.toNat hascii
  rw [Char.ofNat_toNat] at hc
  exact hc h

theorem ascii_operator (h : isOperator c = true) (hascii : c.toNat < 128) :
    c.isDigit = false ∧ isNameHead c = false ∧ isNameTail c = false ∧ c ≠ '.' := by
  have hall : ('?' :: ':' :: symbolChars).all (fun c =>
      !c.isDigit && !isNameHead c && !isNameTail c && c != '.') = true := by decide
  simpa [and_assoc] using List.all_eq_true.1 hall c (mem_of_isOperator h hascii)

namespace IsAsciiOperator

/-- No name starts with the first dot of an operator, unless it is the only character. -/
theorem startsPart {tail : List Char} (h : IsAsciiOperator op) (hop : op.toList = '.' :: tail)
    (htail : tail.all (fun d => d == '.' || isOperator d) = true)
    (hdot : op = "." → Token.startsPart k = false) : Token.startsPart (tail ++ k) = false := by
  cases tail with
  | nil => exact hdot (String.toList_inj.1 hop)
  | cons d tail =>
    have hascii : d.toNat < 128 := h.2 d (by simp [hop])
    have hd := List.all_eq_true.1 htail d List.mem_cons_self
    rw [Bool.or_eq_true, beq_iff_eq] at hd
    rcases hd with rfl | hd
    · show isNameTail '.' = false
      decide
    · exact (ascii_operator hd hascii).2.2.1

/-- A name ends where an operator is written to it. -/
theorem nameRun (h : IsAsciiOperator op) (hdot : op ≠ ".") (k : List Char) :
    Token.nameRun (op.toList ++ k) = [] := by
  obtain ⟨c, tail, hop, ⟨rfl, htail⟩ | ⟨hc, hoperator, -⟩⟩ := cons_of_isOperatorName h.1
  · have hpart : Token.startsPart (tail ++ k) = false :=
      h.startsPart hop htail fun heq => absurd heq hdot
    have hmark : isNameTail '.' = false := by decide
    simp [hop, Token.nameRun, hpart, hmark]
  · have hascii : c.toNat < 128 := h.2 c (by simp [hop])
    simp [hop, Token.nameRun, (ascii_operator hoperator hascii).2.2.1, hc]

/-- A single dot is an operator only where no name starts with it. -/
theorem scan (h : IsAsciiOperator op) (hk : ∀ c ∈ k.head?, c ≠ '.' ∧ isOperator c = false)
    (hdot : op = "." → Token.startsPart k = false) :
    scan (op.toList ++ k) = .ok (.operator op, k) := by
  obtain ⟨c, tail, hop, ⟨rfl, htail⟩ | ⟨hc, hoperator, htail⟩⟩ := cons_of_isOperatorName h.1
  · refine scan_dotted hop htail (h.startsPart hop htail hdot) ?_
    intro d hd
    obtain ⟨hne, hd⟩ := hk d hd
    rw [hd, Bool.or_false, beq_eq_false_iff_ne]
    exact hne
  · have hascii : c.toNat < 128 := h.2 c (by simp [hop])
    obtain ⟨hdigit, hhead, -, -⟩ := ascii_operator hoperator hascii
    exact scan_symbol hop hdigit hhead hc hoperator htail fun d hd => (hk d hd).2

end IsAsciiOperator
end Formula.Token
