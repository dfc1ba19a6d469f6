import Formula.Proofs.Token.Word

/-! How the text of an operand starts. Main statement: with a name, a digit or a parenthesis; so
never with a blank or a mark that ends a part. -/
namespace Formula.Tree

open Token Number

/-- The first character of an operand. -/
structure Begins (c : Char) : Prop where
  isBlank : Charset.isBlank c = false
  not_mem_closers : c ∉ closers

/-- The first character of an operand that an operator may be written to. -/
structure Opens (c : Char) : Prop extends Begins c where
  isOperator : Charset.isOperator c = false

theorem begins_parenthesis : Begins '(' := by constructor <;> decide

theorem not_mem_closers {c : Char} {p : Char → Bool}
    (hp : closers.all (fun c => !p c) = true) (h : p c = true) : c ∉ closers := by
  intro hmem
  have hnot := List.all_eq_true.1 hp c hmem
  rw [h] at hnot
  cases hnot

theorem opens_alphanum {c : Char} (h : c.isAlphanum = true) : Opens c where
  isBlank := Charset.not_blank (by decide) h
  not_mem_closers := not_mem_closers (by decide) h
  isOperator := Charset.isOperator_of_isAlphanum h

theorem denotes_starts {chars : List Char} {x : Float} (h : Denotes chars x) :
    ∃ c tail, chars = c :: tail ∧ Opens c := by
  obtain ⟨whole, places, hne, hwhole, hplaces⟩ := h
  cases whole with
  | nil => exact absurd rfl hne
  | cons c whole =>
    refine ⟨c, _, rfl, opens_alphanum ?_⟩
    rw [Char.isAlphanum, hwhole c List.mem_cons_self, Bool.or_true]

theorem name_starts {name : String} (h : isName name = true) :
    ∃ c tail, name.toList = c :: tail ∧ Begins c := by
  have hname : name? name.toList = some name.toList := of_decide_eq_true h
  cases hchars : name.toList with
  | nil =>
    rw [hchars] at hname
    cases hname
  | cons c tail =>
    rw [hchars, name?, Option.ite_none_right_eq_some, Bool.or_eq_true, Bool.and_eq_true,
      beq_iff_eq] at hname
    refine ⟨c, tail, rfl, ?_⟩
    rcases hname.1 with hhead | ⟨rfl, -⟩
    · exact ⟨Charset.isBlank_of_isNameHead hhead, Tree.not_mem_closers (by decide) hhead⟩
    · constructor <;> decide

theorem word_starts {name : String} (h : IsWord name) :
    ∃ c tail, name.toList = c :: tail ∧ Opens c := by
  obtain ⟨c, tail, hname, hc⟩ := name_starts h.1
  obtain ⟨d, rest, hchars, -, hd⟩ := h.cons
  rw [hname] at hchars
  obtain rfl : c = d := (List.cons.inj hchars).1
  exact ⟨c, tail, hname, ⟨hc, hd⟩⟩

theorem operator_starts {op : String} (h : IsOperatorToken op) :
    ∃ c tail, op.toList = c :: tail ∧ Charset.isBlank c = false := by
  obtain ⟨c, tail, hop, hc⟩ := cons_of_isOperatorName h.1
  refine ⟨c, tail, hop, ?_⟩
  rcases hc with ⟨rfl, -⟩ | ⟨-, hc, -⟩
  · decide
  · exact Charset.isBlank_of_isOperator hc

end Formula.Tree
