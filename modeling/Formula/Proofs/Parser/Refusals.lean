import Formula.Proofs.Parser.Emptiness

/-! How a reading refuses a text. Main statement: whatever was read before from the same source, a
reading that fails tells of a token or of a delimiter, and never of a symbol. -/
namespace Formula

/-- The errors of text that is no formula. -/
inductive Error.IsRefusal : Error → Prop
  | unexpected (token : String) : IsRefusal (.unexpectedToken token)
  | missing (delimiter : String) : IsRefusal (.missingDelimiter delimiter)

/-- A refusal that shows a token shows some text. -/
theorem Error.IsRefusal.token?_ne {error : Error} (h : error.IsRefusal) :
    error.token? ≠ some "" := by
  cases h with
  | missing delimiter => exact nofun
  | unexpected token =>
    intro htoken
    change (if token.isEmpty then none else some token) = some "" at htoken
    obtain ⟨hempty, hsome⟩ := Option.ite_none_left_eq_some.1 htoken
    obtain rfl := Option.some.inj hsome
    exact hempty rfl

namespace Stack

open Item

theorem refusal_of_finish {items : List Item} {error : Error} (h : finish items = .error error) :
    error.IsRefusal := by
  unfold finish at h
  split at h
  · rename_i other hcollapse
    obtain rfl := Except.error.inj h
    have hall : ∀ item ∈ [].reverse ++ items, True := fun _ _ => trivial
    obtain ⟨-, hfailed⟩ := collapseFrom_forall (P := fun _ => True) (fun _ _ _ _ _ _ => trivial) hall
    obtain ⟨failing, -, hmove⟩ := hfailed other hcollapse
    obtain ⟨item, -, rfl⟩ := mem_of_move_fail hmove
    exact .unexpected item.token
  · obtain rfl := Except.error.inj h
    exact .unexpected ""
  · cases h
  · obtain rfl := Except.error.inj h
    exact .unexpected _

end Stack

namespace Parser

open Item Formula.Tree Token

variable {error : Error}

theorem refusal_faultError (cs : List Char) (fault : Fault) : (faultError cs fault).IsRefusal := by
  cases fault with
  | overflow numeral => exact .unexpected _
  | unclosed quote => exact .missing _
  | unknown => exact .unexpected _

theorem traced_refusal : Traced (fun _ _ _ error => error.IsRefusal) fun _ error => error.IsRefusal
    where
  stop _ hfinish := Stack.refusal_of_finish hfinish
  fault _ _ := refusal_faultError _ _
  refuse _ _ _ := .unexpected _
  unclosed _ := .missing _
  push _ _ _ h := h
  comma _ _ _ h := h
  inGroup _ _ _ h := h
  afterGroup _ _ _ _ _ h := h
  inCall _ _ _ h := h
  afterCall _ _ _ _ _ h := h
  inSubscript _ _ _ h := h
  afterSubscript _ _ _ _ _ h := h
  withBranch _ _ _ _ _ h := h
  withoutBranch _ _ _ h := h
  inArgument h := h
  afterArgument _ h := h
  unclosedArguments := .missing _

theorem refusal_of_subexpression {delimiters : List String} {cs : List Char}
    (h : (subexpression delimiters cs ()).result = .error error) : error.IsRefusal :=
  traced_refusal.of_subexpression h

/-- A reading after any others from a source. -/
theorem refusal_of_read {source : String} {earlier : List (List String)} {delimiters : List String}
    (h : (((ofSource source).readAll earlier).2.read delimiters).1 = .error error) :
    error.IsRefusal := by
  obtain ⟨hrest, hstore⟩ := readAll_faithful earlier (p := ofSource source) List.suffix_rfl
    (Branches.faithful_empty source.toList)
  have hresult := (subexpression_agrees delimiters hrest hstore).result
  exact refusal_of_subexpression (hresult.symm.trans h)

end Parser
end Formula
