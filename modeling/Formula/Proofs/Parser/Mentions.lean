import Formula.Proofs.Evaluation.Failures
import Formula.Proofs.Parser.RoundTrip

/-! What the tree of a source mentions. Main statements: a symbol of the tree has a name, and one
that is a variable or a function with a bare name is written as a token of the source. -/
namespace Formula

open Token

theorem Token.ofName_of_isName {name : String} (h : isName name = true) :
    ofName name = .name name := by
  have hlexeme : name? name.toList = some name.toList := by simpa [isName] using h
  have hname := Parser.ofName_of_name? hlexeme
  rwa [String.ofList_toList] at hname

namespace Tree

open Item Formula.Parser

mutual

theorem mentioned {symbol : Symbol} (t : Tree Float) (h : t.WellFormed)
    (hsymbol : symbol ∈ t.occurrences) :
    symbol.IsNamed ∧ (symbol.token ∈ t.yield ∨ symbol = .infixOp "?:") := by
  cases t with
  | literal value => cases hsymbol
  | malformed error source => cases hsymbol
  | apply other args =>
    rw [yield, yields_eq_map]
    obtain rfl | hsymbol := List.mem_cons.1 hsymbol
    · have htakes := h.takes
      rw [← List.length_map yield] at htakes
      exact ⟨h.named, mem_arrange_self htakes⟩
    · obtain ⟨hnamed, hmentioned⟩ := mentionedIn args (fun arg => h.of_mem) hsymbol
      refine ⟨hnamed, hmentioned.imp_left fun ⟨arg, harg, htoken⟩ => ?_⟩
      exact mem_arrange (List.mem_map_of_mem harg) htoken

theorem mentionedIn {symbol : Symbol} (ts : List (Tree Float)) (h : ∀ t ∈ ts, t.WellFormed)
    (hsymbol : symbol ∈ occurrencesIn ts) :
    symbol.IsNamed ∧ ((∃ t ∈ ts, symbol.token ∈ t.yield) ∨ symbol = .infixOp "?:") := by
  cases ts with
  | nil => cases hsymbol
  | cons t ts =>
    rw [List.forall_mem_cons] at h
    rw [List.exists_mem_cons_iff]
    obtain hsymbol | hsymbol := List.mem_append.1 hsymbol
    · exact (mentioned t h.1 hsymbol).imp_right (Or.imp_left .inl)
    · exact (mentionedIn ts h.2 hsymbol).imp_right (Or.imp_left .inr)

end

variable {source : String} {symbol : Symbol} {error : Error}

/-- The tree of a source is malformed as a whole or shows in all of its parts. -/
theorem ofSource_shown (source : String) :
    (∃ error, ofSource source = malformed error source ∧ error.IsRefusal) ∨
      (operand (ofSource source)).Shown ∧ (subexpression [] source.toList ()).result =
        .ok (ofSource source) := by
  unfold ofSource
  rw [(read_ofSource source []).1]
  cases hread : (subexpression [] source.toList ()).result with
  | error error => exact .inl ⟨error, rfl, refusal_of_subexpression hread⟩
  | ok tree => exact .inr ⟨kept_shows.of_subexpression hread start_shown, rfl⟩

/-- What could not be read of a source was refused. -/
theorem refusal_of_faults (h : error ∈ (ofSource source).faults) : error.IsRefusal := by
  obtain ⟨refusal, htree, hrefusal⟩ | ⟨hshown, -⟩ := ofSource_shown source
  · rw [htree] at h
    rwa [List.mem_singleton.1 h]
  · have hformed : (ofSource source).WellFormed := hshown.wellFormed
    rw [hformed.faults] at h
    cases h

/-- No symbol of a source is without a name. -/
theorem name_ne_empty (h : symbol ∈ (ofSource source).occurrences) : symbol.name ≠ "" := by
  obtain ⟨refusal, htree, -⟩ | ⟨hshown, -⟩ := ofSource_shown source
  · rw [htree] at h
    cases h
  · obtain ⟨hnamed, htoken⟩ := mentioned _ hshown.wellFormed h
    have hempty : Token.ofOperator "" ∉ (ofSource source).yield := hshown.named
    intro hname
    cases symbol with
    | var name | function name arity | array name =>
      obtain rfl : name = "" := hname
      rcases hnamed with h | h <;> exact absurd h (by decide)
    | prefixOp op | postfixOp op =>
      obtain rfl : op = "" := hname
      exact hempty (htoken.resolve_right nofun)
    | infixOp op =>
      obtain rfl : op = "" := hname
      exact hempty (htoken.resolve_right (by decide))

/-- A bare name of a source is one of its tokens. -/
theorem mem_tokens_of_occurrences (h : symbol ∈ (ofSource source).occurrences)
    (hname : symbol.token = .name symbol.name) :
    ∃ all, tokens source.toList = .ok all ∧ .name symbol.name ∈ all := by
  obtain ⟨refusal, htree, -⟩ | ⟨hshown, hread⟩ := ofSource_shown source
  · rw [htree] at h
    cases h
  · obtain ⟨-, htoken⟩ := mentioned _ hshown.wellFormed h
    obtain ⟨all, hall, hyield⟩ := tokens_of_subexpression hread
    have hkind (op : String) : Token.name symbol.name ≠ .operator op := nofun
    have hmem : .name symbol.name ∈ spelled (ofSource source).yield := by
      rw [mem_spelled hkind, ← hname]
      refine htoken.resolve_right ?_
      rintro rfl
      have hmark : Symbol.token (.infixOp "?:") = .operator "?:" := rfl
      cases hmark.symm.trans hname
    rw [hyield, mem_spelled hkind] at hmem
    exact ⟨all, hall, (List.mem_filter.1 hmem).1⟩

end Tree
end Formula
