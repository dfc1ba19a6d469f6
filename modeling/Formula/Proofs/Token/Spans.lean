import Formula.Proofs.Report.Occurrence
import Formula.Proofs.Token.Sequence

/-! The places of the tokens of a source. Main statement: the place of a token holds the characters
that it was scanned from, and for an identifier these are its name. -/
namespace Formula.Token

open Charset
open String (utf8Len)

/-- The tokens from left to right with the place of each, counted from `offset`. -/
def spans (offset : Nat) (cs : List Char) : Except Fault (List (Token × Span)) :=
  match _hb : skipBlank cs with
  | [] => .ok []
  | c :: rest =>
    match _hs : scan (c :: rest) with
    | .error fault => .error fault
    | .ok (token, after) =>
      let start := offset + (utf8Len cs - utf8Len (c :: rest))
      let length := utf8Len (c :: rest) - utf8Len after
      (spans (start + length) after).map ((token, ⟨start, length⟩) :: ·)
termination_by cs.length
decreasing_by
  have hlt := (scan_suffix _hs).2
  have hle := (skipBlank_suffix cs).length_le
  rw [_hb] at hle
  exact Nat.lt_of_lt_of_le hlt hle

variable {cs : List Char} {offset : Nat} {span : Span} {token : Token} {all : List (Token × Span)}

/-- The places are those of all tokens. -/
theorem map_fst_spans (offset : Nat) (cs : List Char) :
    (spans offset cs).map (List.map Prod.fst) = tokens cs := by
  fun_induction spans offset cs with
  | case1 offset cs hskip =>
    rw [← tokens_skipBlank, hskip, tokens_nil]
    rfl
  | case2 offset cs c rest hskip fault hscan =>
    rw [tokens_fault hskip hscan]
    rfl
  | case3 offset cs c rest hskip token after hscan start length ih =>
    rw [← tokens_skipBlank, hskip, tokens_scan hscan, ← ih]
    cases spans (start + length) after <;> rfl

/-- The first token of a text with its place: after some blanks stands the lexeme that it was scanned
from, and the other tokens come after that. -/
theorem spans_cases (h : spans offset cs = .ok all) :
    all = [] ∧ (∀ c ∈ cs, isBlank c = true) ∨
      ∃ blanks lexeme later token others, cs = blanks ++ (lexeme ++ later) ∧
        (∀ c ∈ blanks, isBlank c = true) ∧ scan (lexeme ++ later) = .ok (token, later) ∧
        spans (offset + utf8Len blanks + utf8Len lexeme) later = .ok others ∧
        all = (token, ⟨offset + utf8Len blanks, utf8Len lexeme⟩) :: others := by
  rw [spans] at h
  split at h
  · rename_i hskip
    obtain rfl := Except.ok.inj h
    exact .inl ⟨rfl, List.dropWhile_eq_nil_iff.1 hskip⟩
  · rename_i c rest hskip
    split at h
    · cases h
    · rename_i token later hscan
      obtain ⟨lexeme, hlexeme⟩ := (scan_suffix hscan).1
      have hcs : cs = cs.takeWhile isBlank ++ (lexeme ++ later) := by
        rw [hlexeme, ← hskip]
        exact List.takeWhile_append_dropWhile.symm
      have hbytes := congrArg utf8Len hcs
      rw [← hlexeme, String.utf8Len_append, hbytes, String.utf8Len_append, Nat.add_sub_cancel,
        String.utf8Len_append, Nat.add_sub_cancel] at h
      dsimp only at h
      cases hspans : spans (offset + utf8Len (cs.takeWhile isBlank) + utf8Len lexeme) later with
      | error fault =>
        rw [hspans] at h
        cases h
      | ok others =>
        rw [hspans] at h
        refine .inr ⟨_, lexeme, later, token, others, hcs, fun c hc => List.mem_takeWhile_imp hc, ?_,
          hspans, (Except.ok.inj h).symm⟩
        rw [hlexeme, hscan]

/-- A token stands at its place with the characters that it was scanned from. -/
theorem mem_spans (h : spans offset cs = .ok all) (hmem : (token, span) ∈ all) :
    ∃ before lexeme after, cs = before ++ (lexeme ++ after) ∧
      scan (lexeme ++ after) = .ok (token, after) ∧
      span = ⟨offset + utf8Len before, utf8Len lexeme⟩ := by
  induction all generalizing offset cs with
  | nil => cases hmem
  | cons first others ih =>
    obtain ⟨hnil, -⟩ | ⟨blanks, lexeme, later, other, rest, rfl, -, hscan, hrest, hall⟩ :=
      spans_cases h
    · cases hnil
    · obtain ⟨rfl, rfl⟩ := List.cons.inj hall
      obtain heq | hmem := List.mem_cons.1 hmem
      · obtain ⟨rfl, rfl⟩ := Prod.mk.inj heq
        exact ⟨blanks, lexeme, later, rfl, hscan, rfl⟩
      · obtain ⟨before, inner, after, rfl, hinner, rfl⟩ := ih hrest hmem
        refine ⟨blanks ++ (lexeme ++ before), inner, after, by simp, hinner, ?_⟩
        rw [String.utf8Len_append, String.utf8Len_append]
        simp only [Nat.add_assoc]

/-- A character of a text in two parts is in the first or in the second. -/
theorem of_append_eq {α : Type} {before after left right : List α} {c : α}
    (h : before ++ c :: after = left ++ right) :
    (∃ rest, left = before ++ c :: rest) ∨
      ∃ inner, before = left ++ inner ∧ right = inner ++ c :: after := by
  obtain ⟨rest, hleft, hright⟩ | ⟨inner, hbefore, hright⟩ := List.append_eq_append_iff.1 h
  · cases rest with
    | nil => exact .inr ⟨[], by rw [hleft, List.append_nil, List.append_nil], hright.symm⟩
    | cons d rest =>
      obtain ⟨rfl, -⟩ := List.cons.inj hright
      exact .inl ⟨rest, hleft⟩
  · exact .inr ⟨inner, hbefore, hright⟩

/-- Only blanks stand outside the places of the tokens. -/
theorem exists_mem_spans (h : spans offset cs = .ok all) {before after : List Char} {c : Char}
    (hcs : cs = before ++ c :: after) (hc : isBlank c = false) :
    ∃ token span, (token, span) ∈ all ∧ span.offset ≤ offset + utf8Len before ∧
      offset + utf8Len before < span.offset + span.length := by
  have hmem : c ∈ cs := by simp [hcs]
  induction all generalizing offset cs before with
  | nil =>
    obtain ⟨-, hblank⟩ | ⟨blanks, lexeme, later, other, rest, -, -, -, -, hall⟩ := spans_cases h
    · exact absurd (hblank c hmem) (by simp [hc])
    · cases hall
  | cons first others ih =>
    obtain ⟨hnil, -⟩ | ⟨blanks, lexeme, later, other, rest, hsplit, hblanks, -, hrest, hall⟩ :=
      spans_cases h
    · cases hnil
    · obtain ⟨rfl, rfl⟩ := List.cons.inj hall
      obtain ⟨skipped, rfl⟩ | ⟨inner, rfl, hinner⟩ := of_append_eq (hcs.symm.trans hsplit)
      · exact absurd (hblanks c (by simp)) (by simp [hc])
      · obtain ⟨read, rfl⟩ | ⟨inner, rfl, rfl⟩ := of_append_eq hinner.symm
        · refine ⟨other, _, List.mem_cons_self, ?_⟩
          have hpos := c.utf8Size_pos
          simp only [String.utf8Len_append, String.utf8Len_cons]
          omega
        · obtain ⟨token, span, hspan, hcovers⟩ := ih hrest rfl (by simp)
          refine ⟨token, span, List.mem_cons_of_mem _ hspan, ?_⟩
          simp only [String.utf8Len_append]
          omega

theorem eq_of_scan_name {name : String} {rest : List Char} (h : scan cs = .ok (.name name, rest)) :
    cs = name.toList ++ rest := by
  cases scanned h with
  | name found =>
    have hlexeme := name?_prefix found
    rw [String.toList_ofList]
    exact (List.prefix_iff_eq_append.1 hlexeme).symm

/-- An identifier stands at its place with its name. -/
theorem standsAt_of_mem_spans {name : String} (h : spans 0 cs = .ok all)
    (hmem : (.name name, span) ∈ all) :
    Span.StandsAt name.toList cs span.offset ∧ span.length = name.utf8ByteSize := by
  obtain ⟨before, lexeme, after, rfl, hscan, rfl⟩ := mem_spans h hmem
  obtain rfl := List.append_cancel_right (eq_of_scan_name hscan)
  exact ⟨⟨before, after, rfl, (Nat.zero_add _).symm⟩, Span.utf8Len_toList name⟩

end Formula.Token
