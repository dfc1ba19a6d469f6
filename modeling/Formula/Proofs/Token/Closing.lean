import Formula.Proofs.Token.Quoting

/-! Where quoted text ends. Main statement: at the first quote of its kind that is not escaped, that
is, before which no backslash stands that is not escaped itself; and the text is unclosed exactly if
there is no such quote. No form of an escape hides a quote but the one directly after its
backslash. -/
namespace Formula.Quoted

open Charset

variable {quote c : Char} {cs raw after front text : List Char}

/-- Whether a text, given from its end, ends with a backslash that is not escaped itself. -/
def escapesBackwards : List Char → Bool
  | [] => false
  | c :: before => c == '\\' && !escapesBackwards before

/-- Whether the text escapes what stands after it. -/
def escapes (text : List Char) : Bool := escapesBackwards text.reverse

@[simp] theorem escapes_nil : escapes [] = false := rfl

@[simp] theorem escapes_concat (text : List Char) (c : Char) :
    escapes (text ++ [c]) = (c == '\\' && !escapes text) := by
  simp [escapes, escapesBackwards]

/-- Text that escapes nothing may be left out. -/
theorem escapes_append (h : escapes front = false) (text : List Char) :
    escapes (front ++ text) = escapes text := by
  induction text using List.reverseRecOn with
  | nil => rw [List.append_nil, h, escapes_nil]
  | append_singleton text c ih => rw [← List.append_assoc, escapes_concat, ih, escapes_concat]

/-- Every quote of the kind is escaped. -/
def Unclosed (quote : Char) (cs : List Char) : Prop :=
  ∀ raw after, cs = raw ++ quote :: after → escapes raw = true

/-- The first quote of the kind that is not escaped stands between `raw` and `after`. -/
structure Closes (quote : Char) (cs raw after : List Char) : Prop where
  split : cs = raw ++ quote :: after
  bare : escapes raw = false
  first : ∀ other rest, cs = other ++ quote :: rest → escapes other = false →
    raw.length ≤ other.length

theorem Closes.not_unclosed (h : Closes quote cs raw after) : ¬Unclosed quote cs := by
  intro hunclosed
  have hescapes := hunclosed raw after h.split
  rw [h.bare] at hescapes
  cases hescapes

theorem closes_here (quote : Char) (after : List Char) : Closes quote (quote :: after) [] after :=
  ⟨rfl, rfl, fun _ _ _ _ => Nat.zero_le _⟩

/-! ### Pieces -/

/-- A piece of quoted text: it has no quote of the kind but escaped ones and escapes nothing. -/
structure Passes (quote : Char) (front : List Char) : Prop where
  bare : escapes front = false
  unclosed : Unclosed quote front

namespace Passes

/-- A quote that is not escaped stands after the piece. -/
theorem exists_append (h : Passes quote front) {other rest : List Char}
    (hsplit : front ++ cs = other ++ quote :: rest) (hother : escapes other = false) :
    ∃ later, other = front ++ later ∧ cs = later ++ quote :: rest ∧ escapes later = false := by
  rcases List.append_eq_append_iff.1 hsplit with ⟨later, rfl, hcs⟩ | ⟨inner, hfront, hrest⟩
  · rw [escapes_append h.bare] at hother
    exact ⟨later, rfl, hcs, hother⟩
  · cases inner with
    | nil =>
      refine ⟨[], ?_, hrest.symm, rfl⟩
      rw [hfront, List.append_nil, List.append_nil]
    | cons d inner =>
      obtain ⟨rfl, -⟩ := List.cons.inj hrest
      have hescapes := h.unclosed other inner hfront
      rw [hother] at hescapes
      cases hescapes

theorem append_unclosed (h : Passes quote front) (hcs : Unclosed quote cs) :
    Unclosed quote (front ++ cs) := by
  intro other rest hsplit
  by_contra hother
  rw [Bool.not_eq_true] at hother
  obtain ⟨later, -, hlater, hbare⟩ := h.exists_append hsplit hother
  have hescapes := hcs later rest hlater
  rw [hbare] at hescapes
  cases hescapes

theorem append_closes (h : Passes quote front) (hcs : Closes quote cs raw after) :
    Closes quote (front ++ cs) (front ++ raw) after := by
  constructor
  · rw [hcs.split, List.append_assoc]
  · rw [escapes_append h.bare, hcs.bare]
  · intro other rest hsplit hother
    obtain ⟨later, rfl, hlater, hbare⟩ := h.exists_append hsplit hother
    rw [List.length_append, List.length_append]
    exact Nat.add_le_add_left (hcs.first later rest hlater hbare) _

theorem append (h : Passes quote front) (htext : Passes quote text) :
    Passes quote (front ++ text) := by
  refine ⟨?_, h.append_unclosed htext.unclosed⟩
  rw [escapes_append h.bare, htext.bare]

theorem nil : Passes quote [] := by
  refine ⟨rfl, ?_⟩
  intro raw after hsplit
  simp at hsplit

/-- A character that is neither the quote nor a backslash. -/
theorem single (hq : c ≠ quote) (hb : c ≠ '\\') : Passes quote [c] := by
  constructor
  · rw [← List.nil_append [c], escapes_concat, beq_eq_false_iff_ne.2 hb, Bool.false_and]
  · intro raw after hsplit
    cases raw with
    | nil => exact absurd (List.cons.inj hsplit).1 hq
    | cons d raw => simp at hsplit

theorem plain (h : ∀ c ∈ text, c ≠ quote ∧ c ≠ '\\') : Passes quote text := by
  induction text with
  | nil => exact nil
  | cons c text ih =>
    obtain ⟨⟨hq, hb⟩, htext⟩ := List.forall_mem_cons.1 h
    exact (single hq hb).append (ih htext)

/-- A backslash and the character that it escapes, whatever it is. -/
theorem escaped (hquote : isQuote quote = true) (c : Char) : Passes quote ['\\', c] := by
  have hbackslash : escapes ['\\'] = true := rfl
  constructor
  · have hconcat := escapes_concat ['\\'] c
    rw [hbackslash, Bool.not_true, Bool.and_false] at hconcat
    exact hconcat
  · intro raw after hsplit
    rcases raw with _ | ⟨d, _ | ⟨e, raw⟩⟩
    · exact absurd (List.cons.inj hsplit).1.symm (ne_backslash hquote)
    · obtain ⟨rfl, -⟩ := List.cons.inj hsplit
      exact hbackslash
    · simp at hsplit

end Passes

/-! ### Escapes -/

theorem not_isHexDigit (hquote : isQuote quote = true) : isHexDigit quote = false := by
  rcases isQuote_cases hquote with rfl | rfl | rfl <;> decide

/-- Neither a quote nor a backslash stands in a code point. -/
theorem codePoint?_spelling (hquote : isQuote quote = true)
    (h : codePoint? cs = some (c, after)) :
    ∃ spelling, cs = spelling ++ after ∧ ∀ d ∈ spelling, d ≠ quote ∧ d ≠ '\\' := by
  have hmarks : '\x7b' ≠ quote ∧ '\x7d' ≠ quote := by
    rcases isQuote_cases hquote with rfl | rfl | rfl <;> decide
  unfold codePoint? at h
  split at h
  · rename_i cs
    dsimp only at h
    split at h
    · rename_i rest hdrop
      split at h
      · cases h
      · obtain rfl : rest = after := (Prod.mk.inj (Option.some.inj h)).2
        have hdigits : (cs.takeWhile isHexDigit).take 8 <+: cs :=
          (List.take_prefix _ _).trans (List.takeWhile_prefix _)
        refine ⟨'\x7b' :: (cs.takeWhile isHexDigit).take 8 ++ ['\x7d'], ?_, ?_⟩
        · rw [List.append_assoc, List.singleton_append, ← hdrop, List.cons_append,
            List.prefix_iff_eq_append.1 hdigits]
        · intro d hd
          rw [List.mem_append, List.mem_cons, List.mem_singleton] at hd
          rcases hd with (rfl | hd) | rfl
          · exact ⟨hmarks.1, by decide⟩
          · have hdigit := List.mem_takeWhile_imp (List.mem_of_mem_take hd)
            constructor
            · rintro rfl
              rw [not_isHexDigit hquote] at hdigit
              cases hdigit
            · rintro rfl
              exact absurd hdigit (by decide)
          · exact ⟨hmarks.2, by decide⟩
    · cases h
  · cases h

/-- An escape with its backslash is a piece of quoted text. -/
theorem escape?_passes (hquote : isQuote quote = true) (h : escape? cs = some (c, after)) :
    ∃ spelling, '\\' :: cs = spelling ++ after ∧ Passes quote spelling := by
  cases cs with
  | nil => cases h
  | cons d cs =>
    have hone : after = cs → ∃ spelling, '\\' :: d :: cs = spelling ++ after ∧
        Passes quote spelling := by
      rintro rfl
      exact ⟨['\\', d], rfl, Passes.escaped hquote d⟩
    simp only [escape?] at h
    split at h
    case h_5 =>
      cases hpoint : codePoint? cs with
      | none =>
        rw [hpoint] at h
        exact hone (Prod.mk.inj (Option.some.inj h)).2.symm
      | some found =>
        rw [hpoint] at h
        obtain rfl : found = (c, after) := Option.some.inj h
        obtain ⟨spelling, rfl, hplain⟩ := codePoint?_spelling hquote hpoint
        exact ⟨['\\', 'u'] ++ spelling, rfl,
          (Passes.escaped hquote 'u').append (Passes.plain hplain)⟩
    all_goals exact hone (Prod.mk.inj (Option.some.inj h)).2.symm

/-! ### The end of quoted text -/

theorem unclosed_of_body? (hquote : isQuote quote = true) (h : body? quote cs = none) :
    Unclosed quote cs := by
  fun_induction body? quote cs with
  | case1 => exact Passes.nil.unclosed
  | case2 cs hescape =>
    -- only the end of the text is no escape
    cases cs with
    | nil =>
      intro raw after hsplit
      cases raw with
      | nil => exact absurd (List.cons.inj hsplit).1.symm (ne_backslash hquote)
      | cons d raw => simp at hsplit
    | cons d cs =>
      simp only [escape?] at hescape
      split at hescape
      case h_5 => cases hpoint : codePoint? cs <;> rw [hpoint] at hescape <;> cases hescape
      all_goals cases hescape
  | case3 cs decoded rest hescape ih =>
    obtain ⟨spelling, hcs, hpasses⟩ := escape?_passes hquote hescape
    rw [hcs]
    exact hpasses.append_unclosed (ih (Option.map_eq_none_iff.1 h))
  | case4 => cases h
  | case5 c cs hb hq ih =>
    exact (Passes.single hq hb).append_unclosed (ih (Option.map_eq_none_iff.1 h))

theorem closes_of_body? {body : List Char} (hquote : isQuote quote = true)
    (h : body? quote cs = some (body, after)) : ∃ raw, Closes quote cs raw after := by
  fun_induction body? quote cs generalizing body after with
  | case1 => cases h
  | case2 => cases h
  | case3 cs decoded rest hescape ih =>
    obtain ⟨⟨tail, rest⟩, htail, hpair⟩ := Option.map_eq_some_iff.1 h
    cases hpair
    obtain ⟨spelling, hcs, hpasses⟩ := escape?_passes hquote hescape
    obtain ⟨raw, hraw⟩ := ih htail
    rw [hcs]
    exact ⟨spelling ++ raw, hpasses.append_closes hraw⟩
  | case4 cs hb =>
    cases h
    exact ⟨[], closes_here quote _⟩
  | case5 c cs hb hq ih =>
    obtain ⟨⟨tail, rest⟩, htail, hpair⟩ := Option.map_eq_some_iff.1 h
    cases hpair
    obtain ⟨raw, hraw⟩ := ih htail
    exact ⟨[c] ++ raw, (Passes.single hq hb).append_closes hraw⟩

/-- Quoted text ends at the first quote of its kind that is not escaped. -/
theorem exists_body?_iff (hquote : isQuote quote = true) :
    (∃ body, body? quote cs = some (body, after)) ↔ ∃ raw, Closes quote cs raw after := by
  constructor
  · rintro ⟨body, h⟩
    exact closes_of_body? hquote h
  · rintro ⟨raw, hraw⟩
    cases hbody : body? quote cs with
    | none => exact absurd (unclosed_of_body? hquote hbody) hraw.not_unclosed
    | some found =>
      obtain ⟨body, rest⟩ := found
      obtain ⟨other, hother⟩ := closes_of_body? hquote hbody
      have hlength : raw.length = other.length :=
        Nat.le_antisymm (hraw.first other rest hother.split hother.bare)
          (hother.first raw after hraw.split hraw.bare)
      have hsplit := hraw.split.symm.trans hother.split
      obtain ⟨-, hrest⟩ := List.append_inj hsplit hlength
      obtain rfl : after = rest := (List.cons.inj hrest).2
      exact ⟨body, rfl⟩

/-- Quoted text is not read exactly if it is unclosed. -/
theorem body?_eq_none_iff (hquote : isQuote quote = true) :
    body? quote cs = none ↔ Unclosed quote cs := by
  refine ⟨unclosed_of_body? hquote, fun hunclosed => ?_⟩
  cases hbody : body? quote cs with
  | none => rfl
  | some found =>
    obtain ⟨raw, hraw⟩ := closes_of_body? hquote hbody
    exact absurd hunclosed hraw.not_unclosed

end Formula.Quoted
