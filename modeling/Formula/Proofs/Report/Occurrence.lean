import Mathlib.Data.String.Basic
import Mathlib.Order.Bounds.Basic
import Formula.Report

/-! Places in a source, counted in bytes. Main statements: the search of a text comes to its first
occurrence, and a place lies between two characters if some of the first characters have as many
bytes. -/
namespace Formula.Span

open String (utf8Len)

variable {text cs : List Char} {offset n k : Nat} {c : Char}

/-- The text stands in `cs` after so many bytes. -/
def StandsAt (text cs : List Char) (offset : Nat) : Prop :=
  ∃ before after, cs = before ++ (text ++ after) ∧ utf8Len before = offset

/-- An occurrence is at the first character or in what follows it. -/
theorem standsAt_cons :
    StandsAt text (c :: cs) n ↔
      text <+: c :: cs ∧ n = 0 ∨ ∃ k, StandsAt text cs k ∧ n = k + c.utf8Size := by
  constructor
  · rintro ⟨before, after, heq, rfl⟩
    cases before with
    | nil => exact .inl ⟨⟨after, heq.symm⟩, rfl⟩
    | cons d before =>
      obtain ⟨rfl, rfl⟩ := List.cons.inj heq
      exact .inr ⟨utf8Len before, ⟨before, after, rfl, rfl⟩, rfl⟩
  · rintro (⟨⟨after, heq⟩, rfl⟩ | ⟨k, ⟨before, after, rfl, rfl⟩, rfl⟩)
    · exact ⟨[], after, heq.symm, rfl⟩
    · exact ⟨c :: before, after, rfl, rfl⟩

theorem standsAt_nil : StandsAt text [] n ↔ text = [] ∧ n = 0 := by
  constructor
  · rintro ⟨before, after, heq, rfl⟩
    obtain ⟨rfl, htext⟩ := List.append_eq_nil_iff.1 heq.symm
    exact ⟨(List.append_eq_nil_iff.1 htext).1, rfl⟩
  · rintro ⟨rfl, rfl⟩
    exact ⟨[], [], rfl, rfl⟩

theorem offsetOf?_eq_map (text cs : List Char) (k : Nat) :
    offsetOf? text cs k = (offsetOf? text cs 0).map (k + ·) := by
  induction cs generalizing k with
  | nil =>
    simp only [offsetOf?]
    split <;> rfl
  | cons c cs ih =>
    simp only [offsetOf?]
    split
    · rfl
    · rw [ih (k + c.utf8Size), ih (0 + c.utf8Size), Option.map_map]
      simp [Function.comp_def, Nat.add_assoc]

theorem offsetOf?_eq_none : offsetOf? text cs 0 = none ↔ ∀ n, ¬StandsAt text cs n := by
  induction cs with
  | nil => simp [offsetOf?, standsAt_nil]
  | cons c cs ih =>
    simp only [offsetOf?]
    split
    · rename_i hprefix
      have hfirst : StandsAt text (c :: cs) 0 :=
        standsAt_cons.2 (.inl ⟨List.isPrefixOf_iff_prefix.1 hprefix, rfl⟩)
      simp only [reduceCtorEq, false_iff, not_forall, not_not]
      exact ⟨0, hfirst⟩
    · rename_i hprefix
      rw [List.isPrefixOf_iff_prefix] at hprefix
      rw [offsetOf?_eq_map, Option.map_eq_none_iff, ih]
      constructor
      · intro h n hn
        obtain ⟨hfirst, -⟩ | ⟨k, hk, -⟩ := standsAt_cons.1 hn
        · exact hprefix hfirst
        · exact h k hk
      · exact fun h k hk => h _ (standsAt_cons.2 (.inr ⟨k, hk, rfl⟩))

/-- The search stops at the first occurrence. -/
theorem isLeast_of_offsetOf? (h : offsetOf? text cs 0 = some n) :
    IsLeast {k | StandsAt text cs k} n := by
  induction cs generalizing n with
  | nil =>
    simp only [offsetOf?, Option.ite_none_right_eq_some, List.isEmpty_iff, Option.some.injEq] at h
    obtain ⟨rfl, rfl⟩ := h
    exact ⟨standsAt_nil.2 ⟨rfl, rfl⟩, fun k _ => Nat.zero_le k⟩
  | cons c cs ih =>
    simp only [offsetOf?] at h
    split at h
    · rename_i hprefix
      obtain rfl := Option.some.inj h
      exact ⟨standsAt_cons.2 (.inl ⟨List.isPrefixOf_iff_prefix.1 hprefix, rfl⟩),
        fun k _ => Nat.zero_le k⟩
    · rename_i hprefix
      rw [List.isPrefixOf_iff_prefix] at hprefix
      rw [offsetOf?_eq_map, Nat.zero_add] at h
      obtain ⟨k, hk, rfl⟩ := Option.map_eq_some_iff.1 h
      obtain ⟨hstands, hleast⟩ := ih hk
      refine ⟨standsAt_cons.2 (.inr ⟨k, hstands, Nat.add_comm _ _⟩), fun other hother => ?_⟩
      obtain ⟨hfirst, -⟩ | ⟨k', hk', rfl⟩ := standsAt_cons.1 hother
      · exact absurd hfirst hprefix
      · have := hleast hk'
        omega

/-- A text that stands somewhere has a first occurrence. -/
theorem StandsAt.exists_isLeast (h : StandsAt text cs n) :
    ∃ first, IsLeast {k | StandsAt text cs k} first := by
  cases hfound : offsetOf? text cs 0 with
  | none => exact absurd h (offsetOf?_eq_none.1 hfound n)
  | some first => exact ⟨first, isLeast_of_offsetOf? hfound⟩

/-! ### Boundaries -/

theorem utf8Len_toList (source : String) : utf8Len source.toList = source.utf8ByteSize := by
  rw [← String.utf8ByteSize_ofList, String.ofList_toList]

/-- A place between two characters has some of the characters before it. -/
theorem isValid_iff {source : String} :
    (⟨n⟩ : String.Pos.Raw).IsValid source ↔
      ∃ before after, source.toList = before ++ after ∧ utf8Len before = n := by
  rw [String.Pos.Raw.isValid_iff_exists_append]
  constructor
  · rintro ⟨before, after, rfl, hn⟩
    refine ⟨before.toList, after.toList, String.toList_append, ?_⟩
    rw [utf8Len_toList]
    exact (congrArg String.Pos.Raw.byteIdx hn).symm
  · rintro ⟨before, after, heq, rfl⟩
    refine ⟨.ofList before, .ofList after, ?_, (String.rawEndPos_ofList before).symm⟩
    rw [← String.ofList_append, ← heq, String.ofList_toList]

theorem isValid_zero (source : String) : (⟨0⟩ : String.Pos.Raw).IsValid source :=
  isValid_iff.2 ⟨[], source.toList, rfl, rfl⟩

theorem isValid_utf8ByteSize (source : String) :
    (⟨source.utf8ByteSize⟩ : String.Pos.Raw).IsValid source :=
  isValid_iff.2 ⟨source.toList, [], (List.append_nil _).symm, utf8Len_toList source⟩

/-- An occurrence starts and ends between characters. -/
theorem StandsAt.isValid {source : String} (h : StandsAt text source.toList n) :
    (⟨n⟩ : String.Pos.Raw).IsValid source ∧ (⟨n + utf8Len text⟩ : String.Pos.Raw).IsValid source ∧
      n + utf8Len text ≤ source.utf8ByteSize := by
  obtain ⟨before, after, heq, rfl⟩ := h
  refine ⟨isValid_iff.2 ⟨before, _, heq, rfl⟩,
    isValid_iff.2 ⟨before ++ text, after, ?_, String.utf8Len_append before text⟩, ?_⟩
  · rw [heq, List.append_assoc]
  · rw [← utf8Len_toList, heq, String.utf8Len_append, String.utf8Len_append]
    omega

/-- The place after the first byte is inside the first character if that has more of them. -/
theorem isValid_one {source : String} (h : source ≠ "") :
    (⟨1⟩ : String.Pos.Raw).IsValid source ↔ ∀ c ∈ source.toList.head?, c.utf8Size = 1 := by
  obtain ⟨c, cs, hsource⟩ := List.exists_cons_of_ne_nil (mt String.toList_eq_nil_iff.1 h)
  simp only [isValid_iff, hsource, List.head?_cons, Option.mem_some_iff, forall_eq']
  constructor
  · rintro ⟨before, after, heq, hbytes⟩
    cases before with
    | nil => cases hbytes
    | cons d before =>
      obtain ⟨rfl, -⟩ := List.cons.inj heq
      have hpos := c.utf8Size_pos
      rw [String.utf8Len_cons] at hbytes
      omega
  · exact fun hbytes => ⟨[c], cs, rfl, by simpa using hbytes⟩

/-- The place before the last byte is inside the last character if that has more of them. -/
theorem isValid_pred {source : String} (h : source ≠ "") :
    (⟨source.utf8ByteSize - 1⟩ : String.Pos.Raw).IsValid source ↔
      ∀ c ∈ source.toList.getLast?, c.utf8Size = 1 := by
  have hsource := List.dropLast_concat_getLast (mt String.toList_eq_nil_iff.1 h)
  generalize source.toList.dropLast = cs at hsource
  generalize source.toList.getLast _ = c at hsource
  have hbytes : source.utf8ByteSize = utf8Len cs + c.utf8Size := by
    rw [← utf8Len_toList, ← hsource, String.utf8Len_append, String.utf8Len_cons, utf8Len,
      Nat.zero_add]
  have hpos := c.utf8Size_pos
  simp only [isValid_iff, ← hsource, List.getLast?_concat, Option.mem_some_iff, forall_eq', hbytes]
  constructor
  · rintro ⟨before, after, heq, hbefore⟩
    rcases List.eq_nil_or_concat after with rfl | ⟨after, d, rfl⟩
    · rw [List.append_nil] at heq
      rw [← heq, String.utf8Len_append, String.utf8Len_cons, utf8Len] at hbefore
      omega
    · rw [List.concat_eq_append, ← List.append_assoc] at heq
      obtain ⟨rfl, -⟩ := List.append_inj' heq rfl
      rw [String.utf8Len_append] at hbefore
      omega
  · intro hone
    exact ⟨cs, [c], rfl, by omega⟩

end Formula.Span
