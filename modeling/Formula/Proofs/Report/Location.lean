import Formula.Proofs.Parser.Mentions
import Formula.Proofs.Report.Occurrence

/-! Where reports point. Main statements: the location of an error is a part of the source that is
not empty, and it cuts a character only where a delimiter is missing after a wide one, or where the
host raises an error about a symbol without a name. -/
namespace Formula

open String (utf8Len)

namespace Span

variable {source token : String} {error : Error}

/-- Both ends of the span stand between characters. -/
def BetweenCharacters (source : String) (span : Span) : Prop :=
  (⟨span.offset⟩ : String.Pos.Raw).IsValid source ∧
    (⟨span.offset + span.length⟩ : String.Pos.Raw).IsValid source

theorem ofError_of_token? (h : error.token? = some token) :
    ofError source error = ((offsetOf? token.toList source.toList 0).map fun offset =>
      ⟨offset, max 1 token.utf8ByteSize⟩).getD (whole source) := by
  cases error with
  | missingDelimiter delimiter => cases h
  | _ =>
    simp only [ofError, h]
    cases offsetOf? token.toList source.toList 0 <;> rfl

theorem ofError_of_none (h : error.token? = none)
    (hne : ∀ delimiter, error ≠ .missingDelimiter delimiter) :
    ofError source error = whole source := by
  cases error with
  | missingDelimiter delimiter => exact absurd rfl (hne delimiter)
  | _ => simp only [ofError, h]

theorem utf8ByteSize_pos (h : source ≠ "") : 1 ≤ source.utf8ByteSize := by
  have hne := mt String.utf8ByteSize_eq_zero_iff.1 h
  omega

theorem whole_eq (h : source ≠ "") : whole source = ⟨0, source.utf8ByteSize⟩ := by
  have hpos := utf8ByteSize_pos h
  rw [whole, Nat.max_eq_right hpos]

/-- A token that stands in the source is found there, at its first occurrence. -/
theorem ofError_of_standsAt {n : Nat} (h : error.token? = some token)
    (hn : IsLeast {k | StandsAt token.toList source.toList k} n) :
    ofError source error = ⟨n, max 1 token.utf8ByteSize⟩ := by
  rw [ofError_of_token? h]
  cases hfound : offsetOf? token.toList source.toList 0 with
  | none => exact absurd hn.1 (offsetOf?_eq_none.1 hfound n)
  | some offset =>
    rw [(isLeast_of_offsetOf? hfound).unique hn]
    rfl

theorem betweenCharacters_whole (h : source ≠ "") : (whole source).BetweenCharacters source := by
  rw [whole_eq h]
  refine ⟨isValid_zero source, ?_⟩
  dsimp only
  rw [Nat.zero_add]
  exact isValid_utf8ByteSize source

end Span

namespace Report

variable {source : String}

/-- The report points at a part of a character: at the last byte of a source that ends with a wide
one, for a missing delimiter, or at the first byte of one that begins so, for a symbol without a
name. -/
def Splits (r : Report) : Prop :=
  (∃ delimiter, r.error = .missingDelimiter delimiter) ∧
      (∃ c ∈ r.source.toList.getLast?, c.utf8Size ≠ 1) ∨
    r.error.token? = some "" ∧ ∃ c ∈ r.source.toList.head?, c.utf8Size ≠ 1

/-- A location that a report may have. -/
structure Located (r : Report) : Prop where
  pos : 1 ≤ r.location.length
  within : r.location.offset + r.location.length ≤ r.source.utf8ByteSize
  cut : r.location.BetweenCharacters r.source ↔ ¬r.Splits

theorem located_missing (h : source ≠ "") (delimiter : String) :
    Located ⟨.missingDelimiter delimiter, source⟩ := by
  have hpos := Span.utf8ByteSize_pos h
  have hlocation :
      location ⟨.missingDelimiter delimiter, source⟩ = ⟨source.utf8ByteSize - 1, 1⟩ := rfl
  refine ⟨?_, ?_, ?_⟩
  · rw [hlocation]
  · rw [hlocation]
    dsimp only
    omega
  · have hstop : source.utf8ByteSize - 1 + 1 = source.utf8ByteSize := by omega
    rw [hlocation, Span.BetweenCharacters]
    dsimp only
    rw [hstop, Span.isValid_pred h]
    simp [Splits, Error.token?, Span.isValid_utf8ByteSize]

theorem located_whole (h : source ≠ "") {error : Error}
    (hlocation : location ⟨error, source⟩ = Span.whole source)
    (hmissing : ∀ delimiter, error ≠ .missingDelimiter delimiter) (htoken : error.token? ≠ some "") :
    Located ⟨error, source⟩ := by
  have hpos := Span.utf8ByteSize_pos h
  have hwhole := hlocation.trans (Span.whole_eq h)
  refine ⟨?_, ?_, ?_⟩
  · rw [hwhole]
    exact hpos
  · rw [hwhole]
    exact (Nat.zero_add _).le
  · have hsplits : ¬Splits ⟨error, source⟩ := by
      rintro (⟨⟨delimiter, herror⟩, -⟩ | ⟨htoken', -⟩)
      · exact hmissing delimiter herror
      · exact htoken htoken'
    rw [hlocation]
    exact iff_of_true (Span.betweenCharacters_whole h) hsplits

/-- A token is looked for with all of its characters. -/
theorem located_found (h : source ≠ "") {error : Error} {token : String}
    (htoken : error.token? = some token) {n : Nat}
    (hn : IsLeast {k | Span.StandsAt token.toList source.toList k} n) :
    Located ⟨error, source⟩ := by
  have hpos := Span.utf8ByteSize_pos h
  have hlocation : location ⟨error, source⟩ = ⟨n, max 1 token.utf8ByteSize⟩ :=
    Span.ofError_of_standsAt htoken hn
  have hmissing (delimiter : String) : error ≠ .missingDelimiter delimiter := by
    rintro rfl
    cases htoken
  by_cases hempty : token = ""
  · subst hempty
    have hzero : n = 0 := Nat.le_zero.1 (hn.2 ⟨[], source.toList, rfl, rfl⟩)
    subst hzero
    rw [String.utf8ByteSize_empty, Nat.max_eq_left (Nat.zero_le 1)] at hlocation
    refine ⟨?_, ?_, ?_⟩
    · rw [hlocation]
    · rw [hlocation]
      exact hpos
    · rw [hlocation, Span.BetweenCharacters]
      simp [Splits, hmissing, htoken, Span.isValid_one h]
  · rw [Nat.max_eq_right (Span.utf8ByteSize_pos hempty)] at hlocation
    obtain ⟨hstart, hstop, hwithin⟩ := hn.1.isValid
    rw [Span.utf8Len_toList] at hstop hwithin
    refine ⟨?_, ?_, ?_⟩
    · rw [hlocation]
      exact Span.utf8ByteSize_pos hempty
    · rw [hlocation]
      exact hwithin
    · have hsplits : ¬Splits ⟨error, source⟩ := by
        rintro (⟨⟨delimiter, herror⟩, -⟩ | ⟨htoken', -⟩)
        · exact hmissing delimiter herror
        · exact hempty (Option.some.inj (htoken.symm.trans htoken'))
      rw [hlocation]
      exact iff_of_true ⟨hstart, hstop⟩ hsplits

theorem located (h : source ≠ "") (error : Error) : Located ⟨error, source⟩ := by
  by_cases hmissing : ∃ delimiter, error = .missingDelimiter delimiter
  · obtain ⟨delimiter, rfl⟩ := hmissing
    exact located_missing h delimiter
  · have hother (delimiter : String) : error ≠ .missingDelimiter delimiter :=
      fun herror => hmissing ⟨delimiter, herror⟩
    cases htoken : error.token? with
    | none =>
      refine located_whole h (Span.ofError_of_none htoken hother) hother ?_
      rw [htoken]
      exact nofun
    | some token =>
      have hspan : location ⟨error, source⟩ = _ := Span.ofError_of_token? htoken
      cases hfound : Span.offsetOf? token.toList source.toList 0 with
      | some n => exact located_found h htoken (Span.isLeast_of_offsetOf? hfound)
      | none =>
        rw [hfound] at hspan
        refine located_whole h hspan hother ?_
        rintro hempty
        obtain rfl := Option.some.inj (htoken.symm.trans hempty)
        exact Span.offsetOf?_eq_none.1 hfound 0 ⟨[], source.toList, rfl, rfl⟩

/-! ### The errors of a source -/

/-- What fails in a tree of a source, if it is about a symbol without a name, does so in the
host. -/
theorem raised_of_origin {error : Error} {raised : Prop} (htoken : error.token? = some "")
    (h : error ∈ (Tree.ofSource source).faults ∨ raised ∨
      ∃ symbol ∈ (Tree.ofSource source).occurrences, error.Concerns symbol) : raised := by
  obtain hfault | hraised | ⟨symbol, hsymbol, hconcerns⟩ := h
  · exact absurd htoken (Tree.refusal_of_faults hfault).token?_ne
  · exact hraised
  · rw [hconcerns.token?] at htoken
    exact absurd (Option.some.inj htoken) (Tree.name_ne_empty hsymbol)

/-- The location of an error is a part of the source that is not empty, and it starts and ends
between characters unless a delimiter is missing after a wide character or a symbol has no name; no
reading and no evaluation of the source is about such a symbol, but a host may be. -/
theorem location_within (source : String) (h : source ≠ "") :
    (∀ error, Located ⟨error, source⟩) ∧
    (∀ earlier delimiters error,
      (((Parser.ofSource source).readAll earlier).2.read delimiters).1 = .error error →
      error.token? ≠ some "") ∧
    (∀ {σ : Type} (b : Bindings σ) error, b.Fails (.ofSource source) error →
      error.token? = some "" → b.Raises error) ∧
    ∀ {σ : Type} (b : Mixed.Bindings σ) error, b.Fails (.ofSource source) error →
      error.token? = some "" → b.Raises error :=
  ⟨located h, fun _ _ _ hread => (Parser.refusal_of_read hread).token?_ne,
    fun _ _ hfails htoken => raised_of_origin htoken hfails.origin,
    fun _ _ hfails htoken => raised_of_origin htoken hfails.origin⟩

/-- A parenthesis that is not closed, told at the last character. -/
theorem location_within_open :
    let r : Report := ⟨.missingDelimiter ")", "(x"⟩
    ((Parser.ofSource r.source).read []).1 = .error r.error ∧ r.location = ⟨1, 1⟩ ∧
      r.location.BetweenCharacters r.source := by
  intro r
  have hread : ((Parser.ofSource r.source).read []).1 = .error r.error := by cbv
  have hlast : r.source.toList.getLast? = some 'x' := by decide
  have hsplits : ¬r.Splits := by
    rintro (⟨-, c, hc, hwide⟩ | ⟨htoken, -⟩)
    · rw [hlast] at hc
      obtain rfl := Option.some.inj hc
      exact hwide (by decide)
    · cases htoken
  have hlocated := (location_within r.source (by decide)).1 r.error
  exact ⟨hread, rfl, hlocated.cut.2 hsplits⟩

/-- The same, after a character of two bytes. -/
theorem location_within_wide :
    let r : Report := ⟨.missingDelimiter ")", "(é"⟩
    ((Parser.ofSource r.source).read []).1 = .error r.error ∧ r.location = ⟨2, 1⟩ ∧
      ¬(⟨r.location.offset⟩ : String.Pos.Raw).IsValid r.source := by
  intro r
  have hread : ((Parser.ofSource r.source).read []).1 = .error r.error := by cbv
  have hlocation : r.location = ⟨2, 1⟩ := by decide
  refine ⟨hread, hlocation, ?_⟩
  rw [hlocation]
  decide

end Report

end Formula
