import Formula.Proofs.Number.Exact

/-! The text of numbers. Main statement: a finite number that is not negative is written with digits
and at most one point between two of them, and reads back as itself. -/
namespace Formula.Number

/-- A fraction with its point, if there is one. -/
def pointed : List Char → List Char
  | [] => []
  | c :: cs => '.' :: c :: cs

/-- Digits with at most one inner point, and the number that they are read as. -/
inductive Denotes : List Char → Float → Prop where
  | intro (whole fraction : List Char) (nonempty : whole ≠ [])
    (whole_digits : ∀ c ∈ whole, c.isDigit = true)
    (fraction_digits : ∀ c ∈ fraction, c.isDigit = true) :
    Denotes (whole ++ pointed fraction) (Numeral.toFloat ⟨whole, fraction, false, []⟩)

/-! ### Digits -/

theorem toNat_of_isDigit {c : Char} (h : c.isDigit = true) : 48 ≤ c.toNat ∧ c.toNat ≤ 57 := by
  rw [Char.isDigit, Bool.and_eq_true, decide_eq_true_eq, decide_eq_true_eq] at h
  exact h

theorem digitValue_of_isDigit {c : Char} (h : c.isDigit = true) :
    digitsValue.digitValue c = c.toNat - 48 := by
  obtain ⟨_, hle⟩ := toNat_of_isDigit h
  have hlower : ¬('a' ≤ c) := by
    intro hc
    have : 97 ≤ c.toNat := hc
    omega
  have hupper : ¬('A' ≤ c) := by
    intro hc
    have : 65 ≤ c.toNat := hc
    omega
  rw [digitsValue.digitValue, if_neg hlower, if_neg hupper]

theorem digitsValue_eq {cs : List Char} (h : ∀ c ∈ cs, c.isDigit = true) :
    digitsValue 10 cs = Nat.ofDigitChars 10 cs 0 := by
  unfold digitsValue
  rw [Nat.ofDigitChars_eq_foldl]
  apply List.foldl_ext
  intro value c hc
  rw [digitValue_of_isDigit (h c hc)]
  rfl

theorem toFloat_eq (whole fraction : List Char) :
    Numeral.toFloat ⟨whole, fraction, false, []⟩ =
      ofDecimal (digitsValue 10 (whole ++ fraction)) (-(fraction.length : Int)) := by
  unfold Numeral.toFloat
  have hpower : ((digitsValue 10 [] : Nat) : Int) = 0 := rfl
  dsimp only
  rw [hpower, if_neg Bool.false_ne_true, zero_sub]

theorem isDigit_toDigits (n : Nat) : ∀ c ∈ Nat.toDigits 10 n, c.isDigit = true :=
  fun _ hc => Nat.isDigit_of_mem_toDigits (by decide) (by decide) hc

theorem isDigit_zeros (n : Nat) : ∀ c ∈ List.replicate n '0', c.isDigit = true := by
  intro c hc
  obtain rfl := List.eq_of_mem_replicate hc
  decide

theorem toList_pushn (s : String) (c : Char) (n : Nat) :
    (s.pushn c n).toList = s.toList ++ List.replicate n c := by
  rw [String.pushn_eq_repeat_push]
  induction n with
  | zero => simp [Nat.repeat]
  | succ n ih => rw [Nat.repeat, String.toList_push, ih, List.append_assoc, List.replicate_succ']

/-! ### The text of a decimal -/

namespace Digits

/-- Digits and zeros after them. -/
theorem denotes_whole (digits zeros : Nat) :
    Denotes (Nat.toDigits 10 digits ++ List.replicate zeros '0')
      (ofDecimal (digits * tenTo zeros) 0) := by
  have hdigits : ∀ c ∈ Nat.toDigits 10 digits ++ List.replicate zeros '0', c.isDigit = true := by
    intro c hc
    rcases List.mem_append.1 hc with hc | hc
    · exact isDigit_toDigits digits c hc
    · exact isDigit_zeros zeros c hc
  have hvalue : digitsValue 10 (Nat.toDigits 10 digits ++ List.replicate zeros '0') =
      digits * tenTo zeros := by
    rw [digitsValue_eq hdigits, Nat.ofDigitChars_append, Nat.ofDigitChars_ten_toDigits,
      Nat.ofDigitChars_replicate_zero, Nat.mul_comm]
    rfl
  have hne : Nat.toDigits 10 digits ++ List.replicate zeros '0' ≠ [] :=
    List.append_ne_nil_of_left_ne_nil Nat.toDigits_ne_nil _
  have hdenotes := Denotes.intro _ [] hne hdigits (by simp)
  rwa [toFloat_eq, List.append_nil, hvalue, pointed, List.append_nil] at hdenotes

/-- Zeros and digits after them, with a point before the given number of places. -/
theorem denotes_split (zeros digits places : Nat) (hplaces : 0 < places)
    (hroom : places < zeros + (Nat.toDigits 10 digits).length) :
    let chars := List.replicate zeros '0' ++ Nat.toDigits 10 digits
    Denotes (chars.take (chars.length - places) ++ '.' :: chars.drop (chars.length - places))
      (ofDecimal digits (-(places : Int))) := by
  intro chars
  have hdigits : ∀ c ∈ chars, c.isDigit = true := by
    intro c hc
    rcases List.mem_append.1 hc with hc | hc
    · exact isDigit_zeros zeros c hc
    · exact isDigit_toDigits digits c hc
  have hvalue : digitsValue 10 chars = digits := by
    rw [digitsValue_eq hdigits, Nat.ofDigitChars_append, Nat.ofDigitChars_replicate_zero,
      Nat.mul_zero, Nat.ofDigitChars_ten_toDigits]
  have hlength : chars.length = zeros + (Nat.toDigits 10 digits).length := by
    rw [List.length_append, List.length_replicate]
  have hwhole : chars.take (chars.length - places) ≠ [] := by
    apply List.ne_nil_of_length_pos
    rw [List.length_take]
    omega
  have hdrop : (chars.drop (chars.length - places)).length = places := by
    rw [List.length_drop]
    omega
  have hdenotes := Denotes.intro _ (chars.drop (chars.length - places)) hwhole
    (fun c hc => hdigits c (List.mem_of_mem_take hc))
    (fun c hc => hdigits c (List.mem_of_mem_drop hc))
  rw [toFloat_eq, List.take_append_drop, hvalue, hdrop] at hdenotes
  cases hfraction : chars.drop (chars.length - places) with
  | nil =>
    rw [hfraction, List.length_nil] at hdrop
    omega
  | cons c cs => rwa [hfraction, pointed] at hdenotes

/-- A decimal is written as it is read. -/
theorem denotes_text (d : Digits) : Denotes d.text.toList d.toFloat := by
  have hshown : (toString d.digits).toList = Nat.toDigits 10 d.digits := Nat.toList_repr
  have hlength : (toString d.digits).length = (Nat.toDigits 10 d.digits).length := by
    rw [← hshown, String.length_toList]
  have hpos : 0 < (Nat.toDigits 10 d.digits).length := Nat.length_toDigits_pos
  unfold text toFloat
  dsimp only
  by_cases hneg : d.exponent < 0
  · have hexponent : d.exponent = -(d.exponent.natAbs : Int) := by omega
    have hsplit := denotes_split (d.exponent.natAbs + 1 - (toString d.digits).length) d.digits
      d.exponent.natAbs (by omega) (by omega)
    rw [if_neg (by omega), if_pos hneg, String.toList_ofList, String.toList_append, hshown,
      toList_pushn, String.toList_empty, List.nil_append]
    rwa [← hexponent] at hsplit
  · rw [if_pos (by omega), if_neg hneg, String.toList_append, hshown, toList_pushn,
      String.toList_empty, List.nil_append]
    by_cases hzero : d.digits = 0
    · have hwhole := denotes_whole d.digits 0
      rw [hzero] at hwhole ⊢
      rwa [Nat.zero_mul] at hwhole ⊢
    · rw [if_neg hzero]
      exact denotes_whole d.digits d.exponent.natAbs

theorem nearer_cases (num den : Nat) (low high : Digits) :
    nearer num den low high = low ∨ nearer num den low high = high := by
  unfold nearer
  dsimp only
  split
  · exact ite_eq_or_eq _ _ _
  · exact ite_eq_or_eq _ _ _

/-- What the search finds reads back. -/
theorem at?_toFloat {x : Float} {num den : Nat} {exponent : Int} {d : Digits}
    (h : at? x num den exponent = some d) : d.toFloat = x := by
  unfold at? at h
  dsimp only at h
  split at h
  · rename_i hlow hhigh
    rw [← Option.some.inj h]
    rcases nearer_cases num den _ _ with hnearer | hnearer <;> rw [hnearer]
    · exact of_decide_eq_true hlow
    · exact of_decide_eq_true hhigh
  · rename_i hlow _
    obtain rfl := Option.some.inj h
    exact of_decide_eq_true hlow
  · rename_i _ hhigh
    obtain rfl := Option.some.inj h
    exact of_decide_eq_true hhigh
  · cases h

theorem search?_toFloat {x : Float} {num den : Nat} {exponent : Int} {count : Nat} {d : Digits}
    (h : search? x num den exponent count = some d) : d.toFloat = x := by
  induction count generalizing exponent with
  | zero => cases h
  | succ count ih =>
    rw [search?] at h
    split at h
    · rename_i found hfound
      obtain rfl := Option.some.inj h
      exact at?_toFloat hfound
    · exact ih h

/-- The exponent of an exact decimal is never cut off. -/
theorem exact_room {mantissa places : Nat} (hm : 0 < mantissa) (hplaces : places ≤ 1074) :
    ¬-(places : Int) + ((mantissa * Nat.pow 5 places).log2 / 3 : Nat) < -400 := by
  have hpow : 2 ^ (2 * places) ≤ mantissa * Nat.pow 5 places := by
    calc 2 ^ (2 * places) = 4 ^ places := by rw [Nat.pow_mul]
      _ ≤ 5 ^ places := Nat.pow_le_pow_left (by decide) places
      _ ≤ mantissa * Nat.pow 5 places := Nat.le_mul_of_pos_left _ hm
  have hne : mantissa * Nat.pow 5 places ≠ 0 := by
    have := Nat.two_pow_pos (2 * places)
    omega
  have hlog : 2 * places ≤ (mantissa * Nat.pow 5 places).log2 := (Nat.le_log2 hne).2 hpow
  omega

/-- All digits of a number read back. -/
theorem exact_toFloat {x : Float} {mantissa : Nat} {exponent : Int} (hm : 0 < mantissa)
    (hx : shape x = .finite false mantissa exponent) : (exact mantissa exponent).toFloat = x := by
  have hcanonical := canonical_shape x
  rw [hx] at hcanonical
  obtain ⟨_, hleast, hmost, _⟩ := hcanonical
  unfold exact toFloat ofDecimal
  by_cases hneg : exponent < 0
  · obtain ⟨places, rfl⟩ : ∃ places : Nat, exponent = -(places : Int) := ⟨exponent.natAbs, by omega⟩
    have habs : (-(places : Int)).natAbs = places := by omega
    have hroom := exact_room hm (show places ≤ 1074 by omega)
    have hfive : Nat.pow 5 places ≠ 0 := pow_ne_zero _ (by decide)
    have hten : Nat.pow 10 places ≠ 0 := pow_ne_zero _ (by decide)
    have hvalue : (mantissa * 5 ^ places : ℚ) / 10 ^ places = mantissa * 2 ^ (-(places : Int)) := by
      have hbases : (10 : ℚ) ^ places = 5 ^ places * 2 ^ places := by
        rw [← mul_pow]
        norm_num
      rw [hbases, zpow_neg, zpow_natCast]
      field_simp
    simp only [if_pos hneg, habs]
    rw [if_neg (Nat.mul_ne_zero (by omega) hfive), if_neg (by omega), if_neg hroom]
    apply ofRatio_exact hx (Nat.pos_of_ne_zero hten)
    rw [← hvalue]
    push_cast [tenTo, Nat.pow_eq]
    rfl
  · obtain ⟨places, rfl⟩ : ∃ places : Nat, exponent = (places : Int) := ⟨exponent.natAbs, by omega⟩
    have hshift : mantissa <<< places ≠ 0 := by
      rw [Nat.shiftLeft_eq]
      have := Nat.two_pow_pos places
      exact Nat.mul_ne_zero (by omega) (by omega)
    have hone : tenTo (Int.natAbs 0) = 1 := rfl
    simp only [if_neg hneg, Int.natAbs_natCast, hone, Nat.mul_one]
    rw [if_neg (by decide), if_neg hshift, if_neg (by decide), if_neg (by omega),
      if_neg (by decide)]
    apply ofRatio_exact hx Nat.one_pos
    rw [Nat.shiftLeft_eq]
    push_cast
    rw [zpow_natCast, div_one]

theorem shortest_toFloat {x : Float} {mantissa : Nat} {exponent : Int} (hm : 0 < mantissa)
    (hx : shape x = .finite false mantissa exponent) :
    (shortest x mantissa exponent).toFloat = x := by
  unfold shortest
  dsimp only
  cases hsearch : search? x (ratio mantissa exponent).1 (ratio mantissa exponent).2
      (topExponent (ratio mantissa exponent).1 (ratio mantissa exponent).2) 22 with
  | none => exact exact_toFloat hm hx
  | some d => exact search?_toFloat hsearch

end Digits

/-! ### The text of a number -/

theorem ofDecimal_whole (n : Nat) : ofDecimal n 0 = ofRatio n 1 := by
  unfold ofDecimal
  by_cases hzero : n = 0
  · subst hzero
    rfl
  · have hone : n * tenTo (Int.natAbs 0) = n := Nat.mul_one n
    rw [if_neg hzero, if_neg (by decide), if_neg (by omega), if_neg (by decide), hone]

theorem ratio_pos (mantissa : Nat) (exponent : Int) : 0 < (ratio mantissa exponent).2 :=
  scale_pos mantissa Nat.one_pos (-exponent)

theorem ratio_value (mantissa : Nat) (exponent : Int) :
    ((ratio mantissa exponent).1 : ℚ) / (ratio mantissa exponent).2 = mantissa * 2 ^ exponent := by
  have hvalue := scale_value mantissa Nat.one_pos (-exponent)
  rwa [Nat.cast_one, div_one, neg_neg] at hvalue

/-- A whole number below `2 ^ 53` is a natural with its sign. -/
theorem integer?_eq {x : Float} {negative : Bool} {mantissa : Nat} {exponent : Int}
    (hx : shape x = .finite negative mantissa exponent) :
    integer? x = none ∧ 0 < mantissa ∨
      ∃ n : Nat, integer? x = some (if negative then -(n : Int) else n) ∧
        (n : ℚ) = mantissa * 2 ^ exponent := by
  have hpos := ratio_pos mantissa exponent
  have hvalue := ratio_value mantissa exponent
  unfold integer?
  rw [hx]
  dsimp only
  split
  · rename_i h
    refine .inr ⟨_, rfl, ?_⟩
    rw [← hvalue, Nat.cast_div (Nat.dvd_of_mod_eq_zero h.1) (by positivity)]
  · rename_i h
    refine .inl ⟨rfl, Nat.pos_of_ne_zero ?_⟩
    rintro rfl
    have hzero : (ratio 0 exponent).1 = 0 := by
      rw [Nat.cast_zero, zero_mul, div_eq_zero_iff] at hvalue
      exact_mod_cast hvalue.resolve_right (by positivity)
    rw [hzero] at h
    exact h ⟨Nat.zero_mod _, by rw [Nat.zero_div]; decide⟩

/-- A finite number that is not negative reads back. -/
theorem denotes_format {x : Float} {mantissa : Nat} {exponent : Int}
    (hx : shape x = .finite false mantissa exponent) : Denotes (format x).toList x := by
  unfold format
  rcases integer?_eq hx with ⟨hnone, hm⟩ | ⟨n, hsome, hn⟩
  · have hdenotes := Digits.denotes_text (Digits.shortest x mantissa exponent)
    rw [Digits.shortest_toFloat hm hx] at hdenotes
    rw [hnone, hx]
    exact hdenotes
  · have hdenotes := Digits.denotes_whole n 0
    have hexact : ofRatio n 1 = x := by
      apply ofRatio_exact hx Nat.one_pos
      rw [Nat.cast_one, div_one, hn]
    have htext : (toString (n : Int)).toList = Nat.toDigits 10 n := Nat.toList_repr
    have hone : n * tenTo 0 = n := Nat.mul_one n
    rw [hone, ofDecimal_whole, hexact, List.replicate_zero, List.append_nil, ← htext] at hdenotes
    rw [hsome]
    exact hdenotes

/-- A negative number is written as its magnitude with a sign. -/
theorem format_negative {x : Float} {mantissa : Nat} {exponent : Int} (hm : 0 < mantissa)
    (hx : shape x = .finite true mantissa exponent) : format x = "-" ++ format (-x) := by
  have hneg : shape (-x) = .finite false mantissa exponent := by
    rw [shape_neg, hx]
    rfl
  have hopposite : integer? x = (integer? (-x)).map (-·) := by
    unfold integer?
    rw [hx, hneg]
    dsimp only
    split <;> rfl
  unfold format
  rw [hopposite]
  rcases integer?_eq hneg with ⟨hnone, _⟩ | ⟨n, hsome, hn⟩
  · rw [hnone, hx, hneg]
    rfl
  · have hpos : 0 < n := by
      have hvalue : (0 : ℚ) < n := by
        rw [hn]
        positivity
      exact_mod_cast hvalue
    rw [hsome, Option.map_some, if_neg Bool.false_ne_true]
    dsimp only
    rw [Int.toString_eq_repr, Int.toString_eq_repr, Int.repr_eq_if, if_neg (by omega),
      Int.repr_eq_if, if_pos (by omega), neg_neg]

end Formula.Number
