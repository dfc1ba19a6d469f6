import Formula.Proofs.Token.Scan

/-! Scans of text that is cut off. Main statement: a token depends on nothing that stands behind it
after a blank or a closing mark. So the tokens of a text are also those of a longer text that goes
on with one of these, and no token that ends before the last parenthesis of a text depends on what
is written after that parenthesis. -/
namespace Formula.Token

open Charset

variable {cs k rest x : List Char} {c : Char} {p : Char → Bool} {token : Token}

/-! ### Cuts -/

/-- The characters that stand in no token but a quoted one, or are a token of their own. -/
def breaks : List Char := [' ', '\t', '\n', '\r', ')', ']', ',']

/-- Text that no token before it goes on into. -/
def Cuts (k : List Char) : Prop := ∀ c ∈ k.head?, c ∈ breaks

/-- What a test of characters splits off ends where it fails. -/
theorem takeWhile_append_of_head (hk : ∀ c ∈ k.head?, p c = false) (cs : List Char) :
    (cs ++ k).takeWhile p = cs.takeWhile p ∧ (cs ++ k).dropWhile p = cs.dropWhile p ++ k := by
  induction cs with
  | nil =>
    cases k with
    | nil => exact ⟨rfl, rfl⟩
    | cons c k =>
      have hc : p c = false := hk c rfl
      simp [hc]
  | cons c cs ih =>
    rw [List.cons_append, List.takeWhile_cons, List.takeWhile_cons, List.dropWhile_cons,
      List.dropWhile_cons]
    split
    · exact ⟨congrArg _ ih.1, ih.2⟩
    · exact ⟨rfl, rfl⟩

/-! ### Lengths of numerals -/

theorem takeWhile_le (p : Char → Bool) (cs : List Char) : (cs.takeWhile p).length ≤ cs.length :=
  (List.takeWhile_prefix p).length_le

theorem fraction_le (cs : List Char) :
    (if (fraction cs).isEmpty then 0 else 1 + (fraction cs).length) ≤ cs.length := by
  unfold fraction
  split
  · rename_i cs
    have := takeWhile_le Char.isDigit cs
    rw [List.length_cons]
    split <;> omega
  · exact Nat.zero_le _

theorem exponent_le (cs : List Char) : (exponent cs).2.2 ≤ cs.length := by
  cases cs with
  | nil => exact Nat.zero_le _
  | cons c cs =>
    have hdigits (sign : Nat) (negative : Bool) (rest : List Char)
        (hrest : sign + rest.length ≤ cs.length) :
        (if (rest.takeWhile Char.isDigit).isEmpty then (false, [], 0)
          else (negative, rest.takeWhile Char.isDigit,
            1 + sign + (rest.takeWhile Char.isDigit).length)).2.2 ≤ (c :: cs).length := by
      have := takeWhile_le Char.isDigit rest
      rw [List.length_cons]
      split <;> dsimp only <;> omega
    unfold exponent
    dsimp only
    split
    · split
      · rename_i rest
        exact hdigits 1 true rest (by rw [List.length_cons]; omega)
      · rename_i rest
        exact hdigits 1 false rest (by rw [List.length_cons]; omega)
      · exact hdigits 0 false cs (by omega)
    · exact Nat.zero_le _

theorem decimal?_le {numeral : Number.Numeral} {length : Nat}
    (h : decimal? cs = some (numeral, length)) : length ≤ cs.length := by
  unfold decimal? at h
  dsimp only at h
  split at h
  · cases h
  · simp only [Option.some.injEq, Prod.mk.injEq] at h
    obtain ⟨-, rfl⟩ := h
    have hwhole := takeWhile_le Char.isDigit cs
    have hfraction := fraction_le (cs.drop (cs.takeWhile Char.isDigit).length)
    have hexponent := exponent_le (cs.drop ((cs.takeWhile Char.isDigit).length +
      if (fraction (cs.drop (cs.takeWhile Char.isDigit).length)).isEmpty then 0
      else 1 + (fraction (cs.drop (cs.takeWhile Char.isDigit).length)).length))
    rw [List.length_drop] at hfraction hexponent
    refine Nat.le_trans (Nat.add_le_add_left hexponent _) ?_
    omega

theorem numeral?_le {value : Float} {length : Nat} (h : numeral? cs = some (value, length)) :
    length ≤ cs.length := by
  unfold numeral? at h
  split at h
  · rename_i digits hdigits
    simp only [Option.some.injEq, Prod.mk.injEq] at h
    obtain ⟨-, rfl⟩ := h
    unfold hexadecimal? at hdigits
    split at hdigits
    · rename_i cs
      simp only [Option.ite_none_left_eq_some, Option.some.injEq] at hdigits
      have := takeWhile_le isHexDigit cs
      rw [← hdigits.2]
      simp only [List.length_cons]
      omega
    · cases hdigits
  · obtain ⟨⟨numeral, n⟩, hn, hl⟩ := Option.map_eq_some_iff.1 h
    simp only [Prod.mk.injEq] at hl
    rw [← hl.2]
    exact decimal?_le hn

namespace Cuts

theorem nil : Cuts [] := by
  rintro c ⟨⟩

theorem cons (hc : c ∈ breaks) : Cuts (c :: k) := by
  rintro d ⟨⟩
  exact hc

theorem eq_false (hk : Cuts k) (hp : breaks.all (fun c => !p c) = true) :
    ∀ c ∈ k.head?, p c = false := fun c hc => by
  simpa using List.all_eq_true.1 hp c (hk c hc)

variable (hk : Cuts k) (cs : List Char)
include hk

theorem takeWhile_append (hp : breaks.all (fun c => !p c) = true) :
    (cs ++ k).takeWhile p = cs.takeWhile p :=
  (takeWhile_append_of_head (hk.eq_false hp) cs).1

theorem startsPart_append : startsPart (cs ++ k) = startsPart cs := by
  cases cs with
  | nil =>
    cases k with
    | nil => rfl
    | cons c k => exact hk.eq_false (p := isNameTail) (by decide) c rfl
  | cons c cs => rfl

theorem nameRun_append : nameRun (cs ++ k) = nameRun cs := by
  induction cs with
  | nil =>
    cases k with
    | nil => rfl
    | cons c k =>
      have htail : isNameTail c = false := hk.eq_false (by decide) c rfl
      have hdot : (c == '.') = false := hk.eq_false (p := (· == '.')) (by decide) c rfl
      simp [nameRun, htail, hdot]
  | cons c cs ih => rw [List.cons_append, nameRun, nameRun, hk.startsPart_append cs, ih]

theorem name?_append : name? (cs ++ k) = name? cs := by
  cases cs with
  | nil =>
    cases k with
    | nil => rfl
    | cons c k =>
      have hhead : isNameHead c = false := hk.eq_false (by decide) c rfl
      have hdot : (c == '.') = false := hk.eq_false (p := (· == '.')) (by decide) c rfl
      simp [name?, hhead, hdot]
  | cons c cs =>
    rw [List.cons_append, name?, name?, hk.startsPart_append cs, hk.nameRun_append cs]

theorem operator?_append : operator? (cs ++ k) = operator? cs := by
  cases cs with
  | nil =>
    cases k with
    | nil => rfl
    | cons c k =>
      have hop : isOperator c = false := hk.eq_false (by decide) c rfl
      have hdot : (c == '.') = false := hk.eq_false (p := (· == '.')) (by decide) c rfl
      simp [operator?, hop, hdot]
  | cons c cs =>
    rw [List.cons_append, operator?, operator?, hk.takeWhile_append (p := isOperator) cs (by decide),
      hk.takeWhile_append (p := fun d => d == '.' || isOperator d) cs (by decide)]

theorem hexadecimal?_append : hexadecimal? (cs ++ k) = hexadecimal? cs := by
  have hnone {c d : Char} (hx : c ≠ '0' ∨ d ≠ 'x') (rest : List Char) :
      hexadecimal? (c :: d :: rest) = none := by
    unfold hexadecimal?
    split
    · rename_i heq
      obtain ⟨rfl, htail⟩ := List.cons.inj heq
      exact absurd (List.cons.inj htail).1 (hx.resolve_left fun h => h rfl)
    · rfl
  have hbreak {c : Char} (hc : c ∈ breaks) : c ≠ '0' ∧ c ≠ 'x' := by
    constructor <;> rintro rfl <;> exact absurd hc (by decide)
  match cs with
  | [] =>
    match k, hk with
    | [], _ => rfl
    | [c], _ => simp [hexadecimal?]
    | c :: d :: k, hk => exact hnone (.inl (hbreak (hk c rfl)).1) k
  | [c] =>
    cases k with
    | nil => rfl
    | cons d k =>
      rw [List.singleton_append, hnone (.inr (hbreak (hk d rfl)).2)]
      simp [hexadecimal?]
  | c :: d :: cs =>
    by_cases hx : c ≠ '0' ∨ d ≠ 'x'
    · rw [List.cons_append, List.cons_append, hnone hx, hnone hx]
    · rw [not_or, Decidable.not_not, Decidable.not_not] at hx
      obtain ⟨rfl, rfl⟩ := hx
      show hexadecimal? ('0' :: 'x' :: (cs ++ k)) = _
      rw [hexadecimal?, hexadecimal?, hk.takeWhile_append cs (by decide)]

theorem fraction_append : fraction (cs ++ k) = fraction cs := by
  have hnone {c : Char} (hc : c ≠ '.') (rest : List Char) : fraction (c :: rest) = [] := by
    unfold fraction
    split
    · rename_i heq
      exact absurd (List.cons.inj heq).1 hc
    · rfl
  cases cs with
  | nil =>
    cases k with
    | nil => rfl
    | cons c k =>
      refine hnone ?_ k
      rintro rfl
      exact absurd (hk '.' rfl) (by decide)
  | cons c cs =>
    by_cases hc : c = '.'
    · subst hc
      exact hk.takeWhile_append cs (by decide)
    · rw [List.cons_append, hnone hc, hnone hc]

theorem exponent_append : exponent (cs ++ k) = exponent cs := by
  have hnone {c : Char} (hc : ¬(c == 'e' || c == 'E') = true) (rest : List Char) :
      exponent (c :: rest) = (false, [], 0) := if_neg hc
  match cs with
  | [] =>
    cases k with
    | nil => rfl
    | cons c k =>
      have hc : (c == 'e' || c == 'E') = false :=
        hk.eq_false (p := fun c => c == 'e' || c == 'E') (by decide) c rfl
      exact hnone (by rw [hc]; exact Bool.false_ne_true) k
  | c :: cs =>
    by_cases hc : (c == 'e' || c == 'E') = true
    · match cs with
      | [] =>
        cases k with
        | nil => rfl
        | cons d k =>
          have hminus : (d == '-') = false := hk.eq_false (p := (· == '-')) (by decide) d rfl
          have hplus : (d == '+') = false := hk.eq_false (p := (· == '+')) (by decide) d rfl
          have hdigit : d.isDigit = false := hk.eq_false (by decide) d rfl
          rw [beq_eq_false_iff_ne] at hminus hplus
          simp [exponent, hc, hminus, hplus, hdigit]
      | d :: cs =>
        by_cases hsign : d = '-' ∨ d = '+'
        · have hdigits := hk.takeWhile_append (p := Char.isDigit) cs (by decide)
          rcases hsign with rfl | rfl <;> simp [exponent, hc, hdigits]
        · rw [not_or] at hsign
          have hdigits := hk.takeWhile_append (p := Char.isDigit) (d :: cs) (by decide)
          rw [List.cons_append] at hdigits
          simp [exponent, hc, hsign, hdigits]
    · rw [List.cons_append, hnone hc, hnone hc]

theorem decimal?_append : decimal? (cs ++ k) = decimal? cs := by
  have hwhole := takeWhile_le Char.isDigit cs
  have hfraction := fraction_le (cs.drop (cs.takeWhile Char.isDigit).length)
  rw [List.length_drop] at hfraction
  unfold decimal?
  dsimp only
  rw [hk.takeWhile_append cs (by decide), List.drop_append_of_le_length hwhole,
    hk.fraction_append, List.drop_append_of_le_length (by omega), hk.exponent_append]

theorem numeral?_append : numeral? (cs ++ k) = numeral? cs := by
  rw [numeral?, numeral?, hk.hexadecimal?_append, hk.decimal?_append]

end Cuts

/-! ### Quoted text -/

/-- The digits of a code point end before a quote. -/
theorem codePoint?_append {quote : Char} (hquote : Quoted.isQuote quote = true)
    (hmem : quote ∈ cs) (x : List Char) :
    Quoted.codePoint? (cs ++ x) =
      (Quoted.codePoint? cs).map fun found => (found.1, found.2 ++ x) := by
  obtain ⟨hhex, hopen⟩ : isHexDigit quote = false ∧ quote ≠ '\x7b' := by
    rcases Quoted.isQuote_cases hquote with rfl | rfl | rfl <;> decide
  cases cs with
  | nil => cases hmem
  | cons c cs =>
    by_cases hc : c = '\x7b'
    · subst hc
      obtain ⟨front, tail, rfl⟩ := List.append_of_mem ((List.mem_cons.1 hmem).resolve_left hopen)
      obtain ⟨digits, hdigits⟩ :
          ∃ digits, ((front ++ quote :: tail).takeWhile isHexDigit).take 8 = digits := ⟨_, rfl⟩
      have htake : (front ++ quote :: tail).takeWhile isHexDigit = front.takeWhile isHexDigit :=
        (takeWhile_append_of_head (by rintro d ⟨⟩; exact hhex) front).1
      have htake' : ((front ++ quote :: tail) ++ x).takeWhile isHexDigit =
          (front ++ quote :: tail).takeWhile isHexDigit := by
        rw [htake, List.append_assoc]
        exact (takeWhile_append_of_head (by rintro d ⟨⟩; exact hhex) front).1
      have hle : digits.length ≤ front.length := by
        rw [← hdigits, htake]
        exact Nat.le_trans (List.length_take_le' 8 _) (takeWhile_le _ _)
      have hdrop : (front ++ quote :: tail).drop digits.length =
          front.drop digits.length ++ quote :: tail := List.drop_append_of_le_length hle
      have hdrop' : ((front ++ quote :: tail) ++ x).drop digits.length =
          (front.drop digits.length ++ quote :: tail) ++ x := by
        rw [List.drop_append_of_le_length (by rw [List.length_append]; omega), hdrop]
      simp only [List.cons_append, Quoted.codePoint?, htake', hdigits, hdrop, hdrop']
      cases hafter : front.drop digits.length ++ quote :: tail with
      | nil => simp at hafter
      | cons d after =>
        by_cases hd : d = '\x7d'
        · subst hd
          show (if _ then none else some (_, after ++ x)) =
            Option.map _ (if _ then none else some (_, after))
          split <;> rfl
        · simp [hd]
    · have hnone : ∀ rest, Quoted.codePoint? (c :: rest) = none := by
        intro rest
        unfold Quoted.codePoint?
        split
        · rename_i heq
          exact absurd (List.cons.inj heq).1 hc
        · rfl
      rw [hnone cs]
      exact hnone (cs ++ x)

theorem escape?_append {quote decoded : Char} {after : List Char}
    (hquote : Quoted.isQuote quote = true) (h : Quoted.escape? cs = some (decoded, after))
    (hmem : quote ∈ after) (x : List Char) :
    Quoted.escape? (cs ++ x) = some (decoded, after ++ x) := by
  cases cs with
  | nil => cases h
  | cons c cs =>
    simp only [List.cons_append, Quoted.escape?] at h ⊢
    split at h
    case h_5 =>
      have hcs : quote ∈ cs := by
        cases hpoint : Quoted.codePoint? cs with
        | none =>
          rw [hpoint] at h
          cases h
          exact hmem
        | some found =>
          rw [hpoint] at h
          cases h
          exact (Quoted.codePoint?_suffix hpoint).subset hmem
      rw [codePoint?_append hquote hcs]
      cases hpoint : Quoted.codePoint? cs <;> rw [hpoint] at h <;> cases h <;> rfl
    all_goals
      cases h
      rfl

theorem mem_of_body? {quote : Char} {body : List Char}
    (h : Quoted.body? quote cs = some (body, rest)) : quote ∈ cs := by
  fun_induction Quoted.body? quote cs generalizing body rest with
  | case1 => cases h
  | case2 => cases h
  | case3 cs decoded after he ih =>
    obtain ⟨⟨b, r⟩, hb, -⟩ := Option.map_eq_some_iff.1 h
    exact List.mem_cons_of_mem _ ((Quoted.escape?_suffix he).1.subset (ih hb))
  | case4 => exact List.mem_cons_self
  | case5 c cs hb hq ih =>
    obtain ⟨⟨b, r⟩, hb, -⟩ := Option.map_eq_some_iff.1 h
    exact List.mem_cons_of_mem _ (ih hb)

/-- What stands behind a closing quote does not matter. -/
theorem body?_append {quote : Char} {body : List Char} (hquote : Quoted.isQuote quote = true)
    (h : Quoted.body? quote cs = some (body, rest)) (x : List Char) :
    Quoted.body? quote (cs ++ x) = some (body, rest ++ x) := by
  fun_induction Quoted.body? quote cs generalizing body rest with
  | case1 => cases h
  | case2 => cases h
  | case3 cs decoded after he ih =>
    obtain ⟨⟨b, r⟩, hb, hr⟩ := Option.map_eq_some_iff.1 h
    simp only [Prod.mk.injEq] at hr
    obtain ⟨rfl, rfl⟩ := hr
    have hescape := escape?_append hquote he (mem_of_body? hb) x
    rw [List.cons_append, Quoted.body?, if_pos rfl]
    split
    · simp_all
    · rename_i heq
      rw [hescape] at heq
      cases heq
      rw [ih hb]
      rfl
  | case4 cs hc =>
    cases h
    rw [List.cons_append, Quoted.body?, if_neg hc, if_pos rfl]
  | case5 c cs hb hq ih =>
    obtain ⟨⟨b, r⟩, hb', hr⟩ := Option.map_eq_some_iff.1 h
    simp only [Prod.mk.injEq] at hr
    obtain ⟨rfl, rfl⟩ := hr
    rw [List.cons_append, Quoted.body?, if_neg hb, if_neg hq, ih hb']
    rfl

theorem marked_append (h : marked cs = .ok (token, rest)) (x : List Char) :
    marked (cs ++ x) = .ok (token, rest ++ x) := by
  cases cs with
  | nil => cases h
  | cons c cs =>
    rw [List.cons_append, marked]
    rw [marked] at h
    split at h
    · rename_i hp
      rw [if_pos hp]
      cases h
      rfl
    · rename_i hp
      rw [if_neg hp]
      split at h
      · rename_i hq
        rw [if_pos hq]
        split at h
        · rename_i hb
          rw [body?_append hq hb x]
          cases h
          rfl
        · cases h
      · cases h

/-! ### Tokens before a cut -/

namespace Cuts

/-- A token before a cut is scanned alike whatever stands there. -/
theorem scan_append (hk : Cuts k) (h : scan cs = .ok (token, rest)) :
    scan (cs ++ k) = .ok (token, rest ++ k) := by
  unfold scan at h ⊢
  rw [hk.numeral?_append, hk.name?_append, hk.operator?_append]
  cases hn : numeral? cs with
  | some found =>
    obtain ⟨value, length⟩ := found
    rw [hn] at h
    dsimp only at h ⊢
    split at h
    · rename_i hfinite
      rw [if_pos hfinite, List.drop_append_of_le_length (numeral?_le hn)]
      cases h
      rfl
    · cases h
  | none =>
    rw [hn] at h
    dsimp only at h ⊢
    cases hname : name? cs with
    | some lexeme =>
      rw [hname] at h
      dsimp only at h ⊢
      have hlexeme := name?_prefix hname
      rw [List.drop_append_of_le_length hlexeme.length_le]
      cases h
      rfl
    | none =>
      rw [hname] at h
      dsimp only at h ⊢
      cases hop : operator? cs with
      | some lexeme =>
        rw [hop] at h
        dsimp only at h ⊢
        have hlexeme := operator?_prefix hop
        rw [List.drop_append_of_le_length hlexeme.length_le]
        cases h
        rfl
      | none =>
        rw [hop] at h
        exact marked_append h k

/-- Text that is no token is none before a cut, unless it is a quote that may be closed there. -/
theorem scan_error {fault : Fault} (hk : Cuts k) (hne : cs ≠ [])
    (h : scan cs = .error fault) (hclosed : ∀ quote, fault ≠ .unclosed quote) :
    scan (cs ++ k) = .error fault := by
  unfold scan at h ⊢
  rw [hk.numeral?_append, hk.name?_append, hk.operator?_append]
  cases hn : numeral? cs with
  | some found =>
    obtain ⟨value, length⟩ := found
    rw [hn] at h
    dsimp only at h ⊢
    rw [List.take_append_of_le_length (numeral?_le hn)]
    split at h
    · cases h
    · rename_i hfinite
      rw [if_neg hfinite]
      exact h
  | none =>
    rw [hn] at h
    dsimp only at h ⊢
    cases hname : name? cs with
    | some lexeme =>
      rw [hname] at h
      cases h
    | none =>
      rw [hname] at h
      dsimp only at h ⊢
      cases hop : operator? cs with
      | some lexeme =>
        rw [hop] at h
        cases h
      | none =>
        rw [hop] at h
        dsimp only at h ⊢
        cases cs with
        | nil => exact absurd rfl hne
        | cons c cs =>
          rw [List.cons_append, marked]
          rw [marked] at h
          split at h
          · cases h
          · rename_i hp
            rw [if_neg hp]
            split at h
            · split at h
              · cases h
              · cases h
                exact absurd rfl (hclosed c)
            · rename_i hq
              rw [if_neg hq]
              exact h

end Cuts

/-! ### Tokens before the last parenthesis -/

/-- Text that ends with a closing parenthesis. -/
def Shut (cs : List Char) : Prop := [')'] <:+ cs

namespace Shut

theorem ne_nil (h : Shut cs) : cs ≠ [] := by
  rintro rfl
  exact List.cons_ne_nil _ _ (List.suffix_nil.1 h)

theorem cons (h : Shut cs) (c : Char) : Shut (c :: cs) := h.trans (List.suffix_cons c cs)

/-- What does not see past a cut does not see past the parenthesis. -/
theorem congr {α : Type} {f : List Char → α} (hf : ∀ front k, Cuts k → f (front ++ k) = f front)
    (h : Shut cs) (x : List Char) : f (cs ++ x) = f cs := by
  obtain ⟨front, rfl⟩ := h
  have hparen (k : List Char) : f (front ++ ')' :: k) = f front :=
    hf front _ (Cuts.cons (by decide))
  rw [List.append_assoc]
  exact (hparen x).trans (hparen []).symm

theorem skipBlank_append (h : Shut cs) (x : List Char) :
    skipBlank (cs ++ x) = skipBlank cs ++ x := by
  obtain ⟨front, rfl⟩ := h
  have hsplit (k : List Char) : skipBlank (front ++ ')' :: k) = skipBlank front ++ ')' :: k :=
    (takeWhile_append_of_head (by rintro c ⟨⟩; decide) front).2
  rw [List.append_assoc]
  show skipBlank (front ++ ')' :: x) = skipBlank (front ++ ')' :: []) ++ x
  rw [hsplit, hsplit, List.append_assoc]
  rfl

theorem operator?_append (h : Shut cs) (x : List Char) : operator? (cs ++ x) = operator? cs :=
  h.congr (fun front _ hk => hk.operator?_append front) x

theorem drop_append (x : List Char) {n : Nat} (h : cs.drop n ≠ []) :
    (cs ++ x).drop n = cs.drop n ++ x := by
  apply List.drop_append_of_le_length
  rw [ne_eq, List.drop_eq_nil_iff] at h
  omega

end Shut

/-- A token that ends before the last parenthesis is scanned alike before any continuation. -/
theorem scan_append (hrest : Shut rest) (h : scan cs = .ok (token, rest)) (x : List Char) :
    scan (cs ++ x) = .ok (token, rest ++ x) := by
  have hcs : Shut cs := hrest.trans (scan_suffix h).1
  unfold scan at h ⊢
  rw [hcs.congr (fun front _ hk => hk.numeral?_append front),
    hcs.congr (fun front _ hk => hk.name?_append front), hcs.operator?_append]
  split at h
  · split at h
    · rename_i hfinite
      rw [if_pos hfinite]
      cases h
      rw [Shut.drop_append x hrest.ne_nil]
    · cases h
  · split at h
    · cases h
      rw [Shut.drop_append x hrest.ne_nil]
    · split at h
      · cases h
        rw [Shut.drop_append x hrest.ne_nil]
      · exact marked_append h x

end Formula.Token
