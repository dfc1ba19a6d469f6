import Formula.Proofs.Parser.Enclosed

/-! Where reading stops. Main statement: a reading that succeeds stops at the end or at a delimiter,
and outside brackets it went past a delimiter only in the branch of a conditional, which is read up
to its colon whatever the delimiters are. So a call has an argument more than the commas that
stand in no brackets and no branch. -/
namespace Formula.Parser

open Item Formula.Tree Token

variable {cs k m mid r y : List Char} {delimiters : List String} {token : Token}

/-! ### Places outside brackets -/

/-- How many brackets are open after the token, unless it closes one that is not open. -/
def depthAfter (depth : Nat) : Token → Option Nat
  | .punctuation c =>
    if c = '(' ∨ c = '[' then some (depth + 1)
    else if c = ')' ∨ c = ']' then if depth = 0 then none else some (depth - 1)
    else some depth
  | _ => some depth

/-- The places where tokens outside of all brackets start, from left to right, up to the end or to
a bracket that closes none; at the start `depth` brackets are open. -/
def outermost (depth : Nat) (cs : List Char) : List (List Char) :=
  match _h : nextToken cs with
  | .error _ => []
  | .ok (token, _, rest) =>
    match depthAfter depth token with
    | none => []
    | some after => if depth = 0 then cs :: outermost after rest else outermost after rest
termination_by cs.length
decreasing_by all_goals exact (nextToken_suffix _h).2

theorem outermost_scan (depth : Nat) (h : scan cs = .ok (token, r)) :
    outermost depth cs = match depthAfter depth token with
      | none => []
      | some after =>
        if depth = 0 then cs :: outermost after (skipBlank r) else outermost after (skipBlank r) := by
  rw [outermost]
  split
  · rename_i fault hfault
    rw [nextToken_of_scan h] at hfault
    cases hfault
  · rename_i hfound
    rw [nextToken_of_scan h] at hfound
    cases hfound
    rfl

theorem depthAfter_plain (depth : Nat) (h : token.isBracket = false) :
    depthAfter depth token = some depth := by
  cases token with
  | punctuation c =>
    simp only [isBracket, Bool.or_eq_false_iff, beq_eq_false_iff_ne] at h
    obtain ⟨⟨⟨hopen, hclose⟩, hopens⟩, hcloses⟩ := h
    simp [depthAfter, hopen, hclose, hopens, hcloses]
  | _ => rfl

theorem outermost_plain (h : scan cs = .ok (token, r)) (hplain : token.isBracket = false) :
    outermost 0 cs = cs :: outermost 0 (skipBlank r) := by
  rw [outermost_scan 0 h, depthAfter_plain 0 hplain]
  rfl

theorem outermost_closing {c : Char} (h : c = ')' ∨ c = ']') : outermost 0 (c :: r) = [] := by
  rcases h with rfl | rfl <;> exact outermost_scan 0 (scan_punctuation rfl)

theorem outermost_suffix {depth : Nat} (h : m ∈ outermost depth cs) : m <:+ cs := by
  fun_induction outermost depth cs with
  | case1 => cases h
  | case2 => cases h
  | case3 cs token followed rest hnext depth hdepth ih =>
    rcases List.mem_cons.1 h with rfl | h
    · exact List.suffix_rfl
    · exact (ih h).trans (nextToken_suffix hnext).1
  | case4 depth cs token followed rest hnext after hdepth hpos ih =>
    exact (ih h).trans (nextToken_suffix hnext).1

namespace Nests

/-- Brackets that match leave as many open as there were. -/
theorem outermost_inside (h : Nests k cs) (depth : Nat) :
    outermost (depth + 1) cs = outermost (depth + 1) k := by
  induction h generalizing depth with
  | stop => rfl
  | token hscan hplain _ ih =>
    rw [outermost_scan _ hscan, depthAfter_plain _ hplain]
    exact ih depth
  | @bracket k cs r y opening closing hscan hpair hinside hlater ihinside ihlater =>
    rw [outermost_scan _ hscan]
    simp only [List.mem_cons, Prod.mk.injEq, List.not_mem_nil, or_false] at hpair
    rcases hpair with ⟨rfl, rfl⟩ | ⟨rfl, rfl⟩
    · show outermost (depth + 2) (skipBlank r) = _
      rw [ihinside (depth + 1), outermost_scan _ (scan_punctuation rfl)]
      exact ihlater depth
    · show outermost (depth + 2) (skipBlank r) = _
      rw [ihinside (depth + 1), outermost_scan _ (scan_punctuation rfl)]
      exact ihlater depth

/-- A bracket with all that stands in it counts as one place. -/
theorem outermost_bracket {opening closing : Char} (hscan : scan cs = .ok (.punctuation opening, r))
    (hpair : (opening, closing) ∈ [('(', ')'), ('[', ']')])
    (hinside : Nests (closing :: y) (skipBlank r)) :
    outermost 0 cs = cs :: outermost 0 (skipBlank y) := by
  rw [outermost_scan _ hscan]
  simp only [List.mem_cons, Prod.mk.injEq, List.not_mem_nil, or_false] at hpair
  rcases hpair with ⟨rfl, rfl⟩ | ⟨rfl, rfl⟩
  · show cs :: outermost 1 (skipBlank r) = _
    rw [hinside.outermost_inside 0, outermost_scan _ (scan_punctuation rfl)]
    rfl
  · show cs :: outermost 1 (skipBlank r) = _
    rw [hinside.outermost_inside 0, outermost_scan _ (scan_punctuation rfl)]
    rfl

/-- The places before the rest, and then those from there on. -/
theorem outermost_append (h : Nests k cs) :
    ∃ passed, outermost 0 cs = passed ++ outermost 0 k ∧ ∀ m ∈ passed, k.length < m.length := by
  induction h with
  | stop => exact ⟨[], rfl, by simp⟩
  | @token k cs r token hscan hplain hlater ih =>
    obtain ⟨passed, hpassed, hlonger⟩ := ih
    refine ⟨cs :: passed, by rw [outermost_plain hscan hplain, hpassed]; rfl, fun m hm => ?_⟩
    rcases List.mem_cons.1 hm with rfl | hm
    · have := hlater.suffix.length_le
      have := (nextToken_suffix (nextToken_of_scan hscan)).2
      omega
    · exact hlonger m hm
  | @bracket k cs r y opening closing hscan hpair hinside hlater _ ih =>
    obtain ⟨passed, hpassed, hlonger⟩ := ih
    refine ⟨cs :: passed, by rw [outermost_bracket hscan hpair hinside, hpassed]; rfl,
      fun m hm => ?_⟩
    rcases List.mem_cons.1 hm with rfl | hm
    · have := hlater.suffix.length_le
      have := (skipBlank_suffix y).length_le
      have := hinside.suffix.length_le
      have := (nextToken_suffix (nextToken_of_scan hscan)).2
      rw [List.length_cons] at *
      omega
    · exact hlonger m hm

end Nests

/-! ### Branches of conditionals -/

/-- The place `m` is in the branch of a question mark outside brackets, up to its colon. -/
def InBranch (cs m : List Char) : Prop :=
  ∃ mark ∈ outermost 0 cs, ∃ rest yes taken, scan mark = .ok (.operator "?", rest) ∧
    (branch (skipBlank rest) ()).1 = some (yes, taken) ∧ m <:+ skipBlank rest ∧
      ((skipBlank rest).drop taken).length < m.length

theorem InBranch.mono {cs cs' : List Char}
    (h : ∀ mark ∈ outermost 0 cs, ∀ rest, scan mark = .ok (.operator "?", rest) →
      mark ∈ outermost 0 cs') (hm : InBranch cs m) : InBranch cs' m := by
  obtain ⟨mark, hmem, rest, yes, taken, hscan, hfound⟩ := hm
  exact ⟨mark, h mark hmem rest hscan, rest, yes, taken, hscan, hfound⟩

/-- The places from a colon on are the colon and those after it, where a sign that is written to
the colon is no place of its own. -/
theorem outermost_colon (h : atAny [":"] cs = true) :
    (∀ m ∈ outermost 0 cs, m = cs ∨ m ∈ outermost 0 (skipBlank (cs.drop 1))) ∧
      ∀ mark ∈ outermost 0 (skipBlank (cs.drop 1)), ∀ rest,
        scan mark = .ok (.operator "?", rest) → mark ∈ outermost 0 cs := by
  obtain ⟨tail, rfl, hsign⟩ := starts_colon h
  show (∀ m ∈ outermost 0 (':' :: tail), m = ':' :: tail ∨ m ∈ outermost 0 (skipBlank tail)) ∧
    ∀ mark ∈ outermost 0 (skipBlank tail), ∀ rest,
      scan mark = .ok (.operator "?", rest) → mark ∈ outermost 0 (':' :: tail)
  rcases scan_colon hsign with hscan | ⟨sign, after, hmem, -, hscan, hnext⟩
  · rw [outermost_plain hscan rfl]
    exact ⟨fun m hm => List.mem_cons.1 hm, fun mark hmark _ _ => List.mem_cons_of_mem _ hmark⟩
  · rw [skipBlank_of_scan hnext, outermost_plain hscan rfl, outermost_plain hnext rfl]
    refine ⟨fun m hm => ?_, fun mark hmark rest hquestion => ?_⟩
    · exact (List.mem_cons.1 hm).imp id (List.mem_cons_of_mem _)
    · rcases List.mem_cons.1 hmark with rfl | hmark
      · rw [hnext] at hquestion
        simp only [List.mem_cons, List.not_mem_nil, or_false] at hmem
        rcases hmem with rfl | rfl | rfl <;> simp at hquestion
      · exact List.mem_cons_of_mem _ hmark

/-- What one step of a successful reading goes past: a token, a bracket with what is in it, or a
question mark with its branch. -/
inductive Strides : List Char → List Char → Prop
  | token {cs r : List Char} {token : Token} (scanned : scan cs = .ok (token, r))
    (plain : token.isBracket = false) : Strides (skipBlank r) cs
  | bracket {cs r y : List Char} {opening closing : Char}
    (scanned : scan cs = .ok (.punctuation opening, r))
    (pair : (opening, closing) ∈ [('(', ')'), ('[', ']')])
    (inside : Nests (closing :: y) (skipBlank r)) : Strides (skipBlank y) cs
  | branch {cs r : List Char} {yes : Tree Float} {taken : Nat}
    (scanned : scan cs = .ok (.operator "?", r))
    (found : (branch (skipBlank r) ()).1 = some (yes, taken)) :
    Strides ((skipBlank r).drop taken) cs

/-- A reading that goes on and succeeds goes on behind what a step goes past. -/
theorem shift_strides {s : State} {tree : Tree Float} (hc : Continues delimiters cs)
    (h : (shift delimiters s cs ()).result = .ok tree) :
    ∃ s' mid, Strides mid cs ∧ (shift delimiters s' mid ()).result = .ok tree ∧
      (shift delimiters s' mid ()).rest = (shift delimiters s cs ()).rest := by
  cases hn : nextToken cs with
  | error fault => simp [shift_fault hc hn, Parse.fail] at h
  | ok found =>
    obtain ⟨token, followed, rest⟩ := found
    rw [shift_token hc hn] at h ⊢
    simp only [Parse.widen] at h ⊢
    obtain ⟨after, hscan, rfl, hfits⟩ := fits_of_nextToken hn rfl
    cases ha : action s followed token <;> rw [ha] at h hfits <;> dsimp only [perform] at h ⊢
    case push item => exact ⟨_, _, .token hscan hfits.2, h, rfl⟩
    case comma =>
      obtain rfl : token = .punctuation ',' := hfits
      exact ⟨_, _, .token hscan rfl, h, rfl⟩
    case group =>
      obtain rfl : token = .punctuation '(' := hfits
      obtain ⟨inner, hi, h, hrest⟩ := next_eq_ok h
      obtain ⟨_, he, h, hrest'⟩ := next_eq_ok h
      have hinside := (kept_balances.of_subexpression hi (by simp [Closing])).1
      rw [expect_eq_ok he, skipBlank_skipBlank] at hinside
      exact ⟨_, _, .bracket hscan (by simp) hinside, h, (hrest.trans hrest').symm⟩
    case call name =>
      obtain ⟨rfl, -⟩ := hfits
      obtain ⟨args, hi, h, hrest⟩ := next_eq_ok h
      have hinside : Nests _ _ := kept_balances.of_arguments hi
      rw [skipBlank_skipBlank] at hinside
      exact ⟨_, _, .bracket hscan (by simp) hinside, h, hrest.symm⟩
    case subscript name =>
      obtain ⟨rfl, -⟩ := hfits
      obtain ⟨inner, hi, h, hrest⟩ := next_eq_ok h
      obtain ⟨_, he, h, hrest'⟩ := next_eq_ok h
      have hinside := (kept_balances.of_subexpression hi (by simp [Closing])).1
      rw [expect_eq_ok he, skipBlank_skipBlank] at hinside
      exact ⟨_, _, .bracket hscan (by simp) hinside, h, (hrest.trans hrest').symm⟩
    case ternary item =>
      obtain ⟨rfl, -⟩ := hfits
      cases hb : (branch (skipBlank after) ()).1 with
      | none =>
        rw [← Prod.eta (branch (skipBlank after) ()), hb] at h ⊢
        exact ⟨_, _, .token hscan rfl, h, rfl⟩
      | some found =>
        obtain ⟨yes, taken⟩ := found
        rw [← Prod.eta (branch (skipBlank after) ()), hb] at h ⊢
        exact ⟨_, _, .branch hscan hb, h, rfl⟩
    case refuse text => simp [Parse.fail] at h

namespace Strides

theorem shorter (h : Strides mid cs) : mid.length < cs.length := by
  cases h with
  | token hscan _ => exact (nextToken_suffix (nextToken_of_scan hscan)).2
  | @bracket _ r y opening closing hscan _ hinside =>
    have := (nextToken_suffix (nextToken_of_scan hscan)).2
    have := (skipBlank_suffix y).length_le
    have := hinside.suffix.length_le
    rw [List.length_cons] at this
    omega
  | @branch _ r yes taken hscan _ =>
    have := (nextToken_suffix (nextToken_of_scan hscan)).2
    have := (List.drop_suffix taken (skipBlank r)).length_le
    omega

/-- A step passes its own place and those in a branch. -/
theorem outermost (h : Strides mid cs) :
    (∀ m ∈ outermost 0 cs, m = cs ∨ InBranch cs m ∨ m ∈ outermost 0 mid) ∧
      ∀ mark ∈ Parser.outermost 0 mid, ∀ rest, scan mark = .ok (.operator "?", rest) →
        mark ∈ Parser.outermost 0 cs := by
  cases h with
  | token hscan hplain =>
    rw [outermost_plain hscan hplain]
    exact ⟨fun m hm => (List.mem_cons.1 hm).imp id .inr,
      fun mark hmark _ _ => List.mem_cons_of_mem _ hmark⟩
  | bracket hscan hpair hinside =>
    rw [Nests.outermost_bracket hscan hpair hinside]
    exact ⟨fun m hm => (List.mem_cons.1 hm).imp id .inr,
      fun mark hmark _ _ => List.mem_cons_of_mem _ hmark⟩
  | @branch _ r yes taken hscan hfound =>
    obtain ⟨hyes, hcolon, hdrop⟩ := branch_eq_some hfound
    have hnests := (kept_balances.of_subexpression hyes (by simp [Closing])).1
    rw [skipBlank_skipBlank] at hnests
    obtain ⟨passed, hpassed, hlonger⟩ := hnests.outermost_append
    obtain ⟨hplaces, hmarks⟩ := outermost_colon hcolon
    rw [← hdrop] at hplaces hmarks
    have hshorter : ((skipBlank r).drop taken).length <
        (subexpression [":"] (skipBlank r) ()).rest.length := by
      rw [hdrop]
      have := (skipBlank_suffix ((subexpression [":"] (skipBlank r) ()).rest.drop 1)).length_le
      obtain ⟨tail, hrest, -⟩ := starts_colon hcolon
      rw [hrest] at this ⊢
      exact Nat.lt_succ_of_le this
    have hall := outermost_plain hscan rfl
    have hin (m : List Char) (hm : m ∈ Parser.outermost 0 (skipBlank r))
        (hlength : ((skipBlank r).drop taken).length < m.length) : InBranch cs m := by
      refine ⟨cs, ?_, r, yes, taken, hscan, hfound, outermost_suffix hm, hlength⟩
      rw [hall]
      exact List.mem_cons_self
    rw [hall]
    constructor
    · intro m hm
      rcases List.mem_cons.1 hm with hm | hm
      · exact .inl hm
      · have hsplit := hm
        rw [hpassed] at hsplit
        rcases List.mem_append.1 hsplit with hpass | hlater
        · exact .inr (.inl (hin m hm (hshorter.trans (hlonger m hpass))))
        · rcases hplaces m hlater with rfl | hlater
          · exact .inr (.inl (hin _ hm hshorter))
          · exact .inr (.inr hlater)
    · intro mark hmark rest hquestion
      rw [hpassed]
      exact List.mem_cons_of_mem _ (List.mem_append_right _ (hmarks mark hmark rest hquestion))

end Strides

/-! ### Readings -/

/-- Outside brackets and branches, a reading that succeeds goes past no delimiter. -/
theorem shift_delimiters {delimiters : List String} {s : State} {cs m : List Char}
    {tree : Tree Float} (h : (shift delimiters s cs ()).result = .ok tree)
    (hm : m ∈ outermost 0 cs) (hlength : (shift delimiters s cs ()).rest.length < m.length)
    (hat : atAny delimiters m = true) : InBranch cs m := by
  by_cases hc : Continues delimiters cs
  · obtain ⟨s', mid, hstrides, htree, hrest⟩ := shift_strides hc h
    obtain ⟨hplaces, hmarks⟩ := hstrides.outermost
    have := hstrides.shorter
    rcases hplaces m hm with rfl | hin | hlater
    · exact absurd hc (not_continues hat)
    · exact hin
    · rw [← hrest] at hlength
      exact (shift_delimiters htree hlater hlength hat).mono hmarks
  · rw [shift_stop hc] at hlength
    have := (outermost_suffix hm).length_le
    exact absurd hlength (by dsimp only; omega)
termination_by cs.length

theorem subexpression_delimiters {tree : Tree Float}
    (h : (subexpression delimiters cs ()).result = .ok tree) (hm : m ∈ outermost 0 (skipBlank cs))
    (hlength : (subexpression delimiters cs ()).rest.length < m.length)
    (hat : atAny delimiters m = true) : InBranch (skipBlank cs) m := by
  rw [subexpression] at h hlength
  exact shift_delimiters h hm hlength hat

/-! ### Arguments -/

/-- The places of the commas outside brackets. -/
def commas (cs : List Char) : List (List Char) :=
  (outermost 0 cs).filter fun m => m.head? = some ','

theorem commas_comma (rest : List Char) :
    commas (',' :: rest) = (',' :: rest) :: commas (skipBlank rest) := by
  rw [commas, outermost_plain (scan_punctuation rfl) rfl]
  rfl

/-- An argument goes past the commas in its branches only. -/
theorem subexpression_commas {tree : Tree Float}
    (h : (subexpression [",", ")"] cs ()).result = .ok tree) :
    ∃ passed, commas (skipBlank cs) = passed ++ commas (subexpression [",", ")"] cs ()).rest ∧
      (∀ m ∈ passed, InBranch (skipBlank cs) m) ∧
      ∀ mark ∈ outermost 0 (subexpression [",", ")"] cs ()).rest,
        mark ∈ outermost 0 (skipBlank cs) := by
  have hnests := (kept_balances.of_subexpression h (by simp [Closing])).1
  obtain ⟨passed, hpassed, hlonger⟩ := hnests.outermost_append
  refine ⟨passed.filter fun m => m.head? = some ',', ?_, fun m hm => ?_, fun mark hmark => ?_⟩
  · rw [commas, hpassed, List.filter_append]
    rfl
  · obtain ⟨hm, hhead⟩ := List.mem_filter.1 hm
    obtain ⟨tail, rfl⟩ : ∃ tail, m = ',' :: tail := by
      cases m with
      | nil => cases of_decide_eq_true hhead
      | cons c tail => exact ⟨tail, by rw [Option.some.inj (of_decide_eq_true hhead)]⟩
    refine subexpression_delimiters h ?_ (hlonger _ hm) rfl
    rw [hpassed]
    exact List.mem_append_left _ hm
  · rw [hpassed]
    exact List.mem_append_right _ hmark

/-- There are as many arguments as commas outside brackets and branches, and one more. -/
theorem someArguments_commas {cs : List Char} {args : List (Tree Float)}
    (h : (someArguments cs ()).result = .ok args) :
    args.length ≤ (commas (skipBlank cs)).length + 1 ∧
      ((∀ m ∈ commas (skipBlank cs), ¬InBranch (skipBlank cs) m) →
        args.length = (commas (skipBlank cs)).length + 1) := by
  rw [someArguments_eq] at h
  obtain ⟨tree, htree, h, -⟩ := next_eq_ok h
  have hle := (subexpression [",", ")"] cs ()).suffix.length_le
  obtain ⟨passed, hcommas, hbranches, hmarks⟩ := subexpression_commas htree
  generalize (subexpression [",", ")"] cs ()).rest = after at h hle hcommas hmarks
  have hnone (hout : ∀ m ∈ commas (skipBlank cs), ¬InBranch (skipBlank cs) m) : passed = [] := by
    refine List.eq_nil_iff_forall_not_mem.2 fun m hm => hout m ?_ (hbranches m hm)
    rw [hcommas]
    exact List.mem_append_left _ hm
  cases after with
  | nil => simp [followArgument, expect, Parse.fail, Parse.map, Except.map] at h
  | cons c rest =>
    dsimp only [followArgument] at h
    split at h
    · rename_i hc
      subst hc
      obtain ⟨others, hothers, rfl⟩ := map_eq_ok h
      have hlt : rest.length < cs.length := hle
      obtain ⟨hfew, hall⟩ := someArguments_commas hothers
      rw [commas_comma] at hcommas
      have hcount : (commas (skipBlank cs)).length =
          passed.length + ((commas (skipBlank rest)).length + 1) := by
        rw [hcommas, List.length_append, List.length_cons]
      rw [hcount, List.length_cons]
      refine ⟨by omega, fun hout => ?_⟩
      have hlater : others.length = (commas (skipBlank rest)).length + 1 := by
        refine hall fun m hm hin => hout m ?_ (hin.mono fun mark hmark _ _ => hmarks mark ?_)
        · rw [hcommas]
          exact List.mem_append_right _ (List.mem_cons_of_mem _ hm)
        · rw [outermost_plain (scan_punctuation rfl) rfl]
          exact List.mem_cons_of_mem _ hmark
      rw [hnone hout, List.length_nil]
      omega
    · obtain ⟨_, hclosed, rfl⟩ := map_eq_ok h
      obtain rfl : c = ')' := (List.cons.inj (expect_eq_ok hclosed)).1
      have hend : commas (')' :: rest) = [] := by
        rw [commas, outermost_closing (.inl rfl)]
        rfl
      rw [hend, List.append_nil] at hcommas
      refine ⟨Nat.le_add_left _ _, fun hout => ?_⟩
      rw [hcommas, hnone hout]
      rfl
termination_by cs.length

/-! ### Results -/

/-- A comma in a branch is read as a part of it. -/
theorem subexpression_branch (hd : Closing delimiters) (hname : nameRun k = [])
    (hskip : skipBlank k = k) (hstop : ¬Continues delimiters k) :
    (subexpression delimiters ('a' :: ' ' :: '?' :: ' ' :: 'b' :: ',' :: ' ' :: 'c' :: ' ' :: ':' ::
      ' ' :: 'd' :: k) ()).Ends
      (apply (.infixOp "?:") [named "a", apply (.infixOp ",") [named "b", named "c"], named "d"])
      k := by
  have hscan (tail : List Char) : scan ('?' :: ' ' :: tail) = .ok (.operator "?", ' ' :: tail) :=
    scan_symbol (show "?".toList = ['?'] from rfl) (by decide) (by decide) (by decide) (by decide)
      rfl (by rintro d ⟨⟩; decide)
  have hcolon : Closing [":"] := by simp [Closing]
  have hpair : Stack.finish [operand (named "b"), operator .infixOp ",", operand (named "c")] =
      .ok (apply (.infixOp ",") [named "b", named "c"]) :=
    Stack.finish_of_collapse ((Stack.Joins.operator (by decide) fun _ _ => rfl).collapse
      Stack.waits_nil (Stack.yields_none ",") rfl)
  have hinner : (subexpression [":"] ('b' :: ',' :: ' ' :: 'c' :: ' ' :: ':' :: ' ' :: 'd' :: k)
      ()).Ends (apply (.infixOp ",") [named "b", named "c"]) (':' :: ' ' :: 'd' :: k) := by
    have hcomma : Continues [":"] (',' :: ' ' :: 'c' :: ' ' :: ':' :: ' ' :: 'd' :: k) := by
      simp [Continues, atAny, atDelimiter]
    have hstop : ¬Continues [":"] (':' :: ' ' :: 'd' :: k) := not_continues rfl
    rw [subexpression]
    refine Parse.Ends.widen ?_ _
    refine .of_same (shift_name (show isName "b" = true by decide) hcolon rfl rfl) ?_
    refine .of_same (shift_comma hcomma (scan_punctuation rfl) rfl) ?_
    refine .of_same (shift_name (show isName "c" = true by decide) hcolon rfl rfl) ?_
    show (shift [":"] _ (':' :: ' ' :: 'd' :: k) ()).Ends _ _
    rw [shift_stop hstop]
    exact ⟨hpair, rfl⟩
  have hfinish (yes : Tree Float) :
      Stack.finish [operand (named "a"), .branch yes, operand (named "d")] =
        .ok (apply (.infixOp "?:") [named "a", yes, named "d"]) :=
    Stack.finish_of_collapse ((Stack.Joins.branch yes).collapse Stack.waits_nil
      (Stack.yields_none "?") rfl)
  rw [subexpression]
  refine Parse.Ends.widen ?_ _
  refine .of_same (shift_name (show isName "a" = true by decide) hd rfl rfl) ?_
  refine .of_same (shift_branch (continues_cons hd (by decide)) (hscan _) rfl hinner rfl) ?_
  refine .of_same (shift_name (show isName "d" = true by decide) hd rfl hname) ?_
  rw [hskip, shift_stop hstop]
  exact ⟨hfinish _, rfl⟩

/-- That comma is outside brackets. -/
theorem outermost_branch (k : List Char) :
    ',' :: ' ' :: 'c' :: ' ' :: ':' :: ' ' :: 'd' :: k ∈
      outermost 0 ('a' :: ' ' :: '?' :: ' ' :: 'b' :: ',' :: ' ' :: 'c' :: ' ' :: ':' :: ' ' ::
        'd' :: k) := by
  have ha (tail : List Char) : scan ('a' :: ' ' :: tail) = .ok (.name "a", ' ' :: tail) := rfl
  have hmark (tail : List Char) : scan ('?' :: ' ' :: tail) = .ok (.operator "?", ' ' :: tail) :=
    rfl
  have hb (tail : List Char) : scan ('b' :: ',' :: tail) = .ok (.name "b", ',' :: tail) := rfl
  rw [outermost_plain (ha _) rfl]
  refine List.mem_cons_of_mem _ ?_
  show _ ∈ outermost 0 ('?' :: ' ' :: _)
  rw [outermost_plain (hmark _) rfl]
  refine List.mem_cons_of_mem _ ?_
  show _ ∈ outermost 0 ('b' :: ',' :: _)
  rw [outermost_plain (hb _) rfl]
  refine List.mem_cons_of_mem _ ?_
  show _ ∈ outermost 0 (',' :: _)
  rw [outermost_plain (scan_punctuation rfl) rfl]
  exact List.mem_cons_self

/-- Reading stops at the end or at a delimiter, and outside brackets it goes past no delimiter but
those in the branch of a conditional, up to its colon. The arguments of a call are none, or as many
as the commas outside brackets and one more, if no comma stands in a branch. -/
theorem read_delimiters (source : String) (delimiters : List String) (cs : List Char) :
    (∀ tree, ((ofSource source).read delimiters).1 = .ok tree →
      let rest := ((ofSource source).read delimiters).2.rest
      rest <:+ source.toList ∧ (rest = [] ∨ atAny delimiters rest = true) ∧
        ∀ m ∈ outermost 0 (skipBlank source.toList), rest.length < m.length →
          atAny delimiters m = true → InBranch (skipBlank source.toList) m) ∧
      ∀ args, (arguments (skipBlank cs) ()).result = .ok args →
        (args = [] ∧ (skipBlank cs).head? = some ')') ∨
          args.length ≤ (commas (skipBlank cs)).length + 1 ∧
            ((∀ m ∈ commas (skipBlank cs), ¬InBranch (skipBlank cs) m) →
              args.length = (commas (skipBlank cs)).length + 1) := by
  constructor
  · obtain ⟨hresult, hrest⟩ := read_ofSource source delimiters
    intro tree htree
    rw [hresult] at htree
    dsimp only
    rw [hrest]
    refine ⟨(subexpression delimiters source.toList ()).suffix, ?_,
      fun m hm hlength hat => subexpression_delimiters htree hm hlength hat⟩
    have hstop := Decidable.not_not.mp (kept.of_subexpression htree).1
    rw [Bool.or_eq_true, List.isEmpty_iff] at hstop
    exact hstop
  · intro args hargs
    cases hcs : skipBlank cs with
    | nil =>
      rw [hcs, arguments.eq_def] at hargs
      exact .inr (someArguments_commas hargs)
    | cons c rest =>
      by_cases hc : c = ')'
      · subst hc
        rw [hcs, arguments.eq_def] at hargs
        simp only [if_true] at hargs
        exact .inl ⟨(Except.ok.inj hargs).symm, rfl⟩
      · rw [hcs, arguments.eq_def] at hargs
        simp only [hc, if_false] at hargs
        have hskip : skipBlank (c :: rest) = c :: rest := by rw [← hcs, skipBlank_skipBlank]
        have hcount := someArguments_commas hargs
        rw [hskip] at hcount
        exact .inr hcount

theorem read_delimiters_branch :
    ((ofSource "a ? b, c : d, e").read [","]).1 = .ok (apply (.infixOp "?:")
        [named "a", apply (.infixOp ",") [named "b", named "c"], named "d"]) ∧
      ((ofSource "a ? b, c : d, e").read [","]).2.rest = ", e".toList ∧
      InBranch (skipBlank "a ? b, c : d, e".toList) ", c : d, e".toList ∧
      (arguments (skipBlank "x, y)".toList) ()).result = .ok [named "x", named "y"] ∧
      (∀ m ∈ commas (skipBlank "x, y)".toList), ¬InBranch (skipBlank "x, y)".toList) m) ∧
      2 = (commas (skipBlank "x, y)".toList)).length + 1 := by
  have hsource : "a ? b, c : d, e".toList = ['a', ' ', '?', ' ', 'b', ',', ' ', 'c', ' ', ':', ' ',
    'd', ',', ' ', 'e'] := rfl
  have hskip : skipBlank "a ? b, c : d, e".toList = ['a', ' ', '?', ' ', 'b', ',', ' ', 'c', ' ',
    ':', ' ', 'd', ',', ' ', 'e'] := rfl
  have hlist : skipBlank "x, y)".toList = ['x', ',', ' ', 'y', ')'] := rfl
  have hends := subexpression_branch (k := [',', ' ', 'e'])
    (show Closing [","] by simp [Closing]) rfl rfl (not_continues rfl)
  obtain ⟨hresult, hrest⟩ := read_ofSource "a ? b, c : d, e" [","]
  rw [hsource, hends.result] at hresult
  rw [hsource, hends.rest] at hrest
  obtain ⟨hstop, hargs⟩ := read_delimiters "a ? b, c : d, e" [","] "x, y)".toList
  obtain ⟨-, -, hbranch⟩ := hstop _ hresult
  rw [hrest, hskip] at hbranch
  rw [hlist] at hargs
  rw [hskip, hlist]
  have hx : scan ['x', ',', ' ', 'y', ')'] = .ok (.name "x", [',', ' ', 'y', ')']) := rfl
  have hy : scan ['y', ')'] = .ok (.name "y", [')']) := rfl
  have hplaces : outermost 0 ['x', ',', ' ', 'y', ')'] =
      [['x', ',', ' ', 'y', ')'], [',', ' ', 'y', ')'], ['y', ')']] := by
    rw [outermost_plain hx rfl]
    show _ :: outermost 0 [',', ' ', 'y', ')'] = _
    rw [outermost_plain (scan_punctuation rfl) rfl]
    show _ :: _ :: outermost 0 ['y', ')'] = _
    rw [outermost_plain hy rfl]
    show _ :: _ :: _ :: outermost 0 [')'] = _
    rw [outermost_closing (.inl rfl)]
  have hout : ∀ m ∈ commas ['x', ',', ' ', 'y', ')'], ¬InBranch ['x', ',', ' ', 'y', ')'] m := by
    rintro m - ⟨mark, hmark, rest, yes, taken, hscan, -⟩
    rw [hplaces] at hmark
    simp only [List.mem_cons, List.not_mem_nil, or_false] at hmark
    rcases hmark with rfl | rfl | rfl
    · rw [hx] at hscan
      cases hscan
    · rw [scan_punctuation rfl] at hscan
      cases hscan
    · rw [hy] at hscan
      cases hscan
  have hread : (arguments ['x', ',', ' ', 'y', ')'] ()).result = .ok [named "x", named "y"] := by
    have hargument (name : String) (h : isName name = true) : Argument (named name) := by
      refine ⟨.var h, .of_readable (.var h), fun c hc => ?_⟩
      rw [List.mem_singleton.1 hc]
      rfl
    have hall : ∀ arg ∈ [named "x", named "y"], Argument arg := by
      intro arg hmem
      rcases List.mem_pair.1 hmem with rfl | rfl <;> exact hargument _ (by decide)
    have hends := arguments_listed (k := []) hall rfl
    rw [listed_cons_cons, listed_singleton, text_named (by decide), text_named (by decide),
      List.map_cons, List.map_cons, List.map_nil, normal_named, normal_named] at hends
    exact hends.result
  refine ⟨hresult, hrest, hbranch _ (outermost_branch [',', ' ', 'e']) (by decide) rfl, hread, hout,
    ?_⟩
  obtain ⟨hnone, -⟩ | ⟨-, hcount⟩ := hargs _ hread
  · cases hnone
  · exact hcount hout

/-- A comma outside brackets may be read without being taken for a delimiter, and then does not
separate arguments. -/
theorem read_past_comma :
    ∃ tree, ((ofSource "a ? b, c : d").read [","]).1 = .ok tree ∧
      ((ofSource "a ? b, c : d").read [","]).2.rest = [] ∧
      (∃ m ∈ outermost 0 (skipBlank "a ? b, c : d".toList), atAny [","] m = true) ∧
      (arguments "a ? b, c : d)".toList ()).result = .ok [tree] ∧
      (commas (skipBlank "a ? b, c : d)".toList)).length + 1 ≠ 1 := by
  have hsource : "a ? b, c : d".toList = ['a', ' ', '?', ' ', 'b', ',', ' ', 'c', ' ', ':', ' ',
    'd'] := rfl
  have hlist : "a ? b, c : d)".toList = ['a', ' ', '?', ' ', 'b', ',', ' ', 'c', ' ', ':', ' ',
    'd', ')'] := rfl
  have hends := subexpression_branch (k := []) (show Closing [","] by simp [Closing]) rfl rfl
    not_continues_nil
  have hargument := subexpression_branch (k := [')'])
    (show Closing [",", ")"] by simp [Closing]) rfl rfl (not_continues rfl)
  obtain ⟨hresult, hrest⟩ := read_ofSource "a ? b, c : d" [","]
  rw [hsource, hends.result] at hresult
  rw [hsource, hends.rest] at hrest
  refine ⟨_, hresult, hrest, ⟨_, outermost_branch [], rfl⟩, ?_, ?_⟩
  · rw [hlist, arguments.eq_def]
    show (someArguments _ ()).result = _
    rw [someArguments_eq]
    exact (hargument.next fun _ => (expect_ends ')' []).map _).result
  · rw [hlist]
    have hmem : [',', ' ', 'c', ' ', ':', ' ', 'd', ')'] ∈ commas ['a', ' ', '?', ' ', 'b', ',',
        ' ', 'c', ' ', ':', ' ', 'd', ')'] :=
      List.mem_filter.2 ⟨outermost_branch [')'], rfl⟩
    have hpos := List.length_pos_of_mem hmem
    have hskip : skipBlank ['a', ' ', '?', ' ', 'b', ',', ' ', 'c', ' ', ':', ' ', 'd', ')'] =
      ['a', ' ', '?', ' ', 'b', ',', ' ', 'c', ' ', ':', ' ', 'd', ')'] := rfl
    rw [hskip]
    omega

end Formula.Parser
