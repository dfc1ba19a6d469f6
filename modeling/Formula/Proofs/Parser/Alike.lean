import Formula.Proofs.Parser.Reading
import Formula.Proofs.Parser.Yield
import Formula.Proofs.Token.Local
import Formula.Proofs.Tree.Slack

/-! Texts with the same tokens and other blanks. Blanks show in the roles of operators only, and
there only that one stands here or none. Main statement: a text keeps its tokens, and the places
of its blanks, if the blanks behind a part of it are changed. -/
namespace Formula.Stack.Left

open Item Formula.Parser

/-- Behind a token; `before` and `followed` tell whether blanks stand around it. -/
def behind (left : Left) (before followed : Bool) : Token → Left
  | .number _ => operand
  | .quoted _ => operand
  | .name text => if left = operand then left.after (operator .infixOp text) else operand
  | .operator op => left.after (operator (role before followed) op)
  | .punctuation c => if c = ')' ∨ c = ']' then operand else free

/-- Whether the role of an operator with a blank before it makes no difference where the closing
mark is written to it. -/
def tolerates (left : Left) (mark : Char) : Bool :=
  match left with
  | free => true
  | operand => mark != ','
  | applied => mark != ','
  | waiting => false

theorem of_tolerates {left : Left} {mark : Char} (h : left.tolerates mark = true) :
    left = .free ∨ left ≠ .waiting ∧ mark ≠ ',' := by
  cases left with
  | free => exact .inl rfl
  | operand => exact .inr ⟨nofun, bne_iff_ne.1 h⟩
  | applied => exact .inr ⟨nofun, bne_iff_ne.1 h⟩
  | waiting => cases h

theorem after_operator_ne_operand (left : Left) (role : Role) (name : String) :
    left.after (.operator role name) ≠ operand := by
  have hof : ofOperator role name ≠ operand := by
    unfold ofOperator
    split
    · decide
    · split <;> decide
  cases left with
  | free => exact nofun
  | operand => exact hof
  | applied => exact hof
  | waiting =>
    cases role with
    | prefixOp => exact nofun
    | infixOp => exact hof
    | postfixOp => exact hof

end Formula.Stack.Left

namespace Formula.Parser

open Item Formula.Tree Token Stack

variable {cs cs' k r r' x x' : List Char} {blank : Bool} {left : Left} {delimiters : List String}
  {token : Token}

def operates : Token → Bool
  | .operator _ => true
  | _ => false

/-- The marks that close a part of a formula. -/
def marks : List Char := [')', ']', ',']

/-- Two texts that follow the same token: both start with a blank or none of them does, unless a
closing mark comes next and the token is no operator whose role depends on the blank. -/
def Gap (blank : Bool) (left : Left) (token : Token) (r r' : List Char) : Prop :=
  ends r = ends r' ∨ ∃ mark ∈ marks, (skipBlank r).head? = some mark ∧
    (operates token = true → blank = true → left.tolerates mark = true)

/-- Texts with the same tokens up to the end or the same fault. At the start a blank may stand
before, and `left` tells what does. -/
inductive Alike : Bool → Left → List Char → List Char → Prop
  | finish {blank : Bool} {left : Left} : Alike blank left [] []
  | fault {blank : Bool} {left : Left} {cs cs' : List Char} {fault fault' : Fault}
    (heads : Heads cs cs') (scanned : scan cs = .error fault) (scanned' : scan cs' = .error fault')
    (same : faultError cs fault = faultError cs' fault') : Alike blank left cs cs'
  | token {blank : Bool} {left : Left} {cs cs' r r' : List Char} {token : Token}
    (heads : Heads cs cs') (scanned : scan cs = .ok (token, r)) (scanned' : scan cs' = .ok (token, r'))
    (gap : Gap blank left token r r')
    (later : Alike (ends r || ends r') (left.behind blank (ends r) token) (skipBlank r)
      (skipBlank r')) :
    Alike blank left cs cs'

namespace Alike

theorem heads (h : Alike blank left cs cs') : Heads cs cs' := by
  cases h with
  | finish => exact ⟨rfl, rfl⟩
  | fault heads _ _ _ => exact heads
  | token heads _ _ _ _ => exact heads

theorem refl (blank : Bool) (left : Left) (cs : List Char) : Alike blank left cs cs := by
  cases hscan : scan cs with
  | error fault => exact .fault ⟨rfl, rfl⟩ hscan hscan rfl
  | ok found =>
    obtain ⟨token, r⟩ := found
    have := (nextToken_suffix (nextToken_of_scan hscan)).2
    exact .token ⟨rfl, rfl⟩ hscan hscan (.inl rfl) (refl _ _ (skipBlank r))
termination_by cs.length

/-- With no operand before, no role makes a difference. -/
theorem free (h : Alike blank left cs cs') (hleft : left ≠ .operand) (blank' : Bool) :
    Alike blank' .free cs cs' := by
  induction h generalizing blank' with
  | finish => exact .finish
  | fault heads scanned scanned' same => exact .fault heads scanned scanned' same
  | @token _ left _ _ _ _ token heads scanned scanned' gap later ih =>
    refine .token heads scanned scanned' ?_ ?_
    · exact gap.imp id fun ⟨mark, hmem, hmark, _⟩ => ⟨mark, hmem, hmark, fun _ _ => rfl⟩
    · cases token with
      | operator op => exact ih (left.after_operator_ne_operand _ _) _
      | name text =>
        rw [Left.behind, if_neg hleft] at later
        exact later
      | number value => exact later
      | quoted text => exact later
      | punctuation c => exact later

/-! ### Colons -/

theorem operator?_of_scan {name : String} (h : scan cs = .ok (.operator name, r)) :
    operator? cs = some name.toList := by
  have hfound := scanned h
  generalize htoken : Token.operator name = token at hfound
  cases hfound with
  | @operator lexeme _ found =>
    cases htoken
    rw [found, String.toList_ofList]
  | number => cases htoken
  | name => cases htoken
  | punctuation => cases htoken
  | quoted => cases htoken

/-- Behind the colon of a branch the texts go on alike, also where a sign is written to it. -/
theorem after_colon (h : Alike blank left cs cs') (hcolon : atAny [":"] cs = true) :
    Alike false .free (skipBlank (cs.drop 1)) (skipBlank (cs'.drop 1)) := by
  have hcolon' : atAny [":"] cs' = true := by rw [← h.heads.atAny_eq (by simp [Closing]), hcolon]
  obtain ⟨tail, rfl, hsign⟩ := starts_colon hcolon
  obtain ⟨tail', rfl, hsign'⟩ := starts_colon hcolon'
  show Alike false .free (skipBlank tail) (skipBlank tail')
  have hsplit := scan_colon hsign
  have hsplit' := scan_colon hsign'
  cases h with
  | fault _ scanned _ _ =>
    rcases hsplit with hscan | ⟨_, _, _, _, hscan, _⟩ <;> rw [hscan] at scanned <;> cases scanned
  | @token _ _ _ _ r r' token heads scanned scanned' gap later =>
    rcases hsplit with hscan | ⟨sign, after, hmem, hhead, hscan, hnext⟩
    · rw [hscan] at scanned
      cases scanned
      rcases hsplit' with hscan' | ⟨sign', after', -, -, hscan', -⟩
      · rw [hscan'] at scanned'
        cases scanned'
        exact later.free (left.after_operator_ne_operand _ _) _
      · rw [hscan'] at scanned'
        simp only [Except.ok.injEq, Prod.mk.injEq, Token.operator.injEq] at scanned'
        exact absurd (congrArg String.toList scanned'.1) (by simp)
    · rw [hscan] at scanned
      cases scanned
      rcases hsplit' with hscan' | ⟨sign', after', -, hhead', hscan', hnext'⟩
      · rw [hscan'] at scanned'
        simp only [Except.ok.injEq, Prod.mk.injEq, Token.operator.injEq] at scanned'
        exact absurd (congrArg String.toList scanned'.1) (by simp)
      · rw [hscan'] at scanned'
        simp only [Except.ok.injEq, Prod.mk.injEq, Token.operator.injEq, String.ofList_inj,
          List.cons.injEq, and_true, true_and] at scanned'
        obtain ⟨rfl, rfl⟩ := scanned'
        rw [skipBlank_of_scan hnext, skipBlank_of_scan hnext']
        refine .token ⟨by rw [hhead, hhead'], ?_⟩ hnext hnext' ?_ ?_
        · rw [operator?_of_scan hnext, operator?_of_scan hnext']
        · exact gap.imp id fun ⟨mark, hmem, hmark, _⟩ => ⟨mark, hmem, hmark, fun _ _ => rfl⟩
        · exact later.free (left.after_operator_ne_operand _ _) _

end Alike

/-! ### Changed blanks -/

/-- What stands before the operator that ends the text, if one does and a blank stands before it. -/
def hanging (blank : Bool) (left : Left) (cs : List Char) : Option Left :=
  match _h : scan cs with
  | .error _ => none
  | .ok (token, []) => if operates token && blank then some left else none
  | .ok (token, c :: r) =>
    hanging (startsBlank (c :: r)) (left.behind blank (startsBlank (c :: r)) token)
      (skipBlank (c :: r))
termination_by cs.length
decreasing_by exact (nextToken_suffix (nextToken_of_scan _h)).2

/-- No quote is left open at the end of the text. -/
def Unquoted (cs : List Char) : Prop := ∀ quote, tokens cs ≠ .error (.unclosed quote)

theorem unquoted_of_tokens {all : List Token} (h : tokens cs = .ok all) : Unquoted cs := by
  intro quote hquote
  rw [h] at hquote
  cases hquote

theorem cuts_of_ends (h : ends k = true) : Cuts k := by
  cases k with
  | nil => exact .nil
  | cons c k =>
    refine .cons ?_
    have hc : Charset.isBlank c = true := h
    simp only [Charset.isBlank, Bool.or_eq_true, beq_iff_eq] at hc
    rcases hc with ((rfl | rfl) | rfl) | rfl <;> decide

theorem isBlank_of_ends (h : ends k = true) : ∀ c ∈ k.head?, Charset.isBlank c = true := by
  cases k with
  | nil => rintro c ⟨⟩
  | cons c k =>
    rintro d ⟨⟩
    exact h

theorem tokens_step {c : Char} {rest : List Char} (hcs : skipBlank cs = c :: rest)
    (hscan : scan (c :: rest) = .ok (token, r)) :
    tokens cs = (tokens r).map (token :: ·) ∧ r.length < cs.length := by
  constructor
  · rw [← tokens_skipBlank, hcs]
    exact tokens_scan hscan
  · have := (scan_suffix hscan).2
    have hle := (skipBlank_suffix cs).length_le
    rw [hcs] at hle
    omega

theorem Unquoted.later (h : Unquoted cs) (htokens : tokens cs = (tokens r).map (token :: ·)) :
    Unquoted r := by
  intro quote hr
  rw [hr] at htokens
  exact h quote htokens

theorem exists_tokens_later {all : List Token} (htokens : tokens cs = (tokens r).map (token :: ·))
    (h : tokens cs = .ok all) : ∃ later, tokens r = .ok later := by
  cases hr : tokens r with
  | error fault =>
    rw [htokens, hr] at h
    cases h
  | ok later => exact ⟨later, rfl⟩

theorem hanging_nil : hanging blank left [] = none := by
  rw [hanging]
  rfl

theorem hanging_last (h : scan cs = .ok (token, [])) (hop : operates token = true) :
    hanging true left cs = some left := by
  rw [hanging]
  split <;> simp_all

theorem hanging_cons {c : Char} (h : scan cs = .ok (token, c :: r)) :
    hanging blank left cs =
      hanging (ends (c :: r)) (left.behind blank (ends (c :: r)) token) (skipBlank (c :: r)) := by
  rw [hanging]
  split <;> simp_all [ends]

theorem skipBlank_append (cs k : List Char) :
    skipBlank (cs ++ k) = if (skipBlank cs).isEmpty then skipBlank k else skipBlank cs ++ k :=
  List.dropWhile_append

/-- Text that is no token is reported up to the next blank. -/
theorem faultError_append {fault : Fault} (hx : ends x = true)
    (hclosed : ∀ quote, fault ≠ .unclosed quote) : faultError (cs ++ x) fault = faultError cs fault := by
  cases fault with
  | overflow numeral => rfl
  | unclosed quote => exact absurd rfl (hclosed quote)
  | unknown =>
    have htake := (takeWhile_append_of_head (p := fun c => !Charset.isBlank c)
      (fun c hc => by rw [isBlank_of_ends hx c hc]; rfl) cs).1
    rw [faultError, faultError, htake]

/-- A text keeps its tokens if the blanks behind a part of it are changed. -/
theorem alike_append {blank : Bool} {left : Left} {cs x x' : List Char} (hx : Cuts x)
    (hx' : Cuts x') (hskip : skipBlank x = skipBlank x') (hquotes : Unquoted cs)
    (hfault : (∃ all, tokens cs = .ok all) ∨ ends x = true ∧ ends x' = true)
    (hgap : ends x = ends x' ∨ ∃ mark ∈ marks, (skipBlank x).head? = some mark ∧
      ∀ behind, hanging blank left (skipBlank cs) = some behind → behind.tolerates mark = true) :
    Alike blank left (skipBlank (cs ++ x)) (skipBlank (cs ++ x')) := by
  rw [skipBlank_append, skipBlank_append]
  cases hcs : skipBlank cs with
  | nil =>
    show Alike blank left (skipBlank x) (skipBlank x')
    rw [hskip]
    exact .refl _ _ _
  | cons c rest =>
    show Alike blank left ((c :: rest) ++ x) ((c :: rest) ++ x')
    have hheads : Heads ((c :: rest) ++ x) ((c :: rest) ++ x') :=
      ⟨rfl, by rw [hx.operator?_append, hx'.operator?_append]⟩
    cases hscan : scan (c :: rest) with
    | error fault =>
      have htokens := tokens_fault hcs hscan
      have hclosed : ∀ quote, fault ≠ .unclosed quote := by
        rintro quote rfl
        exact hquotes quote htokens
      obtain ⟨hends, hends'⟩ := hfault.resolve_left fun ⟨all, hall⟩ => by
        rw [htokens] at hall
        cases hall
      refine .fault hheads (hx.scan_error (List.cons_ne_nil _ _) hscan hclosed)
        (hx'.scan_error (List.cons_ne_nil _ _) hscan hclosed) ?_
      rw [faultError_append hends hclosed, faultError_append hends' hclosed]
    | ok found =>
      obtain ⟨token, r⟩ := found
      obtain ⟨htokens, hlt⟩ := tokens_step hcs hscan
      have hfault' : (∃ all, tokens r = .ok all) ∨ ends x = true ∧ ends x' = true :=
        hfault.imp (fun ⟨_, hall⟩ => exists_tokens_later htokens hall) id
      rw [hcs] at hgap
      refine .token hheads (hx.scan_append hscan) (hx'.scan_append hscan) ?_ ?_
      · cases r with
        | nil =>
          refine hgap.imp id fun ⟨mark, hmem, hhead, hhang⟩ => ⟨mark, hmem, hhead, fun hop hb => ?_⟩
          rw [hb] at hhang
          exact hhang left (hanging_last hscan hop)
        | cons d r => exact .inl rfl
      · refine alike_append hx hx' hskip (hquotes.later htokens) hfault' (hgap.imp id ?_)
        rintro ⟨mark, hmem, hhead, hhang⟩
        refine ⟨mark, hmem, hhead, fun behind hbehind => hhang behind ?_⟩
        cases r with
        | nil =>
          have hnone := hbehind.symm.trans hanging_nil
          cases hnone
        | cons d r =>
          rw [hanging_cons hscan]
          have hbehind : hanging (ends (d :: r) || ends (d :: r))
              (left.behind blank (ends (d :: r)) token) (skipBlank (d :: r)) = some behind := hbehind
          rwa [Bool.or_self] at hbehind
termination_by cs.length

end Formula.Parser
