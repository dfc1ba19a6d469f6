import Mathlib.Data.List.DropRight
import Formula.Proofs.Token.Scan
import Formula.Proofs.Tree.Yield

/-! The tokens of a whole source. A reader may take the colon off an operator that goes on with a
sign, so sequences of tokens are compared with such operators split. -/
namespace Formula.Token

open Charset

/-- The tokens from left to right, up to the end. -/
def tokens (cs : List Char) : Except Fault (List Token) :=
  match _hb : skipBlank cs with
  | [] => .ok []
  | c :: rest =>
    match _hs : scan (c :: rest) with
    | .error fault => .error fault
    | .ok (token, after) => (tokens after).map (token :: ·)
termination_by cs.length
decreasing_by
  have hlt := (scan_suffix _hs).2
  have hle := (skipBlank_suffix cs).length_le
  rw [_hb] at hle
  exact Nat.lt_of_lt_of_le hlt hle

def isBracket : Token → Bool
  | punctuation c => c == '(' || c == ')' || c == '[' || c == ']'
  | _ => false

/-- A colon with a sign is two operators. -/
def split : Token → List Token
  | operator ":-" => [operator ":", operator "-"]
  | operator ":+" => [operator ":", operator "+"]
  | operator ":!" => [operator ":", operator "!"]
  | token => [token]

def spelled (tokens : List Token) : List Token := tokens.flatMap split

/-- The tokens that a tree shows in its yield. -/
def unbracketed (tokens : List Token) : List Token := tokens.filter fun token => !token.isBracket

@[simp] theorem spelled_nil : spelled [] = [] := rfl

@[simp] theorem spelled_cons (token : Token) (tokens : List Token) :
    spelled (token :: tokens) = token.split ++ spelled tokens := rfl

@[simp] theorem spelled_append (a b : List Token) : spelled (a ++ b) = spelled a ++ spelled b :=
  List.flatMap_append

variable {cs mid k rest : List Char} {token : Token}

/-- Only operators are split. -/
theorem mem_spelled {all : List Token} (h : ∀ op, token ≠ .operator op) :
    token ∈ spelled all ↔ token ∈ all := by
  have hsplit (other : Token) : token ∈ other.split ↔ token = other := by
    unfold split
    split <;> simp [h]
  simp [spelled, List.mem_flatMap, hsplit]

theorem skipBlank_skipBlank (cs : List Char) : skipBlank (skipBlank cs) = skipBlank cs :=
  List.dropWhile_idempotent _ cs

theorem tokens_skipBlank (cs : List Char) : tokens (skipBlank cs) = tokens cs := by
  rw [tokens, tokens.eq_def cs, skipBlank_skipBlank]

theorem tokens_nil : tokens [] = .ok [] := by
  rw [tokens]
  rfl

theorem tokens_scan (h : scan cs = .ok (token, rest)) :
    tokens cs = (tokens rest).map (token :: ·) := by
  rw [tokens, skipBlank_of_scan h]
  cases cs with
  | nil => exact absurd (scan_suffix h).2 (Nat.not_lt_zero _)
  | cons c cs =>
    dsimp only
    split <;> simp_all

theorem tokens_fault {c : Char} {fault : Fault} (hskip : skipBlank cs = c :: rest)
    (hscan : scan (c :: rest) = .error fault) : tokens cs = .error fault := by
  rw [tokens]
  split
  · rename_i hnil
    cases hnil.symm.trans hskip
  · rename_i hcons
    obtain ⟨rfl, rfl⟩ := List.cons.inj (hcons.symm.trans hskip)
    split
    · rename_i hother
      exact congrArg _ (Except.error.inj (hother.symm.trans hscan))
    · rename_i hother
      cases hother.symm.trans hscan

/-- A colon is an operator of its own, or one with the sign that is written to it. -/
theorem scan_colon {tail : List Char}
    (h : tail.takeWhile isOperator ∈ [[], ['-'], ['+'], ['!']]) :
    scan (':' :: tail) = .ok (.operator ":", tail) ∨
      ∃ sign after, sign ∈ ['-', '+', '!'] ∧ tail.head? = some sign ∧
        scan (':' :: tail) = .ok (.operator (String.ofList [':', sign]), after) ∧
        scan tail = .ok (.operator (String.ofList [sign]), after) := by
  have hcolon : scan (':' :: tail) =
      .ok (.operator (String.ofList (':' :: tail.takeWhile isOperator)),
        tail.dropWhile isOperator) :=
    scan_operator (by decide) (by decide) (by decide) (by decide)
  have happ : tail.takeWhile isOperator ++ tail.dropWhile isOperator = tail :=
    List.takeWhile_append_dropWhile
  by_cases hnil : tail.takeWhile isOperator = []
  · rw [hnil, List.nil_append] at happ
    rw [hnil, happ] at hcolon
    exact .inl hcolon
  · obtain ⟨sign, hsign, hclass⟩ : ∃ sign, tail.takeWhile isOperator = [sign] ∧
        sign ∈ ['-', '+', '!'] := by
      simp only [List.mem_cons, hnil, false_or, List.not_mem_nil, or_false] at h
      rcases h with h | h | h <;> exact ⟨_, h, by simp⟩
    have hdistinct : sign.isDigit = false ∧ isNameHead sign = false ∧ sign ≠ '.' ∧
        isOperator sign = true := by
      simp only [List.mem_cons, List.not_mem_nil, or_false] at hclass
      rcases hclass with rfl | rfl | rfl <;> decide
    rw [hsign] at hcolon
    rw [hsign, List.singleton_append] at happ
    have hnext : (tail.dropWhile isOperator).takeWhile isOperator = [] ∧
        (tail.dropWhile isOperator).dropWhile isOperator = tail.dropWhile isOperator := by
      refine ⟨?_, List.dropWhile_idempotent _ _⟩
      rw [← happ, List.takeWhile_cons_of_pos hdistinct.2.2.2, List.cons.injEq] at hsign
      exact hsign.2
    refine .inr ⟨sign, tail.dropWhile isOperator, hclass, by rw [← happ]; rfl, hcolon, ?_⟩
    obtain ⟨hdigit, hhead, hdot, hoperator⟩ := hdistinct
    have hscan : scan (sign :: tail.dropWhile isOperator) = _ :=
      scan_operator hdigit hhead hdot hoperator
    rw [happ, hnext.1, hnext.2] at hscan
    exact hscan

/-- From `cs` to `k` stand the tokens `between`, apart from brackets. -/
def Spells (cs : List Char) (between : List Token) (k : List Char) : Prop :=
  ∀ after, tokens k = .ok after → ∃ all, tokens cs = .ok all ∧
    spelled (unbracketed all) = spelled between ++ spelled (unbracketed after)

namespace Spells

variable {between others : List Token}

theorem refl (cs : List Char) : Spells cs [] cs := fun after h => ⟨after, h, rfl⟩

theorem trans (h : Spells cs between mid) (h' : Spells mid others k) :
    Spells cs (between ++ others) k := by
  intro after hk
  obtain ⟨middle, hm, hmiddle⟩ := h' after hk
  obtain ⟨all, ha, hall⟩ := h middle hm
  exact ⟨all, ha, by rw [hall, hmiddle, spelled_append, List.append_assoc]⟩

/-- Only the spelling of the tokens counts. -/
theorem congr (h : Spells cs between k) (heq : spelled between = spelled others) :
    Spells cs others k := by
  intro after hk
  obtain ⟨all, ha, hall⟩ := h after hk
  exact ⟨all, ha, by rw [hall, heq]⟩

theorem of_skipBlank (h : Spells (skipBlank cs) between k) : Spells cs between k := by
  intro after hk
  rw [← tokens_skipBlank]
  exact h after hk

theorem to_skipBlank (h : Spells cs between k) : Spells cs between (skipBlank k) := by
  intro after hk
  rw [tokens_skipBlank] at hk
  exact h after hk

theorem of_scan (h : scan cs = .ok (token, rest)) (hb : token.isBracket = false) :
    Spells cs [token] rest := by
  intro after hk
  refine ⟨token :: after, ?_, ?_⟩
  · rw [tokens_scan h, hk]
    rfl
  · simp [unbracketed, hb]

theorem of_bracket (h : scan cs = .ok (token, rest)) (hb : token.isBracket = true) :
    Spells cs [] rest := by
  intro after hk
  refine ⟨token :: after, ?_, ?_⟩
  · rw [tokens_scan h, hk]
    rfl
  · simp [unbracketed, hb]

/-- A colon stands alone, also where a sign is written to it. -/
theorem of_colon {tail : List Char}
    (h : tail.takeWhile isOperator ∈ [[], ['-'], ['+'], ['!']]) :
    Spells (':' :: tail) [.operator ":"] tail := by
  rcases scan_colon h with hscan | ⟨sign, after, hsign, -, hcolon, hscan⟩
  · exact of_scan hscan rfl
  · intro others hk
    rw [tokens_scan hscan] at hk
    cases hrest : tokens after with
    | error fault => simp [hrest, Except.map] at hk
    | ok later =>
      simp only [hrest, Except.map, Except.ok.injEq] at hk
      rw [tokens_scan hcolon, hrest, ← hk]
      refine ⟨_, rfl, ?_⟩
      simp only [List.mem_cons, List.not_mem_nil, or_false] at hsign
      rcases hsign with rfl | rfl | rfl <;> simp [unbracketed, isBracket, split]

end Spells
end Formula.Token
