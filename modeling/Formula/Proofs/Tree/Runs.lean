import Formula.Proofs.Tree.Collapse

/-! Runs of operators between two operands. Main statement: of a run of operators that all may be
infix, the first that is known to be infix is, or else the last; those before it are postfix and
those after it prefix. -/
namespace Formula

namespace Tree

/-- Postfix operators, the first of them applied first. -/
def applyPostfixes (x : Tree Float) (ops : List String) : Tree Float :=
  ops.foldl (fun t op => apply (.postfixOp op) [t]) x

/-- Prefix operators, the last of them applied first. -/
def applyPrefixes (ops : List String) (y : Tree Float) : Tree Float :=
  ops.foldr (fun op t => apply (.prefixOp op) [t]) y

/-- The place in a run of its infix operator. -/
def pivot (ops : List String) : Nat := min (ops.findIdx Precedence.isKnownInfix) (ops.length - 1)

/-- What a run of operators makes of the operands on both sides. -/
def ofRun (x : Tree Float) (ops : List String) (y : Tree Float) : Tree Float :=
  apply (.infixOp (ops.getD (pivot ops) ""))
    [applyPostfixes x (ops.take (pivot ops)), applyPrefixes (ops.drop (pivot ops + 1)) y]

variable {op : String} {ops : List String} {x y : Tree Float}

theorem pivot_lt (h : ops ≠ []) : pivot ops < ops.length := by
  have := List.length_pos_iff.2 h
  unfold pivot
  omega

/-- An operator that is known to be infix, or is alone, is the one between the operands. -/
theorem ofRun_known (h : Precedence.isKnownInfix op = true ∨ ops = []) :
    ofRun x (op :: ops) y = apply (.infixOp op) [x, applyPrefixes ops y] := by
  have hpivot : pivot (op :: ops) = 0 := by
    rcases h with h | rfl
    · simp [pivot, List.findIdx_cons, h]
    · simp [pivot]
  rw [ofRun, hpivot]
  rfl

/-- Any other operator goes to the operand on its left. -/
theorem ofRun_unknown (h : Precedence.isKnownInfix op = false) (hne : ops ≠ []) :
    ofRun x (op :: ops) y = ofRun (apply (.postfixOp op) [x]) ops y := by
  have hlength := List.length_pos_iff.2 hne
  have hpivot : pivot (op :: ops) = pivot ops + 1 := by
    simp only [pivot, List.findIdx_cons, h, List.length_cons, cond_false]
    omega
  rw [ofRun, hpivot]
  rfl

end Tree

namespace Stack

open Item Formula.Tree

variable {before after : List Item} {q : Option String} {op : String} {ops : List String}
  {x y : Tree Float}

/-- Operators of any roles, from the bottom. -/
def operators (run : List (Role × String)) : List Item := run.map fun p => operator p.1 p.2

theorem operators_append (run : List (Role × String)) (role : Role) (op : String)
    (rest : List Item) :
    operators (run ++ [(role, op)]) ++ rest = operators run ++ operator role op :: rest := by
  simp [operators]

/-- Collapsing goes past all operators but the last, which is prefix. -/
theorem collapseFrom_operators (run : List (Role × String)) (role : Role) :
    collapseFrom before (operators run ++ operator role op :: operand y :: after) =
      collapseFrom [] (before.reverse ++
        (operators run ++ operand (apply (.prefixOp op) [y]) :: after)) := by
  induction run generalizing before with
  | nil =>
    have hmove : move (operator role op :: operand y :: after) =
        .restart (operand (apply (.prefixOp op) [y]) :: after) := rfl
    exact collapseFrom_restart hmove
  | cons p run ih =>
    obtain ⟨first, name, rest, hrest⟩ : ∃ first name rest,
        operators run ++ operator role op :: operand y :: after = operator first name :: rest := by
      cases run with
      | nil => exact ⟨role, op, _, rfl⟩
      | cons p run => exact ⟨p.1, p.2, _, rfl⟩
    have hmove : move (operator p.1 p.2 :: operator first name :: rest) =
        .advance 1 (operator p.1 p.2 :: operator first name :: rest) := rfl
    have hadvance : collapseFrom before (operators (p :: run) ++
        operator role op :: operand y :: after) =
          collapseFrom (operator p.1 p.2 :: before)
            (operators run ++ operator role op :: operand y :: after) := by
      show collapseFrom before (operator p.1 p.2 :: (operators run ++ _)) = _
      rw [hrest, collapseFrom_advance hmove]
      rfl
    rw [hadvance, ih, List.reverse_cons, List.append_assoc]
    rfl

/-- Operators before an operand are prefix, from the last to the first. -/
theorem collapse_operators {run : List (Role × String)} (hbefore : Waits before q)
    (hfirst : ∀ p ∈ run.head?, p.1 = .prefixOp) :
    collapseFrom [] (before ++ (operators run ++ operand y :: after)) =
      collapseFrom [] (before ++ operand (applyPrefixes (run.map Prod.snd) y) :: after) := by
  induction run using List.reverseRecOn generalizing y with
  | nil => rfl
  | append_singleton run p ih =>
    obtain ⟨role, op⟩ := p
    have hholds : ∀ own ∈ q,
        Holds own (operators run ++ operator role op :: operand y :: after) := by
      intro own _
      cases run with
      | nil =>
        obtain rfl : role = .prefixOp := hfirst _ rfl
        trivial
      | cons p run =>
        obtain ⟨first, name⟩ := p
        obtain rfl : first = .prefixOp := hfirst _ rfl
        trivial
    have hhead : ∀ p ∈ run.head?, p.1 = .prefixOp := by
      intro p hp
      refine hfirst p ?_
      rw [List.head?_append, hp]
      rfl
    have hprefixes : applyPrefixes ((run ++ [(role, op)]).map Prod.snd) y =
        applyPrefixes (run.map Prod.snd) (apply (.prefixOp op) [y]) := by
      simp [applyPrefixes]
    rw [operators_append, hbefore _ hholds, collapseFrom_operators, List.reverse_reverse,
      ih hhead, hprefixes]

/-- What the blanks on both sides make of the operators of a run. -/
def infixes (ops : List String) : List Item := operators (ops.map (Role.infixOp, ·))

/-- After an operator that is known to be infix, all operators are prefix. -/
theorem collapse_known (hcolon : op ≠ ":") (h : Precedence.isKnownInfix op = true ∨ ops = []) :
    collapseFrom [] (operand x :: operator .infixOp op :: (infixes ops ++ [operand y])) =
      collapseFrom [] [operand (apply (.infixOp op) [x, applyPrefixes ops y])] := by
  have hjoins : Joins op (operator .infixOp op) fun left right => apply (.infixOp op) [left, right] :=
    .operator (by decide) (infixNode_eq hcolon)
  have hjoined (y : Tree Float) :
      collapseFrom [] [operand x, operator .infixOp op, operand y] =
        collapseFrom [] [operand (apply (.infixOp op) [x, y])] :=
    hjoins.collapse waits_nil (yields_none op) rfl
  cases ops with
  | nil => exact hjoined y
  | cons next ops =>
    have hknown : Precedence.isKnownInfix op = true := h.resolve_right (List.cons_ne_nil _ _)
    have hmove : move (operand x :: operator .infixOp op ::
        operator .infixOp next :: (infixes ops ++ [operand y])) =
          .advance 2 (operand x :: operator .infixOp op ::
            operator .prefixOp next :: (infixes ops ++ [operand y])) := by
      simp [move, hknown]
    have hwaits : Waits [operand x, operator .infixOp op] (some op) :=
      hjoins.waits waits_nil (yields_none op)
    have hnext : ∀ own ∈ some op,
        Holds own (operator .prefixOp next :: (infixes ops ++ [operand y])) := fun _ _ => trivial
    calc collapseFrom [] (operand x :: operator .infixOp op ::
            (infixes (next :: ops) ++ [operand y]))
        = collapseFrom [operator .infixOp op, operand x]
            (operator .prefixOp next :: (infixes ops ++ [operand y])) := collapseFrom_advance hmove
      _ = collapseFrom [] ([operand x, operator .infixOp op] ++
            (operators ((Role.prefixOp, next) :: ops.map (Role.infixOp, ·)) ++ [operand y])) :=
          (hwaits _ hnext).symm
      _ = collapseFrom [] ([operand x, operator .infixOp op] ++
            [operand (applyPrefixes (next :: ops) y)]) := by
          rw [collapse_operators hwaits (by rintro p ⟨⟩; rfl), List.map_cons, List.map_map]
          simp
      _ = _ := hjoined _

/-- The stack of a run of operators between blanks comes to the tree of the run. -/
theorem collapse_run (hne : ops ≠ []) (hcolon : ":" ∉ ops) :
    collapseFrom [] (operand x :: (infixes ops ++ [operand y])) =
      collapseFrom [] [operand (ofRun x ops y)] := by
  induction ops generalizing x with
  | nil => exact absurd rfl hne
  | cons op ops ih =>
    rw [List.mem_cons, not_or] at hcolon
    by_cases hinfix : Precedence.isKnownInfix op = true ∨ ops = []
    · rw [ofRun_known hinfix]
      exact collapse_known (Ne.symm hcolon.1) hinfix
    · rw [not_or, Bool.not_eq_true] at hinfix
      obtain ⟨hunknown, hmore⟩ := hinfix
      obtain ⟨next, rest, rfl⟩ := List.exists_cons_of_ne_nil hmore
      -- the operator is marked postfix, and applied when the same place is looked at again
      have hmark : move (operand x :: operator .infixOp op :: (infixes (next :: rest) ++ [operand y])) =
          .advance 0 (operand x :: operator .postfixOp op ::
            (infixes (next :: rest) ++ [operand y])) := by
        simp [infixes, operators, move, hunknown]
      calc collapseFrom [] (operand x :: operator .infixOp op ::
              (infixes (next :: rest) ++ [operand y]))
          = collapseFrom [] ([] ++ operand x :: operator .postfixOp op ::
              (infixes (next :: rest) ++ [operand y])) := collapseFrom_advance hmark
        _ = collapseFrom [] (operand (apply (.postfixOp op) [x]) ::
              (infixes (next :: rest) ++ [operand y])) :=
            collapse_postfixOp op x waits_nil (.inl rfl)
        _ = collapseFrom [] [operand (ofRun (apply (.postfixOp op) [x]) (next :: rest) y)] :=
            ih hmore hcolon.2
        _ = collapseFrom [] [operand (ofRun x (op :: next :: rest) y)] := by
            rw [ofRun_unknown hunknown hmore]

end Stack
end Formula
