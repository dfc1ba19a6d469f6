import Formula.Proofs.Parser.Enclosed
import Formula.Proofs.Tree.Runs

/-! Reading runs of operators between blanks. Main statement: the roles of the operators of a run
are told by which of them are known to be infix, and by nothing else. -/
namespace Formula.Tree

open Item Token Formula.Parser

/-- Two operands with a run of operators between them, all with one blank in between. -/
def runText (left : String) (ops : List String) (right : String) : String :=
  " ".intercalate (left :: (ops ++ [right]))

variable {left right : String} {ops : List String}

/-- What stands after the left operand and its blank. -/
def runRest (ops : List String) (right : String) : List Char :=
  ops.foldr (fun op rest => op.toList ++ ' ' :: rest) right.toList

theorem toList_runText (left : String) (ops : List String) (right : String) :
    (runText left ops right).toList = left.toList ++ ' ' :: runRest ops right := by
  have hblank : " ".toList = [' '] := rfl
  induction ops generalizing left with
  | nil => simp [runText, runRest, hblank]
  | cons op ops ih =>
    have hrest := ih op
    rw [runText, String.toList_intercalate, List.map_cons] at hrest
    rw [runText, String.toList_intercalate, List.map_cons, List.cons_append, List.map_cons,
      List.intercalate_cons_cons, hrest]
    simp [runRest, hblank]

/-- An operator between blanks goes on the stack as an infix one. -/
theorem shift_run {items : List Item} {t : Tree Float} (hright : IsIdentifier right)
    (hops : ∀ op ∈ ops, IsAsciiOperator op ∧ op ≠ "?")
    (hfinish : Stack.finish (items.reverse ++ (Stack.infixes ops ++ [operand (named right)])) =
      .ok t) (hoperand : ops = [] → (State.mk items true).afterOperand = false) :
    (shift [] ⟨items, true⟩ (skipBlank (runRest ops right)) ()).Ends t [] := by
  induction ops generalizing items with
  | nil =>
    obtain ⟨c, tail, hname, hc⟩ := word_starts hright.isWord
    have hskip : skipBlank right.toList = right.toList ++ [] := by
      rw [hname, List.append_nil, skipBlank_cons hc.isBlank]
    show (shift [] ⟨items, true⟩ (skipBlank right.toList) ()).Ends t []
    rw [hskip]
    refine .of_same (shift_name hright.1 (List.nil_subset _) (hoperand rfl) rfl) ?_
    refine shift_end ?_
    rw [List.reverse_cons]
    exact hfinish
  | cons op ops ih =>
    obtain ⟨hop, hmark⟩ := hops op List.mem_cons_self
    have hblank : ∀ d ∈ (' ' :: runRest ops right).head?,
        d ≠ '.' ∧ Charset.isOperator d = false := by
      rintro d ⟨⟩
      decide
    have hscan := hop.scan hblank fun _ => rfl
    have hskip : skipBlank (runRest (op :: ops) right) = op.toList ++ ' ' :: runRest ops right :=
      skipBlank_of_scan hscan
    rw [hskip]
    refine .of_same (shift_push (continues_whole hscan) hscan (action_operator hmark)) ?_
    refine ih (fun other hmem => hops other (List.mem_cons_of_mem op hmem)) ?_ fun _ => rfl
    rw [List.reverse_cons, List.append_assoc]
    exact hfinish

/-- A run of operators between two operands, with blanks between all of them, reads as the first
of the operators that is known to be infix, or else the last, with the operators before it as
postfix ones on the left operand and those after it as prefix ones on the right operand. -/
theorem ofSource_run (hleft : IsIdentifier left) (hright : IsIdentifier right) (hne : ops ≠ [])
    (hops : ∀ op ∈ ops, IsAsciiOperator op ∧ op ∉ ["?", ":"]) :
    ∃ op, ops[pivot ops]? = some op ∧
      ofSource (runText left ops right) = apply (.infixOp op)
        [applyPostfixes (named left) (ops.take (pivot ops)),
          applyPrefixes (ops.drop (pivot ops + 1)) (named right)] := by
  have hcolon : ":" ∉ ops := fun hmem => (hops ":" hmem).2 (by simp)
  have hfinish : Stack.finish (operand (named left) ::
      (Stack.infixes ops ++ [operand (named right)])) = .ok (ofRun (named left) ops (named right)) :=
    Stack.finish_of_collapse (Stack.collapse_run hne hcolon)
  have hread : ofSource (runText left ops right) = ofRun (named left) ops (named right) := by
    obtain ⟨c, tail, hname, hc⟩ := word_starts hleft.isWord
    have hskip : skipBlank (runText left ops right).toList =
        left.toList ++ ' ' :: runRest ops right := by
      rw [toList_runText, hname]
      exact skipBlank_cons hc.isBlank
    apply ofSource_of_shift
    rw [hskip]
    refine .of_same (shift_name hleft.1 (List.nil_subset _) rfl rfl) ?_
    refine shift_run hright (fun op hmem => ?_) hfinish fun hnil => absurd hnil hne
    obtain ⟨hop, hapart⟩ := hops op hmem
    exact ⟨hop, fun heq => hapart (by simp [heq])⟩
  have hget : ops[pivot ops]? = some (ops.getD (pivot ops) "") := by
    rw [List.getD_eq_getElem?_getD, List.getElem?_eq_getElem (pivot_lt hne)]
    rfl
  exact ⟨_, hget, hread⟩

theorem ofSource_run_product :
    let ops := ["!", "^", "*", "-", "~"]
    IsIdentifier "a" ∧ IsIdentifier "b" ∧ ops ≠ [] ∧
      (∀ op ∈ ops, IsAsciiOperator op ∧ op ∉ ["?", ":"]) ∧
      ofSource "a ! ^ * - ~ b" = apply (.infixOp "*")
        [apply (.postfixOp "^") [apply (.postfixOp "!") [named "a"]],
          apply (.prefixOp "-") [apply (.prefixOp "~") [named "b"]]] := by
  intro ops
  have hops : ∀ op ∈ ops, IsAsciiOperator op ∧ op ∉ ["?", ":"] := by
    intro op hmem
    simp only [ops, List.mem_cons, List.not_mem_nil, or_false] at hmem
    rcases hmem with rfl | rfl | rfl | rfl | rfl <;> decide
  have hleft : IsIdentifier "a" := by decide
  have hright : IsIdentifier "b" := by decide
  obtain ⟨op, hop, hread⟩ := ofSource_run hleft hright (List.cons_ne_nil _ _) hops
  obtain rfl : "*" = op := Option.some.inj hop
  exact ⟨hleft, hright, List.cons_ne_nil _ _, hops, hread⟩

end Formula.Tree
