import Formula.Proofs.Tree.Rows

/-! What the text of a tree leaves on the stack. Main statement: it is one item for each chunk of its
row. -/
namespace Formula

namespace Tree

open Item

/-- The role that an operator after an operand has before an infix operator. A word is taken for an
infix operator, unless a comma follows. -/
def between (next op : String) : Role :=
  if next ≠ "," ∧ Token.isName op = true then .infixOp else .postfixOp

/-- The items that reading the text of a tree puts on the stack, from the bottom. Parts in
parentheses are operands already. An operator at the end of the text has the given role. -/
def stacked (last : String → Role) : Tree Float → List Item
  | literal value =>
    match Number.shape value with
    | .finite true .. => [operator .prefixOp "-", operand (literal (-value))]
    | _ => [operand (normalLiteral value)]
  | apply (.infixOp op) [left, right] =>
    (if wrapsLeft op left then [operand left.normal] else stacked (between op) left) ++
      operator .infixOp op ::
        if wrapsRight op right then [operand right.normal] else stacked last right
  | apply (.infixOp _) [condition, yes, no] =>
    (if wrapsLeft "?" condition then [operand condition.normal]
      else stacked (between "?") condition) ++
      branch yes.normal ::
        if wrapsRight "?" no then [operand no.normal] else stacked last no
  | apply (.prefixOp op) [arg] =>
    [operator (if op = "," then .infixOp else .prefixOp) op, operand arg.normal]
  | apply (.postfixOp op) [arg] =>
    (if wrapsPostfixed arg then [operand arg.normal] else stacked (fun _ => .postfixOp) arg) ++
      [operator (last op) op]
  | t => [operand t.normal]

def stackedPart (wrap : Bool) (last : String → Role) (t : Tree Float) : List Item :=
  if wrap then [operand t.normal] else t.stacked last

theorem stacked_ne_nil (last : String → Role) (t : Tree Float) : t.stacked last ≠ [] := by
  unfold stacked
  split
  · split <;> exact List.cons_ne_nil _ _
  · exact List.append_ne_nil_of_right_ne_nil _ (List.cons_ne_nil _ _)
  · exact List.append_ne_nil_of_right_ne_nil _ (List.cons_ne_nil _ _)
  · exact List.cons_ne_nil _ _
  · exact List.append_ne_nil_of_right_ne_nil _ (List.cons_ne_nil _ _)
  · exact List.cons_ne_nil _ _

theorem stackedPart_ne_nil (wrap : Bool) (last : String → Role) (t : Tree Float) :
    t.stackedPart wrap last ≠ [] := by
  unfold stackedPart
  split
  · exact List.cons_ne_nil _ _
  · exact stacked_ne_nil last t

end Tree

namespace Chunk

open Item Formula.Tree

/-- The item that reading a chunk leaves; a postfix operator has the given role. -/
def item (role : String → Role) : Chunk → Item
  | sign op => Item.operator (if op = "," then .infixOp else .prefixOp) op
  | operand tree _ => Item.operand tree.normal
  | suffix op => Item.operator (role op) op
  | joint op => Item.operator .infixOp op
  | branch yes => Item.branch yes.normal

end Chunk

namespace Row

open Chunk Formula.Tree

variable {last : String → Role}

/-- The role of an operator before a row, which is the last one if the row is empty. -/
def before (last : String → Role) : List Chunk → String → Role
  | [] => last
  | joint next :: _ => between next
  | branch _ :: _ => between "?"
  | _ => fun _ => .postfixOp

/-- The items that reading a row leaves, from the bottom. -/
def items (last : String → Role) : List Chunk → List Item
  | [] => []
  | c :: row => c.item (before last row) :: items last row

theorem items_append (row later : List Chunk) :
    items last (row ++ later) = items (before last later) row ++ items last later := by
  induction row with
  | nil => rfl
  | cons c row ih =>
    have hbefore : before last (row ++ later) = before (before last later) row := by
      cases row with
      | nil => rfl
      | cons next row => cases next <;> rfl
    rw [List.cons_append, items, items, ih, hbefore]
    rfl

end Row

namespace Tree

theorem stackedPart_eq (wrap : Bool) {last : String → Role} {t : Tree Float}
    (h : t.stacked last = Row.items last t.chunks) :
    t.stackedPart wrap last = Row.items last (t.part wrap) := by
  cases wrap with
  | false => exact h
  | true => rfl

theorem Readable.stacked_eq {t : Tree Float} (h : Readable t) (last : String → Role) :
    t.stacked last = Row.items last t.chunks := by
  induction h generalizing last with
  | @literal value _ =>
    obtain ⟨mantissa, exponent, hshape, hneg, hchunks⟩ | ⟨hsign, hchunks⟩ := chunks_literal value
    · rw [hchunks, stacked, hshape]
      show _ = [Item.operator .prefixOp "-", Item.operand (Tree.literal (-value)).normal]
      rw [normal_finite hneg]
    · rw [hchunks]
      show _ = [Item.operand (normalLiteral value)]
      cases hshape : Number.shape value with
      | nan => rw [stacked, hshape]
      | infinite negative => rw [stacked, hshape]
      | finite negative mantissa exponent =>
        cases negative with
        | false => rw [stacked, hshape]
        | true => exact (hsign mantissa exponent hshape).elim
  | var _ => rfl
  | function _ _ _ _ => rfl
  | array _ _ _ => rfl
  | prefixOp _ _ _ _ => rfl
  | @postfixOp op arg _ _ _ ih =>
    rw [chunks_postfixOp, Row.items_append, ← stackedPart_eq _ (ih _)]
    rfl
  | @infixOp op left right _ _ _ _ ihl ihr =>
    rw [chunks_infixOp, Row.items_append, Row.items, ← stackedPart_eq _ (ihl _),
      ← stackedPart_eq _ (ihr _)]
    rfl
  | @conditional condition yes no _ _ _ _ ihc _ ihn =>
    rw [chunks_conditional, Row.items_append, Row.items, ← stackedPart_eq _ (ihc _),
      ← stackedPart_eq _ (ihn _)]
    rfl

end Tree
end Formula
