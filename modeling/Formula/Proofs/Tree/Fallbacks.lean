import Formula.Proofs.Tree.Start
import Formula.Proofs.Tree.WellFormed

/-! What a stack that does not collapse is reported by. Main statements: an owner of the stack who
looks again at what is taken off it never finds anything else than before; and if every item has a
text, only an empty stack is reported by none. -/
namespace Formula

open Item

namespace Stack

open Formula.Tree

variable {items rest after : List Item}

/-! ### Taking items off -/

/-- The left operand is taken out of a postfix operator; nothing if there is no such operator. -/
def takePivot? : List Item → Option Move
  | operand (apply (.postfixOp op) [left]) :: rest =>
    some (.restart (operand left :: operator .infixOp op :: rest))
  | _ => none

/-- An operand and the postfix operator after it are taken off. -/
def takePostfix? : List Item → Option Move
  | operand x :: operator _ op :: rest =>
    some (.restart (operand (apply (.postfixOp op) [x]) :: rest))
  | _ :: item :: _ => some (.fail item.unexpected)
  | _ => none

/-- A prefix operator and its operand are taken off. -/
def takePrefix? : List Item → Option Move
  | operator _ op :: operand y :: rest =>
    some (.restart (operand (apply (.prefixOp op) [y]) :: rest))
  | _ => none

/-- Two operands and what joins them are taken off. -/
def takeInfix? : List Item → Option Move
  | operand x :: branch yes :: operand no :: rest =>
    some (.restart (operand (apply (.infixOp "?:") [x, yes, no]) :: rest))
  | operand x :: operator _ op :: operand y :: rest =>
    some (.restart (operand (infixNode op x y) :: rest))
  | _ :: item :: _ => some (.fail item.unexpected)
  | _ => none

def reduceInfix? (items : List Item) : Option Move :=
  let op := match items[1]? with
    | some (operator _ op) => op
    | _ => "?"
  if isHeldBack op (items.drop 3) then some (.advance 2 items) else takeInfix? items

/-- The move at the start of the given items, whose kinds are looked at before they are taken off
and again after; nothing where the second look does not find what the first one found. -/
def move? : List Item → Option Move
  | items@(operand (apply (.postfixOp _) [_]) :: operand _ :: _) => takePivot? items
  | operand _ :: operand y :: _ => some (.fail (operand y).unexpected)
  | items@(operand _ :: [operator _ _]) => takePostfix? items
  | items@(operand _ :: operator .postfixOp _ :: _) => takePostfix? items
  | items@(operand _ :: operator _ _ :: operand _ :: _) => reduceInfix? items
  | items@(operand _ :: operator _ _ :: operator .prefixOp _ :: _) => some (.advance 2 items)
  | operand x :: operator role op :: operator next name :: rest =>
    if Precedence.isKnownInfix op then
      some (.advance 2 (operand x :: operator role op :: operator .prefixOp name :: rest))
    else some (.advance 0 (operand x :: operator .postfixOp op :: operator next name :: rest))
  | operand _ :: operator _ _ :: item@(branch _) :: _ => some (.fail item.unexpected)
  | operand _ :: [item@(branch _)] => some (.fail item.unexpected)
  | items@(operand _ :: branch _ :: operand _ :: _) => reduceInfix? items
  | items@(operand _ :: branch _ :: operator .prefixOp _ :: _) => some (.advance 2 items)
  | operand x :: branch yes :: operator _ name :: rest =>
    some (.advance 2 (operand x :: branch yes :: operator .prefixOp name :: rest))
  | operand _ :: branch _ :: item@(branch _) :: _ => some (.fail item.unexpected)
  | items@(operator _ _ :: operand _ :: _) => takePrefix? items
  | items@(operator _ _ :: operator _ _ :: _) => some (.advance 1 items)
  | operator _ _ :: item@(branch _) :: _ => some (.fail item.unexpected)
  | item@(branch _) :: _ :: _ => some (.fail item.unexpected)
  | _ => some .stop

theorem reduceInfix?_operator (role : Role) (op : String) (x y : Tree Float) (rest : List Item) :
    reduceInfix? (operand x :: operator role op :: operand y :: rest) =
      some (join op (infixNode op x y) (operand x) (operator role op) (operand y) rest) := by
  cases h : isHeldBack op rest <;> simp [reduceInfix?, join, takeInfix?, h]

theorem reduceInfix?_branch (x yes no : Tree Float) (rest : List Item) :
    reduceInfix? (operand x :: branch yes :: operand no :: rest) =
      some (join "?" (apply (.infixOp "?:") [x, yes, no]) (operand x) (branch yes) (operand no)
        rest) := by
  cases h : isHeldBack "?" rest <;> simp [reduceInfix?, join, takeInfix?, h]

theorem move?_operands (x y : Tree Float) (rest : List Item) :
    move? (operand x :: operand y :: rest) = some (move (operand x :: operand y :: rest)) := by
  cases x with
  | literal value => rfl
  | malformed error source => rfl
  | apply symbol args =>
    cases symbol with
    | postfixOp op =>
      match args with
      | [left] => rfl
      | [] => rfl
      | _ :: _ :: _ => rfl
    | _ => rfl

theorem move?_operator (x : Tree Float) (role : Role) (op : String) (rest : List Item) :
    move? (operand x :: operator role op :: rest) =
      some (move (operand x :: operator role op :: rest)) := by
  match rest with
  | [] => cases role <;> simp [move?, move, takePostfix?]
  | operand y :: rest =>
    have hreduce (role : Role) := reduceInfix?_operator role op x y rest
    cases role <;> simp [move?, move, takePostfix?, hreduce]
  | operator next name :: rest =>
    cases h : Precedence.isKnownInfix op <;> cases role <;> cases next <;>
      simp [move?, move, takePostfix?, h]
  | branch yes :: rest => cases role <;> simp [move?, move, takePostfix?]

theorem move?_branch (x yes : Tree Float) (rest : List Item) :
    move? (operand x :: branch yes :: rest) = some (move (operand x :: branch yes :: rest)) := by
  match rest with
  | [] => simp [move?, move]
  | operand no :: rest =>
    have hreduce := reduceInfix?_branch x yes no rest
    simp [move?, move, hreduce]
  | operator next name :: rest => cases next <;> simp [move?, move]
  | branch other :: rest =>
    have htoken : (branch other).unexpected = (branch yes).unexpected := rfl
    simp [move?, move, htoken]

/-- What is taken off the stack is what was seen on it. -/
theorem move?_eq (items : List Item) : move? items = some (move items) := by
  match items with
  | [] => rfl
  | [item] => cases item <;> simp [move?, move]
  | operand x :: operand y :: rest => exact move?_operands x y rest
  | operand x :: operator role op :: rest => exact move?_operator x role op rest
  | operand x :: branch yes :: rest => exact move?_branch x yes rest
  | operator _ _ :: operand _ :: rest => rfl
  | operator _ _ :: operator _ _ :: rest => rfl
  | operator _ _ :: branch _ :: rest => rfl
  | branch _ :: item :: rest => rfl

/-- The tree of a stack whose last item is taken off when it is the only one, and looked for among
those that are left otherwise; nothing where there is none. -/
def finish? (items : List Item) : Option (Except Error (Tree Float)) :=
  match collapseFrom [] items with
  | .error error => some (.error error)
  | .ok items =>
    match items.length with
    | 0 => some (.error (.unexpectedToken ""))
    | 1 => items.getLast?.map fun
      | operand tree => .ok tree
      | item => .error item.unexpected
    | _ => ((items.find? fun item => !item.isOperand).or items.getLast?).map fun item =>
      .error item.unexpected

theorem finish?_eq (items : List Item) : finish? items = some (finish items) := by
  unfold finish? finish
  cases collapseFrom [] items with
  | error error => rfl
  | ok items =>
    match items with
    | [] => rfl
    | [operand tree] => rfl
    | [operator role op] => rfl
    | [branch yes] => rfl
    | first :: second :: rest =>
      have hlast := List.getLast?_eq_some_getLast (List.cons_ne_nil first (second :: rest))
      have hfound (found : Option Item) (last : Item) :
          (found.or (some last)).map (fun item => Except.error item.unexpected) =
            some (.error (found.getD last).unexpected : Except Error (Tree Float)) := by
        cases found <;> rfl
      dsimp only [List.length_cons]
      rw [hlast]
      cases first <;> exact hfound _ _

end Stack

/-! ### Items with a text -/

theorem Quoted.encode_ne_empty (quote : Char) (text : String) : encode quote text ≠ "" := by
  simp [encode, ← String.toList_eq_nil_iff]

namespace Tree

theorem infixText_ne_empty (op : String) (left right : Piece) : infixText op left right ≠ "" := by
  unfold infixText
  dsimp only
  split <;> simp

/-- A tree that was read has a text. -/
theorem text_ne_empty {t : Tree Float} (h : t.WellFormed) (hnamed : Token.operator "" ∉ t.yield) :
    t.text ≠ "" := by
  have hempty : Token.ofOperator "" = .operator "" := rfl
  cases h with
  | literal magnitude =>
    obtain ⟨mantissa, exponent, hshape⟩ := magnitude.exists_shape
    obtain ⟨c, tail, htext, -⟩ := denotes_starts (denotes_literal hshape)
    rw [ne_eq, ← String.toList_eq_nil_iff, htext]
    exact List.cons_ne_nil c tail
  | apply takes hsymbol all =>
    rename_i symbol args
    rw [text]
    cases symbol with
    | var name =>
      obtain rfl := List.length_eq_zero_iff.1 takes
      change (Symbol.var name).written ≠ ""
      unfold Symbol.written
      split
      · rintro rfl
        rcases hsymbol with h | h <;> exact absurd h (by decide)
      · exact Quoted.encode_ne_empty _ _
    | infixOp op =>
      rcases takes with htwo | ⟨hthree, rfl⟩
      · obtain ⟨left, right, rfl⟩ := List.length_eq_two.1 htwo
        exact infixText_ne_empty op _ _
      · obtain ⟨condition, yes, no, rfl⟩ := List.length_eq_three.1 hthree
        simp [pieces, layout, ternaryText]
    | prefixOp op =>
      obtain ⟨arg, rfl⟩ := List.length_eq_one_iff.1 takes
      have hop : op ≠ "" := by
        rintro rfl
        exact hnamed (by simp [hempty, yield_prefix])
      simp [pieces, layout, hop]
    | postfixOp op =>
      obtain ⟨arg, rfl⟩ := List.length_eq_one_iff.1 takes
      have hop : op ≠ "" := by
        rintro rfl
        exact hnamed (by simp [hempty, yield_postfix])
      simp [pieces, layout, hop]
    | function name arity => simp [layout]
    | array name => simp [layout]

theorem yield_ne_nil {t : Tree Float} (h : t.WellFormed) : t.yield ≠ [] := by
  cases h with
  | literal magnitude => exact List.cons_ne_nil _ _
  | apply takes named all =>
    rw [yield]
    unfold arrange
    dsimp only
    split
    · simp
    · split <;> simp
    all_goals simp

end Tree

namespace Item

/-- No tree of the item is malformed, and no operator is without a name. -/
structure Shown (item : Item) : Prop where
  wellFormed : item.WellFormed
  named : Token.operator "" ∉ item.yield

theorem Shown.token_ne_empty {item : Item} (h : item.Shown) : item.token ≠ "" := by
  cases item with
  | operand tree => exact Tree.text_ne_empty h.wellFormed h.named
  | operator role name =>
    rintro rfl
    have hoperator : Token.ofOperator "" = .operator "" := rfl
    exact h.named (by simp [hoperator])
  | branch yes =>
    have hcolon : (":" : String) ≠ "" := by decide
    exact hcolon

theorem Shown.yield_ne_nil {item : Item} (h : item.Shown) : item.yield ≠ [] := by
  cases item with
  | operand tree => exact Tree.yield_ne_nil h.wellFormed
  | operator role name => simp
  | branch yes => simp

/-- Showing is a matter of all trees and of all tokens. -/
theorem shown_iff {items : List Item} : (∀ item ∈ items, item.Shown) ↔
    (∀ item ∈ items, item.WellFormed) ∧ Token.operator "" ∉ yields items := by
  constructor
  · intro h
    refine ⟨fun item hitem => (h item hitem).wellFormed, fun htoken => ?_⟩
    obtain ⟨item, hitem, htoken⟩ := List.mem_flatMap.1 htoken
    exact (h item hitem).named htoken
  · rintro ⟨hformed, hnamed⟩ item hitem
    exact ⟨hformed item hitem, fun htoken => hnamed (List.mem_flatMap.2 ⟨item, hitem, htoken⟩)⟩

end Item

namespace Stack

open Formula.Tree

variable {items after before : List Item} {error : Error}

theorem move_shown (h : (move items).after? = some after) (hitems : ∀ item ∈ items, item.Shown) :
    ∀ item ∈ after, item.Shown := by
  rw [shown_iff] at hitems ⊢
  exact ⟨move_wellFormed h hitems.1, (move_yields h).symm ▸ hitems.2⟩

/-- A move fails at one of the items. -/
theorem mem_of_move_fail (h : move items = .fail error) :
    ∃ item ∈ items, error = item.unexpected := by
  unfold move at h
  split at h
  · split at h
    · cases h
    · exact ⟨_, by simp, (Move.fail.inj h).symm⟩
  · split at h
    · cases h
    · split at h
      · unfold join at h
        split at h <;> cases h
      · split at h <;> cases h
      · exact ⟨_, by simp, (Move.fail.inj h).symm⟩
      · cases h
  · split at h
    · unfold join at h
      split at h <;> cases h
    · cases h
    · exact ⟨_, by simp, (Move.fail.inj h).symm⟩
  · cases h
  · cases h
  · exact ⟨_, by simp, (Move.fail.inj h).symm⟩
  · exact ⟨_, by simp, (Move.fail.inj h).symm⟩
  · cases h

theorem unexpected_ne {item : Item} (h : item.Shown) : item.unexpected ≠ .unexpectedToken "" :=
  fun heq => h.token_ne_empty (Error.unexpectedToken.inj heq)

/-- Among items with a text only an empty stack is reported by none. -/
theorem eq_nil_of_finish (hitems : ∀ item ∈ items, item.Shown)
    (h : finish items = .error (.unexpectedToken "")) : items = [] := by
  have hstart : ∀ item ∈ [].reverse ++ items, item.Shown := hitems
  obtain ⟨hcollapsed, hfailed⟩ := collapseFrom_forall (fun _ _ => move_shown) hstart
  unfold finish at h
  split at h
  · rename_i error hcollapse
    obtain ⟨failing, hshown, hmove⟩ := hfailed error hcollapse
    obtain ⟨item, hitem, rfl⟩ := mem_of_move_fail hmove
    exact absurd (Except.error.inj h) (unexpected_ne (hshown item hitem))
  · rename_i hcollapse
    have hyields : [] = yields items := collapseFrom_yields hcollapse
    cases items with
    | nil => rfl
    | cons item items =>
      have hitem := (hitems item List.mem_cons_self).yield_ne_nil
      exact absurd (List.append_eq_nil_iff.1 hyields.symm).1 hitem
  · cases h
  · rename_i item left _ hcollapse
    have hshown := hcollapsed _ hcollapse
    refine absurd (Except.error.inj h) (unexpected_ne (hshown _ ?_))
    cases hfind : (item :: left).find? fun item => !item.isOperand with
    | none => exact List.getLast_mem _
    | some found => exact List.mem_of_find?_eq_some hfind

end Stack
end Formula
